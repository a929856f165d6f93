import TreeAlign.Alignment

/-!
# Parts of a text between byte positions

A cursor moves by bytes, and what it reads are whole characters. The
relation `Text.Between` ties the two together: it names the characters
between two positions, and both positions are character boundaries. A
cursor is sound when such characters exist between its position and its
end, and they are then what is left to read.

## Implementation notes

A position determines the characters in front of it, since every character
takes at least one byte. This is what lets two neighbouring parts be joined.
-/

namespace TreeAlign

namespace Text

/-- Two ways to cut a text agree when their first parts have the same number of bytes. -/
theorem append_inj_of_byteLength {s t s' t' : List Char} (h : s ++ t = s' ++ t')
    (hl : byteLength s = byteLength s') : s = s' ∧ t = t' := by
  induction s generalizing s' with
  | nil =>
      cases s' with
      | nil => exact ⟨rfl, h⟩
      | cons c rest =>
          have := c.utf8Size_pos
          simp only [byteLength_nil, byteLength_cons] at hl
          omega
  | cons c rest ih =>
      cases s' with
      | nil =>
          have := c.utf8Size_pos
          simp only [byteLength_nil, byteLength_cons] at hl
          omega
      | cons c' rest' =>
          simp only [List.cons_append, List.cons.injEq] at h
          obtain ⟨rfl, h⟩ := h
          have hr : byteLength rest = byteLength rest' := by
            simpa only [byteLength_cons, Nat.add_left_cancel_iff] using hl
          obtain ⟨rfl, rfl⟩ := ih h hr
          exact ⟨rfl, rfl⟩

/-- Of two ways to cut a text, the first part with fewer bytes is a leading part of the other. -/
theorem prefix_of_byteLength_le {s t s' t' : List Char} (h : s ++ t = s' ++ t')
    (hl : byteLength s ≤ byteLength s') : s <+: s' := by
  rcases List.prefix_or_prefix_of_prefix ⟨t, h⟩ ⟨t', rfl⟩ with hs | ⟨more, rfl⟩
  · exact hs
  · have hlen : byteLength (s' ++ more) = byteLength s' := by
      rw [byteLength_append] at hl ⊢
      omega
    have hsame : s' ++ more = s' := (append_inj_of_byteLength h hlen).1
    exact ⟨[], by rw [List.append_nil, hsame]⟩

/-- Taking as many bytes as a leading part has gives that part. -/
theorem takeBytes_byteLength (s t : List Char) : takeBytes (byteLength s) (s ++ t) = s := by
  induction s with
  | nil =>
      cases t with
      | nil => rfl
      | cons c rest =>
          have := c.utf8Size_pos
          simp only [byteLength_nil, List.nil_append, takeBytes]
          rw [if_neg (by omega)]
  | cons c rest ih => simp [takeBytes, ih]

/-- Dropping as many bytes as a leading part has leaves the rest. -/
theorem dropBytes_byteLength (s t : List Char) : dropBytes (byteLength s) (s ++ t) = t := by
  have h := takeBytes_append_dropBytes (byteLength s) (s ++ t)
  rw [takeBytes_byteLength] at h
  exact List.append_cancel_left h

/-- What fits into fewer bytes is a leading part of what fits into more. -/
theorem takeBytes_prefix (s : List Char) {m n : Nat} (h : m ≤ n) :
    takeBytes m s <+: takeBytes n s := by
  induction s generalizing m n with
  | nil => exact List.prefix_rfl
  | cons c rest ih =>
      by_cases hm : c.utf8Size ≤ m
      · have hn : c.utf8Size ≤ n := by omega
        simp only [takeBytes, if_pos hm, if_pos hn]
        exact List.prefix_cons_inj c |>.mpr (ih (by omega))
      · simp only [takeBytes, if_neg hm]
        exact List.nil_prefix

theorem byteLength_takeBytes_le (n : Nat) (s : List Char) : byteLength (takeBytes n s) ≤ n := by
  induction s generalizing n with
  | nil => simp [takeBytes]
  | cons c rest ih =>
      by_cases h : c.utf8Size ≤ n
      · have := ih (n - c.utf8Size)
        simp only [takeBytes, if_pos h, byteLength_cons]
        omega
      · simp [takeBytes, h]

theorem floor_le (s : List Char) (n : Nat) : floor s n ≤ n :=
  byteLength_takeBytes_le n s

/-- The given characters stand between two byte positions of the text. -/
def Between (text : List Char) (start stop : Nat) (part : List Char) : Prop :=
  ∃ before after, text = before ++ part ++ after ∧ byteLength before = start ∧
    start + byteLength part = stop

namespace Between

variable {text part left right : List Char} {start middle stop : Nat}

/-- The characters between two positions are what a slice gives. -/
theorem slice_eq (h : Between text start stop part) : slice text start stop = part := by
  obtain ⟨before, after, rfl, rfl, rfl⟩ := h
  rw [slice, List.append_assoc, dropBytes_byteLength, Nat.add_sub_cancel_left,
    takeBytes_byteLength]

theorem start_le (h : Between text start stop part) : start ≤ stop := by
  obtain ⟨_, _, _, _, rfl⟩ := h
  omega

theorem stop_eq (h : Between text start stop part) : stop = start + byteLength part := by
  obtain ⟨_, _, _, _, rfl⟩ := h
  rfl

theorem stop_le (h : Between text start stop part) : stop ≤ byteLength text := by
  obtain ⟨before, after, rfl, rfl, rfl⟩ := h
  rw [byteLength_append, byteLength_append]
  omega

/-- Nothing stands between a boundary and itself. -/
theorem nil (h : Between text start stop part) : Between text start start [] := by
  obtain ⟨before, after, rfl, hb, _⟩ := h
  exact ⟨before, part ++ after, by simp, hb, by simp⟩

theorem nil_stop (h : Between text start stop part) : Between text stop stop [] := by
  obtain ⟨before, after, rfl, hb, hs⟩ := h
  refine ⟨before ++ part, after, by simp, ?_, by simp⟩
  rw [byteLength_append, hb, hs]

/-- Neighbouring parts make one part. -/
theorem append (hl : Between text start middle left) (hr : Between text middle stop right) :
    Between text start stop (left ++ right) := by
  obtain ⟨before, after, htext, hb, rfl⟩ := hl
  obtain ⟨before', after', htext', hb', rfl⟩ := hr
  have hcut : (before ++ left) ++ after = before' ++ (right ++ after') := by
    rw [← htext, htext', List.append_assoc]
  have hlen : byteLength (before ++ left) = byteLength before' := by
    rw [byteLength_append, hb, hb']
  obtain ⟨rfl, rfl⟩ := append_inj_of_byteLength hcut hlen
  exact ⟨before, after', by simp [htext], hb, by simp [Nat.add_assoc]⟩

/-- A part that is put together from two splits where they meet. -/
theorem split (h : Between text start stop (left ++ right)) :
    Between text start (start + byteLength left) left ∧
      Between text (start + byteLength left) stop right := by
  obtain ⟨before, after, rfl, hb, rfl⟩ := h
  refine ⟨⟨before, right ++ after, by simp, hb, rfl⟩, ⟨before ++ left, after, by simp, ?_, ?_⟩⟩
  · rw [byteLength_append, hb]
  · rw [byteLength_append, Nat.add_assoc]

/-- What stands between positions inside a part is a piece of the part. -/
theorem piece {whole : List Char} {first last : Nat} (h : Between text start stop whole)
    (inner : Between text first last part) (hf : start ≤ first) (hl : last ≤ stop) :
    ∃ left right, whole = left ++ part ++ right ∧ Between text start first left ∧
      Between text last stop right := by
  obtain ⟨before, after, htext, rfl, rfl⟩ := h
  obtain ⟨before', after', htext', rfl, rfl⟩ := inner
  have hcut : before ++ (whole ++ after) = before' ++ (part ++ after') := by
    rw [← List.append_assoc, ← List.append_assoc, ← htext, htext']
  obtain ⟨left, rfl⟩ := prefix_of_byteLength_le hcut hf
  have hcut' : (before ++ left ++ part) ++ after' = (before ++ whole) ++ after := by
    rw [← htext, htext']
  have hlen : byteLength (before ++ left ++ part) ≤ byteLength (before ++ whole) := by
    rw [byteLength_append, byteLength_append before whole]
    exact hl
  obtain ⟨right, hright⟩ := prefix_of_byteLength_le hcut' hlen
  have hwhole : whole = left ++ part ++ right := by
    have : before ++ whole = before ++ (left ++ part ++ right) := by
      rw [← hright]
      simp only [List.append_assoc]
    exact List.append_cancel_left this
  subst hwhole
  have hbetween : Between text (byteLength before) _ (left ++ (part ++ right)) :=
    ⟨before, after, by simp only [htext, List.append_assoc], rfl, rfl⟩
  have hright := hbetween.split.2.split.2
  rw [← byteLength_append] at hright
  refine ⟨left, right, rfl, ?_, ?_⟩
  · rw [byteLength_append]
    exact hbetween.split.1
  · simpa only [List.append_assoc] using hright

end Between

/-- A string takes as many bytes as its characters. -/
theorem byteLength_toList (s : String) : byteLength s.toList = s.utf8ByteSize := by
  have h (cs : List Char) : byteLength cs = (String.ofList cs).utf8ByteSize := by
    induction cs with
    | nil => simp
    | cons c rest ih =>
        rw [← List.singleton_append, String.ofList_append, String.utf8ByteSize_append]
        simp [ih]
  rw [h, String.ofList_toList]

end Text

namespace Token

/-- The characters of the tokens, one after the other. -/
def charsOf (tokens : List Token) : List Char :=
  tokens.flatMap fun token => token.value.toList

@[simp] theorem charsOf_nil : charsOf [] = [] := rfl

@[simp] theorem charsOf_cons (token : Token) (rest : List Token) :
    charsOf (token :: rest) = token.value.toList ++ charsOf rest := rfl

@[simp] theorem charsOf_append (left right : List Token) :
    charsOf (left ++ right) = charsOf left ++ charsOf right := by
  simp [charsOf]

@[simp] theorem toList_textOf (tokens : List Token) :
    (textOf tokens).toList = charsOf tokens := by
  rw [textOf, String.toList_join, List.flatMap_map]
  rfl

end Token

namespace TextCursor

/-- Whole characters stand between the position of the cursor and its end. -/
def Sound (cursor : TextCursor) : Prop :=
  ∃ rest, Text.Between cursor.text cursor.position cursor.stop rest

theorem sound_whole (text : List Char) : (whole text).Sound :=
  ⟨text, [], [], by simp [whole], by simp [whole], by simp [whole]⟩

theorem sound_within (text : List Char) (span : Span) : (within text span).Sound := by
  have hbound : min span.start (Text.floor text span.stop) ≤ span.stop :=
    Nat.le_trans (Nat.min_le_right _ _) (Text.floor_le text span.stop)
  obtain ⟨rest, hrest⟩ := Text.takeBytes_prefix text hbound
  refine ⟨rest, _, Text.dropBytes span.stop text, ?_, rfl, ?_⟩
  · rw [hrest]
    exact (Text.takeBytes_append_dropBytes span.stop text).symm
  · change Text.byteLength _ + Text.byteLength rest = Text.byteLength _
    rw [← Text.byteLength_append, hrest]

/-- What is left to read of a sound cursor. -/
theorem between_remaining {cursor : TextCursor} (h : cursor.Sound) :
    Text.Between cursor.text cursor.position cursor.stop cursor.remaining := by
  obtain ⟨rest, h⟩ := h
  rw [remaining, h.slice_eq]
  exact h

/-- A cursor that is moved inside what is left to read stays sound, and reads on behind it. -/
theorem remaining_move {cursor : TextCursor} {read rest : List Char} (h : cursor.Sound)
    (hr : cursor.remaining = read ++ rest) :
    ({ cursor with position := cursor.position + Text.byteLength read } : TextCursor).Sound ∧
      ({ cursor with position := cursor.position + Text.byteLength read } : TextCursor).remaining
        = rest := by
  have hb := between_remaining h
  rw [hr] at hb
  exact ⟨⟨rest, hb.split.2⟩, hb.split.2.slice_eq⟩

/-- Tokens that stand in front of the cursor move it behind their last character. -/
theorem advance_of_remaining {cursor : TextCursor} {tokens : List Token} {rest : List Char}
    (subtrees : Subtrees) (h : cursor.Sound)
    (hplain : ∀ token ∈ tokens, token.isReference = false)
    (hr : cursor.remaining = Token.charsOf tokens ++ rest) :
    cursor.advance tokens subtrees =
      { cursor with position := cursor.position + Text.byteLength (Token.charsOf tokens) } := by
  induction tokens generalizing cursor with
  | nil => simp [advance]
  | cons token tokens ih =>
      rw [Token.charsOf_cons, List.append_assoc] at hr
      have hnext := remaining_move h hr
      have hstop := (between_remaining h).stop_eq
      rw [hr, Text.byteLength_append] at hstop
      have hstep : min (after subtrees cursor.position token) cursor.stop =
          cursor.position + Text.byteLength token.value.toList := by
        rw [after, hplain token (by simp), Text.byteLength_toList] at *
        simp only [Bool.false_eq_true, if_false]
        omega
      have htail := ih hnext.1 (fun t ht => hplain t (by simp [ht])) hnext.2
      simp only [advance] at htail ⊢
      rw [List.foldl_cons, hstep, htail, Token.charsOf_cons, Text.byteLength_append,
        Nat.add_assoc]

end TextCursor

/-- A cursor at the beginning of a text, or of a part of it. -/
inductive TextCursor.Opens (text : List Char) : TextCursor → Prop where
  | whole : Opens text (.whole text)
  | within (span : Span) : Opens text (.within text span)

namespace TextCursor.Opens

variable {text : List Char} {place : TextCursor}

theorem text_eq (h : place.Opens text) : place.text = text := by
  cases h <;> rfl

theorem sound (h : place.Opens text) : place.Sound := by
  cases h with
  | whole => exact sound_whole text
  | within span => exact sound_within text span

end TextCursor.Opens

/-- The spelling was found in the text, and the characters are what it covers there. -/
def Spelling.Covers (spelling : Spelling) (text part : List Char) : Prop :=
  spelling.extent.medium = .text ∧
    Text.Between text spelling.extent.start spelling.extent.stop part

end TreeAlign
