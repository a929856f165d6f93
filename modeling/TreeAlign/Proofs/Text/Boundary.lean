import Mathlib.Order.Bounds.Basic
import TreeAlign.Proofs.Text.Position

/-!
# Character boundaries

A position in a text is a character boundary when whole characters stand in
front of it, and then nothing stands between the position and itself.
`Text.floor` finds the last boundary that a position reaches by walking over
the characters from the front.

The bytes alone show the boundaries too. In UTF-8 every byte that goes on
with a character has the form `10xxxxxx`, and no other byte has, so the same
boundary is found from behind, by steps of one byte. The search cannot run
past the front, since the front is a boundary.

A cursor that is confined to a range has both ends moved back to boundaries,
the start being held at the end that has been moved already. Holding it at the
given end would come to the same.
-/

namespace TreeAlign

namespace Text

variable {text : List Char} {position start stop : Nat}

theorem boundary_floor (text : List Char) (index : Nat) :
    Between text (floor text index) (floor text index) [] := by
  refine ⟨takeBytes index text, dropBytes index text, ?_, rfl, rfl⟩
  rw [List.append_nil, takeBytes_append_dropBytes]

/-- A boundary is its own floor. -/
theorem floor_of_boundary (h : Between text position position []) :
    floor text position = position := by
  obtain ⟨before, after, rfl, rfl, _⟩ := h
  rw [floor, List.append_nil, takeBytes_byteLength]

theorem floor_floor (text : List Char) (index : Nat) :
    floor text (floor text index) = floor text index :=
  floor_of_boundary (boundary_floor text index)

theorem floor_mono (text : List Char) : Monotone (floor text) := by
  intro low high le
  obtain ⟨more, hmore⟩ := takeBytes_prefix text le
  rw [floor, floor, ← hmore, byteLength_append]
  exact Nat.le_add_right _ _

/-- The floor is the last of the boundaries up to an index, within the text. -/
theorem isGreatest_floor (text : List Char) (index : Nat) :
    IsGreatest {position | Between text position position [] ∧
      position ≤ min index (byteLength text)} (floor text index) := by
  have hfloor := boundary_floor text index
  refine ⟨⟨hfloor, le_min (floor_le text index) hfloor.stop_le⟩, ?_⟩
  rintro position ⟨boundary, le⟩
  calc
    position = floor text position := (floor_of_boundary boundary).symm
    _ ≤ floor text index := floor_mono text (le.trans (min_le_left _ _))

/-- A start may be held at the floor of the end or at the end itself: both have the same floor. -/
theorem floor_min_floor (text : List Char) (start stop : Nat) :
    floor text (min start (floor text stop)) = floor text (min start stop) := by
  apply le_antisymm
  · have hstop : min start (floor text stop) ≤ stop :=
      (min_le_right _ _).trans (floor_le text stop)
    exact floor_mono text (le_min (min_le_left _ _) hstop)
  · have hstart : floor text (min start stop) ≤ start :=
      (floor_le text _).trans (min_le_left _ _)
    have hstop : floor text (min start stop) ≤ floor text stop :=
      floor_mono text (min_le_right _ _)
    calc
      floor text (min start stop) = floor text (floor text (min start stop)) :=
        (floor_floor text _).symm
      _ ≤ floor text (min start (floor text stop)) := floor_mono text (le_min hstart hstop)

/-- The bytes of a text in UTF-8. -/
def encode (text : List Char) : List UInt8 :=
  text.flatMap String.utf8EncodeChar

@[simp] theorem encode_nil : encode [] = [] := rfl

@[simp] theorem encode_cons (c : Char) (rest : List Char) :
    encode (c :: rest) = String.utf8EncodeChar c ++ encode rest := rfl

@[simp] theorem encode_append (s t : List Char) : encode (s ++ t) = encode s ++ encode t :=
  List.flatMap_append

@[simp] theorem length_encode (text : List Char) : (encode text).length = byteLength text := by
  induction text with
  | nil => rfl
  | cons c rest ih => simp [ih]

/-- The characters between two positions have the bytes between the positions. -/
theorem Between.encode_eq {part : List Char} (h : Between text start stop part) :
    encode part = (encode text).extract start stop := by
  obtain ⟨before, after, rfl, rfl, rfl⟩ := h
  simp [List.extract_eq_take_drop]

/-- The byte does not go on with a character, which takes a byte of the form `10xxxxxx`. -/
def startsChar (byte : UInt8) : Bool :=
  byte < 0x80 || 0xC0 ≤ byte

theorem startsChar_ofNat_iff {code : Nat} (small : code < 256) :
    startsChar (UInt8.ofNat code) = true ↔ code < 0x80 ∨ 0xC0 ≤ code := by
  simp [startsChar, UInt8.lt_iff_toNat_lt, UInt8.le_iff_toNat_le, Nat.mod_eq_of_lt small]

theorem startsChar_tail (code : Nat) : startsChar (UInt8.ofNat (code % 64 + 0x80)) = false := by
  rw [Bool.eq_false_iff, Ne, startsChar_ofNat_iff (by omega)]
  omega

/-- The first byte of a character starts it, and the others go on with it. -/
theorem exists_utf8EncodeChar_eq (c : Char) :
    ∃ lead more, String.utf8EncodeChar c = lead :: more ∧ startsChar lead = true ∧
      ∀ byte ∈ more, startsChar byte = false := by
  rw [String.utf8EncodeChar]
  -- One case for each width of a character: the bytes behind the first are all of the same form.
  split_ifs
  all_goals
    refine ⟨_, _, rfl, (startsChar_ofNat_iff (by omega)).mpr (by omega), ?_⟩
    simp only [List.forall_mem_cons, List.not_mem_nil, false_implies, implies_true,
      startsChar_tail, and_self]

theorem startsChar_of_getElem?_zero {byte : UInt8} (h : (encode text)[0]? = some byte) :
    startsChar byte = true := by
  cases text with
  | nil => simp at h
  | cons c rest =>
      obtain ⟨lead, more, hchar, hlead, _⟩ := exists_utf8EncodeChar_eq c
      rw [encode_cons, hchar, List.cons_append, List.getElem?_cons_zero, Option.some_inj] at h
      exact h ▸ hlead

/-- Bytes can be cut in front of the first and behind the last of them, and where a character
starts. -/
def isBoundary (bytes : List UInt8) (index : Nat) : Bool :=
  if index = 0 then true
  else
    match bytes[index]? with
    | some byte => startsChar byte
    | none => index == bytes.length

@[simp] theorem isBoundary_zero (bytes : List UInt8) : isBoundary bytes 0 = true := rfl

/-- Behind a part of a text that is cut off, the boundaries are those of the rest. -/
theorem isBoundary_encode_append (s t : List Char) (further : Nat) :
    isBoundary (encode (s ++ t)) (byteLength s + further) = isBoundary (encode t) further := by
  have hbyte : (encode (s ++ t))[byteLength s + further]? = (encode t)[further]? := by
    rw [encode_append, List.getElem?_append_right (by simp)]
    simp
  have hlength : (encode (s ++ t)).length = byteLength s + (encode t).length := by simp
  cases further with
  | zero =>
      -- The front of the rest is no longer a front, so here its first byte has to show it.
      rw [isBoundary_zero, isBoundary, hbyte, hlength]
      by_cases hempty : byteLength s + 0 = 0
      · rw [if_pos hempty]
      · rw [if_neg hempty]
        cases hfirst : (encode t)[0]? with
        | none => simpa using hfirst
        | some byte => exact startsChar_of_getElem?_zero hfirst
  | succ further =>
      rw [isBoundary, isBoundary, if_neg (by omega), if_neg (by omega), hbyte, hlength]
      cases (encode t)[further + 1]? with
      | none => simp
      | some byte => rfl

theorem isBoundary_inside {c : Char} {rest : List Char} {offset : Nat}
    (inside : offset + 1 < c.utf8Size) : isBoundary (encode (c :: rest)) (offset + 1) = false := by
  obtain ⟨lead, more, hchar, _, hmore⟩ := exists_utf8EncodeChar_eq c
  have hoffset : offset < more.length := by
    rw [← String.length_utf8EncodeChar, hchar, List.length_cons] at inside
    exact Nat.lt_of_succ_lt_succ inside
  have hbyte : (encode (c :: rest))[offset + 1]? = some more[offset] := by
    rw [encode_cons, hchar, List.cons_append, List.getElem?_cons_succ,
      List.getElem?_append_left hoffset, List.getElem?_eq_getElem hoffset]
  rw [isBoundary, if_neg (Nat.succ_ne_zero offset), hbyte]
  exact hmore _ (List.getElem_mem hoffset)

/-- The bytes show exactly the character boundaries. -/
theorem isBoundary_encode_iff :
    isBoundary (encode text) position = true ↔ Between text position position [] := by
  constructor
  · intro h
    induction text generalizing position with
    | nil =>
        have hzero : position = 0 := by simpa [isBoundary] using h
        exact ⟨[], [], rfl, hzero.symm, rfl⟩
    | cons c rest ih =>
        -- A position is at the front of the first character, inside it, or in the rest.
        by_cases hrest : c.utf8Size ≤ position
        · obtain ⟨further, rfl⟩ := Nat.exists_eq_add_of_le hrest
          rw [show c.utf8Size = byteLength [c] from rfl, ← List.singleton_append,
            isBoundary_encode_append] at h
          obtain ⟨before, after, rfl, rfl, _⟩ := ih h
          exact ⟨c :: before, after, by simp, rfl, rfl⟩
        · cases position with
          | zero => exact ⟨[], c :: rest, rfl, rfl, rfl⟩
          | succ offset =>
              rw [isBoundary_inside (Nat.lt_of_not_le hrest)] at h
              cases h
  · rintro ⟨before, after, rfl, rfl, _⟩
    rw [List.append_nil]
    exact isBoundary_encode_append before after 0

/-- Goes back byte by byte until the bytes can be cut. There is no step back from index 0. -/
def retreat (bytes : List UInt8) : Nat → Option Nat
  | 0 => if isBoundary bytes 0 then some 0 else none
  | index + 1 => if isBoundary bytes (index + 1) then some (index + 1) else retreat bytes index

/-- The search always comes to an end, at the last boundary up to where it began. -/
theorem exists_retreat_eq (bytes : List UInt8) (index : Nat) :
    ∃ found, retreat bytes index = some found ∧
      IsGreatest {position | isBoundary bytes position = true ∧ position ≤ index} found := by
  induction index with
  | zero => exact ⟨0, rfl, ⟨rfl, le_rfl⟩, fun position h => h.2⟩
  | succ index ih =>
      by_cases hhere : isBoundary bytes (index + 1) = true
      · exact ⟨index + 1, by rw [retreat, if_pos hhere], ⟨hhere, le_rfl⟩, fun position h => h.2⟩
      · obtain ⟨found, hfound, ⟨hboundary, hle⟩, hlast⟩ := ih
        refine ⟨found, by rw [retreat, if_neg hhere, hfound], ⟨hboundary, by omega⟩, ?_⟩
        rintro position ⟨boundary, le⟩
        have hne : position ≠ index + 1 := by
          rintro rfl
          exact hhere boundary
        exact hlast ⟨boundary, by omega⟩

/-- The floor as it is found in the bytes: back from the index, or from the end if the index is
behind it. -/
def floorInBytes (bytes : List UInt8) (index : Nat) : Option Nat :=
  retreat bytes (min index bytes.length)

theorem floorInBytes_encode (text : List Char) (index : Nat) :
    floorInBytes (encode text) index = some (floor text index) := by
  obtain ⟨found, hfound, hlast⟩ := exists_retreat_eq (encode text) (min index (byteLength text))
  simp only [isBoundary_encode_iff] at hlast
  rw [floorInBytes, length_encode, hfound, hlast.unique (isGreatest_floor text index)]

end Text

namespace TextCursor

theorem position_within (text : List Char) (span : Span) :
    (within text span).position = Text.floor text (min span.start span.stop) :=
  Text.floor_min_floor text span.start span.stop

/-- A sound cursor that is confined to what it has left to read stays as it is. -/
theorem within_of_sound {cursor : TextCursor} (sound : cursor.Sound) :
    within cursor.text ⟨cursor.position, cursor.stop⟩ = cursor := by
  obtain ⟨rest, between⟩ := sound
  have hstop : Text.floor cursor.text cursor.stop = cursor.stop :=
    Text.floor_of_boundary between.nil_stop
  have hposition : Text.floor cursor.text cursor.position = cursor.position :=
    Text.floor_of_boundary between.nil
  simp only [within, hstop, min_eq_left between.start_le, hposition]

/-- Confining a cursor to a range. For every text the search in its bytes ends at the floor, which
is the last character boundary up to the index, so it never decreases and repeating it changes
nothing. The cursor then stands between the floors of the ends of the range, whatever the range is:
what is left to read are the characters and the bytes between the two, and confining it again to
where it stands changes nothing. -/
theorem within_clamps (text : List Char) :
    (∀ index, Text.floorInBytes (Text.encode text) index = some (Text.floor text index) ∧
        IsGreatest {position | Text.isBoundary (Text.encode text) position = true ∧
          position ≤ min index (Text.byteLength text)} (Text.floor text index) ∧
        Text.floor text (Text.floor text index) = Text.floor text index) ∧
      (∀ position, Text.isBoundary (Text.encode text) position = true ↔
        Text.Between text position position []) ∧
      Monotone (Text.floor text) ∧
      ∀ span, (within text span).text = text ∧
        (within text span).position ≤ (within text span).stop ∧
        (within text span).stop = Text.floor text span.stop ∧
        (within text span).position = Text.floor text (min span.start span.stop) ∧
        Text.Between text (within text span).position (within text span).stop
          (within text span).remaining ∧
        Text.encode (within text span).remaining =
          (Text.encode text).extract (within text span).position (within text span).stop ∧
        within text ⟨(within text span).position, (within text span).stop⟩ = within text span := by
  refine ⟨fun index => ⟨Text.floorInBytes_encode text index, ?_, Text.floor_floor text index⟩,
    fun position => Text.isBoundary_encode_iff, Text.floor_mono text, fun span => ?_⟩
  · simp only [Text.isBoundary_encode_iff]
    exact Text.isGreatest_floor text index
  · have hsound := sound_within text span
    have hbetween := between_remaining hsound
    exact ⟨rfl, hbetween.start_le, rfl, position_within text span, hbetween, hbetween.encode_eq,
      within_of_sound hsound⟩

/-- The two bytes of `é` are the second and the third: a start between them moves in front of the
character, an end there leaves the character out, and a start behind the end is moved to it. -/
example :
    within ['(', 'é', ')'] ⟨2, 4⟩ = ⟨['(', 'é', ')'], 1, 4⟩ ∧
      (within ['(', 'é', ')'] ⟨2, 4⟩).remaining = ['é', ')'] ∧
      within ['(', 'é', ')'] ⟨3, 2⟩ = ⟨['(', 'é', ')'], 1, 1⟩ := by
  decide

end TextCursor

end TreeAlign
