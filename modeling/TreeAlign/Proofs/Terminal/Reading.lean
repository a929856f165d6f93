import TreeAlign.Proofs.Text.Position

/-!
# What the stock terminals find in a text

Whatever a terminal finds in a text stands at the head of the text, and no
part of it is a reference. A separator finds the longest blank prefix, as at
most one lexeme.

## Implementation notes

An optional terminal either finds what the terminal inside finds, or finds
nothing where the inner one is missing. `Stock.core` strips all optional
layers, so each fact is proved for the seven remaining forms only.
-/

namespace TreeAlign

namespace Text

theorem blankRun_append_drop (s : List Char) :
    blankRun s ++ s.drop (blankRun s).length = s := by
  induction s with
  | nil => rfl
  | cons c rest ih =>
      by_cases h : isBlank c = true
      · simpa [blankRun, h] using ih
      · simp [blankRun, h]

/-- Nothing blank follows a blank run. -/
theorem blankRun_drop (s : List Char) : blankRun (s.drop (blankRun s).length) = [] := by
  induction s with
  | nil => rfl
  | cons c rest ih =>
      by_cases h : isBlank c = true
      · simpa [blankRun, h] using ih
      · simp [blankRun, h]

end Text

namespace Lexeme

/-- The characters of the lexemes, one after the other. -/
def charsOf (lexemes : List Lexeme) : List Char :=
  lexemes.flatMap fun lexeme => lexeme.value.toList

theorem isReference_eq_false {lexeme : Lexeme} (h : lexeme.kind ≠ referenceKind) :
    lexeme.isReference = false :=
  decide_eq_false h

/-- White space that is there. -/
def IsBlank (lexeme : Lexeme) : Prop :=
  lexeme.kind = Stock.whitespaceKind ∧ lexeme.value ≠ "" ∧
    ∀ c ∈ lexeme.value.toList, Text.isBlank c = true

end Lexeme

/-- Minted tokens have the characters of their lexemes. -/
theorem Token.charsOf_mint (supply : Nat) (lexemes : List Lexeme) :
    charsOf (mint supply lexemes) = Lexeme.charsOf lexemes := by
  induction lexemes generalizing supply with
  | nil => rfl
  | cons lexeme rest ih => simp [mint, ih, Lexeme.charsOf]

/-- What holds of all lexemes holds of the tokens minted from them. -/
theorem Token.forall_mem_mint {P : Lexeme → Prop} {supply : Nat} {lexemes : List Lexeme}
    (h : ∀ lexeme ∈ lexemes, P lexeme) : ∀ token ∈ mint supply lexemes, P token.toLexeme := by
  intro token ht
  apply h
  rw [← map_toLexeme_mint supply lexemes]
  exact List.mem_map_of_mem ht

namespace Stock

/-- The terminal inside all optional layers. -/
def core : Stock → Stock
  | .optional inner => inner.core
  | terminal => terminal

@[simp] theorem kind_core (terminal : Stock) : terminal.core.kind = terminal.kind := by
  induction terminal with
  | optional inner ih => exact ih
  | _ => rfl

theorem core_matchText_eq_none {terminal : Stock} {text : List Char}
    (h : terminal.matchText text = none) : terminal.core.matchText text = none := by
  cases terminal with
  | optional inner => simp [matchText] at h
  | _ => exact h

/-- What a terminal finds is what its core finds, or nothing where the core is missing. -/
theorem core_matchText {terminal : Stock} {text : List Char} {lexemes : List Lexeme}
    (h : terminal.matchText text = some lexemes) :
    terminal.core.matchText text = some lexemes ∨
      (lexemes = [] ∧ terminal.core.matchText text = none) := by
  induction terminal generalizing lexemes with
  | optional inner ih =>
      simp only [matchText, Option.some.injEq] at h
      cases hi : inner.matchText text with
      | none =>
          have hcore : inner.core.matchText text = none := core_matchText_eq_none hi
          exact Or.inr ⟨by simpa [hi] using h.symm, hcore⟩
      | some found =>
          have hf : found = lexemes := by simpa [hi] using h
          exact ih (by rw [hi, hf])
  | _ => exact Or.inl h

theorem core_ne_optional (terminal inner : Stock) : terminal.core ≠ .optional inner := by
  induction terminal with
  | optional _ ih => exact ih
  | _ => simp [core]

/-- Only the separator has the kind of separators. -/
theorem core_eq_separator {terminal : Stock} (h : Terminal.isSeparator terminal = true) :
    terminal.core = .separator := by
  have hkind : terminal.core.kind = Terminal.separatorKind := by
    rw [kind_core]
    exact of_decide_eq_true h
  have hopt := core_ne_optional terminal
  generalize terminal.core = form at *
  cases form with
  | separator => rfl
  | optional inner => exact absurd rfl (hopt inner)
  | _ => exact absurd hkind (by simp only [kind]; decide)

/-- All blank runs at the head of a text are one run. -/
theorem blankRuns_eq {bound : Nat} {text : List Char} (h : text.length ≤ bound) :
    blankRuns bound text =
      if Text.blankRun text = [] then []
      else [⟨whitespaceKind, String.ofList (Text.blankRun text)⟩] := by
  have hstop (n : Nat) : blankRuns n (text.drop (Text.blankRun text).length) = [] := by
    cases n with
    | zero => rfl
    | succ n => simp [blankRuns, Text.blankRun_drop]
  cases bound with
  | zero =>
      have : text = [] := List.eq_nil_of_length_eq_zero (by omega)
      simp [this, blankRuns, Text.blankRun]
  | succ bound =>
      rw [blankRuns]
      split
      · simp [*]
      · next hne => rw [if_neg hne, hstop]

/-- What a separator finds. -/
theorem matchText_separator (text : List Char) :
    Stock.separator.matchText text =
      some (if Text.blankRun text = [] then []
        else [⟨whitespaceKind, String.ofList (Text.blankRun text)⟩]) := by
  rw [matchText, blankRuns_eq (Nat.le_refl _)]

/-- A separator finds white space only. -/
theorem isBlank_of_mem_matchText {terminal : Stock} {text : List Char} {lexemes : List Lexeme}
    (hs : Terminal.isSeparator terminal = true) (h : terminal.matchText text = some lexemes) :
    ∀ lexeme ∈ lexemes, lexeme.IsBlank := by
  have hcore := core_eq_separator hs
  rcases core_matchText h with h | ⟨rfl, _⟩
  · rw [hcore, matchText_separator, Option.some.injEq] at h
    subst h
    intro lexeme hm
    split at hm
    · simp at hm
    · next hrun =>
        obtain rfl : lexeme = _ := by simpa using hm
        refine ⟨rfl, ?_, ?_⟩
        · simpa using hrun
        · intro c hc
          exact Text.isBlank_of_mem_blankRun (by simpa using hc)
  · simp

theorem wordAt_iff {word : String} {text : List Char} :
    wordAt word text = true ↔ ∃ rest, text = word.toList ++ rest ∧ isWordBreak rest = true := by
  rw [wordAt]
  cases h : Text.afterWord word.toList text with
  | none =>
      refine ⟨fun hf => absurd hf (by simp), ?_⟩
      rintro ⟨rest, htext, _⟩
      rw [Text.afterWord_eq_some_iff.mpr htext] at h
      exact absurd h (by simp)
  | some rest =>
      have htext := Text.afterWord_eq_some_iff.mp h
      refine ⟨fun hb => ⟨rest, htext, hb⟩, ?_⟩
      rintro ⟨rest', htext', hb⟩
      have : rest = rest' := List.append_cancel_left (htext.symm.trans htext')
      exact this ▸ hb

theorem isSome_afterWord_iff {word text : List Char} :
    (Text.afterWord word text).isSome = true ↔ ∃ rest, text = word ++ rest := by
  simp only [Option.isSome_iff_exists, Text.afterWord_eq_some_iff]

/-- A lexeme with the given kind and text, at the head of a text. -/
theorem spells_singleton {kind value : String} {text rest : List Char}
    (hk : kind ≠ Lexeme.referenceKind) (h : text = value.toList ++ rest) :
    (∃ rest, text = Lexeme.charsOf [⟨kind, value⟩] ++ rest) ∧
      ∀ lexeme ∈ [(⟨kind, value⟩ : Lexeme)], lexeme.isReference = false := by
  refine ⟨⟨rest, by simpa [Lexeme.charsOf] using h⟩, ?_⟩
  intro lexeme hm
  obtain rfl : lexeme = _ := by simpa using hm
  exact Lexeme.isReference_eq_false hk

theorem isReference_of_mem_quotedLexemes {quote body : String} {lexeme : Lexeme}
    (h : lexeme ∈ quotedLexemes quote body) : lexeme.isReference = false := by
  simp only [quotedLexemes, List.mem_cons, List.not_mem_nil, or_false] at h
  have hquote : punctuatorKind ≠ Lexeme.referenceKind := by decide
  have hbody : bodyKind ≠ Lexeme.referenceKind := by decide
  rcases h with rfl | rfl | rfl
  · exact Lexeme.isReference_eq_false hquote
  · exact Lexeme.isReference_eq_false hbody
  · exact Lexeme.isReference_eq_false hquote

theorem spells_quoted {quote body : String} {text : List Char}
    (h : quotedAt quote body text = true) :
    (∃ rest, text = Lexeme.charsOf (quotedLexemes quote body) ++ rest) ∧
      ∀ lexeme ∈ quotedLexemes quote body, lexeme.isReference = false := by
  obtain ⟨rest, htext⟩ := isSome_afterWord_iff.mp h
  exact ⟨⟨rest, by simpa [Lexeme.charsOf, quotedLexemes] using htext⟩,
    fun _ => isReference_of_mem_quotedLexemes⟩

/-- What a terminal finds stands at the head of the text, and none of it is a reference. -/
theorem spells_of_matchText {terminal : Stock} {text : List Char} {lexemes : List Lexeme}
    (h : terminal.matchText text = some lexemes) :
    (∃ rest, text = Lexeme.charsOf lexemes ++ rest) ∧
      ∀ lexeme ∈ lexemes, lexeme.isReference = false := by
  induction terminal generalizing lexemes with
  | blank default =>
      have hrun := Text.blankRun_append_drop text
      simp only [matchText] at h
      split at h
      · simp at h
      · cases h
        exact spells_singleton (by decide) (by simpa using hrun.symm)
  | punctuator value =>
      simp only [matchText, Option.ite_none_right_eq_some, isSome_afterWord_iff] at h
      obtain ⟨⟨rest, htext⟩, h⟩ := h
      cases h
      exact spells_singleton (by decide) htext
  | keyword value =>
      simp only [matchText, Option.ite_none_right_eq_some, wordAt_iff] at h
      obtain ⟨⟨rest, htext, _⟩, h⟩ := h
      cases h
      exact spells_singleton (by decide) htext
  | identifier value =>
      simp only [matchText, Option.ite_none_right_eq_some, wordAt_iff] at h
      obtain ⟨⟨rest, htext, _⟩, h⟩ := h
      cases h
      exact spells_singleton (by decide) htext
  | quotation value =>
      simp only [matchText] at h
      split at h
      · next hq => cases h; exact spells_quoted hq
      · split at h
        · next hq => cases h; exact spells_quoted hq
        · simp at h
  | reference name => simp [matchText] at h
  | separator =>
      have hrun := Text.blankRun_append_drop text
      rw [matchText_separator, Option.some.injEq] at h
      subst h
      split
      · exact ⟨⟨text, rfl⟩, by simp⟩
      · exact spells_singleton (by decide) (by simpa using hrun.symm)
  | optional inner ih =>
      simp only [matchText, Option.some.injEq] at h
      cases hi : inner.matchText text with
      | none =>
          have : lexemes = [] := by simpa [hi] using h.symm
          subst this
          exact ⟨⟨text, rfl⟩, by simp⟩
      | some found =>
          have : found = lexemes := by simpa [hi] using h
          exact ih (by rw [hi, this])

/-- A reference that spells something is not optional. -/
theorem build_of_isReference {terminal : Stock} (h : Terminal.isReference terminal = true) :
    terminal.build none = [] ∨ ∃ name, terminal = .reference name := by
  cases terminal with
  | reference name => exact Or.inr ⟨name, rfl⟩
  | optional inner => exact Or.inl rfl
  | _ => exact absurd (of_decide_eq_true h) (by simp only [kind]; decide)

end Stock

end TreeAlign
