import TreeAlign.Proofs.Terminal.Reading

/-!
# Finding in a token list what was found in a text

Terminals look for themselves in a text and in a token list by different
rules. When the tokens at the head of the list were themselves read at the
head of the text, both ways find the same: what is in the text is in the
list, and what is missing in the text is missing in the list. The second
part fails for quotations, whose bodies a token list does not compare, so an
optional quotation is not definite.
-/

namespace TreeAlign

namespace Stock

variable {terminal : Stock} {text : List Char} {lexemes : List Lexeme} {tokens rest : List Token}

/-- A lexeme that is white space, a sign or a word is there at the head of the text. -/
def StandsAt (text : List Char) (lexeme : Lexeme) : Prop :=
  if lexeme.kind = whitespaceKind then Text.blankRun text ≠ []
  else if lexeme.kind = punctuatorKind then ∃ rest, text = lexeme.value.toList ++ rest
  else if lexeme.kind = keywordKind ∨ lexeme.kind = identifierKind then
    wordAt lexeme.value text = true
  else True

/-- The first token is there at the head of the text. -/
def Begins (text : List Char) (tokens : List Token) : Prop :=
  ∀ token ∈ tokens.head?, StandsAt text token.toLexeme

theorem begins_nil (text : List Char) : Begins text [] := by
  simp [Begins]

theorem begins_cons {token : Token} (h : StandsAt text token.toLexeme) :
    Begins text (token :: rest) := by
  simpa [Begins] using h

theorem standsAt_blank {value : String} :
    StandsAt text ⟨whitespaceKind, value⟩ ↔ Text.blankRun text ≠ [] := by
  simp [StandsAt]

theorem standsAt_sign {value : String} :
    StandsAt text ⟨punctuatorKind, value⟩ ↔ ∃ rest, text = value.toList ++ rest := by
  simp [StandsAt, punctuatorKind, whitespaceKind]

theorem standsAt_word {kind value : String} (hkind : kind = keywordKind ∨ kind = identifierKind) :
    StandsAt text ⟨kind, value⟩ ↔ wordAt value text = true := by
  rcases hkind with rfl | rfl
  · simp [StandsAt, punctuatorKind, whitespaceKind, keywordKind]
  · simp [StandsAt, punctuatorKind, whitespaceKind, identifierKind]

/-- A reference says nothing about the text. -/
theorem begins_reference {reference : Token} (h : reference.isReference = true) :
    Begins text (reference :: rest) := by
  have hkind : reference.kind = Lexeme.referenceKind := of_decide_eq_true h
  apply begins_cons
  simp [StandsAt, hkind, Lexeme.referenceKind, punctuatorKind, whitespaceKind, keywordKind,
    identifierKind]

theorem begins_quoted {quote body : String} {supply : Nat}
    (h : quotedAt quote body text = true) :
    Begins text (Token.mint supply (quotedLexemes quote body) ++ rest) := by
  obtain ⟨after, htext⟩ := isSome_afterWord_iff.mp h
  rw [List.append_assoc, List.append_assoc] at htext
  exact begins_cons (standsAt_sign.mpr ⟨_, htext⟩)

/-- What a terminal finds in a text is there at its head. -/
theorem begins_of_matchText {supply : Nat} (h : terminal.matchText text = some lexemes)
    (hne : lexemes ≠ []) : Begins text (Token.mint supply lexemes ++ rest) := by
  induction terminal generalizing lexemes with
  | blank default =>
      simp only [matchText] at h
      split at h
      · simp at h
      · next hrun =>
          cases h
          exact begins_cons (standsAt_blank.mpr hrun)
  | punctuator value =>
      simp only [matchText, Option.ite_none_right_eq_some, isSome_afterWord_iff] at h
      obtain ⟨hsign, h⟩ := h
      cases h
      exact begins_cons (standsAt_sign.mpr hsign)
  | keyword value =>
      simp only [matchText, Option.ite_none_right_eq_some] at h
      obtain ⟨hword, h⟩ := h
      cases h
      exact begins_cons ((standsAt_word (Or.inl rfl)).mpr hword)
  | identifier value =>
      simp only [matchText, Option.ite_none_right_eq_some] at h
      obtain ⟨hword, h⟩ := h
      cases h
      exact begins_cons ((standsAt_word (Or.inr rfl)).mpr hword)
  | quotation value =>
      simp only [matchText] at h
      split at h
      · next hq => cases h; exact begins_quoted hq
      · split at h
        · next hq => cases h; exact begins_quoted hq
        · simp at h
  | reference name => simp [matchText] at h
  | separator =>
      rw [matchText_separator, Option.some.injEq] at h
      subst h
      split at hne
      · exact absurd rfl hne
      · next hrun =>
          rw [if_neg hrun]
          exact begins_cons (standsAt_blank.mpr hrun)
  | optional inner ih =>
      simp only [matchText, Option.some.injEq] at h
      cases hi : inner.matchText text with
      | none => exact absurd (by simpa [hi] using h.symm) hne
      | some found =>
          have : found = lexemes := by simpa [hi] using h
          exact ih (by rw [hi, this]) hne

/-- The tokens that were read at the head of a text, in front of tokens read behind it. -/
theorem begins_mint {supply : Nat} {after : List Char} (h : terminal.matchText text = some lexemes)
    (htext : text = Lexeme.charsOf lexemes ++ after) (hrest : Begins after rest) :
    Begins text (Token.mint supply lexemes ++ rest) := by
  by_cases hne : lexemes = []
  · subst hne
    obtain rfl : text = after := htext
    exact hrest
  · exact begins_of_matchText h hne

/-- No blank token is at the head of the list if nothing blank is at the head of the text. -/
theorem runOf_blank_eq_nil (h : Begins text tokens) (hrun : Text.blankRun text = []) :
    runOf whitespaceKind tokens = [] := by
  cases tokens with
  | nil => rfl
  | cons token rest =>
      have hkind : token.kind ≠ whitespaceKind := by
        intro hkind
        have hstands := h token rfl
        rw [StandsAt, if_pos hkind] at hstands
        exact hstands hrun
      simp [runOf, hkind]

/-- A token that would not be there in the text is not at the head of the list. -/
theorem firstIf_eq_none {kind value : String} (h : Begins text tokens)
    (hmissing : ¬ StandsAt text ⟨kind, value⟩) : firstIf kind value tokens = none := by
  cases tokens with
  | nil => rfl
  | cons token rest =>
      have hnot : ¬ (token.kind = kind ∧ token.value = value) := by
        rintro ⟨rfl, rfl⟩
        exact hmissing (h token rfl)
      simp only [firstIf, if_neg hnot]

/-- What is missing in the text is missing in the list. -/
theorem matchTokens_eq_none (hreference : Terminal.isReference terminal = false)
    (hquotation : ∀ value, terminal.core ≠ .quotation value) (h : Begins text tokens)
    (hmissing : terminal.matchText text = none) : terminal.matchTokens tokens = none := by
  cases terminal with
  | blank default =>
      have hrun : Text.blankRun text = [] := by
        simp only [matchText] at hmissing
        split at hmissing
        · assumption
        · simp at hmissing
      simp [matchTokens, runOf_blank_eq_nil h hrun]
  | punctuator value =>
      apply firstIf_eq_none h
      rw [standsAt_sign, ← isSome_afterWord_iff]
      simpa [matchText] using hmissing
  | keyword value =>
      apply firstIf_eq_none h
      rw [standsAt_word (Or.inl rfl)]
      simpa [matchText] using hmissing
  | identifier value =>
      apply firstIf_eq_none h
      rw [standsAt_word (Or.inr rfl)]
      simpa [matchText] using hmissing
  | quotation value => exact absurd rfl (hquotation value)
  | reference name => exact absurd hreference (by simp [Terminal.isReference, kind])
  | separator => simp [matchText] at hmissing
  | optional inner => simp [matchText] at hmissing

/-- Nothing blank is left behind the blank run of a text. -/
theorem blankRun_after {kind : String} {after : List Char}
    (h : text = Lexeme.charsOf [⟨kind, String.ofList (Text.blankRun text)⟩] ++ after) :
    Text.blankRun after = [] := by
  have htext : text = Text.blankRun text ++ after := by simpa [Lexeme.charsOf] using h
  have hcut : Text.blankRun text ++ text.drop (Text.blankRun text).length =
      Text.blankRun text ++ after := (Text.blankRun_append_drop text).trans htext
  rw [← List.append_cancel_left hcut]
  exact Text.blankRun_drop text

/-- A blank token and nothing blank behind it. -/
theorem runOf_blank_cons {value : String} {id : Nat} {after : List Char} (h : Begins after rest)
    (hrun : Text.blankRun after = []) :
    runOf whitespaceKind (⟨⟨whitespaceKind, value⟩, id⟩ :: rest) =
      [⟨⟨whitespaceKind, value⟩, id⟩] := by
  have hrest := runOf_blank_eq_nil h hrun
  simp only [runOf] at hrest ⊢
  simp [hrest]

theorem quotationIn_mint {quote body : String} {supply : Nat}
    (hquote : quote = singleQuote ∨ quote = doubleQuote) :
    quotationIn body (Token.mint supply (quotedLexemes quote body) ++ rest) =
      some (Token.mint supply (quotedLexemes quote body)) := by
  have hkind : punctuatorKind ≠ bodyKind := by decide
  simp only [quotedLexemes, Token.mint, List.cons_append, List.nil_append, quotationIn, isQuote,
    runOf]
  rcases hquote with rfl | rfl
  · simp [hkind]
  · simp [hkind]

/-- The terminal is not an optional quotation. -/
def Definite : Stock → Prop
  | .optional inner => ∀ value, inner.core ≠ .quotation value
  | _ => True

/-- What is found in the text is found in the list, with the same tokens. -/
theorem matchTokens_mint {supply : Nat} {after : List Char}
    (hreference : Terminal.isReference terminal = false) (hdefinite : terminal.Definite)
    (h : terminal.matchText text = some lexemes) (htext : text = Lexeme.charsOf lexemes ++ after)
    (hbegins : Begins after rest) :
    terminal.matchTokens (Token.mint supply lexemes ++ rest) =
      some (Token.mint supply lexemes) := by
  induction terminal generalizing lexemes with
  | blank default =>
      simp only [matchText] at h
      split at h
      · simp at h
      · next hrun =>
          cases h
          have hafter := blankRun_after htext
          simp only [matchTokens, Token.mint, List.cons_append, List.nil_append,
            runOf_blank_cons hbegins hafter]
  | punctuator value =>
      simp only [matchText, Option.ite_none_right_eq_some] at h
      obtain ⟨_, h⟩ := h
      cases h
      simp [matchTokens, firstIf, Token.mint]
  | keyword value =>
      simp only [matchText, Option.ite_none_right_eq_some] at h
      obtain ⟨_, h⟩ := h
      cases h
      simp [matchTokens, firstIf, Token.mint]
  | identifier value =>
      simp only [matchText, Option.ite_none_right_eq_some] at h
      obtain ⟨_, h⟩ := h
      cases h
      simp [matchTokens, firstIf, Token.mint]
  | quotation value =>
      simp only [matchText] at h
      split at h
      · cases h
        exact quotationIn_mint (Or.inl rfl)
      · split at h
        · cases h
          exact quotationIn_mint (Or.inr rfl)
        · simp at h
  | reference name => simp [matchText] at h
  | separator =>
      rw [matchText_separator, Option.some.injEq] at h
      subst h
      split at htext
      · next hrun =>
          obtain rfl : text = after := htext
          simp only [matchTokens, if_pos hrun, Token.mint, List.nil_append,
            runOf_blank_eq_nil hbegins hrun]
      · next hrun =>
          have hafter := blankRun_after htext
          simp only [matchTokens, if_neg hrun, Token.mint, List.cons_append, List.nil_append,
            runOf_blank_cons hbegins hafter]
  | optional inner ih =>
      simp only [matchText, Option.some.injEq] at h
      cases hi : inner.matchText text with
      | none =>
          obtain rfl : lexemes = [] := by simpa [hi] using h.symm
          obtain rfl : text = after := htext
          have hinner : Terminal.isReference inner = false := hreference
          have hmissing := matchTokens_eq_none hinner hdefinite hbegins hi
          simp [matchTokens, Token.mint, hmissing]
      | some found =>
          obtain rfl : found = lexemes := by simpa [hi] using h
          have hinner : inner.Definite := by
            cases inner with
            | optional _ => exact hdefinite
            | _ => trivial
          simp [matchTokens, ih hreference hinner hi htext]

end Stock

end TreeAlign
