import TreeAlign.Proofs.Terminal.Reading

/-!
# What the stock terminals find in a token list

Whatever a terminal finds in a token list is a leading part of the list. It
has no reference in it, unless the terminal is itself a reference, and then
it is one reference or nothing.
-/

namespace TreeAlign

namespace Stock

variable {terminal : Stock} {tokens found : List Token}

theorem append_of_runOf (kind : String) (tokens : List Token) :
    ∃ rest, tokens = runOf kind tokens ++ rest := by
  obtain ⟨rest, h⟩ := List.takeWhile_prefix (l := tokens) fun token => token.kind = kind
  exact ⟨rest, h.symm⟩

theorem isReference_of_mem_runOf {kind : String} (hkind : kind ≠ Lexeme.referenceKind)
    {token : Token} (h : token ∈ runOf kind tokens) : token.isReference = false := by
  have hall := List.all_eq_true.mp (List.all_takeWhile (l := tokens)) token h
  apply Lexeme.isReference_eq_false
  rw [of_decide_eq_true hall]
  exact hkind

theorem of_firstIf {kind value : String} (h : firstIf kind value tokens = some found) :
    ∃ token rest, tokens = token :: rest ∧ found = [token] ∧ token.kind = kind := by
  cases tokens with
  | nil => simp [firstIf] at h
  | cons token rest =>
      simp only [firstIf, Option.ite_none_right_eq_some, Option.some.injEq] at h
      exact ⟨token, rest, rfl, h.2.symm, h.1.1⟩

/-- Tokens at the head of a list, none of them a reference. -/
def Consumes (tokens found : List Token) : Prop :=
  (∃ rest, tokens = found ++ rest) ∧ ∀ token ∈ found, token.isReference = false

theorem consumes_nil (tokens : List Token) : Consumes tokens [] :=
  ⟨⟨tokens, rfl⟩, by simp⟩

theorem consumes_runOf {kind : String} (hkind : kind ≠ Lexeme.referenceKind) :
    Consumes tokens (runOf kind tokens) :=
  ⟨append_of_runOf kind tokens, fun _ => isReference_of_mem_runOf hkind⟩

theorem consumes_of_firstIf {kind value : String} (hkind : kind ≠ Lexeme.referenceKind)
    (h : firstIf kind value tokens = some found) : Consumes tokens found := by
  obtain ⟨token, rest, rfl, rfl, rfl⟩ := of_firstIf h
  refine ⟨⟨rest, rfl⟩, ?_⟩
  intro other hmem
  obtain rfl : other = token := by simpa using hmem
  exact Lexeme.isReference_eq_false hkind

theorem consumes_of_quotationIn {value : String} (h : quotationIn value tokens = some found) :
    Consumes tokens found := by
  have hquote : punctuatorKind ≠ Lexeme.referenceKind := by decide
  have hbody : bodyKind ≠ Lexeme.referenceKind := by decide
  cases tokens with
  | nil => simp [quotationIn] at h
  | cons opening rest =>
      simp only [quotationIn] at h
      split at h
      · next hopening =>
          split at h
          · simp at h
          · split at h
            · simp at h
            · next closing more hdrop =>
                simp only [Option.ite_none_right_eq_some, Option.some.injEq] at h
                obtain ⟨⟨hclosing, _⟩, rfl⟩ := h
                obtain ⟨tail, hrest⟩ := append_of_runOf bodyKind rest
                have hplain : ∀ token ∈ runOf bodyKind rest, token.isReference = false :=
                  fun _ => isReference_of_mem_runOf hbody
                have hsign : opening.kind = punctuatorKind := by
                  simp only [isQuote, Bool.and_eq_true, decide_eq_true_eq] at hopening
                  exact hopening.1
                generalize runOf bodyKind rest = body at hdrop hrest hplain ⊢
                subst hrest
                rw [List.drop_left] at hdrop
                subst hdrop
                refine ⟨⟨more, by simp⟩, ?_⟩
                intro token hmem
                simp only [List.cons_append, List.mem_cons, List.mem_append, List.not_mem_nil,
                  or_false] at hmem
                rcases hmem with rfl | hmem | rfl
                · exact Lexeme.isReference_eq_false (hsign ▸ hquote)
                · exact hplain token hmem
                · exact Lexeme.isReference_eq_false (hclosing ▸ hquote)
      · simp at h

/-- What a terminal that is no reference finds in a list. -/
theorem consumes_of_matchTokens (notReference : Terminal.isReference terminal = false)
    (h : terminal.matchTokens tokens = some found) : Consumes tokens found := by
  induction terminal generalizing found with
  | blank default =>
      simp only [matchTokens] at h
      split at h
      · simp at h
      · cases h
        exact consumes_runOf (by decide)
  | punctuator value => exact consumes_of_firstIf (by decide) h
  | keyword value => exact consumes_of_firstIf (by decide) h
  | identifier value => exact consumes_of_firstIf (by decide) h
  | quotation value => exact consumes_of_quotationIn h
  | reference name =>
      exact absurd notReference (by simp [Terminal.isReference, kind])
  | separator =>
      cases h
      exact consumes_runOf (by decide)
  | optional inner ih =>
      simp only [matchTokens, Option.some.injEq] at h
      cases hi : inner.matchTokens tokens with
      | none =>
          obtain rfl : found = [] := by simpa [hi] using h.symm
          exact consumes_nil tokens
      | some other =>
          obtain rfl : other = found := by simpa [hi] using h
          exact ih notReference hi

/-- A reference finds one reference at the head of the list, or nothing. -/
theorem reference_of_matchTokens {reference : Token} {more : List Token}
    (isReference : Terminal.isReference terminal = true)
    (h : terminal.matchTokens tokens = some (reference :: more)) :
    more = [] ∧ reference.isReference = true ∧ ∃ rest, tokens = reference :: rest := by
  induction terminal with
  | reference name =>
      obtain ⟨token, rest, rfl, hfound, hkind⟩ := of_firstIf h
      simp only [List.cons.injEq] at hfound
      obtain ⟨rfl, rfl⟩ := hfound
      exact ⟨rfl, decide_eq_true hkind, rest, rfl⟩
  | optional inner ih =>
      simp only [matchTokens, Option.some.injEq] at h
      cases hi : inner.matchTokens tokens with
      | none => simp [hi] at h
      | some other =>
          obtain rfl : other = reference :: more := by simpa [hi] using h
          exact ih isReference hi
  | _ => exact absurd (of_decide_eq_true isReference) (by simp only [kind]; decide)

/-- Whatever a terminal finds in a token list is a leading part of the list. -/
theorem append_of_matchTokens
    (h : terminal.matchTokens tokens = some found) : ∃ rest, tokens = found ++ rest := by
  cases href : Terminal.isReference terminal with
  | false => exact (consumes_of_matchTokens href h).1
  | true =>
      cases found with
      | nil => exact ⟨tokens, rfl⟩
      | cons reference more =>
          obtain ⟨rfl, _, rest, hrest⟩ := reference_of_matchTokens href h
          exact ⟨rest, hrest⟩

end Stock

end TreeAlign
