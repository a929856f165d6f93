import TreeAlign.Proofs.Spelling.Expansion

/-!
# Outlines of stores

The outline of a store keeps the tokens of the spellings and forgets where
they were found. Leaves depend on the outline only, so two stores with the
same outline give the same leaves, also when one was filled from a text and
the other from tokens.
-/

namespace TreeAlign

namespace Subtrees

variable {first second : Subtrees}

/-- The references of a store with the tokens of their spellings. -/
def outline (subtrees : Subtrees) : List (Token × List Token) :=
  subtrees.entries.map fun entry => (entry.1, entry.2.tokens)

/-- The tokens that a token leads to are read off the outline. -/
theorem map_tokens_get? (subtrees : Subtrees) (token : Token) :
    (subtrees.get? token).map Spelling.tokens =
      (subtrees.outline.find? fun entry => entry.1.same token).map (·.2) := by
  rw [get?, outline, List.find?_map, Option.map_map, Option.map_map]
  rfl

theorem map_tokens_get?_eq (h : first.outline = second.outline) (token : Token) :
    (first.get? token).map Spelling.tokens = (second.get? token).map Spelling.tokens := by
  rw [map_tokens_get?, map_tokens_get?, h]

/-- Storing the same tokens under the same reference keeps outlines the same. -/
theorem outline_insert_eq (h : first.outline = second.outline) (reference : Token)
    {left right : Spelling} (htokens : left.tokens = right.tokens) :
    (first.insert reference left).outline = (second.insert reference right).outline := by
  obtain ⟨entries⟩ := first
  obtain ⟨others⟩ := second
  simp only [outline, insert] at h ⊢
  induction entries generalizing others with
  | nil =>
      obtain rfl : others = [] := by simpa using h.symm
      simp [insertIn, htokens]
  | cons entry rest ih =>
      cases others with
      | nil => simp at h
      | cons other more =>
          simp only [List.map_cons, List.cons.injEq, Prod.mk.injEq] at h
          obtain ⟨⟨hkey, hold⟩, hrest⟩ := h
          simp only [insertIn, hkey]
          split
          · simp [hrest, htokens]
          · simp [hold, ih more hrest]

theorem size_eq (h : first.outline = second.outline) : first.size = second.size := by
  have hlength := congrArg List.length h
  simpa [outline, size] using hlength

/-- Bounded expansion depends on the outline only. -/
theorem expandWithin_eq (h : first.outline = second.outline) (levels : Nat)
    (tokens : List Token) : first.expandWithin levels tokens = second.expandWithin levels tokens := by
  induction levels generalizing tokens with
  | zero => rfl
  | succ levels ih =>
      simp only [expandWithin]
      congr 1
      funext token
      have htokens := map_tokens_get?_eq h token
      by_cases hreference : token.isReference = true
      · simp only [child?, hreference, if_true]
        cases hfirst : first.get? token with
        | none =>
            rw [hfirst] at htokens
            have hsecond : second.get? token = none := by simpa using htokens.symm
            rw [hsecond]
        | some left =>
            rw [hfirst] at htokens
            obtain ⟨right, hsecond, heq⟩ := Option.map_eq_some_iff.mp htokens.symm
            rw [hsecond]
            simp only [leavesWithin_eq_expandWithin, ih, heq]
      · simp [child?, hreference]

/-- The leaves of a token list depend on the outline only. -/
theorem expand_eq (h : first.outline = second.outline) (tokens : List Token) :
    first.expand tokens = second.expand tokens := by
  rw [expand, expand, size_eq h, expandWithin_eq h]

end Subtrees

end TreeAlign
