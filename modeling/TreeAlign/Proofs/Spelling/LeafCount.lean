import TreeAlign.Cursor.Tokens
import TreeAlign.Proofs.Spelling.Ending

/-!
# Leaves that can be counted

Leaves are counted token by token. A token that stands for no child is one
leaf, and a token that stands for a child has as many as the child. Nothing
keeps a count from going down for ever, so it is a relation: `Counts` holds
of the numbers that a count comes to. There is at most one, there is one
exactly if following the references ends, and `leafCount?` finds it. A child
that is met again below itself has none.

A cursor in attached tokens counts the leaves of the children that were not
read from tokens when it is moved past them. The move ends exactly if these
counts do.
-/

namespace TreeAlign

namespace Subtrees

variable {subtrees : Subtrees}

/-- Counting the leaves of the tokens ends with the number. -/
inductive Counts (subtrees : Subtrees) : List Token → Nat → Prop where
  | nil : Counts subtrees [] 0
  | leaf {token : Token} {rest : List Token} {count : Nat} (single : subtrees.child? token = none)
      (others : Counts subtrees rest count) : Counts subtrees (token :: rest) (1 + count)
  | child {token : Token} {spelling : Spelling} {rest : List Token} {inner count : Nat}
      (stored : subtrees.child? token = some spelling)
      (inside : Counts subtrees spelling.tokens inner) (others : Counts subtrees rest count) :
      Counts subtrees (token :: rest) (inner + count)

/-- A count comes to one number at most. -/
theorem Counts.unique {tokens : List Token} {count count' : Nat} (h : subtrees.Counts tokens count)
    (h' : subtrees.Counts tokens count') : count = count' := by
  induction h generalizing count' with
  | nil =>
      cases h' with
      | nil => rfl
  | leaf single _ ih =>
      cases h' with
      | leaf _ others => rw [ih others]
      | child stored _ _ =>
          rw [single] at stored
          cases stored
  | child stored _ _ ih ih' =>
      cases h' with
      | leaf single _ =>
          rw [single] at stored
          cases stored
      | child stored' inside others =>
          rw [stored] at stored'
          cases stored'
          rw [ih inside, ih' others]

/-- The counts of single tokens add up. -/
theorem counts_total {tokens : List Token} {count : Token → Nat}
    (h : ∀ token ∈ tokens, (subtrees.child? token = none ∧ count token = 1) ∨
      ∃ spelling, subtrees.child? token = some spelling ∧
        subtrees.Counts spelling.tokens (count token)) :
    subtrees.Counts tokens (total count tokens) := by
  induction tokens with
  | nil => exact .nil
  | cons token rest ih =>
      have hrest := ih fun other hmem => h other (List.mem_cons_of_mem _ hmem)
      rw [total_cons]
      rcases h token (List.mem_cons_self ..) with ⟨hnone, hone⟩ | ⟨spelling, hchild, hinside⟩
      · rw [hone]
        exact .leaf hnone hrest
      · exact .child hchild hinside hrest

/-- Tokens that stand for no children count one each. -/
theorem counts_length {tokens : List Token}
    (h : ∀ token ∈ tokens, subtrees.child? token = none) :
    subtrees.Counts tokens tokens.length := by
  induction tokens with
  | nil => exact .nil
  | cons token rest ih =>
      obtain ⟨hnone, hrest⟩ := List.forall_mem_cons.mp h
      rw [List.length_cons, Nat.add_comm]
      exact .leaf hnone (ih hrest)

/-- Where following references ends, the leaves are counted within that many levels. -/
theorem EndsWithin.counts {levels : Nat} {spelling : Spelling}
    (h : subtrees.EndsWithin levels spelling.tokens) :
    subtrees.Counts spelling.tokens (subtrees.leafCountWithin levels spelling) := by
  induction levels generalizing spelling with
  | zero =>
      rw [leafCountWithin]
      exact counts_length h
  | succ levels ih =>
      rw [leafCountWithin]
      apply counts_total
      intro token hmem
      cases hchild : subtrees.child? token with
      | none => exact Or.inl ⟨rfl, rfl⟩
      | some inner => exact Or.inr ⟨inner, rfl, ih (h token hmem inner hchild)⟩

/-- Where the leaves are counted, following references ends. -/
theorem Counts.endsWithin {tokens : List Token} {count : Nat} (h : subtrees.Counts tokens count) :
    ∃ levels, subtrees.EndsWithin levels tokens := by
  induction h with
  | nil => exact ⟨0, by simp [EndsWithin]⟩
  | leaf single _ ih =>
      obtain ⟨levels, hrest⟩ := ih
      refine ⟨levels + 1, List.forall_mem_cons.mpr ⟨by simp [single], ?_⟩⟩
      exact hrest.mono (Nat.le_succ levels)
  | child stored _ _ ih ih' =>
      obtain ⟨deep, hinside⟩ := ih
      obtain ⟨levels, hrest⟩ := ih'
      refine ⟨max deep levels + 1, List.forall_mem_cons.mpr ⟨?_, ?_⟩⟩
      · intro inner hinner
        rw [stored] at hinner
        cases hinner
        exact hinside.mono (Nat.le_max_left _ _)
      · exact hrest.mono (Nat.le_succ_of_le (Nat.le_max_right _ _))

theorem expandsWithin_iff {levels : Nat} {spelling : Spelling} :
    subtrees.expandsWithin levels spelling = true ↔
      subtrees.EndsWithin levels spelling.tokens := by
  induction levels generalizing spelling with
  | zero => simp [expandsWithin, EndsWithin]
  | succ levels ih =>
      rw [expandsWithin, List.all_eq_true, EndsWithin]
      apply forall₂_congr
      intro token _
      cases subtrees.child? token with
      | none => simp
      | some child => simp [ih]

/-- The number of leaves is found exactly if counting them ends. -/
theorem leafCount?_eq_some_iff {spelling : Spelling} {count : Nat} :
    subtrees.leafCount? spelling = some count ↔ subtrees.Counts spelling.tokens count := by
  constructor
  · intro h
    rw [leafCount?] at h
    split at h
    · next hexpands =>
        cases h
        exact (expandsWithin_iff.mp hexpands).counts
    · cases h
  · intro h
    obtain ⟨levels, hends⟩ := h.endsWithin
    rw [leafCount?, if_pos (expandsWithin_iff.mpr hends.size), leafCount,
      hends.size.counts.unique h]

theorem isSome_leafCount?_iff {spelling : Spelling} :
    (subtrees.leafCount? spelling).isSome = true ↔
      subtrees.Counts spelling.tokens (subtrees.leafCount spelling) := by
  rw [← leafCount?_eq_some_iff, leafCount?]
  split
  · simp
  · simp

/-- The leaves of a child that is met below itself cannot be counted. -/
theorem not_counts_of_meets {reference : Token} {spelling : Spelling}
    (stored : subtrees.get? reference = some spelling)
    (met : subtrees.Meets spelling.tokens reference.id) (count : Nat) :
    ¬ subtrees.Counts spelling.tokens count := by
  intro h
  obtain ⟨levels, hends⟩ := h.endsWithin
  exact hends.not_meets_self stored met

end Subtrees

namespace TokenCursor

variable {subtrees : Subtrees} {token reference : Token} {spelling : Spelling}

/-- A child that was read from no tokens is passed by its leaf count. -/
theorem leavesOf_eq_leafCount (isReference : reference.isReference = true)
    (stored : subtrees.get? reference = some spelling)
    (medium : spelling.extent.medium ≠ .tokens) :
    leavesOf subtrees reference = subtrees.leafCount spelling := by
  rw [leavesOf, Subtrees.child?_eq_some_iff.mpr ⟨isReference, stored⟩]
  cases hmedium : spelling.extent.medium with
  | tokens => exact absurd hmedium medium
  | text => simp only [hmedium]
  | synthetic => simp only [hmedium]

/-- If the token stands for a child that was not read from tokens, then the leaves of the child can
be counted. Their number is what the token covers. -/
def Countable (subtrees : Subtrees) (token : Token) : Prop :=
  ∀ child, subtrees.child? token = some child → child.extent.medium ≠ .tokens →
    subtrees.Counts child.tokens (leavesOf subtrees token)

theorem countable_of_ends
    (h : ∀ child, subtrees.child? token = some child → child.extent.medium ≠ .tokens →
      ∃ levels, subtrees.EndsWithin levels child.tokens) : Countable subtrees token := by
  intro child hchild hmedium
  obtain ⟨isReference, stored⟩ := Subtrees.child?_eq_some_iff.mp hchild
  obtain ⟨levels, hends⟩ := h child hchild hmedium
  rw [leavesOf_eq_leafCount isReference stored hmedium]
  exact hends.size.counts

theorem leavesEnd_iff : leavesEnd subtrees token = true ↔ Countable subtrees token := by
  unfold Countable leavesEnd leavesOf
  cases subtrees.child? token with
  | none => simp
  | some child =>
      cases hmedium : child.extent.medium with
      | tokens => simp [hmedium]
      | text => simp [hmedium, Subtrees.isSome_leafCount?_iff]
      | synthetic => simp [hmedium, Subtrees.isSome_leafCount?_iff]

/-- Moving past tokens ends exactly if all the leaves that are counted on the way can be counted. -/
theorem advanceEnds_iff {tokens : List Token} :
    advanceEnds tokens subtrees = true ↔ ∀ token ∈ tokens, Countable subtrees token := by
  rw [advanceEnds, List.all_eq_true]
  exact forall₂_congr fun _ _ => leavesEnd_iff

end TokenCursor

end TreeAlign
