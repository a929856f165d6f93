import TreeAlign.Spelling

/-!
# How a store of children grows

A store never loses an identity, and nothing in it is ever replaced while
identities are new. A later store then leads wherever an earlier one led,
and what it has besides are identities from some bound on. A match that
stores a child knows such a bound from before the child was matched, so that
the identity of the child itself is still free.
-/

namespace TreeAlign

namespace Subtrees

variable {subtrees before middle after : Subtrees}

/-- Only the identity of a token counts. -/
theorem get?_congr (subtrees : Subtrees) {token other : Token} (h : token.id = other.id) :
    subtrees.get? token = subtrees.get? other := by
  simp only [get?, Token.same, h]

/-- The store leads wherever the other store led. -/
def Extends (later earlier : Subtrees) : Prop :=
  ∀ token spelling, earlier.get? token = some spelling → later.get? token = some spelling

theorem Extends.refl (subtrees : Subtrees) : subtrees.Extends subtrees :=
  fun _ _ h => h

theorem Extends.trans {first second third : Subtrees} (h : third.Extends second)
    (h' : second.Extends first) : third.Extends first := by
  intro token spelling hget
  apply h
  exact h' token spelling hget

/-- Storing a spelling under a new identity loses nothing. -/
theorem extends_insert {token : Token} (h : subtrees.get? token = none) (spelling : Spelling) :
    (subtrees.insert token spelling).Extends subtrees := by
  intro other old hold
  rw [get?_insert]
  by_cases hid : token.id = other.id
  · rw [← subtrees.get?_congr hid, h] at hold
    exact absurd hold (by simp)
  · rw [if_neg hid, hold]

/-- The store leads somewhere wherever the other store led somewhere. -/
def Covers (later earlier : Subtrees) : Prop :=
  ∀ token spelling, earlier.get? token = some spelling → ∃ found, later.get? token = some found

theorem Covers.refl (subtrees : Subtrees) : subtrees.Covers subtrees :=
  fun _ spelling h => ⟨spelling, h⟩

theorem Covers.trans {first second third : Subtrees} (h : third.Covers second)
    (h' : second.Covers first) : third.Covers first := by
  intro token spelling hget
  obtain ⟨found, hfound⟩ := h' token spelling hget
  exact h token found hfound

/-- Storing a spelling loses no identity. -/
theorem covers_insert (subtrees : Subtrees) (token : Token) (spelling : Spelling) :
    (subtrees.insert token spelling).Covers subtrees := by
  intro other old hold
  rw [get?_insert]
  split
  · exact ⟨spelling, rfl⟩
  · exact ⟨old, hold⟩

theorem get?_insert_self (subtrees : Subtrees) (token : Token) (spelling : Spelling) :
    (subtrees.insert token spelling).get? token = some spelling := by
  rw [get?_insert, if_pos rfl]

/-- All identities in the store are below the bound. -/
def Below (subtrees : Subtrees) (bound : Nat) : Prop :=
  ∀ token spelling, subtrees.get? token = some spelling → token.id < bound

theorem Below.mono {subtrees : Subtrees} {bound bound' : Nat} (h : subtrees.Below bound)
    (le : bound ≤ bound') : subtrees.Below bound' := by
  intro token spelling hget
  have hlt := h token spelling hget
  omega

theorem below_empty (bound : Nat) : empty.Below bound := by
  intro token spelling h
  simp [get?, empty] at h

/-- The later store has what the earlier one has, and else only identities from a bound on. -/
structure Adds (before after : Subtrees) (low : Nat) : Prop where
  kept : after.Extends before
  fresh : ∀ token spelling, after.get? token = some spelling →
    before.get? token = some spelling ∨ low ≤ token.id

theorem Adds.refl (subtrees : Subtrees) (low : Nat) : subtrees.Adds subtrees low :=
  ⟨.refl _, fun _ _ => Or.inl⟩

theorem Adds.trans {low bound : Nat} (h : before.Adds middle low) (h' : middle.Adds after bound)
    (le : low ≤ bound) : before.Adds after low where
  kept := h'.kept.trans h.kept
  fresh token spelling hget := by
    rcases h'.fresh token spelling hget with hget | hid
    · exact h.fresh token spelling hget
    · exact Or.inr (Nat.le_trans le hid)

theorem Adds.since {low bound : Nat} (h : before.Adds after bound) (le : low ≤ bound) :
    before.Adds after low :=
  (Adds.refl before low).trans h le

/-- An identity that was passed over is not in the later store. -/
theorem Adds.get?_eq_none {reference : Token} (h : before.Adds after (reference.id + 1))
    (below : before.Below reference.id) : after.get? reference = none := by
  cases hget : after.get? reference with
  | none => rfl
  | some spelling =>
      rcases h.fresh reference spelling hget with hget | hid
      · exact absurd (below reference spelling hget) (Nat.lt_irrefl _)
      · exact absurd hid (Nat.not_succ_le_self _)

theorem Adds.insert {low : Nat} (h : before.Adds after low) {reference : Token}
    (new : after.get? reference = none) (le : low ≤ reference.id) (spelling : Spelling) :
    before.Adds (after.insert reference spelling) low where
  kept := (extends_insert new spelling).trans h.kept
  fresh token found hget := by
    rw [get?_insert] at hget
    split at hget
    · next hid => exact Or.inr (hid ▸ le)
    · exact h.fresh token found hget

theorem Below.insert {subtrees : Subtrees} {bound : Nat} (h : subtrees.Below bound)
    {reference : Token} (lt : reference.id < bound) (spelling : Spelling) :
    (subtrees.insert reference spelling).Below bound := by
  intro token found hget
  rw [get?_insert] at hget
  split at hget
  · next hid => exact hid ▸ lt
  · exact h token found hget

end Subtrees

end TreeAlign
