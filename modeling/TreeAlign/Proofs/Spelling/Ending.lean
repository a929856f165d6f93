import Mathlib.Data.List.Basic
import TreeAlign.Proofs.Spelling.Expansion

/-!
# Expansions that end

Following references through a store may go round in circles. It ends within
a number of levels when every chain of references is at most that long. Then
it also ends within as many levels as the store has entries, because a chain
that ends never comes back to an identity, and going down further changes
neither the leaves nor the number of spellings that are met.
-/

namespace TreeAlign

theorem total_congr {α : Type} {first second : α → Nat} {xs : List α}
    (h : ∀ a ∈ xs, first a = second a) : total first xs = total second xs := by
  induction xs with
  | nil => rfl
  | cons a rest ih =>
      rw [total_cons, total_cons, h a (List.mem_cons_self ..),
        ih fun b hb => h b (List.mem_cons_of_mem _ hb)]

theorem total_eq_zero {α : Type} {count : α → Nat} {xs : List α} (h : ∀ a ∈ xs, count a = 0) :
    total count xs = 0 := by
  induction xs with
  | nil => rfl
  | cons a rest ih =>
      rw [total_cons, h a (List.mem_cons_self ..), ih fun b hb => h b (List.mem_cons_of_mem _ hb)]

namespace Subtrees

variable {subtrees : Subtrees}

/-- No chain of references that begins in the token list is longer than the given number. -/
def EndsWithin (subtrees : Subtrees) : Nat → List Token → Prop
  | 0, tokens => ∀ token ∈ tokens, subtrees.child? token = none
  | levels + 1, tokens => ∀ token ∈ tokens, ∀ spelling ∈ subtrees.child? token,
    subtrees.EndsWithin levels spelling.tokens

/-- Whether following references ends within a number of levels can be tried out. -/
def decideEndsWithin (subtrees : Subtrees) :
    (levels : Nat) → (tokens : List Token) → Decidable (subtrees.EndsWithin levels tokens)
  | 0, tokens => inferInstanceAs (Decidable (∀ token ∈ tokens, subtrees.child? token = none))
  | levels + 1, tokens =>
    have := subtrees.decideEndsWithin levels
    inferInstanceAs (Decidable (∀ token ∈ tokens, ∀ spelling ∈ subtrees.child? token,
      subtrees.EndsWithin levels spelling.tokens))

instance (subtrees : Subtrees) (levels : Nat) (tokens : List Token) :
    Decidable (subtrees.EndsWithin levels tokens) :=
  subtrees.decideEndsWithin levels tokens

theorem child?_eq_some_iff {token : Token} {spelling : Spelling} :
    subtrees.child? token = some spelling ↔
      token.isReference = true ∧ subtrees.get? token = some spelling := by
  rw [child?]
  split
  · next h => simp [h]
  · next h => simp [h]

/-- A reference costs one level. -/
theorem endsWithin_child {levels : Nat} {tokens : List Token} (h : subtrees.EndsWithin levels tokens)
    {token : Token} (hmem : token ∈ tokens) {spelling : Spelling}
    (hchild : subtrees.child? token = some spelling) :
    ∃ fewer, levels = fewer + 1 ∧ subtrees.EndsWithin fewer spelling.tokens := by
  cases levels with
  | zero => exact absurd hchild (by simp [h token hmem])
  | succ fewer => exact ⟨fewer, rfl, h token hmem spelling hchild⟩

theorem EndsWithin.mono {levels more : Nat} {tokens : List Token}
    (h : subtrees.EndsWithin levels tokens) (le : levels ≤ more) :
    subtrees.EndsWithin more tokens := by
  induction levels generalizing more tokens with
  | zero =>
      cases more with
      | zero => exact h
      | succ more =>
          intro token hmem spelling hchild
          exact absurd hchild (by simp [h token hmem])
  | succ levels ih =>
      obtain ⟨fewer, rfl⟩ : ∃ fewer, more = fewer + 1 := ⟨more - 1, by omega⟩
      intro token hmem spelling hchild
      exact ih (h token hmem spelling hchild) (by omega)

/-- What is stored for an identity that is met ends within fewer levels. -/
theorem EndsWithin.of_meets {levels : Nat} {tokens : List Token}
    (h : subtrees.EndsWithin levels tokens) {reference : Token} {spelling : Spelling}
    (met : subtrees.Meets tokens reference.id)
    (stored : subtrees.get? reference = some spelling) :
    ∃ fewer, fewer < levels ∧ subtrees.EndsWithin fewer spelling.tokens := by
  generalize hid : reference.id = id at met
  induction met generalizing levels with
  | @here other tokens mem isReference =>
      have hchild : subtrees.child? other = some spelling :=
        child?_eq_some_iff.mpr ⟨isReference, (subtrees.get?_congr hid.symm).trans stored⟩
      obtain ⟨fewer, rfl, hfewer⟩ := endsWithin_child h mem hchild
      exact ⟨fewer, Nat.lt_succ_self _, hfewer⟩
  | inside mem isReference stored' _ ih =>
      have hchild := child?_eq_some_iff.mpr ⟨isReference, stored'⟩
      obtain ⟨fewer, rfl, hfewer⟩ := endsWithin_child h mem hchild
      obtain ⟨least, hlt, hleast⟩ := ih hfewer hid
      exact ⟨least, Nat.lt_succ_of_lt hlt, hleast⟩

/-- Where following references ends, no identity is met below the spelling stored for it. -/
theorem EndsWithin.not_meets_self {levels : Nat} {reference : Token} {spelling : Spelling}
    (h : subtrees.EndsWithin levels spelling.tokens)
    (stored : subtrees.get? reference = some spelling) :
    ¬ subtrees.Meets spelling.tokens reference.id := by
  induction levels using Nat.strongRecOn with
  | ind levels ih =>
      intro met
      obtain ⟨fewer, hlt, hfewer⟩ := h.of_meets met stored
      exact ih fewer hlt hfewer met

/-- Following references ends when the identities met above and the levels left together are as many
as the entries, and no identity that is met is met again below what is stored for it. -/
theorem endsWithin_of_above {levels : Nat} {tokens : List Token} {above : List Nat}
    (apart : ∀ reference spelling, subtrees.Meets tokens reference.id →
      subtrees.get? reference = some spelling → ¬ subtrees.Meets spelling.tokens reference.id)
    (hnodup : above.Nodup) (hkeys : above ⊆ subtrees.entries.map fun entry => entry.1.id)
    (havoid : ∀ id ∈ above, ¬ subtrees.Meets tokens id)
    (hsize : subtrees.size ≤ levels + above.length) : subtrees.EndsWithin levels tokens := by
  induction levels generalizing tokens above with
  | zero =>
      intro token hmem
      cases hchild : subtrees.child? token with
      | none => rfl
      | some spelling =>
          obtain ⟨isReference, stored⟩ := child?_eq_some_iff.mp hchild
          have hnew : token.id ∉ above := fun hin => havoid _ hin (.here hmem isReference)
          have hmore := (List.nodup_cons.mpr ⟨hnew, hnodup⟩).length_le_of_subset
            (List.cons_subset.mpr ⟨id_mem_of_get? stored, hkeys⟩)
          simp only [size, List.length_cons, List.length_map] at hmore hsize
          omega
  | succ levels ih =>
      intro token hmem spelling hchild
      obtain ⟨isReference, stored⟩ := child?_eq_some_iff.mp hchild
      have hhere : subtrees.Meets tokens token.id := .here hmem isReference
      have hbelow : ∀ {id}, subtrees.Meets spelling.tokens id → subtrees.Meets tokens id :=
        fun met => .inside hmem isReference stored met
      have hnew : token.id ∉ above := fun hin => havoid _ hin hhere
      apply ih (fun reference found met => apart reference found (hbelow met))
        (List.nodup_cons.mpr ⟨hnew, hnodup⟩)
        (List.cons_subset.mpr ⟨id_mem_of_get? stored, hkeys⟩)
      · intro id hid met
        rcases List.mem_cons.mp hid with rfl | hid
        · exact apart token spelling hhere stored met
        · exact havoid id hid (hbelow met)
      · rw [List.length_cons]
        omega

/-- What ends at all ends within as many levels as there are entries. -/
theorem EndsWithin.size {levels : Nat} {tokens : List Token}
    (h : subtrees.EndsWithin levels tokens) : subtrees.EndsWithin subtrees.size tokens := by
  refine endsWithin_of_above ?_ List.nodup_nil (List.nil_subset _) (by simp) (by simp)
  intro reference spelling met stored
  obtain ⟨fewer, _, hfewer⟩ := h.of_meets met stored
  exact hfewer.not_meets_self stored

/-- No identity is met below what is stored for it. -/
def Acyclic (subtrees : Subtrees) : Prop :=
  ∀ token spelling, subtrees.get? token = some spelling →
    ¬ subtrees.Meets spelling.tokens token.id

/-- In an acyclic store following references ends, from any tokens, within as many levels as there
are entries. -/
theorem Acyclic.endsWithin (h : subtrees.Acyclic) (tokens : List Token) :
    subtrees.EndsWithin subtrees.size tokens :=
  endsWithin_of_above (fun reference spelling _ stored => h reference spelling stored)
    List.nodup_nil (List.nil_subset _) (by simp) (by simp)

/-- Beyond the end, more levels find no other leaves. -/
theorem EndsWithin.leavesWithin_eq {levels more : Nat} {spelling : Spelling}
    (h : subtrees.EndsWithin levels spelling.tokens) (le : levels ≤ more) :
    subtrees.leavesWithin more spelling = subtrees.leavesWithin levels spelling := by
  induction levels generalizing more spelling with
  | zero =>
      cases more with
      | zero => rfl
      | succ more =>
          calc subtrees.leavesWithin (more + 1) spelling
              = spelling.tokens.flatMap fun token => [token] := by
                rw [leavesWithin]
                apply List.flatMap_congr
                intro token hmem
                rw [h token hmem]
            _ = subtrees.leavesWithin 0 spelling := List.flatMap_singleton' _
  | succ levels ih =>
      obtain ⟨fewer, rfl⟩ : ∃ fewer, more = fewer + 1 := ⟨more - 1, by omega⟩
      rw [leavesWithin, leavesWithin]
      apply List.flatMap_congr
      intro token hmem
      cases hchild : subtrees.child? token with
      | none => rfl
      | some child => exact ih (h token hmem child hchild) (by omega)

/-- Beyond the end, more levels meet no other spellings. -/
theorem EndsWithin.nodeCountWithin_eq {levels more : Nat} {spelling : Spelling}
    (h : subtrees.EndsWithin levels spelling.tokens) (le : levels ≤ more) :
    subtrees.nodeCountWithin more spelling = subtrees.nodeCountWithin levels spelling := by
  induction levels generalizing more spelling with
  | zero =>
      cases more with
      | zero => rfl
      | succ more =>
          rw [nodeCountWithin, nodeCountWithin, total_eq_zero]
          intro token hmem
          rw [h token hmem]
  | succ levels ih =>
      obtain ⟨fewer, rfl⟩ : ∃ fewer, more = fewer + 1 := ⟨more - 1, by omega⟩
      rw [nodeCountWithin, nodeCountWithin]
      congr 1
      apply total_congr
      intro token hmem
      cases hchild : subtrees.child? token with
      | none => rfl
      | some child => exact ih (h token hmem child hchild) (by omega)

/-- Going down further than the bound finds no other leaves and meets no other spellings. -/
structure Settles (subtrees : Subtrees) (bound : Nat) (spelling : Spelling) : Prop where
  ends : subtrees.EndsWithin bound spelling.tokens
  leaves : ∀ levels, bound ≤ levels →
    subtrees.leavesWithin levels spelling = subtrees.leaves spelling
  leafCount : ∀ levels, bound ≤ levels →
    subtrees.leafCountWithin levels spelling = subtrees.leafCount spelling
  nodeCount : ∀ levels, bound ≤ levels →
    subtrees.nodeCountWithin levels spelling = subtrees.nodeCount spelling

/-- Where following references ends, everything is found within that many levels. -/
theorem EndsWithin.settles {bound : Nat} {spelling : Spelling}
    (h : subtrees.EndsWithin bound spelling.tokens) : subtrees.Settles bound spelling := by
  have hleaves : ∀ levels, bound ≤ levels →
      subtrees.leavesWithin levels spelling = subtrees.leaves spelling := by
    intro levels hle
    rw [leaves]
    rcases Nat.le_total levels subtrees.size with hsize | hsize
    · exact ((h.mono hle).leavesWithin_eq hsize).symm
    · exact h.size.leavesWithin_eq hsize
  refine ⟨h, hleaves, ?_, ?_⟩
  · intro levels hle
    rw [leafCount, leafCountWithin_eq_length, leafCountWithin_eq_length, hleaves levels hle, leaves]
  · intro levels hle
    rw [nodeCount]
    rcases Nat.le_total levels subtrees.size with hsize | hsize
    · exact ((h.mono hle).nodeCountWithin_eq hsize).symm
    · exact h.size.nodeCountWithin_eq hsize

end Subtrees

end TreeAlign
