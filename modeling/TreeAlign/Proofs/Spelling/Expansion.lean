import TreeAlign.Proofs.Spelling.Growth
import TreeAlign.Proofs.Text.Position

/-!
# Expanding references to the end

`Subtrees.Expands` relates a token list to its leaves: every reference in it
leads to a stored spelling, whose tokens are expanded in turn. A derivation
is finite, so a list that has one never leads back to itself. Expansion with
a bounded number of levels then gives the same leaves, because a chain of
references that never repeats is no longer than the store.

## Implementation notes

The store may grow while leaves are talked about. The relation only asks
for entries that are there, so it is kept by every store that leads at least
where the old one led.
-/

namespace TreeAlign

namespace Subtrees

variable {subtrees : Subtrees}

/-- A token list and its leaves. -/
inductive Expands (subtrees : Subtrees) : List Token → List Token → Prop where
  | nil : Expands subtrees [] []
  | leaf {token : Token} {rest leaves : List Token} (plain : token.isReference = false)
      (tail : Expands subtrees rest leaves) : Expands subtrees (token :: rest) (token :: leaves)
  | child {reference : Token} {spelling : Spelling} {rest inner leaves : List Token}
      (isReference : reference.isReference = true)
      (stored : subtrees.get? reference = some spelling)
      (inside : Expands subtrees spelling.tokens inner) (tail : Expands subtrees rest leaves) :
      Expands subtrees (reference :: rest) (inner ++ leaves)

namespace Expands

/-- Tokens that are no references are their own leaves. -/
theorem of_plain {tokens : List Token} (h : ∀ token ∈ tokens, token.isReference = false) :
    subtrees.Expands tokens tokens := by
  induction tokens with
  | nil => exact .nil
  | cons token rest ih =>
      exact .leaf (h token (by simp)) (ih fun t ht => h t (by simp [ht]))

theorem append {left right inner outer : List Token} (hl : subtrees.Expands left inner)
    (hr : subtrees.Expands right outer) : subtrees.Expands (left ++ right) (inner ++ outer) := by
  induction hl with
  | nil => exact hr
  | leaf plain _ ih => exact .leaf plain ih
  | child isReference stored inside _ _ ih =>
      rw [List.append_assoc]
      exact .child isReference stored inside ih

theorem mono {later : Subtrees} {tokens leaves : List Token} (h : subtrees.Expands tokens leaves)
    (grown : later.Extends subtrees) : later.Expands tokens leaves := by
  induction h with
  | nil => exact .nil
  | leaf plain _ ih => exact .leaf plain ih
  | child isReference stored _ _ ih ih' =>
      exact .child isReference (grown _ _ stored) ih ih'

/-- The leaves of two lists together are those of the first and those of the second. -/
theorem split {left right leaves : List Token} (h : subtrees.Expands (left ++ right) leaves) :
    ∃ inner outer, subtrees.Expands left inner ∧ subtrees.Expands right outer ∧
      leaves = inner ++ outer := by
  induction left generalizing leaves with
  | nil => exact ⟨[], leaves, .nil, h, rfl⟩
  | cons token rest ih =>
      cases h with
      | leaf plain tail =>
          obtain ⟨inner, outer, hinner, houter, rfl⟩ := ih tail
          exact ⟨token :: inner, outer, .leaf plain hinner, houter, rfl⟩
      | @child _ _ _ first _ isReference stored inside tail =>
          obtain ⟨inner, outer, hinner, houter, rfl⟩ := ih tail
          refine ⟨first ++ inner, outer, .child isReference stored inside hinner, houter, ?_⟩
          rw [List.append_assoc]

/-- No leaf is a reference. -/
theorem isReference_eq_false {tokens leaves : List Token} (h : subtrees.Expands tokens leaves) :
    ∀ token ∈ leaves, token.isReference = false := by
  induction h with
  | nil => simp
  | leaf plain _ ih =>
      intro token ht
      rcases List.mem_cons.mp ht with rfl | ht
      · exact plain
      · exact ih token ht
  | child _ _ _ _ ih ih' =>
      intro token ht
      rcases List.mem_append.mp ht with ht | ht
      · exact ih token ht
      · exact ih' token ht

end Expands

/-- An identity is met when the references of a token list are followed. -/
inductive Meets (subtrees : Subtrees) : List Token → Nat → Prop where
  | here {reference : Token} {tokens : List Token} (mem : reference ∈ tokens)
      (isReference : reference.isReference = true) : Meets subtrees tokens reference.id
  | inside {reference : Token} {tokens : List Token} {spelling : Spelling} {id : Nat}
      (mem : reference ∈ tokens) (isReference : reference.isReference = true)
      (stored : subtrees.get? reference = some spelling)
      (met : Meets subtrees spelling.tokens id) : Meets subtrees tokens id

theorem not_meets_nil (id : Nat) : ¬ subtrees.Meets [] id := by
  intro h
  cases h with
  | here mem _ => exact absurd mem (by simp)
  | inside mem _ _ _ => exact absurd mem (by simp)

theorem Meets.subset {tokens more : List Token} {id : Nat} (h : subtrees.Meets tokens id)
    (hsub : tokens ⊆ more) : subtrees.Meets more id := by
  cases h with
  | here mem isReference => exact .here (hsub mem) isReference
  | inside mem isReference stored met => exact .inside (hsub mem) isReference stored met

theorem meets_cons {token : Token} {rest : List Token} {id : Nat}
    (h : subtrees.Meets (token :: rest) id) :
    (token.isReference = true ∧ (token.id = id ∨
      ∃ spelling, subtrees.get? token = some spelling ∧ subtrees.Meets spelling.tokens id)) ∨
      subtrees.Meets rest id := by
  cases h with
  | here mem isReference =>
      rcases List.mem_cons.mp mem with rfl | mem
      · exact Or.inl ⟨isReference, Or.inl rfl⟩
      · exact Or.inr (.here mem isReference)
  | inside mem isReference stored met =>
      rcases List.mem_cons.mp mem with rfl | mem
      · exact Or.inl ⟨isReference, Or.inr ⟨_, stored, met⟩⟩
      · exact Or.inr (.inside mem isReference stored met)

/-- A reference that is met is not met again below the spelling it leads to. -/
theorem Expands.not_meets_again {tokens leaves : List Token} (h : subtrees.Expands tokens leaves)
    {reference : Token} {spelling : Spelling} (hm : subtrees.Meets tokens reference.id)
    (hs : subtrees.get? reference = some spelling) :
    ¬ subtrees.Meets spelling.tokens reference.id := by
  induction h with
  | nil => exact absurd hm (not_meets_nil _)
  | leaf plain _ ih =>
      rcases meets_cons hm with ⟨hr, _⟩ | hm
      · exact absurd hr (by simp [plain])
      · exact ih hm
  | @child other found rest inner leaves isReference stored inside tail ih ih' =>
      rcases meets_cons hm with ⟨_, hid | ⟨_, hs', hm⟩⟩ | hm
      · -- the reference itself: what it leads to is expanded inside, so the hypothesis applies
        have hsame : subtrees.get? other = subtrees.get? reference := subtrees.get?_congr hid
        have hfound : found = spelling := by
          rw [stored, hs] at hsame
          exact Option.some.inj hsame
        subst hfound
        intro hagain
        exact ih hagain hagain
      · rw [stored, Option.some.injEq] at hs'
        subst hs'
        exact ih hm
      · exact ih' hm

/-- The tokens of a list with references expanded up to `levels` deep. -/
def expandWithin (subtrees : Subtrees) : Nat → List Token → List Token
  | 0, tokens => tokens
  | levels + 1, tokens => tokens.flatMap fun token =>
    match subtrees.child? token with
    | some child => subtrees.leavesWithin levels child
    | none => [token]

/-- The tokens of a list with every reference replaced by what it stands for. -/
def expand (subtrees : Subtrees) (tokens : List Token) : List Token :=
  subtrees.expandWithin subtrees.size tokens

theorem leavesWithin_eq_expandWithin (subtrees : Subtrees) (levels : Nat) (spelling : Spelling) :
    subtrees.leavesWithin levels spelling = subtrees.expandWithin levels spelling.tokens := by
  cases levels <;> rfl

theorem leaves_eq_expand (subtrees : Subtrees) (spelling : Spelling) :
    subtrees.leaves spelling = subtrees.expand spelling.tokens :=
  leavesWithin_eq_expandWithin _ _ _

/-- Counting leaves gives as many as there are, level by level. -/
theorem leafCountWithin_eq_length (subtrees : Subtrees) (levels : Nat) (spelling : Spelling) :
    subtrees.leafCountWithin levels spelling = (subtrees.leavesWithin levels spelling).length := by
  induction levels generalizing spelling with
  | zero => rfl
  | succ levels ih =>
      rw [leafCountWithin, leavesWithin]
      induction spelling.tokens with
      | nil => rfl
      | cons token rest ihrest =>
          rw [total_cons, List.flatMap_cons, List.length_append, ihrest]
          cases subtrees.child? token with
          | none => rfl
          | some child => simp only [ih]

theorem id_mem_of_get? {token : Token} {spelling : Spelling}
    (h : subtrees.get? token = some spelling) :
    token.id ∈ subtrees.entries.map fun entry => entry.1.id := by
  simp only [get?, Option.map_eq_some_iff] at h
  obtain ⟨entry, hfind, _⟩ := h
  have hmem := List.mem_of_find?_eq_some hfind
  have hid : entry.1.id = token.id := by simpa [Token.same] using List.find?_some hfind
  rw [← hid]
  exact List.mem_map_of_mem hmem

/-- Expansion reaches the leaves when the identities met above and the levels left together are
as many as the entries. The identities above are all different and never met again. -/
theorem Expands.expandWithin_eq {tokens leaves : List Token} (h : subtrees.Expands tokens leaves)
    {levels : Nat} {above : List Nat} (hnodup : above.Nodup)
    (hkeys : above ⊆ subtrees.entries.map fun entry => entry.1.id)
    (havoid : ∀ id ∈ above, ¬ subtrees.Meets tokens id)
    (hsize : subtrees.size ≤ levels + above.length) :
    subtrees.expandWithin levels tokens = leaves := by
  induction h generalizing levels above with
  | nil => cases levels <;> rfl
  | @leaf token rest leaves plain tail ih =>
      have hrest := ih hnodup hkeys
        (fun id hid hm => havoid id hid (hm.subset (List.subset_cons_self _ _))) hsize
      cases levels with
      | zero => exact congrArg (token :: ·) hrest
      | succ levels =>
          have hchild : subtrees.child? token = none := by simp [child?, plain]
          simpa [expandWithin, hchild] using hrest
  | @child reference spelling rest inner leaves isReference stored inside tail ih ih' =>
      have hmet : subtrees.Meets (reference :: rest) reference.id :=
        .here (List.mem_cons_self ..) isReference
      have hnew : reference.id ∉ above := fun hmem => havoid _ hmem hmet
      have hnodup' : (reference.id :: above).Nodup := List.nodup_cons.mpr ⟨hnew, hnodup⟩
      have hkeys' : reference.id :: above ⊆ subtrees.entries.map fun entry => entry.1.id :=
        List.cons_subset.mpr ⟨id_mem_of_get? stored, hkeys⟩
      have hbound : above.length + 1 ≤ subtrees.size := by
        simpa [size] using hnodup'.length_le_of_subset hkeys'
      obtain ⟨levels, rfl⟩ : ∃ n, levels = n + 1 := ⟨levels - 1, by omega⟩
      have hinside : subtrees.expandWithin levels spelling.tokens = inner := by
        apply ih hnodup' hkeys'
        · intro id hid hm
          rcases List.mem_cons.mp hid with rfl | hid
          · exact (Expands.child isReference stored inside tail).not_meets_again hmet stored hm
          · exact havoid id hid (.inside (List.mem_cons_self ..) isReference stored hm)
        · simp only [List.length_cons]
          omega
      have htail : subtrees.expandWithin (levels + 1) rest = leaves :=
        ih' hnodup hkeys
          (fun id hid hm => havoid id hid (hm.subset (List.subset_cons_self _ _))) hsize
      have hchild : subtrees.child? reference = some spelling := by
        simp [child?, isReference, stored]
      rw [← hinside, ← htail, ← leavesWithin_eq_expandWithin]
      simp [expandWithin, hchild]

/-- The leaves of a token list are found by expanding it as deep as the store has entries. -/
theorem Expands.expand_eq {tokens leaves : List Token} (h : subtrees.Expands tokens leaves) :
    subtrees.expand tokens = leaves :=
  h.expandWithin_eq List.nodup_nil (List.nil_subset _) (by simp) (by simp)

theorem expand_append (subtrees : Subtrees) (left right : List Token) :
    subtrees.expand (left ++ right) = subtrees.expand left ++ subtrees.expand right := by
  rw [expand, expand, expand]
  cases subtrees.size with
  | zero => rfl
  | succ levels => exact List.flatMap_append

/-- A reference expands to what its spelling expands to. -/
theorem expand_reference {reference : Token} {spelling : Spelling} {leaves : List Token}
    (isReference : reference.isReference = true)
    (stored : subtrees.get? reference = some spelling)
    (inside : subtrees.Expands spelling.tokens leaves) :
    subtrees.expand [reference] = subtrees.expand spelling.tokens := by
  rw [(Expands.child isReference stored inside .nil).expand_eq, inside.expand_eq, List.append_nil]

/-- The leaves of a spelling whose tokens have an expansion. -/
theorem Expands.leaves_eq {spelling : Spelling} {leaves : List Token}
    (h : subtrees.Expands spelling.tokens leaves) : subtrees.leaves spelling = leaves :=
  (leaves_eq_expand subtrees spelling).trans h.expand_eq

theorem Expands.leafCount_eq {spelling : Spelling} {leaves : List Token}
    (h : subtrees.Expands spelling.tokens leaves) :
    subtrees.leafCount spelling = leaves.length := by
  rw [leafCount, leafCountWithin_eq_length, ← h.leaves_eq, Subtrees.leaves]

end Subtrees

end TreeAlign
