import Mathlib.Data.List.Nodup
import TreeAlign.Proofs.Lossless
import TreeAlign.Proofs.Spelling.Ending

/-!
# Entries in the order in which a tree is finished

`Subtrees.Lists` relates a token list to the entries below it: every
reference is followed, what its spelling lists comes first, and the entry of
the reference comes behind. This is the order in which a match stores the
children of a tree. Where the entries of a store are listed in this way,
each of them is reached, and there are as many spellings as there are
entries and one more. Where moreover no identity occurs twice among all
tokens, every entry has one owner.
-/

namespace TreeAlign

namespace Subtrees

variable {subtrees : Subtrees}

/-- The entries below a token list, those of a child before its own. -/
inductive Lists : List Token → List (Token × Spelling) → Prop where
  | nil : Lists [] []
  | leaf {token : Token} {rest : List Token} {entries : List (Token × Spelling)}
      (plain : token.isReference = false) (tail : Lists rest entries) :
      Lists (token :: rest) entries
  | child {reference : Token} {spelling : Spelling} {rest : List Token}
      {inner outer : List (Token × Spelling)} (isReference : reference.isReference = true)
      (inside : Lists spelling.tokens inner) (tail : Lists rest outer) :
      Lists (reference :: rest) (inner ++ (reference, spelling) :: outer)

theorem Reaches.subset {spelling : Spelling} {tokens more : List Token}
    (h : subtrees.Reaches spelling tokens) (hsub : tokens ⊆ more) :
    subtrees.Reaches spelling more := by
  cases h with
  | here mem found => exact .here (hsub mem) found
  | deeper mem found inside => exact .deeper (hsub mem) found inside

/-- The number of spellings met below a token list when references are followed up to `levels`
further down. -/
def countBelow (subtrees : Subtrees) (levels : Nat) (tokens : List Token) : Nat :=
  total (fun token => (subtrees.child? token).elim 0 (subtrees.nodeCountWithin levels)) tokens

theorem countBelow_cons (levels : Nat) (token : Token) (rest : List Token) :
    subtrees.countBelow levels (token :: rest) =
      (subtrees.child? token).elim 0 (subtrees.nodeCountWithin levels) +
        subtrees.countBelow levels rest := rfl

theorem nodeCountWithin_succ (levels : Nat) (spelling : Spelling) :
    subtrees.nodeCountWithin (levels + 1) spelling =
      1 + subtrees.countBelow levels spelling.tokens := by
  rw [nodeCountWithin, countBelow]
  congr 1
  apply total_congr
  intro token _
  cases subtrees.child? token <;> rfl

namespace Lists

variable {tokens : List Token} {entries : List (Token × Spelling)}

theorem append {left right : List Token} {inner outer : List (Token × Spelling)}
    (hl : Lists left inner) (hr : Lists right outer) : Lists (left ++ right) (inner ++ outer) := by
  induction hl with
  | nil => exact hr
  | leaf plain _ ih => exact .leaf plain ih
  | child isReference inside _ _ ih =>
      rw [List.append_assoc]
      exact .child isReference inside ih

/-- Tokens that are no references have no entries below them. -/
theorem of_plain (h : ∀ token ∈ tokens, token.isReference = false) : Lists tokens [] := by
  induction tokens with
  | nil => exact .nil
  | cons token rest ih =>
      apply Lists.leaf (h token (List.mem_cons_self ..))
      exact ih fun other hother => h other (List.mem_cons_of_mem _ hother)

/-- No key occurs more often among the keys than among the tokens of the list and of the entries. -/
theorem count_keys_le (h : Lists tokens entries) (id : Nat) :
    (entries.map (·.1.id)).count id ≤
      ((tokens ++ entries.flatMap (·.2.tokens)).map (·.id)).count id := by
  induction h with
  | nil => exact Nat.le_refl _
  | leaf _ _ ih =>
      rw [List.cons_append, List.map_cons, List.count_cons]
      omega
  | child _ _ _ ih ih' =>
      simp only [List.map_append, List.count_append] at ih ih'
      simp only [List.cons_append, List.flatMap_append, List.flatMap_cons, List.map_append,
        List.map_cons, List.count_append, List.count_cons]
      omega

/-- The key of every entry occurs in the token list or in the tokens of an entry. -/
theorem key_mem (h : Lists tokens entries) {entry : Token × Spelling} (hentry : entry ∈ entries) :
    entry.1.id ∈ (tokens ++ entries.flatMap (·.2.tokens)).map (·.id) := by
  have hkey : entry.1.id ∈ entries.map (·.1.id) := List.mem_map_of_mem hentry
  apply List.count_pos_iff.mp
  exact Nat.lt_of_lt_of_le (List.count_pos_iff.mpr hkey) (h.count_keys_le _)

theorem isReference (h : Lists tokens entries) {entry : Token × Spelling}
    (hentry : entry ∈ entries) : entry.1.isReference = true := by
  induction h with
  | nil => exact absurd hentry (by simp)
  | leaf _ _ ih => exact ih hentry
  | child isReference _ _ ih ih' =>
      simp only [List.mem_append, List.mem_cons] at hentry
      rcases hentry with hinner | rfl | houter
      · exact ih hinner
      · exact isReference
      · exact ih' houter

/-- Every entry is reached from the token list, in a store that finds the entries. -/
theorem reaches (h : Lists tokens entries)
    (found : ∀ entry ∈ entries, subtrees.get? entry.1 = some entry.2)
    {entry : Token × Spelling} (hentry : entry ∈ entries) :
    subtrees.Reaches entry.2 tokens := by
  induction h with
  | nil => exact absurd hentry (by simp)
  | leaf _ _ ih => exact (ih found hentry).subset (List.subset_cons_self _ _)
  | @child reference spelling rest inner outer isReference _ _ ih ih' =>
      obtain ⟨hinner, hbehind⟩ := List.forall_mem_append.mp found
      obtain ⟨hstored, houter⟩ := List.forall_mem_cons.mp hbehind
      have hchild := child?_eq_some_iff.mpr ⟨isReference, hstored⟩
      simp only [List.mem_append, List.mem_cons] at hentry
      rcases hentry with hentry | rfl | hentry
      · exact .deeper (List.mem_cons_self ..) hchild (ih hinner hentry)
      · exact .here (List.mem_cons_self ..) hchild
      · exact (ih' houter hentry).subset (List.subset_cons_self _ _)

/-- With enough levels, as many spellings are met below the token list as it lists entries. -/
theorem countBelow_eq (h : Lists tokens entries)
    (found : ∀ entry ∈ entries, subtrees.get? entry.1 = some entry.2) {levels : Nat}
    (enough : entries.length ≤ levels + 1) :
    subtrees.countBelow levels tokens = entries.length := by
  induction h generalizing levels with
  | nil => rfl
  | leaf plain _ ih =>
      rw [countBelow_cons, child?_eq_none plain, ih found enough]
      exact Nat.zero_add _
  | @child reference spelling rest inner outer isReference _ _ ih ih' =>
      obtain ⟨hinner, hbehind⟩ := List.forall_mem_append.mp found
      obtain ⟨hstored, houter⟩ := List.forall_mem_cons.mp hbehind
      have hchild : subtrees.child? reference = some spelling :=
        child?_eq_some_iff.mpr ⟨isReference, hstored⟩
      simp only [List.length_append, List.length_cons] at enough ⊢
      -- the child's own entry pays for the level that is used up to get to it
      have hinside : subtrees.nodeCountWithin levels spelling = inner.length + 1 := by
        cases levels with
        | zero =>
            rw [nodeCountWithin]
            omega
        | succ levels =>
            rw [nodeCountWithin_succ, ih hinner (by omega)]
            omega
      rw [countBelow_cons, hchild, Option.elim_some, hinside, ih' houter (by omega)]
      omega

end Lists

/-- A store that lists what is below a spelling has an entry for every other spelling. -/
theorem nodeCount_of_lists {spelling : Spelling} (h : Lists spelling.tokens subtrees.entries)
    (found : ∀ entry ∈ subtrees.entries, subtrees.get? entry.1 = some entry.2) :
    subtrees.nodeCount spelling = subtrees.size + 1 := by
  rw [nodeCount]
  cases hsize : subtrees.size with
  | zero => rfl
  | succ levels =>
      have hlength : subtrees.entries.length = levels + 1 := hsize
      rw [nodeCountWithin_succ, h.countBelow_eq found (Nat.le_of_eq hlength), hlength]
      omega

theorem get?_eq_none_iff {token : Token} :
    subtrees.get? token = none ↔ ∀ entry ∈ subtrees.entries, entry.1.id ≠ token.id := by
  simp [get?, Token.same]

/-- The keys of all entries are below a bound for the store. -/
theorem below_iff {bound : Nat} :
    subtrees.Below bound ↔ ∀ entry ∈ subtrees.entries, entry.1.id < bound := by
  constructor
  · intro h entry hentry
    cases hget : subtrees.get? entry.1 with
    | none => exact absurd rfl (get?_eq_none_iff.mp hget entry hentry)
    | some spelling => exact h entry.1 spelling hget
  · intro h token spelling hget
    obtain ⟨entry, hentry, hid⟩ := List.mem_map.mp (id_mem_of_get? hget)
    exact hid ▸ h entry hentry

/-- A new identity is stored behind all others. -/
theorem entries_insert {token : Token} (new : subtrees.get? token = none) (spelling : Spelling) :
    (subtrees.insert token spelling).entries = subtrees.entries ++ [(token, spelling)] := by
  rw [get?_eq_none_iff] at new
  obtain ⟨entries⟩ := subtrees
  simp only [insert]
  induction entries with
  | nil => rfl
  | cons entry rest ih =>
      have hother : entry.1.id ≠ token.id := new entry (List.mem_cons_self ..)
      rw [insertIn, if_neg (by simpa [Token.same] using hother), List.cons_append,
        ih fun other hmem => new other (List.mem_cons_of_mem _ hmem)]

/-- Where all keys are different, every entry is found under its key. -/
theorem get?_of_mem (nodup : (subtrees.entries.map fun entry => entry.1.id).Nodup)
    {entry : Token × Spelling} (hentry : entry ∈ subtrees.entries) :
    subtrees.get? entry.1 = some entry.2 := by
  obtain ⟨entries⟩ := subtrees
  simp only [get?] at nodup hentry ⊢
  induction entries with
  | nil => exact absurd hentry (by simp)
  | cons first rest ih =>
      obtain ⟨hnew, hrest⟩ := List.nodup_cons.mp (List.map_cons ▸ nodup)
      rcases List.mem_cons.mp hentry with rfl | hmem
      · simp [Token.same]
      · have hother : first.1.same entry.1 = false := by
          simp only [Token.same, decide_eq_false_iff_not]
          intro hid
          exact hnew (hid ▸ List.mem_map_of_mem hmem)
        rw [List.find?_cons, hother]
        exact ih hrest hmem

end Subtrees

/-- Where no identity occurs twice, every token has one owner. -/
theorem Spelling.exists_owner {spellings : List Spelling} {key : Token}
    (nodup : ((spellings.flatMap (·.tokens)).map (·.id)).Nodup)
    (hkey : key.id ∈ (spellings.flatMap (·.tokens)).map (·.id)) :
    ∃ before owner after, spellings = before ++ owner :: after ∧
      owner.tokens.countP (·.same key) = 1 ∧
      ∀ other ∈ before ++ after, other.tokens.countP (·.same key) = 0 := by
  have hcount : ∀ tokens : List Token,
      tokens.countP (·.same key) = (tokens.map (·.id)).count key.id := by
    intro tokens
    rw [List.count, List.countP_map]
    rfl
  have hone := List.count_eq_one_of_mem nodup hkey
  rw [List.map_flatMap] at hkey
  obtain ⟨owner, howner, hmem⟩ := List.mem_flatMap.mp hkey
  obtain ⟨before, after, rfl⟩ := List.append_of_mem howner
  have hpositive : 0 < (owner.tokens.map (·.id)).count key.id := List.count_pos_iff.mpr hmem
  simp only [List.flatMap_append, List.flatMap_cons, List.map_append, List.count_append] at hone
  refine ⟨before, owner, after, rfl, ?_, ?_⟩
  · rw [hcount]
    omega
  · intro other hother
    rw [hcount, List.count_eq_zero]
    intro hid
    have hrest : 0 < (((before ++ after).flatMap (·.tokens)).map (·.id)).count key.id := by
      rw [List.count_pos_iff, List.map_flatMap]
      exact List.mem_flatMap.mpr ⟨other, hother, hid⟩
    simp only [List.flatMap_append, List.map_append, List.count_append] at hrest
    omega

namespace Alignment

/-- The root and what is stored, in the order of the store. -/
def spellings (alignment : Alignment) : List Spelling :=
  alignment.root :: alignment.subtrees.entries.map (·.2)

/-- The spelling is the root, or reached from it through references. -/
def Contains (alignment : Alignment) (spelling : Spelling) : Prop :=
  spelling = alignment.root ∨ alignment.subtrees.Reaches spelling alignment.root.tokens

/-- The key occurs once in the tokens of one spelling that is part of the tree, and nowhere else
among the tokens of the alignment. -/
def OwnedOnce (alignment : Alignment) (key : Token) : Prop :=
  ∃ before owner after, alignment.spellings = before ++ owner :: after ∧
    alignment.Contains owner ∧ owner.tokens.countP (·.same key) = 1 ∧
    ∀ other ∈ before ++ after, other.tokens.countP (·.same key) = 0

variable {alignment : Alignment}

theorem contains_of_mem
    (reached : ∀ entry ∈ alignment.subtrees.entries, alignment.Contains entry.2)
    {spelling : Spelling} (h : spelling ∈ alignment.spellings) : alignment.Contains spelling := by
  rcases List.mem_cons.mp h with rfl | hstored
  · exact Or.inl rfl
  · obtain ⟨entry, hentry, rfl⟩ := List.mem_map.mp hstored
    exact reached entry hentry

/-- If the store lists what is below the root and no identity occurs twice, then it is the tree
below the root. -/
theorem tree_of_lists
    (lists : Subtrees.Lists alignment.root.tokens alignment.subtrees.entries)
    (nodup : ((alignment.root.tokens ++
      alignment.subtrees.entries.flatMap (·.2.tokens)).map (·.id)).Nodup) :
    (∀ entry ∈ alignment.subtrees.entries,
      alignment.subtrees.child? entry.1 = some entry.2 ∧ alignment.OwnedOnce entry.1 ∧
        alignment.Contains entry.2) ∧
      alignment.nodeCount = alignment.subtrees.size + 1 := by
  have htokens : alignment.spellings.flatMap (·.tokens) =
      alignment.root.tokens ++ alignment.subtrees.entries.flatMap (·.2.tokens) := by
    rw [spellings, List.flatMap_cons, List.flatMap_map]
  have hkeys : (alignment.subtrees.entries.map fun entry => entry.1.id).Nodup := by
    apply List.nodup_iff_count_le_one.mpr
    intro id
    exact Nat.le_trans (lists.count_keys_le id) (List.nodup_iff_count_le_one.mp nodup id)
  have hfound : ∀ entry ∈ alignment.subtrees.entries,
      alignment.subtrees.get? entry.1 = some entry.2 :=
    fun entry hentry => Subtrees.get?_of_mem hkeys hentry
  have hreached : ∀ entry ∈ alignment.subtrees.entries, alignment.Contains entry.2 :=
    fun entry hentry => Or.inr (lists.reaches hfound hentry)
  refine ⟨?_, Subtrees.nodeCount_of_lists lists hfound⟩
  intro entry hentry
  refine ⟨?_, ?_, hreached entry hentry⟩
  · exact Subtrees.child?_eq_some_iff.mpr ⟨lists.isReference hentry, hfound entry hentry⟩
  · have hkey := lists.key_mem hentry
    rw [← htokens] at nodup hkey
    obtain ⟨before, owner, after, hsplit, hone, hnone⟩ := Spelling.exists_owner nodup hkey
    have howner : owner ∈ alignment.spellings := by
      rw [hsplit]
      exact List.mem_append_right _ (List.mem_cons_self ..)
    exact ⟨before, owner, after, hsplit, contains_of_mem hreached howner, hone, hnone⟩

end Alignment

end TreeAlign
