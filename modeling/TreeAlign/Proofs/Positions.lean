import TreeAlign.Proofs.Grammar.Settled
import TreeAlign.Proofs.Matching.Gathering

/-!
# Positions in attached tokens

A match on attached tokens without a text reads the first tokens of every
node's list, and the leaves of the aligned tree are those tokens, with every
reference replaced by what its child was read from. Positions count exactly
these leaves, wherever the white space between two children ended up.

With a text behind the tokens a child may be read from the text after all.
Its white space then is missing from the count: the child is passed while the
white space still waits in the slot, and only its own leaves are counted. The
extent of the root is too short by exactly such strays.
-/

namespace TreeAlign

/-- The store in which every child has the first tokens of the list attached to its node. -/
def Subtrees.attached (subtrees : Subtrees) (count : Nat → Nat) : Subtrees :=
  subtrees.retold fun id spelling => (spelling.node.tokens.getD []).take (count id)

namespace Progress

variable {τ ρ : Type} {progress : Progress τ Input ρ}

/-- The number of tokens that the child stored under the identity was read from. -/
def readOf (progress : Progress τ Input ρ) (id : Nat) : Nat :=
  match progress.source.get? ⟨default, id⟩ with
  | some spelling => spelling.tokens.length
  | none => 0

theorem readOf_eq {reference : Token} {spelling : Spelling}
    (stored : progress.subtrees.get? reference = some spelling)
    (medium : spelling.extent.medium = .tokens) :
    progress.readOf reference.id =
      min (progress.receipt reference.id).read (spelling.node.tokens.getD []).length := by
  have hget : progress.source.get? ⟨default, reference.id⟩ = progress.source.get? reference := rfl
  rw [readOf, hget, get?_source stored, ← List.length_take]
  exact congrArg List.length (Receipt.source_of_tokens medium _)

/-- If all children were read from tokens, they were read from the first tokens of their lists. -/
theorem attached_extends_source (only : progress.subtrees.TokensOnly) :
    (progress.subtrees.attached progress.readOf).Extends progress.source := by
  intro token found h
  rw [source, Subtrees.get?_retold] at h
  obtain ⟨spelling, hget, rfl⟩ := Option.map_eq_some_iff.mp h
  have hmedium : spelling.extent.medium = .tokens := only token spelling hget
  rw [Subtrees.attached, Subtrees.get?_retold, hget, Option.map_some, readOf_eq hget hmedium,
    Receipt.source_of_tokens hmedium, ← List.take_eq_take_min]

/-- Without children that were read from the text there are no strays. -/
theorem Strays.eq_nil {tokens strays : List Token} (h : progress.Strays tokens strays)
    (only : progress.subtrees.TokensOnly) : strays = [] := by
  induction h with
  | nil => rfl
  | leaf _ _ ih => exact ih
  | read _ _ _ _ _ ih ih' => rw [ih, ih', List.append_nil]
  | fallen _ stored medium _ _ => exact absurd (only _ _ stored) medium

end Progress

namespace Aligner

variable {ρ : Type}

/-- A match on attached tokens reproduces them. Every node was read from the first tokens of its
list, the leaves of the tree are those tokens of the root with every reference replaced by the
tokens its child was read from, over and over, and the extent of the root counts them. -/
theorem run_tokens_reproduced (aligner : Aligner Stock ρ) (takes : aligner.grammar.TakesOnly)
    {root : Node Token} {supply : Nat} {alignment : Alignment}
    (h : (aligner.run root (Input.tokens (.ofNode root)) supply).1 = .ok alignment)
    (once : (aligner.run root (Input.tokens (.ofNode root)) supply).2.RecordsOnce) :
    alignment.root.node = root ∧ alignment.root.extent.medium = .tokens ∧
      (∀ reference spelling, alignment.subtrees.get? reference = some spelling →
        spelling.extent.medium = .tokens) ∧
      ∃ (first : Nat) (count : Nat → Nat), first ≤ (root.tokens.getD []).length ∧
        (∀ reference spelling, alignment.subtrees.get? reference = some spelling →
          count reference.id ≤ (spelling.node.tokens.getD []).length) ∧
        (alignment.subtrees.attached count).Expands ((root.tokens.getD []).take first)
          alignment.leaves ∧
        alignment.root.extent.stop = alignment.root.extent.start + alignment.leaves.length := by
  obtain ⟨spelling, after, hmatch, halignment, hafter⟩ := run_eq_ok h
  have htextless : (Input.tokens (.ofNode root)).IsTextless := rfl
  obtain ⟨hmedium, honly⟩ := readsTokens_matchNode takes _ (.root root) htextless
    Subtrees.tokensOnly_empty hmatch
  have hroot : alignment.root.extent.medium = .tokens := by
    rw [halignment]
    exact hmedium
  obtain ⟨counted, strays, haccount, hnode, hsubtrees, hextent⟩ :=
    account_of_run takes rfl rfl (Prod.ext h rfl) once hroot
  have honly : (aligner.run root (Input.tokens (.ofNode root)) supply).2.subtrees.TokensOnly := by
    rw [hafter]
    exact honly
  have hstrays : strays = [] := haccount.stray.eq_nil honly
  have hcounted : counted = alignment.leaves := by
    apply haccount.sublist.eq_of_length
    rw [haccount.perm.length_eq, hstrays, List.append_nil]
  have hsource := haccount.source.mono (Progress.attached_extends_source honly)
  rw [hcounted, List.take_eq_take_min] at hsource
  rw [hcounted] at hextent
  rw [hsubtrees]
  refine ⟨hnode, hroot, honly, _, _, Nat.min_le_right _ _, ?_, hsource, hextent⟩
  intro reference spelling hget
  rw [Progress.readOf_eq hget (honly reference spelling hget)]
  exact Nat.min_le_right _ _

/-- A sum with a group on its left side. The name in the group has the white space behind it. -/
def attachedSum : Node Token :=
  ⟨"Sum", [("left", .node ⟨"Group", [("inner", .node ⟨"Name", [], none,
      some [⟨⟨"Identifier", "a"⟩, 2⟩, ⟨⟨"Whitespace", " "⟩, 3⟩]⟩)], none,
    some [⟨.reference "inner", 1⟩]⟩)], none,
    some [⟨.reference "left", 0⟩, ⟨⟨"Punctuator", "+"⟩, 4⟩, ⟨⟨"Whitespace", " "⟩, 5⟩]⟩

/-- Names read the white space behind them, and a sum has a sign behind its left side. -/
def attachedSumAligner : Aligner Stock ByName where
  grammar := .demanding
    [("Group", [[.reference "inner"]]), ("Name", [[.identifier "a", .separator]]),
      ("Sum", [[.reference "left"], [.punctuator "+"]])]
  resolver := .byName

/-- The white space of the name surfaces in the sum, and is counted once. The last token of the sum
is never read. -/
theorem run_tokens_reproduced_attachedSum :
    ∃ alignment,
      (attachedSumAligner.run attachedSum (Input.tokens (.ofNode attachedSum)) 6).1 =
        .ok alignment ∧
      (attachedSumAligner.run attachedSum (Input.tokens (.ofNode attachedSum)) 6).2.RecordsOnce ∧
      alignment.leaves.map (·.id) = [2, 3, 4] ∧ alignment.root.tokens.map (·.id) = [0, 3, 4] ∧
      ∃ (first : Nat) (count : Nat → Nat),
        (alignment.subtrees.attached count).Expands ((attachedSum.tokens.getD []).take first)
          alignment.leaves ∧
        alignment.root.extent.stop = alignment.root.extent.start + alignment.leaves.length := by
  have hrun : ((attachedSumAligner.run attachedSum (Input.tokens (.ofNode attachedSum))
      6).1.toOption.map fun alignment =>
        (alignment.leaves.map (·.id), alignment.root.tokens.map (·.id))) =
      some ([2, 3, 4], [0, 3, 4]) := by
    decide +kernel
  have honce : (attachedSumAligner.run attachedSum (Input.tokens (.ofNode attachedSum))
      6).2.RecordsOnce := by
    unfold Progress.RecordsOnce
    decide +kernel
  obtain ⟨alignment, hfound, hvalues⟩ := Option.map_eq_some_iff.mp hrun
  have h := eq_ok_of_toOption hfound
  obtain ⟨_, _, _, first, count, _, _, hexpands, hextent⟩ :=
    run_tokens_reproduced attachedSumAligner (Grammar.takesOnly_demanding _) h honce
  exact ⟨alignment, h, honce, congrArg Prod.fst hvalues, congrArg Prod.snd hvalues, first, count,
    hexpands, hextent⟩

/-- The extent of a root that was read from its tokens is too short by the strays: what was left in
the slot by children that were read from the text after all. The leaves that it counts are those of
what was read, in their order. -/
theorem run_positions_miss_strays (aligner : Aligner Stock ρ) (takes : aligner.grammar.TakesOnly)
    {root : Node Token} {text : List Char} {supply : Nat} {alignment : Alignment}
    {progress : Progress Stock Input ρ}
    (h : aligner.run root (Input.tokens ((TokenCursor.ofNode root).withText text)) supply =
      (.ok alignment, progress))
    (once : progress.RecordsOnce) (medium : alignment.root.extent.medium = .tokens) :
    ∃ first counted strays,
      progress.source.Expands ((root.tokens.getD []).take first) counted ∧
      (∀ other, progress.Strays alignment.root.tokens other ↔ other = strays) ∧
      counted.Sublist alignment.leaves ∧ alignment.leaves.Perm (counted ++ strays) ∧
      alignment.root.extent.stop = alignment.root.extent.start + counted.length ∧
      (alignment.root.extent.stop = alignment.root.extent.start + alignment.leaves.length ↔
        strays = []) := by
  obtain ⟨counted, strays, haccount, _, _, hextent⟩ := account_of_run takes rfl rfl h once medium
  have hlength := haccount.perm.length_eq
  rw [List.length_append] at hlength
  refine ⟨_, counted, strays, haccount.source, ?_, haccount.sublist, haccount.perm, hextent, ?_⟩
  · intro other
    constructor
    · intro hother
      exact hother.unique haccount.stray
    · rintro rfl
      exact haccount.stray
  · rw [hextent, ← List.length_eq_zero_iff]
    omega

/-- A sum whose left side is a name without tokens of its own. -/
def rangedSum : Node Token :=
  ⟨"Sum", [("left", .node ⟨"Name", [], some ⟨0, 2⟩, none⟩)], none, some [⟨.reference "left", 0⟩]⟩

/-- Names read the white space behind them, and a sum is its left side. -/
def rangedSumAligner : Aligner Stock ByName where
  grammar := .demanding
    [("Name", [[.identifier "a", .separator]]), ("Sum", [[.reference "left"]])]
  resolver := .byName

/-- The name of the sum is read from the text after all, and leaves white space in the slot. -/
theorem run_positions_miss_strays_rangedSum :
    ∃ alignment progress,
      rangedSumAligner.run rangedSum
          (Input.tokens ((TokenCursor.ofNode rangedSum).withText "a ".toList)) 1 =
        (.ok alignment, progress) ∧
      progress.RecordsOnce ∧ alignment.root.extent = ⟨.tokens, 0, 1⟩ ∧
      alignment.leaves = [⟨⟨"Identifier", "a"⟩, 1⟩, ⟨⟨"Whitespace", " "⟩, 2⟩] ∧
      ∃ first counted strays,
        progress.source.Expands ((rangedSum.tokens.getD []).take first) counted ∧
        (∀ other, progress.Strays alignment.root.tokens other ↔ other = strays) ∧
        counted.Sublist alignment.leaves ∧ alignment.leaves.Perm (counted ++ strays) ∧
        counted.length = 1 ∧ strays ≠ [] := by
  have hrun : ((rangedSumAligner.run rangedSum
      (Input.tokens ((TokenCursor.ofNode rangedSum).withText "a ".toList)) 1).1.toOption.map
      fun alignment => (alignment.root.extent, alignment.leaves)) =
      some (⟨.tokens, 0, 1⟩, [⟨⟨"Identifier", "a"⟩, 1⟩, ⟨⟨"Whitespace", " "⟩, 2⟩]) := by
    decide +kernel
  have honce : (rangedSumAligner.run rangedSum
      (Input.tokens ((TokenCursor.ofNode rangedSum).withText "a ".toList))
      1).2.RecordsOnce := by
    unfold Progress.RecordsOnce
    decide +kernel
  obtain ⟨alignment, hfound, hvalues⟩ := Option.map_eq_some_iff.mp hrun
  have h := eq_ok_of_toOption hfound
  have hextent : alignment.root.extent = ⟨.tokens, 0, 1⟩ := congrArg Prod.fst hvalues
  have hleaves : alignment.leaves = [⟨⟨"Identifier", "a"⟩, 1⟩, ⟨⟨"Whitespace", " "⟩, 2⟩] :=
    congrArg Prod.snd hvalues
  obtain ⟨first, counted, strays, hsource, hstrays, hsublist, hperm, hcounted, hiff⟩ :=
    run_positions_miss_strays rangedSumAligner (Grammar.takesOnly_demanding _) (Prod.ext h rfl)
      honce (congrArg Extent.medium hextent)
  rw [hextent] at hcounted hiff
  have hone : 1 = 0 + counted.length := hcounted
  refine ⟨alignment, _, Prod.ext h rfl, honce, hextent, hleaves, first, counted, strays, hsource,
    hstrays, hsublist, hperm, by omega, ?_⟩
  intro hnone
  have hlength := hiff.mpr hnone
  rw [hleaves] at hlength
  exact absurd hlength (by decide)

/-- The extent of a root that was read from its tokens need not be as long as its leaves, when a
child was read from the text. -/
theorem run_positions_differ_from_leaves :
    ∃ alignment spelling,
      (rangedSumAligner.run rangedSum
          (Input.tokens ((TokenCursor.ofNode rangedSum).withText "a ".toList)) 1).1 =
        .ok alignment ∧
      (rangedSumAligner.run rangedSum
          (Input.tokens ((TokenCursor.ofNode rangedSum).withText "a ".toList))
          1).2.RecordsOnce ∧
      alignment.root.extent.medium = .tokens ∧
      alignment.subtrees.get? ⟨.reference "left", 0⟩ = some spelling ∧
      spelling.extent.medium = .text ∧
      alignment.root.extent.stop ≠ alignment.root.extent.start + alignment.leaves.length := by
  have hrun : ((rangedSumAligner.run rangedSum
      (Input.tokens ((TokenCursor.ofNode rangedSum).withText "a ".toList)) 1).1.toOption.map
      fun alignment => (alignment.root.extent, alignment.leaves.length,
        (alignment.subtrees.get? ⟨.reference "left", 0⟩).map (·.extent.medium))) =
      some (⟨.tokens, 0, 1⟩, 2, some .text) := by
    decide +kernel
  have honce : (rangedSumAligner.run rangedSum
      (Input.tokens ((TokenCursor.ofNode rangedSum).withText "a ".toList))
      1).2.RecordsOnce := by
    unfold Progress.RecordsOnce
    decide +kernel
  obtain ⟨alignment, hfound, hvalues⟩ := Option.map_eq_some_iff.mp hrun
  simp only [Prod.mk.injEq] at hvalues
  obtain ⟨hextent, hlength, hchild⟩ := hvalues
  obtain ⟨spelling, hget, hmedium⟩ := Option.map_eq_some_iff.mp hchild
  refine ⟨alignment, spelling, eq_ok_of_toOption hfound, honce, by rw [hextent], hget, hmedium, ?_⟩
  rw [hextent, hlength]
  decide

end Aligner

end TreeAlign
