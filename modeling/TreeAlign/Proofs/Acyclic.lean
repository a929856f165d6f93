import TreeAlign.Proofs.Grammar.Settled
import TreeAlign.Proofs.Matching.Ranking

/-!
# Stores without circles

Expanding references and counting leaves or nodes go down through the store
for as long as there are references. When no identity is attached to two
nodes of the tree, that ends in every store of a match, after as many levels
as the node of the spelling is high, whatever was stored twice or given up.
Shared identities can make the store lead back to itself, so the condition
is needed.
-/

namespace TreeAlign

variable {ρ : Type}

namespace Aligner

/-- Where no identity is attached to two nodes, following references ends: from every stored spelling
of every store of a match within the height of its node, which is less than that of the root, and
from the root of an alignment within its height. Leaves and nodes are all found by then. -/
theorem run_expansion_ends (aligner : Aligner Stock ρ) (emits : aligner.grammar.Emits Token.Own)
    {root : Node Token} {cursor : Input} {supply : Nat} (distinct : Distinct root cursor supply)
    {result : Except Failure Alignment} {progress : Progress Stock Input ρ}
    (h : aligner.run root cursor supply = (result, progress)) :
    (∀ moment ∈ progress.moments, ∀ token spelling, moment.subtrees.get? token = some spelling →
      spelling.node.height < root.height ∧
        moment.subtrees.Settles spelling.node.height spelling) ∧
    (∀ token spelling, progress.subtrees.get? token = some spelling →
      spelling.node.height < root.height ∧
        progress.subtrees.Settles spelling.node.height spelling) ∧
    ∀ alignment, result = .ok alignment →
      alignment.subtrees = progress.subtrees ∧ alignment.root.node = root ∧
        alignment.subtrees.Settles root.height alignment.root := by
  have hstore : ∀ {after : Progress Stock Input ρ}, after.Ranked root cursor supply →
      ∀ {subtrees}, after.Ranks subtrees → ∀ token spelling,
      subtrees.get? token = some spelling → spelling.node.height < root.height ∧
        subtrees.Settles spelling.node.height spelling := by
    intro after hafter subtrees hranks token spelling hget
    obtain ⟨⟨height, henters, hlower⟩, hall⟩ := hranks token spelling hget
    exact ⟨Nat.lt_of_lt_of_le hlower (hafter.low henters), (hafter.endsWithin hranks hall).settles⟩
  have hmatch := aligner.ranksBelow_matchNode emits distinct (aligner.limits.maxDepth + 1)
    (.root root) cursor ({ supply } : Progress Stock Input ρ) .here (.start root cursor)
    (.start root cursor supply)
  rcases run_ends hmatch with ⟨failure, after, hrun, hafter⟩ | ⟨spelling, after, hrun, hafter⟩
  · rw [hrun] at h
    cases h
    exact ⟨fun moment hmem => hstore hafter (hafter.past moment (List.mem_reverse.mp hmem)),
      hstore hafter hafter.present, by simp⟩
  · rw [hrun] at h
    cases h
    have hranked := hafter.ranked
    refine ⟨fun moment hmem => hstore hranked (hranked.past moment (List.mem_reverse.mp hmem)),
      hstore hranked hranked.present, ?_⟩
    rintro alignment heq
    cases heq
    refine ⟨rfl, hafter.node_eq, Subtrees.EndsWithin.settles ?_⟩
    exact hranked.endsWithin hranked.present
      (hafter.enters.append (Progress.entersAll_of_plain hranked.slot _))

/-- A name that carries another name than its range of the text has. -/
def misnamedName : Node Token :=
  ⟨"Name", [], some ⟨0, 1⟩, some [⟨⟨"Identifier", "b"⟩, 2⟩]⟩

/-- A sum of that name. -/
def misnamedSum : Node Token :=
  ⟨"Sum", [("left", .node misnamedName)], none,
    some [⟨.reference "left", 0⟩, ⟨⟨"Punctuator", "+"⟩, 1⟩]⟩

/-- The grammar of such sums. -/
def misnamedSumAligner : Aligner Stock ByName where
  grammar := .demanding
    [("Name", [[.identifier "a"]]), ("Sum", [[.reference "left"], [.punctuator "+"]])]
  resolver := .byName

theorem distinct_misnamedSum :
    Distinct misnamedSum
      (Input.tokens ((TokenCursor.ofNode misnamedSum).withText "a+".toList)) 3 := by
  have honly : ∀ {node token}, AttachedTo misnamedSum
      (Input.tokens ((TokenCursor.ofNode misnamedSum).withText "a+".toList)) node token →
      token.isReference = true → node = misnamedSum ∧ token.id = 0 := by
    intro node token h isReference
    cases h with
    | root mem =>
        have hmem : token ∈ [⟨.reference "left", 0⟩, ⟨⟨"Punctuator", "+"⟩, 1⟩] := mem
        rcases List.mem_cons.mp hmem with rfl | hmem
        · exact ⟨rfl, rfl⟩
        · obtain rfl := List.mem_singleton.mp hmem
          exact absurd isReference (by decide)
    | below found mem =>
        rw [Node.eq_of_get?_single rfl found] at mem
        obtain rfl := List.mem_singleton.mp mem
        exact absurd isReference (by decide)
  constructor
  · intro node node' token token' h h' isReference isReference' _
    rw [(honly h isReference).1, (honly h' isReference').1]
  · intro node token h isReference
    rw [(honly h isReference).2]
    decide

/-- The name is given up on its own tokens and read from the text. -/
theorem run_expansion_ends_misnamedSum :
    ∃ alignment progress,
      misnamedSumAligner.run misnamedSum
          (Input.tokens ((TokenCursor.ofNode misnamedSum).withText "a+".toList)) 3 =
        (.ok alignment, progress) ∧
      alignment.text = "a+" ∧ misnamedSum.height = 1 ∧
      alignment.subtrees.Settles 1 alignment.root ∧
      ∃ spelling, alignment.child? ⟨.reference "left", 0⟩ = some spelling ∧
        spelling.extent.medium = .text ∧ alignment.subtrees.Settles 0 spelling := by
  have hrun : ((misnamedSumAligner.run misnamedSum
      (Input.tokens ((TokenCursor.ofNode misnamedSum).withText "a+".toList)) 3).1.toOption.map
      fun alignment => (alignment.text, (alignment.child? ⟨.reference "left", 0⟩).map
        fun spelling => (spelling.extent.medium, spelling.node.height))) =
      some ("a+", some (.text, 0)) := by
    decide +kernel
  obtain ⟨alignment, hfound, hvalues⟩ := Option.map_eq_some_iff.mp hrun
  simp only [Prod.mk.injEq] at hvalues
  obtain ⟨htext, hchild⟩ := hvalues
  obtain ⟨spelling, hget, hspelling⟩ := Option.map_eq_some_iff.mp hchild
  simp only [Prod.mk.injEq] at hspelling
  have hemits : misnamedSumAligner.grammar.Emits Token.Own :=
    (Grammar.takesOnly_demanding _).emits _
  obtain ⟨_, hstored, halignment⟩ := run_expansion_ends misnamedSumAligner hemits
    distinct_misnamedSum (Prod.ext (eq_ok_of_toOption hfound) rfl)
  obtain ⟨hsubtrees, _, hroot⟩ := halignment alignment rfl
  refine ⟨alignment, _, Prod.ext (eq_ok_of_toOption hfound) rfl, htext, by decide, hroot,
    spelling, hget, hspelling.1, ?_⟩
  rw [Alignment.child?, hsubtrees] at hget
  rw [hsubtrees, ← hspelling.2]
  exact (hstored _ spelling hget).2

end Aligner

end TreeAlign
