import TreeAlign.Proofs.Termination
import TreeAlign.Proofs.Tree.Address

/-!
# Where the nodes of a match are

A rule is started with the chain of the node that is attempted. Whatever
routes the resolver gives, of whatever length, that chain locates the node
in the tree: it is no longer than the limit allows, every link is found from
the one above it, and all routes together lead from the root to the node.
The root is the one exception, because the empty route leads nowhere.
-/

namespace TreeAlign

variable {τ σ ρ : Type}

namespace Aligner

section

variable [Terminal τ] [Cursor σ] [Reads σ τ]

/-- No attempt of a whole match begins below the limit. -/
theorem depth_le_of_begin (aligner : Aligner τ ρ) (root : Node Token) (cursor : σ) (supply : Nat)
    {moment : Moment τ σ ρ} (hmoment : moment ∈ (aligner.run root cursor supply).2.moments)
    (begins : moment.act = .begin) : moment.frame.path.depth ≤ aligner.limits.maxDepth := by
  apply Nat.le_of_not_lt
  intro hdeep
  have houtside : moment.frame.path.depth < (Ancestry.root root).depth ∨
      (Ancestry.root root).depth + (aligner.limits.maxDepth + 1) ≤ moment.frame.path.depth := by
    right
    change 0 + (aligner.limits.maxDepth + 1) ≤ _
    omega
  have hnone : (aligner.run root cursor supply).2.attemptsAt moment.frame.path.depth = 0 := by
    rcases run_ends (aligner.attemptsAt_outside _ (.root root) cursor
        ({ supply } : Progress τ σ ρ) houtside) with
      ⟨failure, after, hrun, hafter⟩ | ⟨spelling, after, hrun, hafter⟩
    · rw [hrun]
      exact hafter
    · rw [hrun]
      exact hafter
  have hcount := List.countP_eq_zero.mp hnone moment (List.mem_reverse.mp hmoment)
  exact hcount (by simp [begins, Act.isBegin])

/-- Routes compose, and every chain that a rule is started with locates its node. All routes of the
chain together lead from the root to the node, unless the node is the root itself. -/
theorem run_chains_locate (aligner : Aligner τ ρ) :
    (∀ (node child : Node Token) (p q : Route), node.get? p = some child → q ≠ [] →
      node.get? (p ++ q) = child.get? q) ∧
    ∀ (root : Node Token) (cursor : σ) (supply : Nat),
      ∀ moment ∈ (aligner.run root cursor supply).2.moments, moment.act = .begin →
        moment.frame.path.Locates root aligner.limits.maxDepth := by
  refine ⟨fun _ _ _ _ => Node.get?_append, ?_⟩
  intro root cursor supply moment hmoment begins
  have hwithin := (aligner.within_run root cursor supply).1 moment (List.mem_reverse.mp hmoment)
  exact hwithin.path.locates (aligner.depth_le_of_begin root cursor supply hmoment begins)

end

/-- A program of one block with two statements, of which the second has a note. -/
def notedProgram : Node Token :=
  ⟨"Program",
    [("body", .node ⟨"Block",
      [("statements", .list [⟨"Name", [], none, none⟩,
        ⟨"Call", [("note", .node ⟨"Name", [], none, none⟩)], none, none⟩])], none, none⟩)],
    none, none⟩

/-- Goes from the program straight to the second statement, and from there to its note. -/
def notedProgramAligner : Aligner Stock Unit where
  grammar := .demanding
    [("Call", [[.reference "note"]]), ("Name", [[.identifier "a"]]),
      ("Program", [[.reference "second"]])]
  resolver := {
    start := fun _ => ()
    resolve := fun state reference =>
      if reference.value = "second" then
        (some [.field "body", .field "statements", .index 1], state)
      else (some [.field reference.value], state) }

/-- The note is located by two routes, of which the first passes over a list. -/
theorem run_chains_locate_notedProgram :
    ∃ moment ∈ (notedProgramAligner.run notedProgram (Input.text (.whole "a".toList)) 0).2.moments,
      moment.act.isBegin = true ∧ moment.frame.path.depth = 2 ∧
      moment.frame.path.address =
        [.field "body", .field "statements", .index 1, .field "note"] ∧
      moment.frame.path.Locates notedProgram 512 ∧
      notedProgram.get? [.field "body", .field "statements", .index 1, .field "note"] =
        some moment.frame.path.node := by
  have hrun : ((notedProgramAligner.run notedProgram
      (Input.text (.whole "a".toList)) 0).2.moments.any fun moment =>
        moment.act.isBegin && moment.frame.path.depth == 2 && moment.frame.path.address ==
          [.field "body", .field "statements", .index 1, .field "note"]) = true := by
    decide +kernel
  obtain ⟨moment, hmoment, hvalues⟩ := List.any_eq_true.mp hrun
  simp only [Bool.and_eq_true, beq_iff_eq] at hvalues
  obtain ⟨⟨hbegins, hdepth⟩, haddress⟩ := hvalues
  have hact : moment.act = .begin := by
    cases hact : moment.act with
    | begin => rfl
    | _ => simp [hact, Act.isBegin] at hbegins
  have hlocates := (run_chains_locate notedProgramAligner).2 notedProgram _ 0 moment hmoment hact
  refine ⟨moment, hmoment, hbegins, hdepth, haddress, hlocates, ?_⟩
  have hfound := hlocates.belowRoot (by omega)
  rwa [← Ancestry.address_eq_flatten, haddress] at hfound

/-- The chain of the root has no routes in it, and no routes lead nowhere: a rule is started with a
chain whose routes together do not lead to its node. -/
theorem chain_of_root_leads_nowhere :
    ∃ moment ∈ (notedProgramAligner.run notedProgram (Input.text (.whole "a".toList)) 0).2.moments,
      moment.act.isBegin = true ∧ moment.frame.path.node.type = "Program" ∧
      notedProgram.get? (moment.frame.path.chains.map Ancestry.route).reverse.flatten ≠
        some moment.frame.path.node := by
  have hrun : ((notedProgramAligner.run notedProgram
      (Input.text (.whole "a".toList)) 0).2.moments.any fun moment =>
        moment.act.isBegin && moment.frame.path.node.type == "Program" &&
          moment.frame.path.address == []) = true := by
    decide +kernel
  obtain ⟨moment, hmoment, hvalues⟩ := List.any_eq_true.mp hrun
  simp only [Bool.and_eq_true, beq_iff_eq] at hvalues
  obtain ⟨⟨hbegins, htype⟩, haddress⟩ := hvalues
  refine ⟨moment, hmoment, hbegins, htype, ?_⟩
  rw [← Ancestry.address_eq_flatten, haddress]
  simp [Node.get?]

end Aligner

end TreeAlign
