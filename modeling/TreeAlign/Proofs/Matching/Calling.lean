import TreeAlign.Proofs.Matching.Taking
import TreeAlign.Proofs.Tree.Height

/-!
# Which nodes a match of a node calls for

A match of a node calls for matches of its descendants and of nothing else,
whatever the grammar and the resolver do: two ways to match children that
agree on all descendants of the node lead to the same match of the node.
Descendants are lower than the node, so the equation that says how a match
of a node rests on matches of its descendants has one solution and no more.
Counting the levels that are left gives that solution.
-/

namespace TreeAlign

variable {τ σ ρ α β : Type}

/-- What is done next matters only where the first part ends. -/
theorem Run.andThen_congr {run : Run τ σ ρ α} {first second : α → Progress τ σ ρ → Run τ σ ρ β}
    (h : ∀ value after, run = .done value after → first value after = second value after) :
    run.andThen first = run.andThen second := by
  cases run with
  | done value after => exact h value after rfl
  | failed failure after => rfl

namespace Aligner

/-- The two ways to match children agree on all descendants of a node. -/
def AgreeBelow (path : Ancestry) (first second : MatchChild τ σ ρ) : Prop :=
  ∀ node route, path.node.get? route = some node →
    first (.child path node route) = second (.child path node route)

variable [Terminal τ] [Cursor σ] [Reads σ τ] {aligner : Aligner τ ρ}

namespace AgreeBelow

variable {path : Ancestry} {first second : MatchChild τ σ ρ} (agree : AgreeBelow path first second)

include agree

omit [Terminal τ] [Reads σ τ] in
theorem descend (reference : Token) {frame : Frame σ ρ} (hpath : frame.path = path)
    (progress : Progress τ σ ρ) :
    aligner.descend first reference frame progress =
      aligner.descend second reference frame progress := by
  rw [Aligner.descend, Aligner.descend]
  split
  · rfl
  · next route node hresolved =>
      obtain ⟨_, hnode⟩ := childAt?_eq_some hresolved
      rw [hpath] at hnode
      rw [hpath, agree node route hnode]

theorem find (terminal : τ) {frame : Frame σ ρ} (hpath : frame.path = path)
    (progress : Progress τ σ ρ) :
    aligner.find first terminal frame progress = aligner.find second terminal frame progress := by
  rw [Aligner.find, Aligner.find, findHere, findHere]
  split
  · rfl
  · next found _ =>
      unfold takeUp
      split
      · cases found.tokens progress.claimed.supply with
        | nil => rfl
        | cons reference more =>
            have hclaim : (frame.collect progress.pendingTokens).path = path := hpath
            simp only [agree.descend reference hclaim]
      · rfl

theorem sequence (terminals : List τ) {frame : Frame σ ρ} (hpath : frame.path = path)
    (progress : Progress τ σ ρ) :
    aligner.sequence first terminals frame progress =
      aligner.sequence second terminals frame progress := by
  induction terminals generalizing frame progress with
  | nil => rfl
  | cons terminal rest ih =>
      rw [Aligner.sequence, Aligner.sequence, agree.find terminal hpath]
      apply Run.andThen_congr
      rintro ⟨here, middle⟩ state hfind
      cases here with
      | false => rfl
      | true => exact ih ((find_path hfind).trans hpath) state

theorem drive (start : Nat) (procedure : Procedure τ) {frame : Frame σ ρ}
    (hpath : frame.path = path) (progress : Progress τ σ ρ) :
    aligner.drive first start procedure frame progress =
      aligner.drive second start procedure frame progress := by
  induction procedure generalizing frame progress with
  | done => rfl
  | yield command next ih =>
      have hemptied : frame.emptied.path = path := hpath
      cases command with
      | emit tokens =>
          have hcollect : (frame.collect tokens).path = path := hpath
          exact ih _ _ hcollect _
      | offer terminals =>
          rw [Aligner.drive, Aligner.drive, agree.sequence terminals hemptied]
          apply Run.andThen_congr
          rintro ⟨outcome, tried⟩ state hsequence
          have htried : tried.path = path := (sequence_path hsequence).trans hpath
          cases outcome with
          | matched =>
              have hcommit : (frame.commit tried).path = path := htried
              exact ih _ _ hcommit _
          | missed missing =>
              have hback : (frame.giveBack tried).path = path := hpath
              exact ih _ _ hback _
      | take terminals =>
          rw [Aligner.drive, Aligner.drive, agree.sequence terminals hemptied]
          apply Run.andThen_congr
          rintro ⟨outcome, tried⟩ state hsequence
          have htried : tried.path = path := (sequence_path hsequence).trans hpath
          cases outcome with
          | matched =>
              have hcommit : ((frame.commit tried).collect tried.tokens).path = path := htried
              exact ih _ _ hcommit _
          | missed missing => rfl

theorem attempt (cursor : σ) (progress : Progress τ σ ρ) :
    aligner.attempt first path cursor progress = aligner.attempt second path cursor progress := by
  rw [Aligner.attempt, Aligner.attempt]
  split
  · rfl
  · have hopening : (aligner.opening path cursor : Frame σ ρ).path = path := rfl
    exact agree.drive _ _ hopening _

theorem restart (left : Nat) (cursor : σ) (progress : Progress τ σ ρ) :
    aligner.restart first path left cursor progress =
      aligner.restart second path left cursor progress := by
  induction left generalizing cursor progress with
  | zero => rw [Aligner.restart, Aligner.restart, agree.attempt]
  | succ left ih =>
      rw [Aligner.restart, Aligner.restart, agree.attempt]
      apply Run.andThen_congr
      rintro (spelling | ⟨terminal, reached⟩) state _
      · rfl
      · cases hfall : Cursor.fallback reached with
        | ok next => simp only [hfall, ih]
        | error cause => simp only [hfall]

end AgreeBelow

/-- The match of a node, from a way to match its descendants. Nothing in it counts levels. -/
def visit (aligner : Aligner τ ρ) (matchChild : MatchChild τ σ ρ) : MatchChild τ σ ρ :=
  fun path cursor progress =>
    if aligner.limits.maxDepth < path.depth then
      fail (aligner.opening path cursor) (.tooDeep aligner.limits.maxDepth path.node.type) progress
    else aligner.restart matchChild path aligner.limits.maxFallbacks cursor progress

/-- A match of a node calls for matches of its descendants only. -/
theorem visit_congr {path : Ancestry} {first second : MatchChild τ σ ρ}
    (agree : AgreeBelow path first second) : aligner.visit first path = aligner.visit second path := by
  funext cursor progress
  rw [visit, visit, agree.restart]

/-- The match of a node with as many levels left as its depth leaves. -/
def matchAt (aligner : Aligner τ ρ) : MatchChild τ σ ρ :=
  fun path => aligner.matchNode (aligner.limits.maxDepth + 1 - path.depth) path

theorem matchAt_eq_visit (path : Ancestry) :
    (aligner.matchAt : MatchChild τ σ ρ) path = aligner.visit aligner.matchAt path := by
  funext cursor progress
  rw [visit, matchAt]
  by_cases hdeep : aligner.limits.maxDepth < path.depth
  · have hlevels : aligner.limits.maxDepth + 1 - path.depth = 0 := by omega
    rw [if_pos hdeep, hlevels, matchNode]
  · have hlevels : aligner.limits.maxDepth + 1 - path.depth =
        (aligner.limits.maxDepth - path.depth) + 1 := by omega
    rw [if_neg hdeep, hlevels, matchNode]
    apply AgreeBelow.restart
    intro node route _
    have hchild : aligner.limits.maxDepth + 1 - (Ancestry.child path node route).depth =
        aligner.limits.maxDepth - path.depth := by
      rw [Ancestry.depth]
      omega
    rw [matchAt, hchild]

/-- Matching with counted levels is the one way to match that rests on matches of descendants. -/
theorem eq_visit_iff (matchChild : MatchChild τ σ ρ) :
    matchChild = aligner.visit matchChild ↔ matchChild = aligner.matchAt := by
  constructor
  · intro h
    funext path
    -- strong induction on the height of the node: descendants are lower
    induction hheight : path.node.height using Nat.strongRecOn generalizing path with
    | ind height ih =>
        have hagree : AgreeBelow path matchChild aligner.matchAt := by
          intro node route hnode
          have hlower : node.height < height := hheight ▸ Node.height_lt_of_get? hnode
          exact ih node.height hlower (.child path node route) rfl
        calc matchChild path
            = aligner.visit matchChild path := congrFun h path
          _ = aligner.visit aligner.matchAt path := visit_congr hagree
          _ = aligner.matchAt path := (matchAt_eq_visit path).symm
  · rintro rfl
    funext path
    exact matchAt_eq_visit path

end Aligner

end TreeAlign
