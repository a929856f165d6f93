import TreeAlign.Proofs.Matching.Calling
import TreeAlign.Proofs.Matching.Holding

/-!
# How matches are nested

For every grammar, every input, every resolver and all limits, the nodes that
are matched while a node is matched are below it. So matches are nested no
deeper than the tree is high, and the limit on the depth is never reached
when it is at least that height. Each match of a node makes one attempt, and
at most one more for every restart that it is allowed.
-/

namespace TreeAlign

variable {τ σ ρ α : Type}

namespace Run

/-- The state that the run left. -/
def last : Run τ σ ρ α → Progress τ σ ρ
  | .done _ after => after
  | .failed _ after => after

theorem Ends.last {run : Run τ σ ρ α} {holds : Progress τ σ ρ → Prop}
    (h : run.Ends (fun _ => holds) fun _ => holds) : holds run.last := by
  cases run with
  | done value after => exact h
  | failed failure after => exact h

end Run

/-- An attempt begins. -/
def Act.isBegin : Act τ → Bool
  | .begin => true
  | _ => false

theorem Act.IsInner.isBegin_eq_false {frame : Frame σ ρ} {act : Act τ} (h : act.IsInner frame) :
    act.isBegin = false := by
  cases act with
  | begin => exact h.elim
  | _ => rfl

namespace Progress

/-- The number of attempts so far at nodes of the given depth. -/
def attemptsAt (progress : Progress τ σ ρ) (depth : Nat) : Nat :=
  progress.journal.countP fun moment => moment.act.isBegin && moment.frame.path.depth == depth

variable (progress : Progress τ σ ρ) (depth : Nat)

theorem attemptsAt_note_of_not_begin (frame : Frame σ ρ) {act : Act τ} (h : act.isBegin = false) :
    (progress.note frame act).attemptsAt depth = progress.attemptsAt depth := by
  simp [attemptsAt, note, h]

theorem attemptsAt_note_begin (frame : Frame σ ρ) :
    (progress.note frame .begin).attemptsAt depth =
      progress.attemptsAt depth + if frame.path.depth = depth then 1 else 0 := by
  simp [attemptsAt, note, List.countP_cons, Act.isBegin]

end Progress

namespace Aligner

variable [Terminal τ] [Cursor σ] [Reads σ τ] {aligner : Aligner τ ρ}

/-- No attempt at the given depth is made by matches of the children, so one attempt at a node counts
once at its depth and not at all at other depths. -/
theorem upholds_attemptsAt {matchChild : MatchChild τ σ ρ} {path : Ancestry} {depth count : Nat}
    (hchild : ∀ node route cursor progress, progress.attemptsAt depth = count →
      (matchChild (.child path node route) cursor progress).Ends
        (fun _ after => after.attemptsAt depth = count)
        fun _ after => after.attemptsAt depth = count) :
    aligner.Upholds matchChild path (fun _ _ => True)
      (fun _ progress => progress.attemptsAt depth + (if path.depth = depth then 1 else 0) = count)
      (fun _ _ progress => progress.attemptsAt depth = count)
      fun _ progress => progress.attemptsAt depth = count where
  begin {cursor progress} h := (progress.attemptsAt_note_begin depth _).trans h
  note h _ inner := (Progress.attemptsAt_note_of_not_begin _ _ _ inner.isBegin_eq_false).trans h
  claim h := h
  draw h _ _ := h
  plain h _ _ _ := h
  separator h _ _ _ _ := (Progress.attemptsAt_note_of_not_begin _ _ _ rfl).trans h
  child {held progress frame terminal found reference more route node} h _ _ _ _ _ _ := by
    have hdescend : ((progress.draw found).note frame (.descend reference route)).attemptsAt depth =
        count := (Progress.attemptsAt_note_of_not_begin _ _ _ rfl).trans h
    apply (hchild node route _ _ hdescend).imp
    intro spelling after hafter
    exact (Progress.attemptsAt_note_of_not_begin after depth frame rfl).trans hafter
  emit h _ _ := h
  raise h _ _ := (Progress.attemptsAt_note_of_not_begin _ _ _ rfl).trans h

/-- A match of a node makes attempts at its own depth and as many levels below it as are left, and
nowhere else. -/
theorem attemptsAt_outside (levels : Nat) (path : Ancestry) (cursor : σ)
    (progress : Progress τ σ ρ) {depth : Nat}
    (outside : depth < path.depth ∨ path.depth + levels ≤ depth) :
    (aligner.matchNode levels path cursor progress).Ends
      (fun _ after => after.attemptsAt depth = progress.attemptsAt depth)
      fun _ after => after.attemptsAt depth = progress.attemptsAt depth := by
  induction levels generalizing path cursor progress with
  | zero => exact Progress.attemptsAt_note_of_not_begin _ _ _ rfl
  | succ levels ih =>
      have hother : path.depth ≠ depth := by omega
      have hchild : ∀ node route cursor (state : Progress τ σ ρ),
          state.attemptsAt depth = progress.attemptsAt depth →
          (aligner.matchNode levels (.child path node route) cursor state).Ends
            (fun _ after => after.attemptsAt depth = progress.attemptsAt depth)
            fun _ after => after.attemptsAt depth = progress.attemptsAt depth := by
        intro node route cursor state hstate
        rw [← hstate]
        apply ih
        rw [Ancestry.depth]
        omega
      rw [matchNode]
      apply ((upholds_attemptsAt hchild).restart aligner.grammar.emits_anything ?_
        (by simp [hother])).imp
      · rintro spelling after ⟨_, _, _, _, hafter, _⟩
        exact hafter
      · intro _ _ _ state hstate _ _
        simpa [hother] using hstate

/-- One attempt at a node counts once at its depth. -/
theorem attemptsAt_attempt (levels : Nat) (path : Ancestry) (cursor : σ)
    (progress : Progress τ σ ρ) :
    (aligner.attempt (aligner.matchNode levels) path cursor progress).Ends
      (fun _ after => after.attemptsAt path.depth = progress.attemptsAt path.depth + 1)
      fun _ after => after.attemptsAt path.depth = progress.attemptsAt path.depth + 1 := by
  have hchild : ∀ node route cursor (state : Progress τ σ ρ),
      state.attemptsAt path.depth = progress.attemptsAt path.depth + 1 →
      (aligner.matchNode levels (.child path node route) cursor state).Ends
        (fun _ after => after.attemptsAt path.depth = progress.attemptsAt path.depth + 1)
        fun _ after => after.attemptsAt path.depth = progress.attemptsAt path.depth + 1 := by
    intro node route cursor state hstate
    rw [← hstate]
    exact attemptsAt_outside levels _ cursor state (Or.inl (Nat.lt_succ_self path.depth))
  apply ((upholds_attemptsAt hchild).attempt aligner.grammar.emits_anything (by simp)).imp
  rintro (spelling | ⟨terminal, reached⟩) after hafter
  · obtain ⟨_, _, _, hafter, _⟩ := hafter
    exact hafter
  · obtain ⟨_, _, hafter⟩ := hafter
    exact hafter

/-- A match of a node makes one attempt, and at most one more for every restart that is left. -/
theorem attemptsAt_restart (levels : Nat) (path : Ancestry) (left : Nat) (cursor : σ)
    (progress : Progress τ σ ρ) :
    (aligner.restart (aligner.matchNode levels) path left cursor progress).Ends
      (fun _ after => after.attemptsAt path.depth ≤ progress.attemptsAt path.depth + left + 1)
      fun _ after => after.attemptsAt path.depth ≤ progress.attemptsAt path.depth + left + 1 := by
  have hraise : ∀ frame failure (state : Progress τ σ ρ),
      (state.note frame (.raise failure)).attemptsAt path.depth = state.attemptsAt path.depth :=
    fun frame _ state => state.attemptsAt_note_of_not_begin path.depth frame rfl
  induction left generalizing cursor progress with
  | zero =>
      rw [restart]
      have hattempt := aligner.attemptsAt_attempt levels path cursor progress
      apply (hattempt.mono (fun _ _ => Nat.le_of_eq) fun _ _ => id).andThen
      rintro (spelling | ⟨terminal, reached⟩) after hafter
      · exact Nat.le_of_eq hafter
      · exact Nat.le_of_eq ((hraise _ _ after).trans hafter)
  | succ left ih =>
      have hmore : progress.attemptsAt path.depth + 1 ≤
          progress.attemptsAt path.depth + (left + 1) + 1 := by omega
      rw [restart]
      have hattempt := aligner.attemptsAt_attempt levels path cursor progress
      apply (hattempt.mono (fun _ _ h => Nat.le_trans (Nat.le_of_eq h) hmore) fun _ _ => id).andThen
      rintro (spelling | ⟨terminal, reached⟩) after hafter
      · exact Nat.le_trans (Nat.le_of_eq hafter) hmore
      · cases hfall : Cursor.fallback reached with
        | error cause =>
            simp only [hfall]
            exact Nat.le_trans (Nat.le_of_eq ((hraise _ _ after).trans hafter)) hmore
        | ok next =>
            simp only [hfall]
            have hrest := ih next after
            rw [hafter] at hrest
            have hbound : progress.attemptsAt path.depth + 1 + left + 1 =
                progress.attemptsAt path.depth + (left + 1) + 1 := by omega
            rw [← hbound]
            exact hrest

theorem attemptsAt_matchNode (levels : Nat) (path : Ancestry) (cursor : σ)
    (progress : Progress τ σ ρ) :
    (aligner.matchNode levels path cursor progress).last.attemptsAt path.depth ≤
      progress.attemptsAt path.depth + aligner.limits.maxFallbacks + 1 := by
  cases levels with
  | zero =>
      change (progress.note _ _).attemptsAt path.depth ≤ _
      rw [progress.attemptsAt_note_of_not_begin path.depth _ rfl]
      omega
  | succ levels => exact (attemptsAt_restart levels path _ cursor progress).last

end Aligner

/-- The moment happens at the root or at a descendant, a child that is entered there is reached by a
route, and nothing is too deep unless the tree is higher than the limit. -/
structure Moment.Within (root : Node Token) (limit : Nat) (moment : Moment τ σ ρ) : Prop where
  path : (Ancestry.root root).LeadsTo moment.frame.path
  entered : ∀ reference route, moment.act = .descend reference route →
    ∃ child, moment.frame.path.node.get? route = some child
  raised : ∀ failure, moment.act = .raise failure → failure.IsInner ∨ limit < root.height

/-- All moments so far happened within the tree. -/
def Progress.Within (root : Node Token) (limit : Nat) (progress : Progress τ σ ρ) : Prop :=
  ∀ moment ∈ progress.journal, moment.Within root limit

theorem Progress.Within.note {root : Node Token} {limit : Nat} {progress : Progress τ σ ρ}
    (h : progress.Within root limit) {frame : Frame σ ρ} {act : Act τ}
    (new : Moment.Within root limit ⟨frame, progress.subtrees, progress.pending, act⟩) :
    (progress.note frame act).Within root limit :=
  List.forall_mem_cons.mpr ⟨new, h⟩

/-- An act that enters no child and raises nothing may happen at every node of the tree. -/
theorem Moment.within_of_path {root : Node Token} {limit : Nat} {moment : Moment τ σ ρ}
    (path : (Ancestry.root root).LeadsTo moment.frame.path)
    (enters : ∀ reference route, moment.act ≠ .descend reference route)
    (raises : ∀ failure, moment.act ≠ .raise failure) : moment.Within root limit :=
  ⟨path, fun _ _ h => absurd h (enters _ _), fun _ h => absurd h (raises _)⟩

namespace Aligner

variable [Terminal τ] [Cursor σ] [Reads σ τ] {aligner : Aligner τ ρ}

/-- While a node of the tree is matched, everything happens within the tree. -/
theorem upholds_within {matchChild : MatchChild τ σ ρ} {root : Node Token} {limit : Nat}
    {path : Ancestry} (hpath : (Ancestry.root root).LeadsTo path)
    (hchild : ∀ node route cursor progress, path.node.get? route = some node →
      progress.Within root limit →
      (matchChild (.child path node route) cursor progress).Ends
        (fun failure after =>
          (failure.IsInner ∨ limit < root.height) ∧ after.Within root limit)
        fun _ after => after.Within root limit) :
    aligner.Upholds matchChild path (fun _ _ => True)
      (fun _ progress => progress.Within root limit)
      (fun _ _ progress => progress.Within root limit)
      fun failure progress =>
        (failure.IsInner ∨ limit < root.height) ∧ progress.Within root limit where
  begin h := h.note (Moment.within_of_path hpath (by simp) (by simp))
  note {held progress frame act} h fits inner := by
    apply h.note
    apply Moment.within_of_path
    · rw [fits.path_eq]
      exact hpath
    · rintro reference route rfl
      exact inner
    · rintro failure rfl
      exact inner
  claim h := h
  draw h _ _ := h
  plain h _ _ _ := h
  separator {held progress frame terminal found} h fits _ _ _ := by
    have hframe : (Ancestry.root root).LeadsTo frame.path := fits.path_eq ▸ hpath
    exact h.note (Moment.within_of_path hframe (by simp) (by simp))
  child {held progress frame terminal found reference more route node} h fits _ _ _ _ hnode := by
    have hframe : (Ancestry.root root).LeadsTo frame.path := fits.path_eq ▸ hpath
    have henter : ((progress.draw found).note frame (.descend reference route)).Within root
        limit := by
      apply Progress.Within.note h
      refine ⟨hframe, ?_, by simp⟩
      rintro _ _ heq
      cases heq
      exact ⟨node, fits.path_eq ▸ hnode⟩
    apply (hchild node route _ _ hnode henter).imp
    intro spelling after hafter
    exact hafter.note (Moment.within_of_path hframe (by simp) (by simp))
  emit h _ _ := h
  raise {held progress frame failure} h fits inner := by
    have hframe : (Ancestry.root root).LeadsTo frame.path := fits.path_eq ▸ hpath
    refine ⟨Or.inl inner, h.note ⟨hframe, by simp, ?_⟩⟩
    rintro _ heq
    cases heq
    exact Or.inl inner

/-- A match of a node happens within the tree, and runs out of levels only in a tree that is higher
than the limit. -/
theorem within_matchNode {root : Node Token} {levels : Nat} {path : Ancestry}
    (hpath : (Ancestry.root root).LeadsTo path)
    (hlevels : levels + path.depth = aligner.limits.maxDepth + 1) (cursor : σ)
    {progress : Progress τ σ ρ} (h : progress.Within root aligner.limits.maxDepth) :
    (aligner.matchNode levels path cursor progress).Ends
      (fun failure after => (failure.IsInner ∨ aligner.limits.maxDepth < root.height) ∧
        after.Within root aligner.limits.maxDepth)
      fun _ after => after.Within root aligner.limits.maxDepth := by
  induction levels generalizing path cursor progress with
  | zero =>
      have hdeep : path.depth + path.node.height ≤ 0 + root.height := hpath.depth_add_height_le
      have hhigh : aligner.limits.maxDepth < root.height := by omega
      exact ⟨Or.inr hhigh, h.note ⟨hpath, by simp, fun _ _ => Or.inr hhigh⟩⟩
  | succ levels ih =>
      have hchild : ∀ node route cursor (progress : Progress τ σ ρ),
          path.node.get? route = some node → progress.Within root aligner.limits.maxDepth →
          (aligner.matchNode levels (.child path node route) cursor progress).Ends
            (fun failure after => (failure.IsInner ∨ aligner.limits.maxDepth < root.height) ∧
              after.Within root aligner.limits.maxDepth)
            fun _ after => after.Within root aligner.limits.maxDepth := by
        intro node route cursor progress hnode hprogress
        apply ih (.child hpath hnode) _ cursor hprogress
        rw [Ancestry.depth]
        omega
      rw [matchNode]
      apply ((upholds_within hpath hchild).restart aligner.grammar.emits_anything
        (fun h _ _ => h) h).imp
      rintro spelling after ⟨_, _, _, _, hafter, _⟩
      exact hafter

/-- A whole match happens within the tree. -/
theorem within_run (root : Node Token) (cursor : σ) (supply : Nat) :
    (aligner.run root cursor supply).2.Within root aligner.limits.maxDepth ∧
      ∀ failure, (aligner.run root cursor supply).1 = .error failure →
        failure.IsInner ∨ aligner.limits.maxDepth < root.height := by
  have hroot : (Ancestry.root root).LeadsTo (.root root) := .here
  have hlevels : aligner.limits.maxDepth + 1 + (Ancestry.root root).depth =
      aligner.limits.maxDepth + 1 := rfl
  have hstart : ({ supply } : Progress τ σ ρ).Within root aligner.limits.maxDepth := by
    simp [Progress.Within]
  rcases run_ends (within_matchNode hroot hlevels cursor hstart) with
    ⟨failure, after, hrun, hafter⟩ | ⟨spelling, after, hrun, hafter⟩
  · rw [hrun]
    refine ⟨hafter.2, ?_⟩
    rintro _ heq
    cases heq
    exact hafter.1
  · rw [hrun]
    exact ⟨hafter, by simp⟩

/-- A match of a node is the one that rests on matches of its descendants. It calls for them only,
each is lower than the node, and it makes one attempt and at most one more for every restart. In a
whole match no node lies deeper than the tree is high, and none is too deep for a limit of that
height. -/
structure Nests (σ : Type) [Terminal τ] [Cursor σ] [Reads σ τ] (aligner : Aligner τ ρ) : Prop where
  lower : ∀ (node child : Node Token) (route : Route), node.get? route = some child →
    route ≠ [] ∧ child.height < node.height
  rests : ∀ (path : Ancestry) (first second : MatchChild τ σ ρ), AgreeBelow path first second →
    aligner.visit first path = aligner.visit second path
  unique : ∀ matchChild : MatchChild τ σ ρ,
    matchChild = aligner.visit matchChild ↔ matchChild = aligner.matchAt
  whole : ∀ root, (aligner.matchAt : MatchChild τ σ ρ) (.root root) =
    aligner.matchNode (aligner.limits.maxDepth + 1) (.root root)
  attempts : ∀ (levels : Nat) (path : Ancestry) (cursor : σ) (progress : Progress τ σ ρ),
    (aligner.matchNode levels path cursor progress).last.attemptsAt path.depth ≤
      progress.attemptsAt path.depth + aligner.limits.maxFallbacks + 1
  within : ∀ (root : Node Token) (cursor : σ) (supply : Nat),
    ∀ moment ∈ (aligner.run root cursor supply).2.moments,
      (Ancestry.root root).LeadsTo moment.frame.path ∧
      moment.frame.path.depth + moment.frame.path.node.height ≤ root.height ∧
      ∀ reference route, moment.act = .descend reference route →
        ∃ child, moment.frame.path.node.get? route = some child ∧
          child.height < moment.frame.path.node.height
  shallow : ∀ (root : Node Token) (cursor : σ) (supply : Nat),
    root.height ≤ aligner.limits.maxDepth →
      (∀ moment ∈ (aligner.run root cursor supply).2.moments, ∀ limit type,
        moment.act ≠ .raise (.tooDeep limit type)) ∧
      ∀ limit type, (aligner.run root cursor supply).1 ≠ .error (.tooDeep limit type)

theorem nests (aligner : Aligner τ ρ) : aligner.Nests σ where
  lower node child route h := by
    refine ⟨?_, Node.height_lt_of_get? h⟩
    rintro rfl
    exact absurd h (by simp [Node.get?])
  rests _ _ _ := visit_congr
  unique := eq_visit_iff
  whole _ := rfl
  attempts := attemptsAt_matchNode
  within root cursor supply moment hmoment := by
    have hwithin := (aligner.within_run root cursor supply).1 moment (List.mem_reverse.mp hmoment)
    have hdepth : moment.frame.path.depth + moment.frame.path.node.height ≤ 0 + root.height :=
      hwithin.path.depth_add_height_le
    refine ⟨hwithin.path, by omega, ?_⟩
    intro reference route hact
    obtain ⟨child, hchild⟩ := hwithin.entered reference route hact
    exact ⟨child, hchild, Node.height_lt_of_get? hchild⟩
  shallow root cursor supply henough := by
    obtain ⟨hwithin, hfailure⟩ := aligner.within_run root cursor supply
    constructor
    · intro moment hmoment limit type hraise
      rcases (hwithin moment (List.mem_reverse.mp hmoment)).raised _ hraise with hinner | hhigh
      · exact hinner
      · omega
    · intro limit type herror
      rcases hfailure _ herror with hinner | hhigh
      · exact hinner
      · omega

end Aligner

end TreeAlign
