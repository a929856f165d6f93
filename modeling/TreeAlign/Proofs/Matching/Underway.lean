import TreeAlign.Proofs.Matching.Stages
import TreeAlign.Proofs.Termination

/-!
# The attempt under way

The journal holds the moments of all nodes one after the other. At a depth of
the tree at most one attempt is under way, and `underway` picks out its
moments: those of that depth since its beginning, and none if the latest
moment belongs to a node further up. Children write deeper moments only, so
for a node their whole matches pass in between without a trace.
-/

namespace TreeAlign

variable {τ σ ρ : Type}

/-- The moments of the attempt under way at a depth, the latest first. -/
def underway (depth : Nat) : List (Moment τ σ ρ) → List (Moment τ σ ρ)
  | [] => []
  | moment :: older =>
    if depth < moment.frame.path.depth then underway depth older
    else if moment.frame.path.depth < depth then []
    else if moment.act.isBegin then [moment]
    else moment :: underway depth older

variable {depth : Nat} {path : Ancestry} {journal older : List (Moment τ σ ρ)}

/-- Moments further down do not belong to the attempt. -/
theorem underway_append (deeper : ∀ moment ∈ journal, depth < moment.frame.path.depth) :
    underway depth (journal ++ older) = underway depth older := by
  induction journal with
  | nil => rfl
  | cons moment rest ih =>
      obtain ⟨hmoment, hrest⟩ := List.forall_mem_cons.mp deeper
      rw [List.cons_append, underway, if_pos hmoment]
      exact ih hrest

variable (progress : Progress τ σ ρ) (frame : Frame σ ρ)

/-- The attempt writes a moment of its own. -/
theorem underway_note (path_eq : frame.path = path) {act : Act τ}
    (inner : act.isBegin = false) :
    underway path.depth (progress.note frame act).journal =
      ⟨frame, progress.subtrees, progress.pending, act⟩ ::
        underway path.depth progress.journal := by
  simp [Progress.note, underway, path_eq, inner]

theorem underway_note_begin (path_eq : frame.path = path) :
    underway path.depth (progress.note frame .begin).journal =
      [⟨frame, progress.subtrees, progress.pending, .begin⟩] := by
  simp [Progress.note, underway, path_eq, Act.isBegin]

/-- No child of a node is under way at a moment of the node. -/
theorem underway_note_child (act : Act τ) (node : Node Token) (route : Route) :
    underway (Ancestry.child frame.path node route).depth (progress.note frame act).journal =
      [] := by
  have hdepth : frame.path.depth < (Ancestry.child frame.path node route).depth :=
    Nat.lt_succ_self _
  rw [Progress.note, underway, if_neg (Nat.lt_asymm hdepth), if_pos hdepth]

/-- What is written further down leaves the attempt as it is. -/
theorem Progress.WritesBelow.underway_eq {progress state : Progress τ σ ρ}
    (h : progress.WritesBelow (depth + 1) state) :
    underway depth state.journal = underway depth progress.journal := by
  obtain ⟨new, hnew, hdepth⟩ := h
  rw [hnew]
  exact underway_append hdepth

end TreeAlign
