import Mathlib.Logic.Relation
import TreeAlign.Proofs.Matching.Finding

/-!
# The moves of a match

All that a match does to its shared state are five moves: it writes into the
journal, it claims the slot, it draws identities from the supply, it passes a
separator, whose tokens it puts into the slot, and it stores a child. The
moves say what has to hold of the slot before each of them. Every run of a
match, failed or not, is a chain of moves, so what every move keeps is kept
by every run.

An attempt begins with an empty slot, and a terminal claims the slot before
it is looked for. That is why the slot is empty again whenever a terminal is
missing.
-/

namespace TreeAlign

variable {τ σ ρ α β : Type}

/-- The act happens only while the slot is empty: an attempt begins or is given up, a child is
entered, a separator is put into the slot, a terminal is missing, or the match fails. -/
def Act.NeedsEmptySlot : Act τ → Prop
  | .begin | .descend _ _ | .defer _ | .miss _ | .abandon _ | .raise _ => True
  | .step _ _ | .record _ _ | .pass _ _ | .finish _ => False

/-- The act is only written into the journal. -/
def Act.IsQuiet : Act τ → Prop
  | .defer _ | .record _ _ => False
  | _ => True

/-- A single change of the shared state, with what it needs of the slot. -/
inductive Progress.Move : Progress τ σ ρ → Progress τ σ ρ → Prop where
  | note {progress : Progress τ σ ρ} (frame : Frame σ ρ) {act : Act τ} (quiet : act.IsQuiet)
      (empty : act.NeedsEmptySlot → progress.pending = none) :
      Move progress (progress.note frame act)
  | claim (progress : Progress τ σ ρ) : Move progress progress.claimed
  | draw (progress : Progress τ σ ρ) (found : Found) : Move progress (progress.draw found)
  | defer {progress : Progress τ σ ρ} (frame : Frame σ ρ) (tokens : List Token) (terminal : τ)
      (empty : progress.pending = none) :
      Move progress (((progress.note frame (.defer tokens)).defer tokens terminal).note frame
        (.pass terminal tokens))
  | record (progress : Progress τ σ ρ) (frame : Frame σ ρ) (reference : Token)
      (spelling : Spelling) :
      Move progress
        ((progress.note frame (.record reference spelling)).record reference spelling)

/-- The later state is reached from the earlier one by moves. -/
def Progress.Leads : Progress τ σ ρ → Progress τ σ ρ → Prop :=
  Relation.ReflTransGen Progress.Move

namespace Progress.Leads

variable {before after : Progress τ σ ρ}

theorem refl (progress : Progress τ σ ρ) : progress.Leads progress :=
  Relation.ReflTransGen.refl

theorem trans {middle : Progress τ σ ρ} (h : before.Leads middle) (h' : middle.Leads after) :
    before.Leads after :=
  Relation.ReflTransGen.trans h h'

theorem move {middle : Progress τ σ ρ} (h : before.Leads middle) (h' : middle.Move after) :
    before.Leads after :=
  Relation.ReflTransGen.tail h h'

/-- What every move keeps holds of all that is reached. -/
theorem keeps {holds : Progress τ σ ρ → Prop} (h : before.Leads after)
    (kept : ∀ {first second}, first.Move second → holds first → holds second)
    (start : holds before) : holds after := by
  induction h with
  | refl => exact start
  | tail _ move ih => exact kept move ih

end Progress.Leads

/-- The run gets by moves from the given state to its end, and its result comes with a state as
described. -/
def Run.LeadsFrom (before : Progress τ σ ρ) (result : α → Progress τ σ ρ → Prop) :
    Run τ σ ρ α → Prop
  | .done value after => before.Leads after ∧ result value after
  | .failed _ after => before.Leads after

namespace Run.LeadsFrom

variable {run : Run τ σ ρ α} {earlier before : Progress τ σ ρ}
  {result : α → Progress τ σ ρ → Prop}

theorem since (h : run.LeadsFrom before result) (leads : earlier.Leads before) :
    run.LeadsFrom earlier result := by
  cases run with
  | done value after => exact ⟨leads.trans h.1, h.2⟩
  | failed failure after => exact leads.trans h

theorem andThen {next : α → Progress τ σ ρ → Run τ σ ρ β}
    {result' : β → Progress τ σ ρ → Prop} (h : run.LeadsFrom before result)
    (hnext : ∀ value progress, result value progress →
      (next value progress).LeadsFrom progress result') :
    (run.andThen next).LeadsFrom before result' := by
  cases run with
  | done value after => exact (hnext value after h.2).since h.1
  | failed failure after => exact h

end Run.LeadsFrom

namespace Aligner

variable [Terminal τ] [Cursor σ] [Reads σ τ]

/-- A way to match nodes that makes nothing but moves, from a state with an empty slot. -/
def MovesOnly (matchChild : MatchChild τ σ ρ) : Prop :=
  ∀ path cursor progress, progress.pending = none →
    (matchChild path cursor progress).LeadsFrom progress fun _ _ => True

/-- After a missing terminal the slot is empty. -/
def EmptyIfMissing (result : Bool × Frame σ ρ) (after : Progress τ σ ρ) : Prop :=
  result.1 = false → after.pending = none

/-- After terminals that were not all found the slot is empty. -/
def EmptyIfMissed (result : Outcome × Frame σ ρ) (after : Progress τ σ ρ) : Prop :=
  ∀ missing, result.1 = .missed missing → after.pending = none

/-- After an attempt that was given up the slot is empty. -/
def EmptyIfAbandoned (result : Attempt σ) (after : Progress τ σ ρ) : Prop :=
  ∀ missing cursor, result = .abandoned missing cursor → after.pending = none

variable {aligner : Aligner τ ρ} {matchChild : MatchChild τ σ ρ}

omit [Terminal τ] [Cursor σ] [Reads σ τ] in
theorem leadsFrom_fail {result : α → Progress τ σ ρ → Prop} (frame : Frame σ ρ)
    (failure : Failure) {progress : Progress τ σ ρ} (empty : progress.pending = none) :
    (fail frame failure progress : Run τ σ ρ α).LeadsFrom progress result :=
  (Progress.Leads.refl progress).move (.note frame trivial fun _ => empty)

namespace MovesOnly

variable (moves : MovesOnly matchChild)

include moves

omit [Terminal τ] [Reads σ τ] in
theorem descend (reference : Token) (frame : Frame σ ρ) {progress : Progress τ σ ρ}
    (empty : progress.pending = none) :
    (aligner.descend matchChild reference frame progress).LeadsFrom progress fun _ _ => True := by
  rw [Aligner.descend]
  split
  · exact leadsFrom_fail frame _ empty
  · next route child _ =>
      have henter : progress.Leads (progress.note frame (.descend reference route)) :=
        (Progress.Leads.refl progress).move (.note frame trivial fun _ => empty)
      have hchild := moves (.child frame.path child route) (Cursor.forChild child frame.cursor)
        (progress.note frame (.descend reference route)) empty
      apply Run.LeadsFrom.andThen (hchild.since henter)
      intro spelling after _
      exact ⟨(Progress.Leads.refl after).move (.record after frame reference spelling), trivial⟩

theorem findHere (terminal : τ) (frame : Frame σ ρ) {progress : Progress τ σ ρ}
    (empty : progress.pending = none) :
    (aligner.findHere matchChild terminal frame progress).LeadsFrom progress EmptyIfMissing := by
  rw [Aligner.findHere]
  split
  · exact ⟨(Progress.Leads.refl progress).move (.note frame trivial fun _ => empty), fun _ => empty⟩
  · next found _ =>
      have hdraw : progress.Leads (progress.draw found) :=
        (Progress.Leads.refl progress).move (.draw progress found)
      unfold takeUp
      split
      · split
        · exact ⟨hdraw.move (.note frame trivial fun _ => empty), fun _ => empty⟩
        · next reference _ _ =>
            have hempty : (progress.draw found).pending = none := empty
            apply Run.LeadsFrom.andThen ((moves.descend reference frame hempty).since hdraw)
            intro joined after _
            exact ⟨(Progress.Leads.refl after).move (.note _ trivial False.elim), Bool.noConfusion⟩
      · split
        · exact ⟨hdraw.move (.defer _ _ terminal empty), Bool.noConfusion⟩
        · exact ⟨hdraw.move (.note _ trivial False.elim), Bool.noConfusion⟩

theorem find (terminal : τ) (frame : Frame σ ρ) (progress : Progress τ σ ρ) :
    (aligner.find matchChild terminal frame progress).LeadsFrom progress EmptyIfMissing := by
  have hclaim : progress.Leads progress.claimed :=
    (Progress.Leads.refl progress).move (.claim progress)
  exact (moves.findHere terminal _ rfl).since hclaim

theorem sequence (terminals : List τ) (frame : Frame σ ρ) (progress : Progress τ σ ρ) :
    (aligner.sequence matchChild terminals frame progress).LeadsFrom progress EmptyIfMissed := by
  induction terminals generalizing frame progress with
  | nil => exact ⟨.refl progress, by simp [EmptyIfMissed]⟩
  | cons terminal rest ih =>
      rw [Aligner.sequence]
      apply Run.LeadsFrom.andThen (moves.find terminal frame progress)
      rintro ⟨here, middle⟩ state hmissing
      cases here with
      | true => exact ih middle state
      | false => exact ⟨.refl state, fun _ _ => hmissing rfl⟩

theorem drive (start : Nat) (procedure : Procedure τ) (frame : Frame σ ρ)
    (progress : Progress τ σ ρ) :
    (aligner.drive matchChild start procedure frame progress).LeadsFrom progress
      EmptyIfAbandoned := by
  induction procedure generalizing frame progress with
  | done =>
      exact ⟨(Progress.Leads.refl progress).move (.note frame trivial False.elim),
        by simp [EmptyIfAbandoned]⟩
  | yield command next ih =>
      have hstep : ∀ frame reply procedure (state : Progress τ σ ρ),
          state.Leads (stepped frame reply procedure state) := fun frame _ _ state =>
        (Progress.Leads.refl state).move (.note frame trivial False.elim)
      cases command with
      | emit tokens => exact (ih _ _ _ _).since (hstep _ _ _ progress)
      | offer terminals =>
          rw [Aligner.drive]
          apply Run.LeadsFrom.andThen (moves.sequence terminals frame.emptied progress)
          rintro ⟨outcome, tried⟩ state _
          cases outcome with
          | matched => exact (ih _ _ _ _).since (hstep _ _ _ state)
          | missed missing => exact (ih _ _ _ _).since (hstep _ _ _ state)
      | take terminals =>
          rw [Aligner.drive]
          apply Run.LeadsFrom.andThen (moves.sequence terminals frame.emptied progress)
          rintro ⟨outcome, tried⟩ state hmissed
          cases outcome with
          | matched => exact (ih _ _ _ _).since (hstep _ _ _ state)
          | missed missing =>
              have hempty : state.pending = none := hmissed missing rfl
              exact ⟨(Progress.Leads.refl state).move (.note _ trivial fun _ => hempty),
                fun _ _ _ => hempty⟩

theorem attempt (path : Ancestry) (cursor : σ) {progress : Progress τ σ ρ}
    (empty : progress.pending = none) :
    (aligner.attempt matchChild path cursor progress).LeadsFrom progress EmptyIfAbandoned := by
  have hbegin : progress.Leads (progress.note (aligner.opening path cursor) .begin) :=
    (Progress.Leads.refl progress).move (.note _ trivial fun _ => empty)
  rw [Aligner.attempt]
  split
  · have hempty : (progress.note (aligner.opening path cursor) .begin).pending = none := empty
    exact (leadsFrom_fail _ _ hempty).since hbegin
  · exact (moves.drive _ _ _ _).since (hbegin.move (.note _ trivial False.elim))

theorem restart (path : Ancestry) (left : Nat) (cursor : σ) {progress : Progress τ σ ρ}
    (empty : progress.pending = none) :
    (aligner.restart matchChild path left cursor progress).LeadsFrom progress
      fun _ _ => True := by
  induction left generalizing cursor progress with
  | zero =>
      rw [Aligner.restart]
      apply Run.LeadsFrom.andThen (moves.attempt path cursor empty)
      rintro (spelling | ⟨terminal, reached⟩) state hstate
      · exact ⟨.refl state, trivial⟩
      · exact leadsFrom_fail _ _ (hstate terminal reached rfl)
  | succ left ih =>
      rw [Aligner.restart]
      apply Run.LeadsFrom.andThen (moves.attempt path cursor empty)
      rintro (spelling | ⟨terminal, reached⟩) state hstate
      · exact ⟨.refl state, trivial⟩
      · have hempty := hstate terminal reached rfl
        cases hfall : Cursor.fallback reached with
        | ok next =>
            simp only [hfall]
            exact ih next hempty
        | error cause =>
            simp only [hfall]
            exact leadsFrom_fail _ _ hempty

end MovesOnly

/-- A match of a node makes nothing but moves. -/
theorem movesOnly_matchNode (levels : Nat) :
    MovesOnly (aligner.matchNode levels : MatchChild τ σ ρ) := by
  induction levels with
  | zero => exact fun _ _ _ empty => leadsFrom_fail _ _ empty
  | succ levels ih => exact fun path cursor _ empty => ih.restart path _ cursor empty

/-- A whole match makes nothing but moves, whether it fails or not. -/
theorem leads_of_run (aligner : Aligner τ ρ) (root : Node Token) (cursor : σ) (supply : Nat) :
    ({ supply } : Progress τ σ ρ).Leads (aligner.run root cursor supply).2 := by
  have hmatch := aligner.movesOnly_matchNode (aligner.limits.maxDepth + 1) (.root root) cursor
    ({ supply } : Progress τ σ ρ) rfl
  rw [run]
  cases hrun : aligner.matchNode (aligner.limits.maxDepth + 1) (.root root) cursor
      ({ supply } : Progress τ σ ρ) with
  | done spelling after =>
      rw [hrun] at hmatch
      exact hmatch.1.move (.claim after)
  | failed failure after =>
      rw [hrun] at hmatch
      exact hmatch

end Aligner

end TreeAlign
