import TreeAlign.Proofs.Matching.Finding

/-!
# Relations that a whole match keeps

A relation between the states of a match, and a property of its cursors,
hold of a whole match as soon as they are kept by every single move: notes
in the journal, claims, separators that are put into the slot, identities
that are drawn from the supply, and children that are stored. The induction
over terminals, procedures, restarts and levels is done here once, for runs
that fail as well.

A child is stored under a token that was drawn before the child was matched,
so the condition on storing reaches back to the state before the draw.
-/

namespace TreeAlign

variable {τ σ ρ α β : Type}

/-- The state at the end is related to the given one, and a result has the given property. -/
def Run.Keeps (related : Progress τ σ ρ → Progress τ σ ρ → Prop) (before : Progress τ σ ρ)
    (result : α → Prop) : Run τ σ ρ α → Prop
  | .done value after => related before after ∧ result value
  | .failed _ after => related before after

/-- An attempt that was given up left its cursor within the given bounds. -/
def Attempt.Rests (within : σ → Prop) : Attempt σ → Prop
  | .spelled _ => True
  | .abandoned _ cursor => within cursor

namespace Aligner

variable [Cursor σ] [Reads σ τ]

/-- A property of cursors and a relation between states that every move of a match keeps. -/
structure Kept (within : σ → Prop) (related : Progress τ σ ρ → Progress τ σ ρ → Prop) :
    Prop where
  refl : ∀ progress, related progress progress
  trans : ∀ {first second third}, related first second → related second third →
    related first third
  note : ∀ progress frame act, related progress (progress.note frame act)
  claim : ∀ progress, related progress progress.claimed
  defer : ∀ progress tokens terminal, related progress (progress.defer tokens terminal)
  draw : ∀ {progress cursor} {terminal : τ} {found}, within cursor →
    Reads.probe cursor terminal = some found → related progress (progress.draw found)
  record : ∀ {progress cursor} {terminal : τ} {found reference more spelling after},
    within cursor → Reads.probe cursor terminal = some found →
    found.tokens progress.supply = reference :: more → related (progress.draw found) after →
    related progress (after.record reference spelling)
  advance : ∀ {tokens subtrees cursor}, within cursor →
    within (Cursor.advance tokens subtrees cursor)
  forChild : ∀ {child cursor}, within cursor → within (Cursor.forChild child cursor)
  fallback : ∀ {cursor next}, within cursor → Cursor.fallback cursor = .ok next → within next

namespace Kept

variable {within : σ → Prop} {related : Progress τ σ ρ → Progress τ σ ρ → Prop}
  (kept : Kept within related)

include kept

theorem andThen {run : Run τ σ ρ α} {before : Progress τ σ ρ} {result : α → Prop}
    {next : α → Progress τ σ ρ → Run τ σ ρ β} {result' : β → Prop}
    (h : run.Keeps related before result)
    (hnext : ∀ value progress, result value →
      (next value progress).Keeps related progress result') :
    (run.andThen next).Keeps related before result' := by
  cases run with
  | failed failure after => exact h
  | done value after =>
      have hvalue := hnext value after h.2
      rw [Run.andThen_done]
      cases hrun : next value after with
      | done value' last =>
          rw [hrun] at hvalue
          exact ⟨kept.trans h.1 hvalue.1, hvalue.2⟩
      | failed failure last =>
          rw [hrun] at hvalue
          exact kept.trans h.1 hvalue

/-- A run that begins later keeps the relation to every state related to its beginning. -/
theorem since {run : Run τ σ ρ α} {earlier before : Progress τ σ ρ} {result : α → Prop}
    (h : related earlier before) (hrun : run.Keeps related before result) :
    run.Keeps related earlier result := by
  cases run with
  | done value after => exact ⟨kept.trans h hrun.1, hrun.2⟩
  | failed failure after => exact kept.trans h hrun

variable [Terminal τ] {aligner : Aligner τ ρ} {matchChild : MatchChild τ σ ρ}
  (hchild : ∀ path cursor progress, within cursor →
  (matchChild path cursor progress).Keeps related progress fun _ => True)

include hchild

theorem findHere (terminal : τ) {frame : Frame σ ρ} (progress : Progress τ σ ρ)
    (hcursor : within frame.cursor) :
    (aligner.findHere matchChild terminal frame progress).Keeps related progress
      fun result => within result.2.cursor := by
  rw [Aligner.findHere]
  split
  · exact ⟨kept.note _ _ _, hcursor⟩
  · next found hprobe =>
      have hdraw : related progress (progress.draw found) := kept.draw hcursor hprobe
      unfold takeUp
      split
      · split
        · exact ⟨kept.trans hdraw (kept.note _ _ _), hcursor⟩
        · next reference more htokens =>
            rw [descend]
            split
            · exact kept.trans hdraw (kept.note _ _ _)
            · next route child _ =>
                have hmatch := hchild (.child frame.path child route)
                  (Cursor.forChild child frame.cursor)
                  ((progress.draw found).note frame (.descend reference route))
                  (kept.forChild hcursor)
                cases hrun : matchChild (.child frame.path child route)
                  (Cursor.forChild child frame.cursor)
                  ((progress.draw found).note frame (.descend reference route)) with
                | failed failure after =>
                    rw [hrun] at hmatch
                    exact kept.trans hdraw (kept.trans (kept.note _ _ _) hmatch)
                | done spelling after =>
                    rw [hrun] at hmatch
                    have hafter : related (progress.draw found)
                        (after.note frame (.record reference spelling)) :=
                      kept.trans (kept.note _ _ _) (kept.trans hmatch.1 (kept.note _ _ _))
                    have hrecord : related progress
                        ((after.note frame (.record reference spelling)).record reference spelling) :=
                      kept.record hcursor hprobe htokens hafter
                    exact ⟨kept.trans hrecord (kept.note _ _ _), kept.advance hcursor⟩
      · split
        · exact ⟨kept.trans hdraw (kept.trans (kept.note _ _ _)
            (kept.trans (kept.defer _ _ _) (kept.note _ _ _))), kept.advance hcursor⟩
        · exact ⟨kept.trans hdraw (kept.note _ _ _), kept.advance hcursor⟩

theorem sequence (terminals : List τ) (frame : Frame σ ρ) (progress : Progress τ σ ρ)
    (hcursor : within frame.cursor) :
    (aligner.sequence matchChild terminals frame progress).Keeps related progress
      fun result => within result.2.cursor := by
  induction terminals generalizing frame progress with
  | nil => exact ⟨kept.refl _, hcursor⟩
  | cons terminal rest ih =>
      rw [Aligner.sequence]
      have hfind : (aligner.find matchChild terminal frame progress).Keeps related progress
          fun result => within result.2.cursor :=
        kept.since (kept.claim _) (kept.findHere hchild terminal _ hcursor)
      apply kept.andThen hfind
      rintro ⟨here, middle⟩ state hmiddle
      cases here with
      | true => exact ih middle state hmiddle
      | false => exact ⟨kept.refl _, hmiddle⟩

theorem drive (start : Nat) (procedure : Procedure τ) {frame : Frame σ ρ}
    (progress : Progress τ σ ρ) (hcursor : within frame.cursor) :
    (aligner.drive matchChild start procedure frame progress).Keeps related progress
      (Attempt.Rests within) := by
  induction procedure generalizing frame progress with
  | done => exact ⟨kept.note _ _ _, trivial⟩
  | yield command next ih =>
      cases command with
      | emit tokens => exact kept.since (kept.note _ _ _) (ih _ _ _ hcursor)
      | offer terminals =>
          rw [Aligner.drive]
          apply kept.andThen (kept.sequence hchild terminals frame.emptied progress hcursor)
          rintro ⟨outcome, tried⟩ state htried
          cases outcome with
          | matched => exact kept.since (kept.note _ _ _) (ih _ _ _ htried)
          | missed missing => exact kept.since (kept.note _ _ _) (ih _ _ _ htried)
      | take terminals =>
          rw [Aligner.drive]
          apply kept.andThen (kept.sequence hchild terminals frame.emptied progress hcursor)
          rintro ⟨outcome, tried⟩ state htried
          cases outcome with
          | matched => exact kept.since (kept.note _ _ _) (ih _ _ _ htried)
          | missed missing => exact ⟨kept.note _ _ _, htried⟩

theorem attempt (path : Ancestry) {cursor : σ} (progress : Progress τ σ ρ)
    (hcursor : within cursor) :
    (aligner.attempt matchChild path cursor progress).Keeps related progress
      (Attempt.Rests within) := by
  rw [Aligner.attempt]
  split
  · exact kept.trans (kept.note _ _ _) (kept.note _ _ _)
  · exact kept.since (kept.trans (kept.note _ _ _) (kept.note _ _ _))
      (kept.drive hchild _ _ _ hcursor)

theorem restart (path : Ancestry) (left : Nat) {cursor : σ} (progress : Progress τ σ ρ)
    (hcursor : within cursor) :
    (aligner.restart matchChild path left cursor progress).Keeps related progress
      fun _ => True := by
  induction left generalizing cursor progress with
  | zero =>
      rw [Aligner.restart]
      apply kept.andThen (kept.attempt hchild path progress hcursor)
      rintro (spelling | ⟨terminal, reached⟩) state _
      · exact ⟨kept.refl _, trivial⟩
      · exact kept.note _ _ _
  | succ left ih =>
      rw [Aligner.restart]
      apply kept.andThen (kept.attempt hchild path progress hcursor)
      rintro (spelling | ⟨terminal, reached⟩) state hreached
      · exact ⟨kept.refl _, trivial⟩
      · cases hfall : Cursor.fallback reached with
        | ok next =>
            simp only [hfall]
            exact ih state (kept.fallback hreached hfall)
        | error cause =>
            simp only [hfall]
            exact kept.note _ _ _

/-- Where the input has no other form, a node is matched by its first attempt. -/
theorem attempt_of_restart {path : Ancestry} {left : Nat} {cursor : σ}
    {progress after : Progress τ σ ρ} {spelling : Spelling}
    (hno : ∀ cursor, within cursor → ∃ cause, Cursor.fallback cursor = .error cause)
    (hcursor : within cursor)
    (h : aligner.restart matchChild path left cursor progress = .done spelling after) :
    aligner.attempt matchChild path cursor progress = .done (.spelled spelling) after := by
  rcases restart_eq_done h with hspelled | ⟨terminal, reached, state, next, _, _, hrun, hfall, _⟩
  · exact hspelled
  · have hattempt : (aligner.attempt matchChild path cursor progress).Keeps related progress
        (Attempt.Rests within) := kept.attempt hchild path progress hcursor
    rw [hrun] at hattempt
    obtain ⟨cause, hcause⟩ := hno reached hattempt.2
    rw [hfall] at hcause
    exact absurd hcause (by simp)

omit hchild

/-- A match of a node keeps the relation, whether it fails or not. -/
theorem matchNode (levels : Nat) (path : Ancestry) {cursor : σ} (progress : Progress τ σ ρ)
    (hcursor : within cursor) :
    (aligner.matchNode levels path cursor progress).Keeps related progress fun _ => True := by
  induction levels generalizing path cursor progress with
  | zero => exact kept.note _ _ _
  | succ levels ih =>
      exact kept.restart (fun path cursor progress h => ih path progress h) path _ progress hcursor

theorem attempt_of_matchNode {levels : Nat} {path : Ancestry} {cursor : σ}
    {progress after : Progress τ σ ρ} {spelling : Spelling}
    (hno : ∀ cursor, within cursor → ∃ cause, Cursor.fallback cursor = .error cause)
    (hcursor : within cursor)
    (h : aligner.matchNode (levels + 1) path cursor progress = .done spelling after) :
    aligner.attempt (aligner.matchNode levels) path cursor progress =
      .done (.spelled spelling) after :=
  kept.attempt_of_restart (fun path _ progress h => kept.matchNode levels path progress h) hno
    hcursor h

end Kept

end Aligner

end TreeAlign
