import TreeAlign.Proofs.Matching.Taking

/-!
# Limits cut a match off and change nothing else

A match under small limits and one under larger limits do the same, moment
by moment, until the first of them reaches a limit. Reaching a limit is a
failure, and no node above a failure goes on. So a match that succeeds, or
that fails for another reason, is the same match under larger limits: the
result, the children that are stored, the identities and the journal.

## Implementation notes

The limit on restarts is written into the message of the failure. A cursor
that refuses to fall back with the very message of the limit makes no
difference that could be seen, and does not count as cut off.
-/

namespace TreeAlign

variable {τ σ ρ α β : Type}

/-- The second run is the first one, unless that was ended as described. -/
def Run.SameUnless (cut : Failure → Progress τ σ ρ → Prop) (run run' : Run τ σ ρ α) : Prop :=
  run' = run ∨ ∃ failure after, run = .failed failure after ∧ cut failure after

namespace Run.SameUnless

variable {cut : Failure → Progress τ σ ρ → Prop} {run run' : Run τ σ ρ α}

theorem refl (run : Run τ σ ρ α) : run.SameUnless cut run :=
  Or.inl rfl

theorem andThen {next next' : α → Progress τ σ ρ → Run τ σ ρ β} (h : run.SameUnless cut run')
    (hnext : ∀ value after, (next value after).SameUnless cut (next' value after)) :
    (run.andThen next).SameUnless cut (run'.andThen next') := by
  rcases h with rfl | ⟨failure, after, rfl, hcut⟩
  · cases run' with
    | done value after => exact hnext value after
    | failed failure after => exact refl _
  · exact Or.inr ⟨failure, after, rfl, hcut⟩

end Run.SameUnless

namespace Aligner

/-- The same match under other limits. -/
def withLimits (aligner : Aligner τ ρ) (limits : Limits) : Aligner τ ρ :=
  { aligner with limits }

variable {aligner : Aligner τ ρ} {limits : Limits}

@[simp] theorem grammar_withLimits : (aligner.withLimits limits).grammar = aligner.grammar := rfl

@[simp] theorem limits_withLimits : (aligner.withLimits limits).limits = limits := rfl

@[simp] theorem resolver_withLimits : (aligner.withLimits limits).resolver = aligner.resolver := rfl

/-- What a limit raises at a moment: the node is too deep, or it was given up and no restart is
left, where the cursor itself would not have said so. -/
inductive Exceeds [Cursor σ] (aligner : Aligner τ ρ) (last : Moment τ σ ρ) : Failure → Prop where
  | tooDeep : Exceeds aligner last
      (.tooDeep aligner.limits.maxDepth last.frame.path.node.type)
  | spent {terminal : String}
      (other : Cursor.fallback last.frame.cursor ≠ .error (aligner.noRestart last.frame.cursor)) :
      Exceeds aligner last
        (.parsing last.frame.path.node.type terminal (Cursor.medium last.frame.cursor)
          (Cursor.position last.frame.cursor) (some (aligner.noRestart last.frame.cursor)))

/-- A limit has ended the match: at its last moment it was raised. -/
def CutOff [Cursor σ] (aligner : Aligner τ ρ) (failure : Failure)
    (progress : Progress τ σ ρ) : Prop :=
  ∃ last older, progress.journal = last :: older ∧ aligner.Exceeds last failure

/-- Only two kinds of failures are raised by a limit: that of the depth, and that of a missing
terminal with no restart left. -/
theorem CutOff.failure_eq [Cursor σ] {failure : Failure} {progress : Progress τ σ ρ}
    (h : aligner.CutOff failure progress) :
    (∃ type, failure = .tooDeep aligner.limits.maxDepth type) ∨
      ∃ type terminal position, ∃ cursor : σ,
        failure = .parsing type terminal (Cursor.medium cursor) position
          (some (aligner.noRestart cursor)) := by
  obtain ⟨last, _, _, hexceeds⟩ := h
  cases hexceeds with
  | tooDeep => exact Or.inl ⟨_, rfl⟩
  | spent _ => exact Or.inr ⟨_, _, _, last.frame.cursor, rfl⟩

section Layers

variable [Terminal τ] [Cursor σ] [Reads σ τ] {cut : Failure → Progress τ σ ρ → Prop}
  {matchChild matchChild' : MatchChild τ σ ρ}
  (hchild : ∀ path cursor progress,
    (matchChild path cursor progress).SameUnless cut (matchChild' path cursor progress))

include hchild

omit [Terminal τ] [Reads σ τ] in
theorem sameUnless_descend (reference : Token) (frame : Frame σ ρ) (progress : Progress τ σ ρ) :
    (aligner.descend matchChild reference frame progress).SameUnless cut
      ((aligner.withLimits limits).descend matchChild' reference frame progress) := by
  rw [descend, descend, resolver_withLimits]
  split
  · exact .refl _
  · exact (hchild _ _ _).andThen fun _ _ => .refl _

theorem sameUnless_find (terminal : τ) (frame : Frame σ ρ) (progress : Progress τ σ ρ) :
    (aligner.find matchChild terminal frame progress).SameUnless cut
      ((aligner.withLimits limits).find matchChild' terminal frame progress) := by
  rw [find, find, findHere, findHere]
  split
  · exact .refl _
  · unfold takeUp
    split
    · split
      · exact .refl _
      · exact (sameUnless_descend hchild _ _ _).andThen fun _ _ => .refl _
    · exact .refl _

theorem sameUnless_sequence (terminals : List τ) (frame : Frame σ ρ) (progress : Progress τ σ ρ) :
    (aligner.sequence matchChild terminals frame progress).SameUnless cut
      ((aligner.withLimits limits).sequence matchChild' terminals frame progress) := by
  induction terminals generalizing frame progress with
  | nil => exact .refl _
  | cons terminal rest ih =>
      rw [sequence, sequence]
      apply (sameUnless_find hchild terminal frame progress).andThen
      rintro ⟨here, middle⟩ state
      cases here with
      | true => exact ih middle state
      | false => exact .refl _

theorem sameUnless_drive (start : Nat) (procedure : Procedure τ) (frame : Frame σ ρ)
    (progress : Progress τ σ ρ) :
    (aligner.drive matchChild start procedure frame progress).SameUnless cut
      ((aligner.withLimits limits).drive matchChild' start procedure frame progress) := by
  induction procedure generalizing frame progress with
  | done => exact .refl _
  | yield command next ih =>
      cases command with
      | emit tokens => exact ih _ _ _ _
      | offer terminals =>
          rw [drive, drive]
          apply (sameUnless_sequence hchild terminals frame.emptied progress).andThen
          rintro ⟨outcome, tried⟩ state
          cases outcome with
          | matched => exact ih _ _ _ _
          | missed missing => exact ih _ _ _ _
      | take terminals =>
          rw [drive, drive]
          apply (sameUnless_sequence hchild terminals frame.emptied progress).andThen
          rintro ⟨outcome, tried⟩ state
          cases outcome with
          | matched => exact ih _ _ _ _
          | missed missing => exact .refl _

theorem sameUnless_attempt (path : Ancestry) (cursor : σ) (progress : Progress τ σ ρ) :
    (aligner.attempt matchChild path cursor progress).SameUnless cut
      ((aligner.withLimits limits).attempt matchChild' path cursor progress) := by
  rw [attempt, attempt, grammar_withLimits]
  split
  · exact .refl _
  · exact sameUnless_drive hchild _ _ _ _

end Layers

variable [Terminal τ] [Cursor σ] [Reads σ τ]

/-- Two matches of a node that have made the same number of restarts. Under larger limits one more
may be left where the smaller limits allow none. -/
theorem sameUnless_restart {matchChild matchChild' : MatchChild τ σ ρ}
    (hchild : ∀ path cursor progress, (matchChild path cursor progress).SameUnless aligner.CutOff
      (matchChild' path cursor progress))
    (path : Ancestry) {left left' : Nat} (cursor : σ) (progress : Progress τ σ ρ)
    (le : left ≤ left')
    (made : left' + aligner.limits.maxFallbacks = left + limits.maxFallbacks) :
    (aligner.restart matchChild path left cursor progress).SameUnless aligner.CutOff
      ((aligner.withLimits limits).restart matchChild' path left' cursor progress) := by
  induction left generalizing left' cursor progress with
  | zero =>
      cases left' with
      | zero =>
          have hlimit : limits.maxFallbacks = aligner.limits.maxFallbacks := by omega
          rw [restart, restart]
          apply (sameUnless_attempt hchild path cursor progress).andThen
          rintro (spelling | ⟨terminal, reached⟩) state
          · exact .refl _
          · have hwords : (aligner.withLimits limits).noRestart reached =
                aligner.noRestart reached := by
              rw [noRestart, noRestart, limits_withLimits, hlimit]
            simp only [hwords]
            exact .refl _
      | succ more =>
          rw [restart, restart]
          apply (sameUnless_attempt hchild path cursor progress).andThen
          rintro (spelling | ⟨terminal, reached⟩) state
          · exact .refl _
          · by_cases hwords : Cursor.fallback reached = .error (aligner.noRestart reached)
            · simp only [hwords]
              exact .refl _
            · exact Or.inr ⟨_, _, rfl, _, _, rfl, .spent hwords⟩
  | succ left ih =>
      obtain ⟨more, rfl⟩ : ∃ more, left' = more + 1 := ⟨left' - 1, by omega⟩
      rw [restart, restart]
      apply (sameUnless_attempt hchild path cursor progress).andThen
      rintro (spelling | ⟨terminal, reached⟩) state
      · exact .refl _
      · cases hfall : Cursor.fallback reached with
        | ok next =>
            simp only [hfall]
            exact ih next state (by omega) (by omega)
        | error cause =>
            simp only [hfall]
            exact .refl _

/-- The match of a node under larger limits, with more levels left, is the same unless it was cut
off. -/
theorem sameUnless_matchNode (fallbacks : aligner.limits.maxFallbacks ≤ limits.maxFallbacks)
    {levels levels' : Nat} (le : levels ≤ levels') (path : Ancestry) (cursor : σ)
    (progress : Progress τ σ ρ) :
    (aligner.matchNode levels path cursor progress).SameUnless aligner.CutOff
      ((aligner.withLimits limits).matchNode levels' path cursor progress) := by
  induction levels generalizing levels' path cursor progress with
  | zero => exact Or.inr ⟨_, _, rfl, _, _, rfl, .tooDeep⟩
  | succ levels ih =>
      obtain ⟨more, rfl⟩ : ∃ more, levels' = more + 1 := ⟨levels' - 1, by omega⟩
      rw [matchNode, matchNode]
      apply sameUnless_restart (fun path cursor progress => ih (by omega) path cursor progress)
        path cursor progress fallbacks
      exact Nat.add_comm _ _

/-- A match that succeeds is the same match under larger limits, and so is one that fails without
being cut off: the result is the same, and the state with the children that were stored. -/
theorem run_beyond_limits (aligner : Aligner τ ρ) {limits : Limits}
    (depth : aligner.limits.maxDepth ≤ limits.maxDepth)
    (fallbacks : aligner.limits.maxFallbacks ≤ limits.maxFallbacks) (root : Node Token)
    (cursor : σ) (supply : Nat) :
    (∀ alignment, (aligner.run root cursor supply).1 = .ok alignment →
      (aligner.withLimits limits).run root cursor supply = aligner.run root cursor supply) ∧
    ∀ failure, (aligner.run root cursor supply).1 = .error failure →
      ¬ aligner.CutOff failure (aligner.run root cursor supply).2 →
      (aligner.withLimits limits).run root cursor supply = aligner.run root cursor supply := by
  have hmatch := sameUnless_matchNode fallbacks (Nat.succ_le_succ depth) (.root root) cursor
    ({ supply } : Progress τ σ ρ)
  have hrun : (aligner.withLimits limits).run root cursor supply = aligner.run root cursor supply ∨
      ∃ failure, (aligner.run root cursor supply).1 = .error failure ∧
        aligner.CutOff failure (aligner.run root cursor supply).2 := by
    rcases hmatch with hsame | ⟨failure, after, hfailed, hcut⟩
    · rw [run, run, limits_withLimits, hsame]
      exact Or.inl rfl
    · have hended : aligner.run root cursor supply = (.error failure, after) := by
        rw [run, hfailed]
      rw [hended]
      exact Or.inr ⟨failure, rfl, hcut⟩
  constructor
  · intro alignment hok
    rcases hrun with hsame | ⟨failure, herror, _⟩
    · exact hsame
    · rw [hok] at herror
      cases herror
  · intro failure herror huncut
    rcases hrun with hsame | ⟨other, hother, hcut⟩
    · exact hsame
    · rw [herror] at hother
      cases hother
      exact absurd hcut huncut

/-- A sum that has lost its sign, with one name below it. -/
def retriedSum : Node Token :=
  ⟨"Sum", [("left", .node ⟨"Name", [], some ⟨0, 1⟩, some [⟨⟨"Identifier", "a"⟩, 1⟩]⟩)],
    some ⟨0, 2⟩, some [⟨.reference "left", 0⟩]⟩

/-- One level below the root and one restart are just enough for the sum. -/
def retriedSumAligner : Aligner Stock ByName where
  grammar := .demanding
    [("Name", [[.identifier "a"]]), ("Sum", [[.reference "left", .punctuator "+"]])]
  limits := ⟨1, 1⟩
  resolver := .byName

/-- The tokens of the sum, and a text to fall back to. -/
def retriedReading (text : String) : Input :=
  .tokens ((TokenCursor.ofNode retriedSum).withText text.toList)

/-- Why there was no other input, if that ended the match. -/
def endedBy : Except Failure Alignment → Option String
  | .error (.parsing _ _ _ _ (some (.noFallback _ reason))) => some reason
  | _ => none

/-- The sum is matched in the text, and more levels and restarts change nothing. Without the sign in
the text the sum is not matched, and more levels and restarts do not change that either. -/
theorem run_beyond_limits_retriedSum :
    (∃ alignment,
      (retriedSumAligner.run retriedSum (retriedReading "a+") 2).1 = .ok alignment ∧
      alignment.text = "a+" ∧
      (retriedSumAligner.withLimits ⟨9, 9⟩).run retriedSum (retriedReading "a+") 2 =
        retriedSumAligner.run retriedSum (retriedReading "a+") 2) ∧
    ∃ failure,
      (retriedSumAligner.run retriedSum (Input.text (.whole "a".toList)) 2).1 = .error failure ∧
      (retriedSumAligner.withLimits ⟨9, 9⟩).run retriedSum (Input.text (.whole "a".toList)) 2 =
        retriedSumAligner.run retriedSum (Input.text (.whole "a".toList)) 2 := by
  have hdepth : retriedSumAligner.limits.maxDepth ≤ (⟨9, 9⟩ : Limits).maxDepth := by decide
  have hfallbacks : retriedSumAligner.limits.maxFallbacks ≤ (⟨9, 9⟩ : Limits).maxFallbacks := by
    decide
  constructor
  · have hrun : ((retriedSumAligner.run retriedSum (retriedReading "a+") 2).1.toOption.map
        Alignment.text) = some "a+" := by
      decide +kernel
    obtain ⟨alignment, hfound, htext⟩ := Option.map_eq_some_iff.mp hrun
    have h := eq_ok_of_toOption hfound
    exact ⟨alignment, h, htext,
      (run_beyond_limits retriedSumAligner hdepth hfallbacks _ _ _).1 alignment h⟩
  · have hreason : endedBy (retriedSumAligner.run retriedSum
        (Input.text (.whole "a".toList)) 2).1 =
        some "flat text has no alternate representation" := by
      decide +kernel
    have hlimit : "fallback limit of " ++ toString (1 : Nat) ++ " reached" ≠
        "flat text has no alternate representation" := by
      decide
    cases h : (retriedSumAligner.run retriedSum (Input.text (.whole "a".toList)) 2).1 with
    | ok alignment =>
        rw [h] at hreason
        cases hreason
    | error failure =>
        rw [h] at hreason
        refine ⟨failure, rfl, ?_⟩
        apply (run_beyond_limits retriedSumAligner hdepth hfallbacks _ _ _).2 failure h
        intro hcut
        rcases hcut.failure_eq with ⟨type, rfl⟩ | ⟨type, terminal, position, cursor, rfl⟩
        · cases hreason
        · exact hlimit (Option.some.inj hreason)

end Aligner

end TreeAlign
