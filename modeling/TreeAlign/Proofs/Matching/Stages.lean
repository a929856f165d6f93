import TreeAlign.Proofs.Matching.Holding
import TreeAlign.Proofs.Tree.Height

/-!
# The stages of a node's match

A match of one node goes through stages: an attempt is about to begin, its
procedure waits for a command to be followed, a sequence of terminals is
under way or has missed one, the attempt is given up, and at last the node is
spelled or the match has failed. `Aligner.Proceeds` lists every way from one
stage to the next, with all that is written into the journal on the way. The
match of a child is a single part of one such step.

What every step keeps holds at the end of the node's match, whether it fails
or not. The inductions over terminals, commands and restarts are done here
once, and later proofs are case analyses of single steps.

## Implementation notes

The relation forgets how many restarts are left: an attempt that is given up
may begin again, or end the match, wherever the cursor allows it.
-/

namespace TreeAlign

variable {τ σ ρ : Type}

namespace Command

/-- The terminals that a command looks for, if it looks for any. -/
def terminals? : Command τ → Option (List τ)
  | .emit _ => none
  | .offer terminals => some terminals
  | .take terminals => some terminals

end Command

/-- Where a node's match stands. -/
inductive Stage (τ σ ρ : Type) where
  /-- An attempt begins at the cursor. -/
  | ready (cursor : σ)
  /-- The procedure's next command is to be followed. The attempt began at position `start`. -/
  | idle (start : Nat) (procedure : Procedure τ) (frame : Frame σ ρ)
  /-- The command looks for the terminals left, in a frame of its own beside that of the node. -/
  | busy (start : Nat) (command : Command τ) (next : Reply → Subtrees → Procedure τ)
      (frame : Frame σ ρ) (left : List τ) (tried : Frame σ ρ)
  /-- The command has missed a terminal. -/
  | missed (start : Nat) (command : Command τ) (next : Reply → Subtrees → Procedure τ)
      (frame : Frame σ ρ) (terminal : τ) (tried : Frame σ ρ)
  /-- The attempt is given up, with the cursor where it got to. -/
  | stuck (terminal : String) (cursor : σ)
  /-- The node is matched. -/
  | spelled (spelling : Spelling)
  /-- The match has failed. -/
  | failed (failure : Failure)

/-- All frames of the stage belong to the node. -/
def Stage.At (path : Ancestry) : Stage τ σ ρ → Prop
  | .idle _ _ frame => frame.path = path
  | .busy _ _ _ frame _ tried => frame.path = path ∧ tried.path = path
  | .missed _ _ _ frame _ tried => frame.path = path ∧ tried.path = path
  | .ready _ | .stuck _ _ | .spelled _ | .failed _ => True

namespace Run

theorem andThen_eq_failed {α β : Type} {run : Run τ σ ρ α}
    {next : α → Progress τ σ ρ → Run τ σ ρ β} {failure : Failure} {after : Progress τ σ ρ}
    (h : run.andThen next = .failed failure after) :
    run = .failed failure after ∨
      ∃ a progress, run = .done a progress ∧ next a progress = .failed failure after := by
  cases run with
  | done a progress => exact Or.inr ⟨a, progress, rfl, h⟩
  | failed other progress =>
      cases h
      exact Or.inl rfl

theorem Ends.of_done {α : Type} {run : Run τ σ ρ α} {failed : Failure → Progress τ σ ρ → Prop}
    {done : α → Progress τ σ ρ → Prop} {value : α} {after : Progress τ σ ρ}
    (h : run.Ends failed done) (hrun : run = .done value after) : done value after := by
  rw [hrun] at h
  exact h

theorem Ends.of_failed {α : Type} {run : Run τ σ ρ α} {failed : Failure → Progress τ σ ρ → Prop}
    {done : α → Progress τ σ ρ → Prop} {failure : Failure} {after : Progress τ σ ρ}
    (h : run.Ends failed done) (hrun : run = .failed failure after) : failed failure after := by
  rw [hrun] at h
  exact h

end Run

namespace Aligner

variable [Terminal τ] [Cursor σ] [Reads σ τ]

/-- How looking for a terminal fails, in a frame that has claimed the slot: a reference leads to no
child, or the match of its child fails. -/
inductive Breaking (aligner : Aligner τ ρ) (matchChild : MatchChild τ σ ρ) (terminal : τ)
    (frame : Frame σ ρ) (progress : Progress τ σ ρ) : Failure → Progress τ σ ρ → Prop where
  | unresolved {found : Found} {reference : Token} {more : List Token}
      (probe : Reads.probe frame.cursor terminal = some found)
      (isReference : Terminal.isReference terminal = true)
      (tokens : found.tokens progress.supply = reference :: more)
      (unresolved : childAt? frame (aligner.resolver.resolve frame.resolver reference).1 = none) :
      Breaking aligner matchChild terminal frame progress
        (.unresolved frame.path.node.type reference.value)
        ((progress.draw found).note frame
          (.raise (.unresolved frame.path.node.type reference.value)))
  | child {found : Found} {reference : Token} {more : List Token} {route : Route}
      {node : Node Token} {failure : Failure} {after : Progress τ σ ρ}
      (probe : Reads.probe frame.cursor terminal = some found)
      (isReference : Terminal.isReference terminal = true)
      (tokens : found.tokens progress.supply = reference :: more)
      (resolved : childAt? frame (aligner.resolver.resolve frame.resolver reference).1 =
        some (route, node))
      (failed : matchChild (.child frame.path node route) (Cursor.forChild node frame.cursor)
        ((progress.draw found).note frame (.descend reference route)) = .failed failure after) :
      Breaking aligner matchChild terminal frame progress failure after

variable {aligner : Aligner τ ρ} {matchChild : MatchChild τ σ ρ}

theorem find_eq_failed {terminal : τ} {frame : Frame σ ρ} {progress after : Progress τ σ ρ}
    {failure : Failure}
    (h : aligner.find matchChild terminal frame progress = .failed failure after) :
    aligner.Breaking matchChild terminal (frame.collect progress.pendingTokens)
      progress.claimed failure after := by
  rw [find, findHere] at h
  split at h
  · exact absurd h (by simp [miss])
  · next found hprobe =>
      unfold takeUp at h
      split at h
      · next href =>
          split at h
          · exact absurd h (by simp [miss])
          · next reference more htokens =>
              rcases Run.andThen_eq_failed h with hdescend | ⟨_, _, _, hpass⟩
              · rw [descend] at hdescend
                split at hdescend
                · next hnone =>
                    cases hdescend
                    exact .unresolved hprobe href htokens hnone
                · next route node hresolved =>
                    rcases Run.andThen_eq_failed hdescend with hchild | ⟨_, _, _, hdone⟩
                    · exact .child hprobe href htokens hresolved hchild
                    · exact absurd hdone (by simp)
              · exact absurd hpass (by simp [pass])
      · split at h
        · exact absurd h (by simp [pass])
        · exact absurd h (by simp [pass])

/-- The state in which a terminal is missing, in a frame that has claimed the slot: it finds nothing
at all, or it is a reference that stands for no token. -/
inductive Missing (terminal : τ) (frame : Frame σ ρ) (progress : Progress τ σ ρ) :
    Progress τ σ ρ → Prop where
  | nothing : Missing terminal frame progress progress
  | void {found : Found} (probe : Reads.probe frame.cursor terminal = some found)
      (empty : found.tokens progress.supply = []) :
      Missing terminal frame progress (progress.draw found)

/-- Why a match may end when an attempt is given up at a cursor: no restart is left, or the input
has no other form. -/
inductive Final (aligner : Aligner τ ρ) (cursor : σ) : Failure → Prop where
  | limit : Final aligner cursor (aligner.noRestart cursor)
  | fallback {cause : Failure} (none : Cursor.fallback cursor = .error cause) :
      Final aligner cursor cause

/-- One step of a node's match from stage to stage, with the states before and after it. -/
inductive Proceeds (aligner : Aligner τ ρ) (matchChild : MatchChild τ σ ρ) (path : Ancestry) :
    Stage τ σ ρ → Progress τ σ ρ → Stage τ σ ρ → Progress τ σ ρ → Prop where
  | begin {cursor : σ} {progress : Progress τ σ ρ} {rule : Rule τ}
      (known : aligner.grammar.rule? path.node.type = some rule) :
      Proceeds aligner matchChild path (.ready cursor) progress
        (.idle (Cursor.position cursor) (rule path progress.subtrees)
          (aligner.opening path cursor))
        (stepped (aligner.opening path cursor) .proceed (rule path progress.subtrees)
          (progress.note (aligner.opening path cursor) .begin))
  | unknown {cursor : σ} {progress : Progress τ σ ρ}
      (unknown : aligner.grammar.rule? path.node.type = none) :
      Proceeds aligner matchChild path (.ready cursor) progress
        (.failed (.unknownType path.node.type))
        ((progress.note (aligner.opening path cursor) .begin).note (aligner.opening path cursor)
          (.raise (.unknownType path.node.type)))
  | finish {start : Nat} {frame : Frame σ ρ} {progress : Progress τ σ ρ} :
      Proceeds aligner matchChild path (.idle start .done frame) progress
        (.spelled (spellingOf start frame))
        (progress.note frame (.finish (spellingOf start frame)))
  | emit {start : Nat} {tokens : List Token} {next : Reply → Subtrees → Procedure τ}
      {frame : Frame σ ρ} {progress : Progress τ σ ρ} :
      Proceeds aligner matchChild path (.idle start (.yield (.emit tokens) next) frame) progress
        (.idle start (next .proceed progress.subtrees) (frame.collect tokens))
        (stepped (frame.collect tokens) .proceed (next .proceed progress.subtrees) progress)
  | look {start : Nat} {command : Command τ} {next : Reply → Subtrees → Procedure τ}
      {frame : Frame σ ρ} {progress : Progress τ σ ρ} {terminals : List τ}
      (looks : command.terminals? = some terminals) :
      Proceeds aligner matchChild path (.idle start (.yield command next) frame) progress
        (.busy start command next frame terminals frame.emptied) progress
  | find {start : Nat} {command : Command τ} {next : Reply → Subtrees → Procedure τ}
      {frame tried found : Frame σ ρ} {progress after : Progress τ σ ρ} {terminal : τ}
      {left : List τ}
      (finding : aligner.Finding matchChild terminal (tried.collect progress.pendingTokens)
        progress.claimed found after) :
      Proceeds aligner matchChild path (.busy start command next frame (terminal :: left) tried)
        progress (.busy start command next frame left found) after
  | miss {start : Nat} {command : Command τ} {next : Reply → Subtrees → Procedure τ}
      {frame tried : Frame σ ρ} {progress state : Progress τ σ ρ} {terminal : τ} {left : List τ}
      (missing : Missing terminal (tried.collect progress.pendingTokens) progress.claimed state) :
      Proceeds aligner matchChild path (.busy start command next frame (terminal :: left) tried)
        progress
        (.missed start command next frame terminal (tried.collect progress.pendingTokens))
        (state.note (tried.collect progress.pendingTokens) (.miss terminal))
  | breaks {start : Nat} {command : Command τ} {next : Reply → Subtrees → Procedure τ}
      {frame tried : Frame σ ρ} {progress after : Progress τ σ ρ} {terminal : τ} {left : List τ}
      {failure : Failure}
      (breaking : aligner.Breaking matchChild terminal (tried.collect progress.pendingTokens)
        progress.claimed failure after) :
      Proceeds aligner matchChild path (.busy start command next frame (terminal :: left) tried)
        progress (.failed failure) after
  | offered {start : Nat} {terminals : List τ} {next : Reply → Subtrees → Procedure τ}
      {frame tried : Frame σ ρ} {progress : Progress τ σ ρ} :
      Proceeds aligner matchChild path (.busy start (.offer terminals) next frame [] tried)
        progress
        (.idle start (next (.matched tried.tokens) progress.subtrees) (frame.commit tried))
        (stepped (frame.commit tried) (.matched tried.tokens)
          (next (.matched tried.tokens) progress.subtrees) progress)
  | taken {start : Nat} {terminals : List τ} {next : Reply → Subtrees → Procedure τ}
      {frame tried : Frame σ ρ} {progress : Progress τ σ ρ} :
      Proceeds aligner matchChild path (.busy start (.take terminals) next frame [] tried) progress
        (.idle start (next .proceed progress.subtrees)
          ((frame.commit tried).collect tried.tokens))
        (stepped ((frame.commit tried).collect tried.tokens) .proceed
          (next .proceed progress.subtrees) progress)
  | declined {start : Nat} {terminals : List τ} {next : Reply → Subtrees → Procedure τ}
      {frame tried : Frame σ ρ} {progress : Progress τ σ ρ} {terminal : τ} :
      Proceeds aligner matchChild path
        (.missed start (.offer terminals) next frame terminal tried) progress
        (.idle start (next .mismatched progress.subtrees) (frame.giveBack tried))
        (stepped (frame.giveBack tried) .mismatched (next .mismatched progress.subtrees) progress)
  | abandon {start : Nat} {terminals : List τ} {next : Reply → Subtrees → Procedure τ}
      {frame tried : Frame σ ρ} {progress : Progress τ σ ρ} {terminal : τ} :
      Proceeds aligner matchChild path
        (.missed start (.take terminals) next frame terminal tried) progress
        (.stuck (Terminal.describe terminal) tried.cursor)
        (progress.note (frame.giveBack tried) (.abandon (Terminal.describe terminal)))
  | again {terminal : String} {cursor other : σ} {progress : Progress τ σ ρ}
      (fallback : Cursor.fallback cursor = .ok other) :
      Proceeds aligner matchChild path (.stuck terminal cursor) progress (.ready other) progress
  | giveUp {terminal : String} {cursor : σ} {progress : Progress τ σ ρ} {cause : Failure}
      (final : aligner.Final cursor cause) :
      Proceeds aligner matchChild path (.stuck terminal cursor) progress
        (.failed (.parsing path.node.type terminal (Cursor.medium cursor)
          (Cursor.position cursor) (some cause)))
        (progress.note (aligner.opening path cursor)
          (.raise (.parsing path.node.type terminal (Cursor.medium cursor)
            (Cursor.position cursor) (some cause))))

/-- Every step stays at the node. -/
theorem Proceeds.stays {path : Ancestry} {stage later : Stage τ σ ρ}
    {progress after : Progress τ σ ρ}
    (step : aligner.Proceeds matchChild path stage progress later after) (h : stage.At path) :
    later.At path := by
  cases step with
  | begin _ => rfl
  | look _ => exact ⟨h, h⟩
  | find finding =>
      refine ⟨h.1, ?_⟩
      cases finding <;> exact h.2
  | miss _ => exact h
  | offered => exact h.2
  | taken => exact h.2
  | declined => exact h.1
  | emit => exact h
  | unknown _ | finish | breaks _ | abandon | again _ | giveUp _ => trivial

/-- A property of stages and states that every step of the node's match keeps. -/
structure Keeps (aligner : Aligner τ ρ) (matchChild : MatchChild τ σ ρ) (path : Ancestry)
    (holds : Stage τ σ ρ → Progress τ σ ρ → Prop) : Prop where
  step : ∀ {stage later progress after}, holds stage progress → stage.At path →
    aligner.Proceeds matchChild path stage progress later after → holds later after

namespace Keeps

variable {path : Ancestry} {holds : Stage τ σ ρ → Progress τ σ ρ → Prop}
  (keeps : aligner.Keeps matchChild path holds) {start : Nat} {frame tried : Frame σ ρ}
  {progress : Progress τ σ ρ}

include keeps

/-- A sequence of terminals ends in one of three stages: all were found, one is missing, or the
match has failed. -/
theorem sequence {command : Command τ} {next : Reply → Subtrees → Procedure τ} {left : List τ}
    (h : holds (.busy start command next frame left tried) progress)
    (hat : frame.path = path ∧ tried.path = path) :
    (aligner.sequence matchChild left tried progress).Ends (fun failure => holds (.failed failure))
      fun result after =>
        match result.1 with
        | .matched =>
          result.2.path = path ∧ holds (.busy start command next frame [] result.2) after
        | .missed name =>
          ∃ terminal, name = Terminal.describe terminal ∧ result.2.path = path ∧
            holds (.missed start command next frame terminal result.2) after := by
  induction left generalizing tried progress with
  | nil => exact ⟨hat.2, h⟩
  | cons terminal left ih =>
      rw [Aligner.sequence]
      cases hfind : aligner.find matchChild terminal tried progress with
      | failed failure after => exact keeps.step h hat (.breaks (find_eq_failed hfind))
      | done result after =>
          obtain ⟨here, last⟩ := result
          cases here with
          | true =>
              have step : aligner.Proceeds matchChild path
                  (.busy start command next frame (terminal :: left) tried) progress
                  (.busy start command next frame left last) after :=
                .find (find_eq_done_iff.mp hfind)
              exact ih (keeps.step h hat step) (step.stays hat)
          | false =>
              obtain ⟨rfl, rfl | ⟨found, hprobe, hempty, rfl⟩⟩ := find_eq_missed hfind
              · exact ⟨terminal, rfl, hat.2, keeps.step h hat (.miss .nothing)⟩
              · exact ⟨terminal, rfl, hat.2, keeps.step h hat (.miss (.void hprobe hempty))⟩

theorem drive {procedure : Procedure τ} (h : holds (.idle start procedure frame) progress)
    (hat : frame.path = path) :
    (aligner.drive matchChild start procedure frame progress).Ends
      (fun failure => holds (.failed failure)) fun result after =>
        match result with
        | .spelled spelling => holds (.spelled spelling) after
        | .abandoned terminal cursor => holds (.stuck terminal cursor) after := by
  induction procedure generalizing frame progress with
  | done => exact keeps.step h hat .finish
  | yield command next ih =>
      cases command with
      | emit tokens => exact ih _ _ (keeps.step h hat .emit) hat
      | offer terminals =>
          rw [Aligner.drive]
          have hlook := keeps.step h hat (.look rfl)
          apply (keeps.sequence hlook ⟨hat, hat⟩).andThen
          rintro ⟨outcome, tried⟩ state hstate
          cases outcome with
          | matched =>
              obtain ⟨htried, hstate⟩ := hstate
              exact ih _ _ (keeps.step hstate ⟨hat, htried⟩ .offered) htried
          | missed name =>
              obtain ⟨terminal, _, htried, hstate⟩ := hstate
              exact ih _ _ (keeps.step hstate ⟨hat, htried⟩ .declined) hat
      | take terminals =>
          rw [Aligner.drive]
          have hlook := keeps.step h hat (.look rfl)
          apply (keeps.sequence hlook ⟨hat, hat⟩).andThen
          rintro ⟨outcome, tried⟩ state hstate
          cases outcome with
          | matched =>
              obtain ⟨htried, hstate⟩ := hstate
              exact ih _ _ (keeps.step hstate ⟨hat, htried⟩ .taken) htried
          | missed name =>
              obtain ⟨terminal, rfl, htried, hstate⟩ := hstate
              exact keeps.step hstate ⟨hat, htried⟩ .abandon

theorem attempt {cursor : σ} (h : holds (.ready cursor) progress) :
    (aligner.attempt matchChild path cursor progress).Ends
      (fun failure => holds (.failed failure)) fun result after =>
        match result with
        | .spelled spelling => holds (.spelled spelling) after
        | .abandoned terminal cursor => holds (.stuck terminal cursor) after := by
  rw [Aligner.attempt, Grammar.start]
  cases hrule : aligner.grammar.rule? path.node.type with
  | none => exact keeps.step h trivial (.unknown hrule)
  | some rule => exact keeps.drive (keeps.step h trivial (.begin hrule)) rfl

/-- The property holds at the end of the node's match. -/
theorem restart {left : Nat} {cursor : σ} (h : holds (.ready cursor) progress) :
    (aligner.restart matchChild path left cursor progress).Ends
      (fun failure => holds (.failed failure)) fun spelling => holds (.spelled spelling) := by
  induction left generalizing cursor progress with
  | zero =>
      rw [Aligner.restart]
      apply (keeps.attempt h).andThen
      rintro (spelling | ⟨terminal, reached⟩) after hafter
      · exact hafter
      · exact keeps.step hafter trivial (.giveUp .limit)
  | succ left ih =>
      rw [Aligner.restart]
      apply (keeps.attempt h).andThen
      rintro (spelling | ⟨terminal, reached⟩) after hafter
      · exact hafter
      · cases hfall : Cursor.fallback reached with
        | ok next =>
            simp only [hfall]
            exact ih (keeps.step hafter trivial (.again hfall))
        | error cause =>
            simp only [hfall]
            exact keeps.step hafter trivial (.giveUp (.fallback hfall))

end Keeps

end Aligner

namespace Progress

/-- Since the earlier state only moments at the given depth or further down were written into the
journal. -/
def WritesBelow (depth : Nat) (before after : Progress τ σ ρ) : Prop :=
  ∃ new, after.journal = new ++ before.journal ∧ ∀ moment ∈ new, depth ≤ moment.frame.path.depth

namespace WritesBelow

variable {depth : Nat} {before progress after : Progress τ σ ρ}

theorem refl (depth : Nat) (progress : Progress τ σ ρ) : progress.WritesBelow depth progress :=
  ⟨[], rfl, by simp⟩

theorem trans (h : before.WritesBelow depth progress) (h' : progress.WritesBelow depth after) :
    before.WritesBelow depth after := by
  obtain ⟨new, hnew, hdepth⟩ := h
  obtain ⟨more, hmore, hdepth'⟩ := h'
  refine ⟨more ++ new, ?_, List.forall_mem_append.mpr ⟨hdepth', hdepth⟩⟩
  rw [hmore, hnew, List.append_assoc]

theorem note (h : before.WritesBelow depth progress) {frame : Frame σ ρ}
    (le : depth ≤ frame.path.depth) (act : Act τ) :
    before.WritesBelow depth (progress.note frame act) := by
  obtain ⟨new, hnew, hdepth⟩ := h
  refine ⟨⟨frame, progress.subtrees, progress.pending, act⟩ :: new, ?_,
    List.forall_mem_cons.mpr ⟨le, hdepth⟩⟩
  rw [Progress.note, hnew, List.cons_append]

theorem mono {deeper : Nat} (h : before.WritesBelow deeper after) (le : depth ≤ deeper) :
    before.WritesBelow depth after := by
  obtain ⟨new, hnew, hdepth⟩ := h
  exact ⟨new, hnew, fun moment hmoment => Nat.le_trans le (hdepth moment hmoment)⟩

end WritesBelow

end Progress

namespace Aligner

variable [Terminal τ] [Cursor σ] [Reads σ τ] {aligner : Aligner τ ρ}

/-- The attempts at a node write moments of the node, and its children write theirs. -/
theorem keeps_writesBelow {matchChild : MatchChild τ σ ρ}
    (hchild : ∀ path cursor progress, (matchChild path cursor progress).Ends
      (fun _ => progress.WritesBelow path.depth) fun _ => progress.WritesBelow path.depth)
    (path : Ancestry) (before : Progress τ σ ρ) :
    aligner.Keeps matchChild path fun _ progress => before.WritesBelow path.depth progress := by
  constructor
  intro stage later progress after h hat step
  have hnote : ∀ {state : Progress τ σ ρ} {frame : Frame σ ρ} (act : Act τ),
      before.WritesBelow path.depth state → frame.path = path →
      before.WritesBelow path.depth (state.note frame act) := by
    rintro state frame act hstate rfl
    exact hstate.note (Nat.le_refl _) act
  have hopened : ∀ {state last : Progress τ σ ρ} {frame : Frame σ ρ} {act : Act τ},
      (state.note frame act).WritesBelow (frame.path.depth + 1) last →
      before.WritesBelow path.depth state → frame.path = path →
      before.WritesBelow path.depth last := by
    rintro state last frame act hlast hstate rfl
    exact (hnote act hstate rfl).trans (hlast.mono (Nat.le_succ _))
  cases step with
  | begin _ => exact hnote _ (hnote _ h rfl) rfl
  | unknown _ => exact hnote _ (hnote _ h rfl) rfl
  | finish => exact hnote _ h hat
  | emit => exact hnote _ h hat
  | look _ => exact h
  | find finding =>
      cases finding with
      | plain _ _ _ => exact hnote _ h hat.2
      | separator _ _ _ => exact hnote _ (hnote _ h hat.2) hat.2
      | child _ _ _ _ matched =>
          have hafter := (hchild _ _ _).of_done matched
          exact hnote _ (hnote _ (hopened hafter h hat.2) hat.2) hat.2
  | miss missing =>
      cases missing with
      | nothing => exact hnote _ h hat.2
      | void _ _ => exact hnote _ h hat.2
  | breaks breaking =>
      cases breaking with
      | unresolved _ _ _ _ => exact hnote _ h hat.2
      | child _ _ _ _ failed => exact hopened ((hchild _ _ _).of_failed failed) h hat.2
  | offered => exact hnote _ h hat.2
  | taken => exact hnote _ h hat.2
  | declined => exact hnote _ h hat.1
  | abandon => exact hnote _ h hat.1
  | again _ => exact h
  | giveUp _ => exact hnote _ h rfl

/-- A match of a node writes moments of the node and of nodes below it. -/
theorem writesBelow_matchNode (levels : Nat) (path : Ancestry) (cursor : σ)
    (progress : Progress τ σ ρ) :
    (aligner.matchNode levels path cursor progress).Ends
      (fun _ => progress.WritesBelow path.depth) fun _ => progress.WritesBelow path.depth := by
  induction levels generalizing path cursor progress with
  | zero => exact (Progress.WritesBelow.refl path.depth progress).note (Nat.le_refl _) _
  | succ levels ih => exact (keeps_writesBelow ih path progress).restart (.refl _ _)

end Aligner

end TreeAlign
