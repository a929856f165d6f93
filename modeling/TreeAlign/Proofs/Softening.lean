import TreeAlign.Proofs.Grammar.Heedless
import TreeAlign.Proofs.Matching.Coincidence
import TreeAlign.Proofs.Matching.Stages

/-!
# Offers whose tokens are emitted

A procedure can demand terminals, or offer to take them and emit what was
found. The demand collects the tokens itself. The offer hands them to the
procedure, and a separator at its end waits in the slot until they come back
and beyond. As long as every terminal is there, both ways lead to the same
alignment. Where one is missing they part: the demand gives the attempt up,
and the offer lets the procedure go on.

A run that succeeds has given an attempt up only where it began another one.
So a demand was never missed in a run that succeeds and has never begun
again.
-/

namespace TreeAlign

variable {τ σ ρ : Type}

namespace Procedure

/-- The second procedure is the first one with some demands made into offers whose tokens are
emitted. What it does when an offer is not taken up is left open. -/
inductive Softens : Procedure τ → Procedure τ → Prop where
  | done : Softens .done .done
  | same {command : Command τ} {next next' : Reply → Subtrees → Procedure τ}
      (rest : ∀ reply subtrees, Softens (next reply subtrees) (next' reply subtrees)) :
      Softens (.yield command next) (.yield command next')
  | echo {terminals : List τ} {next next' : Reply → Subtrees → Procedure τ}
      {last : List Token → Reply → Subtrees → Procedure τ}
      (emits : ∀ tokens subtrees,
        next' (.matched tokens) subtrees = .yield (.emit tokens) (last tokens))
      (rest : ∀ tokens subtrees,
        Softens (next .proceed subtrees) (last tokens .proceed subtrees)) :
      Softens (.yield (.take terminals) next) (.yield (.offer terminals) next')

/-- Emits the tokens of an offer that was taken up. -/
def echoing (last : Reply → Subtrees → Procedure τ) : Reply → Subtrees → Procedure τ
  | .matched tokens, _ => .yield (.emit tokens) last
  | .proceed, _ | .mismatched, _ => .done

/-- The procedure with every demand made into an offer whose tokens are emitted. It ends where an
offer is not taken up. -/
def soften : Procedure τ → Procedure τ
  | .done => .done
  | .yield (.emit tokens) next =>
    .yield (.emit tokens) fun reply subtrees => (next reply subtrees).soften
  | .yield (.offer terminals) next =>
    .yield (.offer terminals) fun reply subtrees => (next reply subtrees).soften
  | .yield (.take terminals) next =>
    .yield (.offer terminals) (echoing fun reply subtrees => (next reply subtrees).soften)

theorem softens_soften (procedure : Procedure τ) : procedure.Softens procedure.soften := by
  induction procedure with
  | done => exact .done
  | yield command next ih =>
      cases command with
      | emit tokens => exact .same ih
      | offer terminals => exact .same ih
      | take terminals =>
          have hemits : ∀ tokens subtrees,
              echoing (fun reply subtrees => (next reply subtrees).soften) (.matched tokens)
                subtrees = .yield (.emit tokens) fun reply subtrees => (next reply subtrees).soften :=
            fun _ _ => rfl
          exact .echo hemits fun _ subtrees => ih .proceed subtrees

end Procedure

/-- An attempt is given up. -/
def Act.isAbandon : Act τ → Bool
  | .abandon _ => true
  | _ => false

namespace Progress

/-- The latest moment is one at which an attempt was given up. -/
def isGivenUp (progress : Progress τ σ ρ) : Bool :=
  progress.journal.head?.any fun moment => moment.act.isAbandon

/-- The number of attempts in a journal that began as soon as another one had been given up. -/
def restartsIn : List (Moment τ σ ρ) → Nat
  | begun :: before :: earlier =>
    (if begun.act.isBegin && before.act.isAbandon then 1 else 0) + restartsIn (before :: earlier)
  | _ => 0

/-- The number of times that a match has begun again at some node. -/
def restarts (progress : Progress τ σ ρ) : Nat :=
  restartsIn progress.journal

theorem restarts_note (progress : Progress τ σ ρ) (frame : Frame σ ρ) (act : Act τ) :
    (progress.note frame act).restarts =
      (if act.isBegin && progress.isGivenUp then 1 else 0) + progress.restarts := by
  obtain ⟨subtrees, pending, supply, journal⟩ := progress
  cases journal with
  | nil => simp [restarts, note, isGivenUp, restartsIn]
  | cons before earlier => rfl

/-- An attempt that was given up has led to a restart, here or at another node. -/
def Retried (progress : Progress τ σ ρ) : Prop :=
  progress.Parted (·.isAbandon) → 0 < progress.restarts

namespace Retried

variable {progress : Progress τ σ ρ}

theorem note (h : progress.Retried) (frame : Frame σ ρ) {act : Act τ}
    (goesOn : act.isAbandon = false) : (progress.note frame act).Retried := by
  rintro ⟨moment, hmem, hact⟩
  rw [restarts_note]
  rcases List.mem_cons.mp hmem with rfl | hmem
  · rw [goesOn] at hact
    cases hact
  · exact Nat.lt_of_lt_of_le (h ⟨moment, hmem, hact⟩) (Nat.le_add_left ..)

theorem claimed (h : progress.Retried) : progress.claimed.Retried := h

theorem draw (h : progress.Retried) (found : Found) : (progress.draw found).Retried := h

theorem defer (h : progress.Retried) (tokens : List Token) (terminal : τ) :
    (progress.defer tokens terminal).Retried := h

theorem record (h : progress.Retried) (reference : Token) (spelling : Spelling) :
    (progress.record reference spelling).Retried := h

/-- An attempt begins again. -/
theorem note_begin (givenUp : progress.isGivenUp = true) (frame : Frame σ ρ) :
    (progress.note frame .begin).Retried := by
  intro _
  rw [restarts_note, givenUp]
  exact Nat.lt_add_right _ Nat.one_pos

end Retried

/-- What holds of the attempts that were given up, at each stage of a node's match. One that has
just been given up is not retried yet, and nothing is said once the match has failed. -/
def RetriedAt (stage : Stage τ σ ρ) (progress : Progress τ σ ρ) : Prop :=
  match stage with
  | .failed _ => True
  | .ready _ | .stuck _ _ => progress.Retried ∨ progress.isGivenUp = true
  | .idle _ _ _ | .busy _ _ _ _ _ _ | .missed _ _ _ _ _ _ | .spelled _ => progress.Retried

end Progress

namespace Aligner

variable [Terminal τ] [Cursor σ] [Reads σ τ] {aligner : Aligner τ ρ}

/-- Every step either begins again after an attempt was given up, or ends the match. -/
theorem keeps_retriedAt {matchChild : MatchChild τ σ ρ}
    (hchild : ∀ path cursor progress, progress.Retried →
      (matchChild path cursor progress).Ends (fun _ _ => True) fun _ after => after.Retried)
    (path : Ancestry) : aligner.Keeps matchChild path Progress.RetriedAt := by
  constructor
  intro stage later progress after h _ step
  cases step with
  | begin _ =>
      rcases h with h | hgivenUp
      · exact (h.note _ rfl).note _ rfl
      · exact (Progress.Retried.note_begin hgivenUp _).note _ rfl
  | finish => exact Progress.Retried.note h _ rfl
  | emit => exact Progress.Retried.note h _ rfl
  | look _ => exact h
  | find finding =>
      have hclaimed : progress.claimed.Retried := Progress.Retried.claimed h
      cases finding with
      | plain _ _ _ => exact (hclaimed.draw _).note _ rfl
      | separator _ _ _ => exact (((hclaimed.draw _).note _ rfl).defer _ _).note _ rfl
      | child _ _ _ _ matched =>
          have hafter := (hchild _ _ _ ((hclaimed.draw _).note _ rfl)).of_done matched
          exact ((hafter.note _ rfl).record _ _).note _ rfl
  | miss missing =>
      have hclaimed : progress.claimed.Retried := Progress.Retried.claimed h
      cases missing with
      | nothing => exact hclaimed.note _ rfl
      | void _ _ => exact (hclaimed.draw _).note _ rfl
  | offered => exact Progress.Retried.note h _ rfl
  | taken => exact Progress.Retried.note h _ rfl
  | declined => exact Progress.Retried.note h _ rfl
  | abandon => exact Or.inr rfl
  | again _ => exact h
  | unknown _ | breaks _ | giveUp _ => trivial

/-- A node is matched only if every attempt that was given up has been retried. -/
theorem retried_matchNode (aligner : Aligner τ ρ) (levels : Nat) (path : Ancestry) (cursor : σ)
    {progress : Progress τ σ ρ} (h : progress.Retried) :
    (aligner.matchNode levels path cursor progress).Ends (fun _ _ => True)
      fun _ after => after.Retried := by
  induction levels generalizing path cursor progress with
  | zero => trivial
  | succ levels ih =>
      have hkeeps : aligner.Keeps (aligner.matchNode levels : MatchChild τ σ ρ) path
          Progress.RetriedAt := keeps_retriedAt (fun path cursor _ => ih path cursor) path
      exact hkeeps.restart (Or.inl h)

theorem retried_run {root : Node Token} {cursor : σ} {supply : Nat} {alignment : Alignment}
    {after : Progress τ σ ρ} (found : aligner.run root cursor supply = (.ok alignment, after)) :
    after.Retried := by
  have hstart : ({ supply } : Progress τ σ ρ).Retried := by
    rintro ⟨moment, hmem, _⟩
    cases hmem
  have hmatch := retried_matchNode aligner (aligner.limits.maxDepth + 1) (.root root) cursor hstart
  rw [run] at found
  cases hended : aligner.matchNode (aligner.limits.maxDepth + 1) (.root root) cursor
      ({ supply } : Progress τ σ ρ) with
  | done spelling last =>
      rw [hended] at found
      cases found
      exact (hmatch.of_done hended).claimed
  | failed failure last =>
      rw [hended] at found
      cases found

/-- Two matches that part where a demand is missed, one of which has offers in its place. -/
theorem follows_softens {grammar : Grammar τ} {matchChild matchChild' : MatchChild τ σ ρ}
    (coincident : Coincident (·.isAbandon) matchChild matchChild') :
    aligner.Follows grammar (·.isAbandon) Procedure.Softens matchChild matchChild' := by
  intro start procedure procedure' frame progress progress' softens h
  induction softens generalizing frame progress progress' with
  | done =>
      rw [drive, drive]
      exact .done rfl (h.note _ _ _ _)
  | @same command next next' rest ih =>
      exact coincident.drive_yield start command ih frame h
  | @echo terminals next next' last emits rest ih =>
      rw [drive, drive]
      apply (coincident.sequence terminals frame.emptied h).andThen
      · rintro ⟨outcome, tried⟩ state away
        cases outcome with
        | matched => exact coincident.onward_drive start _ _ away
        | missed name => exact away.note _ _
      · rintro ⟨outcome, tried⟩ state _ state' rfl hstate
        cases outcome with
        | missed name => exact .parted ⟨_, List.mem_cons_self .., rfl⟩
        | matched =>
            -- The tokens of the offer are collected one command later, with nothing in between.
            have hechoed := hstate.note_right (frame.commit tried)
              (.step (.matched tried.tokens) (some (.emit tried.tokens)))
            simp only [emits, drive, ← hechoed.subtrees_eq]
            exact ih _ _ _ (hechoed.note _ _ _ _)

/-- Offers whose tokens are emitted agree with demands: where a run succeeds without beginning again
at any node, the run in which demands are made into such offers has the same alignment, with the
same tokens and extents and the same stored children. The grammar may even look at the children
found so far, and may do anything where an offer is not taken up. -/
theorem run_softens (aligner : Aligner τ ρ) {grammar : Grammar τ}
    (softens : aligner.grammar.Linked Procedure.Softens grammar) (root : Node Token) (cursor : σ)
    (supply : Nat) {alignment : Alignment} {after : Progress τ σ ρ}
    (found : aligner.run root cursor supply = (.ok alignment, after))
    (direct : after.restarts = 0) :
    ((aligner.withGrammar grammar).run root cursor supply).1 = .ok alignment := by
  have htogether : ¬ (aligner.run root cursor supply).2.Parted (·.isAbandon) := by
    intro away
    have hretried := retried_run found
    rw [found] at away
    exact absurd (hretried away) (by omega)
  calc ((aligner.withGrammar grammar).run root cursor supply).1
      = (aligner.run root cursor supply).1 :=
        run_eq_of_linked softens follows_softens root cursor supply htogether
    _ = .ok alignment := congrArg Prod.fst found

/-- Two words in brackets. -/
def softPair : Node Token :=
  ⟨"Pair", [("left", .node ⟨"Word", [], none, none⟩), ("right", .node ⟨"Word", [], none, none⟩)],
    none, none⟩

/-- There may be space behind a word. It waits in the slot when the word is done, and belongs to the
pair. -/
def softPairAligner : Aligner Stock ByName where
  grammar := .scripted
    [("Pair", [.take [.punctuator "(", .separator],
        .take [.reference "left", .punctuator ",", .separator, .reference "right"],
        .take [.punctuator ")"]]),
      ("Word", [.take [.identifier "a", .separator]])]
  resolver := .byName

/-- The text of a pair. -/
def softPairInput : Input := .text (.whole "( a , a )".toList)

/-- Each separator waits between an offer and the emission of its tokens. -/
theorem run_softens_softPair :
    ∃ alignment after,
      softPairAligner.run softPair softPairInput 0 = (.ok alignment, after) ∧
      after.restarts = 0 ∧ alignment.text = "( a , a )" ∧
      ((softPairAligner.withGrammar (softPairAligner.grammar.mapProcedures .soften)).run softPair
        softPairInput 0).1 = .ok alignment := by
  have htext : (softPairAligner.run softPair softPairInput 0).1.toOption.map Alignment.text =
      some "( a , a )" := by
    decide +kernel
  have hdirect : (softPairAligner.run softPair softPairInput 0).2.restarts = 0 := by
    decide +kernel
  obtain ⟨alignment, hfound, htext⟩ := Option.map_eq_some_iff.mp htext
  have hrun : softPairAligner.run softPair softPairInput 0 =
      (.ok alignment, (softPairAligner.run softPair softPairInput 0).2) :=
    Prod.ext (eq_ok_of_toOption hfound) rfl
  refine ⟨alignment, _, hrun, hdirect, htext, ?_⟩
  exact run_softens softPairAligner
    (Grammar.linked_mapProcedures Procedure.softens_soften softPairAligner.grammar) softPair
    softPairInput 0 hrun hdirect

end Aligner

end TreeAlign
