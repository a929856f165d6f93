import TreeAlign.Proofs.Grammar.Heedless
import TreeAlign.Proofs.Matching.Coincidence

/-!
# Splitting a demand is invisible

A procedure that asks for terminals may as well ask for some of them first
and at once for the others. The cut makes no difference to the outcome: the
resolver is kept after the first part and goes on from there, tokens are
collected earlier and in the same order, and a separator that waits in the
slot at the cut is claimed by the first terminal behind it. This holds
wherever the demands are cut, in matches that fail and in matches that begin
again on another input.
-/

namespace TreeAlign

variable {τ σ ρ : Type}

namespace Procedure

/-- The second procedure is the first one with some demands cut in two: it asks for the first
terminals, and at once for the others. -/
inductive Splits : Procedure τ → Procedure τ → Prop where
  | done : Splits .done .done
  | same {command : Command τ} {next next' : Reply → Subtrees → Procedure τ}
      (rest : ∀ reply subtrees, Splits (next reply subtrees) (next' reply subtrees)) :
      Splits (.yield command next) (.yield command next')
  | cut {first second : List τ} {next next' : Reply → Subtrees → Procedure τ}
      (rest : ∀ subtrees, Splits (next .proceed subtrees) (next' .proceed subtrees)) :
      Splits (.yield (.take (first ++ second)) next)
        (.yield (.take first) fun _ _ => .yield (.take second) next')

/-- The procedure with every demand cut behind as many terminals. -/
def cutAt (place : Nat) : Procedure τ → Procedure τ
  | .done => .done
  | .yield (.emit tokens) next =>
    .yield (.emit tokens) fun reply subtrees => (next reply subtrees).cutAt place
  | .yield (.offer terminals) next =>
    .yield (.offer terminals) fun reply subtrees => (next reply subtrees).cutAt place
  | .yield (.take terminals) next =>
    .yield (.take (terminals.take place)) fun _ _ => .yield (.take (terminals.drop place))
      fun reply subtrees => (next reply subtrees).cutAt place

theorem splits_cutAt (place : Nat) (procedure : Procedure τ) :
    procedure.Splits (procedure.cutAt place) := by
  induction procedure with
  | done => exact .done
  | yield command next ih =>
      cases command with
      | emit tokens => exact .same ih
      | offer terminals => exact .same ih
      | take terminals =>
          have hcut : Splits (.yield (.take (terminals.take place ++ terminals.drop place)) next)
              (cutAt place (.yield (.take terminals) next)) :=
            .cut fun subtrees => ih .proceed subtrees
          rw [List.take_append_drop] at hcut
          exact hcut

end Procedure

theorem Run.andThen_assoc {α β γ : Type} (run : Run τ σ ρ α)
    (next : α → Progress τ σ ρ → Run τ σ ρ β) (last : β → Progress τ σ ρ → Run τ σ ρ γ) :
    (run.andThen next).andThen last =
      run.andThen fun value progress => (next value progress).andThen last := by
  cases run with
  | done value progress => rfl
  | failed failure progress => rfl

namespace Frame

/-- A demand that was met has found its tokens behind those of the frame. The next demand begins
in the frame that was reached, without these tokens. -/
theorem behind_emptied_commit (frame tried : Frame σ ρ) :
    ((frame.commit tried).collect tried.tokens).emptied.behind tried.tokens = tried := by
  simp only [commit, collect, emptied, behind, List.append_nil]

/-- What two demands find one after the other is collected in one go by the whole demand. -/
theorem collect_commit_behind (frame tried again : Frame σ ρ) :
    (frame.commit (again.behind tried.tokens)).collect (again.behind tried.tokens).tokens =
      (((frame.commit tried).collect tried.tokens).commit again).collect again.tokens := by
  simp only [commit, collect, behind, List.append_assoc]

end Frame

namespace Aligner

variable [Terminal τ] [Cursor σ] [Reads σ τ] {aligner : Aligner τ ρ}

/-- Terminals are looked for one part after the other. -/
theorem sequence_append (matchChild : MatchChild τ σ ρ) (first second : List τ)
    (frame : Frame σ ρ) (progress : Progress τ σ ρ) :
    aligner.sequence matchChild (first ++ second) frame progress =
      (aligner.sequence matchChild first frame progress).andThen fun result progress =>
        match result with
        | (.matched, tried) => aligner.sequence matchChild second tried progress
        | (.missed terminal, tried) => .done (.missed terminal, tried) progress := by
  induction first generalizing frame progress with
  | nil => rfl
  | cons terminal rest ih =>
      rw [List.cons_append, sequence, sequence]
      cases aligner.find matchChild terminal frame progress with
      | failed failure after => rfl
      | done result after =>
          obtain ⟨here, middle⟩ := result
          cases here with
          | true => exact ih middle after
          | false => rfl

/-- Two matches that never part, one of which has its demands cut. -/
theorem follows_splits {grammar : Grammar τ} {matchChild matchChild' : MatchChild τ σ ρ}
    (coincident : Coincident (fun _ => False) matchChild matchChild') :
    aligner.Follows grammar (fun _ => False) Procedure.Splits matchChild matchChild' := by
  intro start procedure procedure' frame progress progress' splits h
  induction splits generalizing frame progress progress' with
  | done =>
      rw [drive, drive]
      exact .done rfl (h.note _ _ _ _)
  | @same command next next' rest ih =>
      exact coincident.drive_yield start command ih frame h
  | @cut first second next next' rest ih =>
      rw [drive, drive, sequence_append, Run.andThen_assoc]
      apply (coincident.sequence first frame.emptied h).andThen
      · intro result state away
        exact absurd away Progress.not_parted_never
      · rintro ⟨outcome, tried⟩ state _ state' rfl hstate
        cases outcome with
        | missed name => exact .done rfl (hstate.note _ _ _ _)
        | matched =>
            -- The one match goes on with the tokens it has found, the other has collected them.
            have hsecond : (aligner.sequence matchChild second
                (((frame.commit tried).collect tried.tokens).emptied.behind tried.tokens)
                state).Coincide (fun _ => False)
                (fun result result' => result = (result'.1, result'.2.behind tried.tokens))
                ((aligner.withGrammar grammar).sequence matchChild' second
                  ((frame.commit tried).collect tried.tokens).emptied
                  (stepped ((frame.commit tried).collect tried.tokens) .proceed
                    (.yield (.take second) next') state')) :=
              coincident.sequence_behind tried.tokens second (hstate.note_right _ _)
            rw [Frame.behind_emptied_commit] at hsecond
            apply hsecond.andThen
            · intro result last away
              exact absurd away Progress.not_parted_never
            · rintro _ last ⟨outcome, again⟩ last' rfl hlast
              cases outcome with
              | missed name => exact .done rfl (hlast.note _ _ _ _)
              | matched =>
                  simp only [Frame.collect_commit_behind, hlast.subtrees_eq]
                  exact ih _ _ (hlast.note _ _ _ _)

/-- Splitting demands is invisible: a run has the same outcome when demands are cut in two wherever
one likes, be it an alignment with the same tokens, extents and stored children, or a failure. The
grammar may even look at the children found so far, since both matches have found the same. -/
theorem run_splits (aligner : Aligner τ ρ) {grammar : Grammar τ}
    (splits : aligner.grammar.Linked Procedure.Splits grammar) (root : Node Token) (cursor : σ)
    (supply : Nat) :
    ((aligner.withGrammar grammar).run root cursor supply).1 =
      (aligner.run root cursor supply).1 := by
  apply run_eq_of_linked splits follows_splits
  exact Progress.not_parted_never

/-- A call whose own tokens have the wrong bracket. -/
def splitCall : Node Token :=
  ⟨"Call", [("callee", .node ⟨"Name", [], some ⟨0, 2⟩, some [⟨⟨"Identifier", "f"⟩, 2⟩]⟩)],
    some ⟨0, 6⟩, some [⟨.reference "callee", 0⟩, ⟨⟨"Punctuator", "["⟩, 1⟩]⟩

/-- A call is a name with brackets behind it, and there may be space in front of both brackets. -/
def splitCallAligner : Aligner Stock ByName where
  grammar := .scripted
    [("Call", [.take [.reference "callee", .punctuator "(", .separator, .punctuator ")"]]),
      ("Name", [.take [.identifier "f", .separator]])]
  resolver := .byName

/-- The tokens of the call, and a text to fall back to. -/
def splitCallInput (text : String) : Input :=
  .tokens ((TokenCursor.ofNode splitCall).withText text.toList)

/-- The message of the failure that ended a run. -/
def refusal? : Except Failure Alignment → Option String
  | .error failure => some failure.message
  | .ok _ => none

/-- Both grammars find the call in the text, or miss the same bracket there. The demand is cut where
a separator waits in the slot. -/
theorem run_splits_splitCall :
    (∃ alignment, (splitCallAligner.run splitCall (splitCallInput "f (  )") 3).1 = .ok alignment ∧
      alignment.text = "f (  )" ∧
      ((splitCallAligner.withGrammar (splitCallAligner.grammar.mapProcedures (.cutAt 3))).run
        splitCall (splitCallInput "f (  )") 3).1 = .ok alignment) ∧
    ∃ failure, (splitCallAligner.run splitCall (splitCallInput "f (  ]") 3).1 = .error failure ∧
      failure.message =
        "parsing failed: `Call` expected Punctuator(\")\") at text position 5" ∧
      ((splitCallAligner.withGrammar (splitCallAligner.grammar.mapProcedures (.cutAt 3))).run
        splitCall (splitCallInput "f (  ]") 3).1 = .error failure := by
  have hsplits := Grammar.linked_mapProcedures (Procedure.splits_cutAt 3) splitCallAligner.grammar
  constructor
  · have hrun : ((splitCallAligner.run splitCall (splitCallInput "f (  )") 3).1.toOption.map
        Alignment.text) = some "f (  )" := by
      decide +kernel
    obtain ⟨alignment, hfound, htext⟩ := Option.map_eq_some_iff.mp hrun
    have hok := eq_ok_of_toOption hfound
    refine ⟨alignment, hok, htext, ?_⟩
    rw [run_splits splitCallAligner hsplits, hok]
  · have hrun : refusal? (splitCallAligner.run splitCall (splitCallInput "f (  ]") 3).1 =
        some "parsing failed: `Call` expected Punctuator(\")\") at text position 5" := by
      decide +kernel
    cases hended : (splitCallAligner.run splitCall (splitCallInput "f (  ]") 3).1 with
    | ok alignment =>
        rw [hended] at hrun
        cases hrun
    | error failure =>
        rw [hended] at hrun
        refine ⟨failure, rfl, Option.some.inj hrun, ?_⟩
        rw [run_splits splitCallAligner hsplits, hended]

end Aligner

end TreeAlign
