import TreeAlign.Proofs.Matching.Twins

/-!
# Two matches in tandem

Two matches may differ in their grammars and in what they have stored, and
still look for terminals with the same success. All that a sequence of
terminals depends on is the slot, the supply, where the cursor moves to and
how the children are matched. Where a relation between the states of two
matches fixes these and is kept by what a sequence does to a state, the same
sequence from the same frame ends alike in both matches, in the same frame.
-/

namespace TreeAlign

variable {τ σ ρ α : Type}

/-- What is known of one of two runs that end alike can be added. -/
theorem Run.Alike.and {related : α → Progress τ σ ρ → α → Progress τ σ ρ → Prop}
    {run run' : Run τ σ ρ α} {failed : Failure → Progress τ σ ρ → Prop}
    {done : α → Progress τ σ ρ → Prop} (h : run.Alike related run') (ends : run.Ends failed done) :
    run.Alike (fun value after value' after' => related value after value' after' ∧
      done value after) run' := by
  rcases h.ends with ⟨value, after, value', after', rfl, rfl, hvalue⟩ | ⟨failure, _, _, rfl, rfl⟩
  · exact ⟨hvalue, ends⟩
  · exact rfl

/-- The act tells what became of a terminal. -/
def Act.IsFinding : Act τ → Prop
  | .defer _ | .pass _ _ | .miss _ => True
  | .begin | .step _ _ | .descend _ _ | .record _ _ | .abandon _ | .finish _ | .raise _ => False

namespace Aligner

variable [Cursor σ]

/-- A relation between the states of two matches at a node, both of which look for terminals at a
kind of cursor. -/
structure Tandem (aligner aligner' : Aligner τ ρ) (path : Ancestry) (within : σ → Prop)
    (related : Progress τ σ ρ → Progress τ σ ρ → Prop)
    (matchChild matchChild' : MatchChild τ σ ρ) : Prop where
  resolver : aligner'.resolver = aligner.resolver
  advance : ∀ {cursor : σ} (tokens : List Token) (subtrees : Subtrees), within cursor →
    within (Cursor.advance tokens subtrees cursor)
  slot : ∀ {progress progress'}, related progress progress' →
    progress'.pendingTokens = progress.pendingTokens
  supply : ∀ {progress progress'}, related progress progress' →
    progress'.supply = progress.supply
  moves : ∀ {progress progress'} {cursor : σ} (tokens : List Token), related progress progress' →
    within cursor →
    Cursor.advance tokens progress'.subtrees cursor =
      Cursor.advance tokens progress.subtrees cursor
  claimed : ∀ {progress progress'}, related progress progress' →
    related progress.claimed progress'.claimed
  draw : ∀ {progress progress'} (found : Found), related progress progress' →
    related (progress.draw found) (progress'.draw found)
  defer : ∀ {progress progress'} (tokens : List Token) (terminal : τ),
    related progress progress' →
    related (progress.defer tokens terminal) (progress'.defer tokens terminal)
  note : ∀ {progress progress'} {frame : Frame σ ρ} {act : Act τ}, related progress progress' →
    frame.path = path → act.IsFinding → related (progress.note frame act) (progress'.note frame act)
  child : ∀ {progress progress'} {frame : Frame σ ρ} (reference : Token) (node : Node Token)
    (route : Route), related progress progress' → frame.path = path → within frame.cursor →
    (matchChild (.child frame.path node route) (Cursor.forChild node frame.cursor)
      (progress.note frame (.descend reference route))).Alike
      (fun spelling after spelling' after' =>
        related ((after.note frame (.record reference spelling)).record reference spelling)
          ((after'.note frame (.record reference spelling')).record reference spelling'))
      (matchChild' (.child frame.path node route) (Cursor.forChild node frame.cursor)
        (progress'.note frame (.descend reference route)))

namespace Tandem

variable {aligner aligner' : Aligner τ ρ} {path : Ancestry} {within : σ → Prop}
  {related : Progress τ σ ρ → Progress τ σ ρ → Prop} {matchChild matchChild' : MatchChild τ σ ρ}
  (tandem : Tandem aligner aligner' path within related matchChild matchChild')
  {frame : Frame σ ρ} {progress progress' : Progress τ σ ρ}

include tandem

theorem descend (reference : Token) (path_eq : frame.path = path) (inside : within frame.cursor)
    (h : related progress progress') :
    (aligner.descend matchChild reference frame progress).Alike
      (fun last after last' after' => last' = last ∧ last.path = path ∧ within last.cursor ∧
        related after after')
      (aligner'.descend matchChild' reference frame progress') := by
  rw [Aligner.descend, Aligner.descend, tandem.resolver]
  split
  · exact rfl
  · next route node _ =>
      apply (tandem.child reference node route h path_eq inside).andThen
      intro spelling after spelling' after' hafter
      exact ⟨rfl, path_eq, inside, hafter⟩

variable [Terminal τ]

theorem takeUp (terminal : τ) (tokens : List Token) (path_eq : frame.path = path)
    (inside : within frame.cursor) (h : related progress progress') :
    (aligner.takeUp matchChild terminal tokens frame progress).Alike
      (fun result after result' after' => result' = result ∧ result.2.path = path ∧
        within result.2.cursor ∧ related after after')
      (aligner'.takeUp matchChild' terminal tokens frame progress') := by
  have hmove : frame.move tokens progress'.subtrees = frame.move tokens progress.subtrees := by
    rw [Frame.move, Frame.move, tandem.moves tokens h inside]
  have hinside : within (frame.move tokens progress.subtrees).cursor :=
    tandem.advance tokens progress.subtrees inside
  unfold Aligner.takeUp
  split
  · cases tokens with
    | nil => exact ⟨rfl, path_eq, inside, tandem.note h path_eq trivial⟩
    | cons reference rest =>
        apply (tandem.descend reference path_eq inside h).andThen
        rintro _ after last after' ⟨rfl, hlast, hwithin, hafter⟩
        have hmoved : last.move (reference :: rest) after'.subtrees =
            last.move (reference :: rest) after.subtrees := by
          rw [Frame.move, Frame.move, tandem.moves _ hafter hwithin]
        rw [hmoved]
        exact ⟨rfl, hlast, tandem.advance _ _ hwithin, tandem.note hafter hlast trivial⟩
  · rw [hmove]
    split
    · refine ⟨rfl, path_eq, hinside, tandem.note ?_ path_eq trivial⟩
      exact tandem.defer tokens terminal (tandem.note h path_eq trivial)
    · exact ⟨rfl, path_eq, hinside, tandem.note h path_eq trivial⟩

variable [Reads σ τ]

theorem find (terminal : τ) (path_eq : frame.path = path) (inside : within frame.cursor)
    (h : related progress progress') :
    (aligner.find matchChild terminal frame progress).Alike
      (fun result after result' after' => result' = result ∧ result.2.path = path ∧
        within result.2.cursor ∧ related after after')
      (aligner'.find matchChild' terminal frame progress') := by
  rw [Aligner.find, Aligner.find, tandem.slot h]
  unfold findHere
  split
  · exact ⟨rfl, path_eq, inside, tandem.note (tandem.claimed h) path_eq trivial⟩
  · next found _ =>
      rw [tandem.supply (tandem.claimed h)]
      apply tandem.takeUp
      · exact path_eq
      · exact inside
      · exact tandem.draw found (tandem.claimed h)

/-- A sequence of terminals ends in the same frame in both matches. -/
theorem sequence (terminals : List τ) (path_eq : frame.path = path) (inside : within frame.cursor)
    (h : related progress progress') :
    (aligner.sequence matchChild terminals frame progress).Alike
      (fun result after result' after' => result' = result ∧ result.2.path = path ∧
        within result.2.cursor ∧ related after after')
      (aligner'.sequence matchChild' terminals frame progress') := by
  induction terminals generalizing frame progress progress' with
  | nil => exact ⟨rfl, path_eq, inside, h⟩
  | cons terminal rest ih =>
      rw [Aligner.sequence, Aligner.sequence]
      apply (tandem.find terminal path_eq inside h).andThen
      rintro ⟨here, middle⟩ state _ state' ⟨rfl, hmiddle, hinside, hstate⟩
      cases here with
      | false => exact ⟨rfl, hmiddle, hinside, hstate⟩
      | true => exact ih hmiddle hinside hstate

end Tandem

end Aligner

end TreeAlign
