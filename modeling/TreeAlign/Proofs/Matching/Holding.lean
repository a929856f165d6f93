import TreeAlign.Proofs.Matching.Taking

/-!
# What the attempts at a node hold

Facts about every moment of a match, whether it fails or not, are shown step
by step. While a node is matched, its attempts hold tokens: those collected
in their frames, those found by a sequence of terminals, and those of which
the procedure was told. `Upholds` lists what a property of the held tokens,
of the cursor and of the state has to bear: the slot is claimed, identities
are drawn, tokens are collected or wait in the slot, a child is matched and
stored, the procedure emits tokens, and moments are written into the
journal. The inductions over terminals, commands and restarts are done here
once, for grammars that emit only what they may.

## Implementation notes

Held tokens are never given back, so a property of them need not bear that
tokens are dropped. The frames that are written into the journal collect
held tokens only.
-/

namespace TreeAlign

variable {τ σ ρ α β : Type}

namespace Procedure

/-- The procedure emits only what it may emit after its offers have found the given tokens. -/
inductive Emits (mayEmit : List Token → List Token → Prop) : List Token → Procedure τ → Prop where
  | done {known : List Token} : Emits mayEmit known .done
  | emit {known tokens : List Token} {next : Reply → Subtrees → Procedure τ}
      (may : mayEmit known tokens)
      (rest : ∀ subtrees, Emits mayEmit known (next .proceed subtrees)) :
      Emits mayEmit known (.yield (.emit tokens) next)
  | offer {known : List Token} {terminals : List τ} {next : Reply → Subtrees → Procedure τ}
      (matched : ∀ tokens subtrees,
        Emits mayEmit (known ++ tokens) (next (.matched tokens) subtrees))
      (mismatched : ∀ subtrees, Emits mayEmit known (next .mismatched subtrees)) :
      Emits mayEmit known (.yield (.offer terminals) next)
  | take {known : List Token} {terminals : List τ} {next : Reply → Subtrees → Procedure τ}
      (rest : ∀ subtrees, Emits mayEmit known (next .proceed subtrees)) :
      Emits mayEmit known (.yield (.take terminals) next)

/-- Where everything may be emitted, every procedure may go on. -/
theorem emits_anything (known : List Token) (procedure : Procedure τ) :
    procedure.Emits (fun _ _ => True) known := by
  induction procedure generalizing known with
  | done => exact .done
  | yield command next ih =>
      cases command with
      | emit tokens => exact .emit trivial fun _ => ih _ _ _
      | offer terminals => exact .offer (fun _ _ => ih _ _ _) fun _ => ih _ _ _
      | take terminals => exact .take fun _ => ih _ _ _

end Procedure

/-- All procedures of the grammar emit only what they may emit. -/
def Grammar.Emits (grammar : Grammar τ) (mayEmit : List Token → List Token → Prop) : Prop :=
  ∀ type rule, grammar.rule? type = some rule →
    ∀ path subtrees, (rule path subtrees).Emits mayEmit []

theorem Grammar.emits_anything (grammar : Grammar τ) : grammar.Emits fun _ _ => True :=
  fun _ _ _ _ _ => Procedure.emits_anything _ _

/-- A procedure that never emits anything may go on. -/
theorem Procedure.TakesOnly.emits {mayEmit : List Token → List Token → Prop} {known : List Token}
    {procedure : Procedure τ} (h : procedure.TakesOnly) : procedure.Emits mayEmit known := by
  induction h with
  | done => exact .done
  | take _ ih => exact .take ih

theorem Grammar.TakesOnly.emits {grammar : Grammar τ} (h : grammar.TakesOnly)
    (mayEmit : List Token → List Token → Prop) : grammar.Emits mayEmit :=
  fun type rule hrule path subtrees => (h type rule hrule path subtrees).emits

/-- Of the tokens that stand for a child only known ones are among the given. -/
def Token.Own (known tokens : List Token) : Prop :=
  ∀ token ∈ tokens, token.isReference = true → token ∈ known

/-- The act is written into the journal by an attempt that has begun and does not fail, and the state
changes in nothing else. An attempt that is finished spells the node of its frame. -/
def Act.IsInner (frame : Frame σ ρ) : Act τ → Prop
  | .step _ _ | .pass _ _ | .miss _ | .abandon _ => True
  | .finish spelling => spelling.node = frame.path.node ∧ spelling.tokens = frame.tokens
  | .begin | .descend _ _ | .record _ _ | .defer _ | .raise _ => False

/-- The failure is about a node that was attempted: it is not too deep. -/
def Failure.IsInner : Failure → Prop
  | .tooDeep _ _ => False
  | _ => True

/-- The run ends as described: with a result, or in a failure. -/
def Run.Ends (failed : Failure → Progress τ σ ρ → Prop) (done : α → Progress τ σ ρ → Prop) :
    Run τ σ ρ α → Prop
  | .done value after => done value after
  | .failed failure after => failed failure after

namespace Run.Ends

variable {run : Run τ σ ρ α} {failed : Failure → Progress τ σ ρ → Prop}
  {done : α → Progress τ σ ρ → Prop}

theorem andThen {next : α → Progress τ σ ρ → Run τ σ ρ β} {done' : β → Progress τ σ ρ → Prop}
    (h : run.Ends failed done)
    (hnext : ∀ value after, done value after → (next value after).Ends failed done') :
    (run.andThen next).Ends failed done' := by
  cases run with
  | done value after => exact hnext value after h
  | failed failure after => exact h

theorem mono {failed' : Failure → Progress τ σ ρ → Prop} {done' : α → Progress τ σ ρ → Prop}
    (h : run.Ends failed done) (hfailed : ∀ failure after, failed failure after → failed' failure after)
    (hdone : ∀ value after, done value after → done' value after) : run.Ends failed' done' := by
  cases run with
  | done value after => exact hdone value after h
  | failed failure after => exact hfailed failure after h

theorem imp {done' : α → Progress τ σ ρ → Prop} (h : run.Ends failed done)
    (hdone : ∀ value after, done value after → done' value after) : run.Ends failed done' :=
  h.mono (fun _ _ => id) hdone

end Run.Ends

/-- The frame belongs to an attempt at the node and has collected held tokens only. -/
structure Frame.Fits (frame : Frame σ ρ) (path : Ancestry) (held : List Token) : Prop where
  path_eq : frame.path = path
  tokens : frame.tokens ⊆ held

namespace Frame.Fits

variable {frame tried : Frame σ ρ} {path : Ancestry} {held more tokens : List Token}

theorem collect (h : frame.Fits path held) : (frame.collect tokens).Fits path (held ++ tokens) := by
  refine ⟨h.path_eq, ?_⟩
  intro token hmem
  rcases List.mem_append.mp hmem with hmem | hmem
  · exact List.mem_append_left _ (h.tokens hmem)
  · exact List.mem_append_right _ hmem

theorem emptied (h : frame.Fits path held) : frame.emptied.Fits path held :=
  ⟨h.path_eq, List.nil_subset _⟩

theorem commit (h : frame.Fits path held) (htried : tried.Fits path more) (subset : held ⊆ more) :
    (frame.commit tried).Fits path more :=
  ⟨htried.path_eq, List.Subset.trans h.tokens subset⟩

theorem collect_commit (h : frame.Fits path held) (htried : tried.Fits path more)
    (subset : held ⊆ more) : ((frame.commit tried).collect tried.tokens).Fits path more := by
  refine ⟨htried.path_eq, ?_⟩
  intro token hmem
  rcases List.mem_append.mp hmem with hmem | hmem
  · exact subset (h.tokens hmem)
  · exact htried.tokens hmem

theorem giveBack (h : frame.Fits path held) (subset : held ⊆ more) :
    (frame.giveBack tried).Fits path more :=
  ⟨h.path_eq, List.Subset.trans h.tokens subset⟩

end Frame.Fits

namespace Aligner

variable [Terminal τ] [Cursor σ] [Reads σ τ]

/-- A property of the held tokens, the cursor and the state that all steps of the attempts at a
node bear. An attempt may begin when it is `ready`, and a match that fails ends `safe`. -/
structure Upholds (aligner : Aligner τ ρ) (matchChild : MatchChild τ σ ρ) (path : Ancestry)
    (mayEmit : List Token → List Token → Prop) (ready : σ → Progress τ σ ρ → Prop)
    (holds : List Token → σ → Progress τ σ ρ → Prop)
    (safe : Failure → Progress τ σ ρ → Prop) : Prop where
  begin : ∀ {cursor progress}, ready cursor progress →
    holds [] cursor (progress.note (aligner.opening path cursor) .begin)
  note : ∀ {held progress} {frame : Frame σ ρ} {act : Act τ}, holds held frame.cursor progress →
    frame.Fits path held → act.IsInner frame → holds held frame.cursor (progress.note frame act)
  claim : ∀ {held cursor progress}, holds held cursor progress →
    holds (held ++ progress.pendingTokens) cursor progress.claimed
  /-- A reference is found, and identities are drawn for it. -/
  draw : ∀ {held cursor progress} {terminal : τ} {found}, holds held cursor progress →
    Reads.probe cursor terminal = some found → Terminal.isReference terminal = true →
    holds held cursor (progress.draw found)
  plain : ∀ {held cursor progress} {terminal : τ} {found}, holds held cursor progress →
    Reads.probe cursor terminal = some found → Terminal.isReference terminal = false →
    Terminal.isSeparator terminal = false →
    holds (held ++ found.tokens progress.supply)
      (Cursor.advance (found.tokens progress.supply) progress.subtrees cursor)
      (progress.draw found)
  separator : ∀ {held progress} {frame : Frame σ ρ} {terminal : τ} {found},
    holds held frame.cursor progress → frame.Fits path held →
    Reads.probe frame.cursor terminal = some found → Terminal.isReference terminal = false →
    Terminal.isSeparator terminal = true →
    holds held (frame.move (found.tokens progress.supply) progress.subtrees).cursor
      (((progress.draw found).note (frame.move (found.tokens progress.supply) progress.subtrees)
        (.defer (found.tokens progress.supply))).defer (found.tokens progress.supply) terminal)
  child : ∀ {held progress} {frame : Frame σ ρ} {terminal : τ} {found reference more route node},
    holds held frame.cursor progress → frame.Fits path held → progress.pending = none →
    Reads.probe frame.cursor terminal = some found → Terminal.isReference terminal = true →
    found.tokens progress.supply = reference :: more → path.node.get? route = some node →
    (matchChild (.child path node route) (Cursor.forChild node frame.cursor)
      ((progress.draw found).note frame (.descend reference route))).Ends safe
      fun spelling after =>
        holds (held ++ [reference])
          (Cursor.advance (reference :: more) (after.subtrees.insert reference spelling)
            frame.cursor)
          ((after.note frame (.record reference spelling)).record reference spelling)
  emit : ∀ {known held cursor progress tokens}, holds held cursor progress → known ⊆ held →
    mayEmit known tokens → holds (held ++ tokens) cursor progress
  raise : ∀ {held progress} {frame : Frame σ ρ} {failure : Failure},
    holds held frame.cursor progress → frame.Fits path held → failure.IsInner →
    safe failure (progress.note frame (.raise failure))

/-- The property holds of a frame and a state, with at least the given tokens held. -/
def Holding (path : Ancestry) (holds : List Token → σ → Progress τ σ ρ → Prop) (held : List Token)
    (frame : Frame σ ρ) (after : Progress τ σ ρ) : Prop :=
  ∃ more, held ⊆ more ∧ frame.Fits path more ∧ holds more frame.cursor after

/-- The property holds at the end of an attempt. A spelling is that of a frame with held tokens, and
the slot is empty after an attempt that was given up. -/
def HoldingAtEnd (path : Ancestry) (holds : List Token → σ → Progress τ σ ρ → Prop) (start : Nat)
    (result : Attempt σ) (after : Progress τ σ ρ) : Prop :=
  match result with
  | .spelled spelling =>
    ∃ (held : List Token) (last : Frame σ ρ), last.Fits path held ∧
      holds held last.cursor after ∧ spelling = spellingOf start last
  | .abandoned _ reached => after.pending = none ∧ ∃ held, holds held reached after

namespace Upholds

variable {aligner : Aligner τ ρ} {matchChild : MatchChild τ σ ρ} {path : Ancestry}
  {mayEmit : List Token → List Token → Prop} {ready : σ → Progress τ σ ρ → Prop}
  {holds : List Token → σ → Progress τ σ ρ → Prop} {safe : Failure → Progress τ σ ρ → Prop}
  (upholds : aligner.Upholds matchChild path mayEmit ready holds safe)
  {held : List Token} {frame : Frame σ ρ} {progress : Progress τ σ ρ}

include upholds

theorem descend {terminal : τ} {found : Found} {reference : Token} {more : List Token}
    (h : holds held frame.cursor progress) (fits : frame.Fits path held)
    (empty : progress.pending = none) (probe : Reads.probe frame.cursor terminal = some found)
    (isReference : Terminal.isReference terminal = true)
    (tokens : found.tokens progress.supply = reference :: more) :
    (aligner.descend matchChild reference frame (progress.draw found)).Ends safe
      fun joined after => joined.Fits path (held ++ [reference]) ∧
        joined.cursor = frame.cursor ∧
        holds (held ++ [reference])
          (Cursor.advance (reference :: more) after.subtrees frame.cursor) after := by
  rw [Aligner.descend]
  split
  · exact upholds.raise (upholds.draw h probe isReference) fits trivial
  · next route node hresolved =>
      obtain ⟨_, hnode⟩ := childAt?_eq_some hresolved
      rw [fits.path_eq] at hnode
      have hchild := upholds.child h fits empty probe isReference tokens hnode
      rw [← fits.path_eq] at hchild
      apply hchild.andThen
      intro spelling after hafter
      have hcollect : (frame.collect [reference]).Fits path (held ++ [reference]) := fits.collect
      exact ⟨⟨fits.path_eq, hcollect.tokens⟩, rfl, hafter⟩

theorem findHere (terminal : τ) (h : holds held frame.cursor progress)
    (fits : frame.Fits path held) (empty : progress.pending = none) :
    (aligner.findHere matchChild terminal frame progress).Ends safe fun result after =>
      Holding path holds held result.2 after ∧ (result.1 = false → after.pending = none) := by
  rw [Aligner.findHere]
  split
  · exact ⟨⟨held, List.Subset.refl _, fits, upholds.note h fits trivial⟩, fun _ => empty⟩
  · next found hprobe =>
      unfold takeUp
      split
      · next href =>
          split
          · have hdraw := upholds.draw h hprobe href
            exact ⟨⟨held, List.Subset.refl _, fits, upholds.note hdraw fits trivial⟩,
              fun _ => empty⟩
          · next reference more htokens =>
              rw [htokens]
              apply (upholds.descend h fits empty hprobe href htokens).andThen
              rintro joined after ⟨hjoined, hcursor, hafter⟩
              have hfits : (joined.move (reference :: more) after.subtrees).Fits path
                  (held ++ [reference]) := ⟨hjoined.path_eq, hjoined.tokens⟩
              have hmoved : holds (held ++ [reference])
                  (joined.move (reference :: more) after.subtrees).cursor after := by
                rw [Frame.move, hcursor]
                exact hafter
              exact ⟨⟨_, List.subset_append_left _ _, hfits, upholds.note hmoved hfits trivial⟩,
                Bool.noConfusion⟩
      · next href =>
          have href : Terminal.isReference terminal = false := by simpa using href
          have hmoved : (frame.move (found.tokens progress.supply) progress.subtrees).Fits path
              held := ⟨fits.path_eq, fits.tokens⟩
          split
          · next hsep =>
              have hwait := upholds.separator h fits hprobe href hsep
              exact ⟨⟨held, List.Subset.refl _, hmoved, upholds.note hwait hmoved trivial⟩,
                Bool.noConfusion⟩
          · next hsep =>
              have hsep : Terminal.isSeparator terminal = false := by simpa using hsep
              have hplain := upholds.plain h hprobe href hsep
              have hfits : ((frame.move (found.tokens progress.supply) progress.subtrees).collect
                  (found.tokens progress.supply)).Fits path
                    (held ++ found.tokens progress.supply) := hmoved.collect
              exact ⟨⟨_, List.subset_append_left _ _, hfits, upholds.note hplain hfits trivial⟩,
                Bool.noConfusion⟩

theorem find (terminal : τ) (h : holds held frame.cursor progress) (fits : frame.Fits path held) :
    (aligner.find matchChild terminal frame progress).Ends safe fun result after =>
      Holding path holds held result.2 after ∧ (result.1 = false → after.pending = none) := by
  have hclaim : holds (held ++ progress.pendingTokens)
      (frame.collect progress.pendingTokens).cursor progress.claimed := upholds.claim h
  apply (upholds.findHere terminal hclaim fits.collect rfl).imp
  rintro result after ⟨⟨more, hsubset, hmore⟩, hempty⟩
  exact ⟨⟨more, (List.append_subset.mp hsubset).1, hmore⟩, hempty⟩

theorem sequence (terminals : List τ) (h : holds held frame.cursor progress)
    (fits : frame.Fits path held) :
    (aligner.sequence matchChild terminals frame progress).Ends safe fun result after =>
      Holding path holds held result.2 after ∧
        ∀ missing, result.1 = .missed missing → after.pending = none := by
  induction terminals generalizing held frame progress with
  | nil => exact ⟨⟨held, List.Subset.refl _, fits, h⟩, by simp⟩
  | cons terminal rest ih =>
      rw [Aligner.sequence]
      apply (upholds.find terminal h fits).andThen
      rintro ⟨here, middle⟩ state ⟨⟨more, hsubset, hfits, hstate⟩, hempty⟩
      cases here with
      | false => exact ⟨⟨more, hsubset, hfits, hstate⟩, fun _ _ => hempty rfl⟩
      | true =>
          apply (ih hstate hfits).imp
          rintro result after ⟨⟨all, hmore, hall⟩, hlast⟩
          exact ⟨⟨all, List.Subset.trans hsubset hmore, hall⟩, hlast⟩

theorem drive (start : Nat) {procedure : Procedure τ} {known : List Token}
    (emits : procedure.Emits mayEmit known) (hknown : known ⊆ held)
    (h : holds held frame.cursor progress) (fits : frame.Fits path held) :
    (aligner.drive matchChild start procedure frame progress).Ends safe
      (HoldingAtEnd path holds start) := by
  induction emits generalizing held frame progress with
  | done => exact ⟨held, frame, fits, upholds.note h fits ⟨rfl, rfl⟩, rfl⟩
  | emit may rest ih =>
      have hemit := upholds.emit h hknown may
      exact ih _ (List.Subset.trans hknown (List.subset_append_left _ _))
        (upholds.note hemit fits.collect trivial) fits.collect
  | offer matched mismatched ih ih' =>
      have hemptied : holds held frame.emptied.cursor progress := h
      rw [Aligner.drive]
      apply (upholds.sequence _ hemptied fits.emptied).andThen
      rintro ⟨outcome, tried⟩ state ⟨⟨more, hsubset, htried, hstate⟩, _⟩
      have hmore := List.Subset.trans hknown hsubset
      cases outcome with
      | matched =>
          have hfits := fits.commit htried hsubset
          exact ih _ _ (List.append_subset.mpr ⟨hmore, htried.tokens⟩)
            (upholds.note hstate hfits trivial) hfits
      | missed missing =>
          have hfits : (frame.giveBack tried).Fits path more := fits.giveBack hsubset
          exact ih' _ hmore (upholds.note hstate hfits trivial) hfits
  | take rest ih =>
      have hemptied : holds held frame.emptied.cursor progress := h
      rw [Aligner.drive]
      apply (upholds.sequence _ hemptied fits.emptied).andThen
      rintro ⟨outcome, tried⟩ state ⟨⟨more, hsubset, htried, hstate⟩, hempty⟩
      cases outcome with
      | matched =>
          have hfits := fits.collect_commit htried hsubset
          exact ih _ (List.Subset.trans hknown hsubset) (upholds.note hstate hfits trivial) hfits
      | missed missing =>
          have hfits : (frame.giveBack tried).Fits path more := fits.giveBack hsubset
          have hback : holds more (frame.giveBack tried).cursor state := hstate
          exact ⟨hempty missing rfl, more, upholds.note hback hfits trivial⟩

/-- The property holds at the end of an attempt that could begin. -/
theorem attempt (emits : aligner.grammar.Emits mayEmit) {cursor : σ}
    (h : ready cursor progress) :
    (aligner.attempt matchChild path cursor progress).Ends safe
      (HoldingAtEnd path holds (Cursor.position cursor)) := by
  have hopening : (aligner.opening path cursor : Frame σ ρ).Fits path [] :=
    ⟨rfl, List.nil_subset _⟩
  have hbegin := upholds.begin h
  rw [Aligner.attempt, Grammar.start]
  cases hrule : aligner.grammar.rule? path.node.type with
  | none =>
      exact upholds.raise hbegin hopening trivial
  | some rule =>
      exact upholds.drive _ (emits _ _ hrule _ _) (List.nil_subset _)
        (upholds.note hbegin hopening trivial) hopening

/-- A match that gives up after an attempt ends safe. -/
theorem giveUp {reached : σ} (terminal : String) (cause : Failure)
    (h : holds held reached progress) {done : Spelling → Progress τ σ ρ → Prop} :
    (aligner.giveUp path terminal reached cause progress).Ends safe done := by
  have hopening : (aligner.opening path reached : Frame σ ρ).Fits path held :=
    ⟨rfl, List.nil_subset _⟩
  exact upholds.raise h hopening trivial

/-- The property holds at the end of a match of the node, if it lets the next attempt begin when
one is given up. -/
theorem restart (emits : aligner.grammar.Emits mayEmit)
    (again : ∀ {held cursor next progress}, holds held cursor progress →
      progress.pending = none → Cursor.fallback cursor = .ok next → ready next progress)
    {left : Nat} {cursor : σ} (h : ready cursor progress) :
    (aligner.restart matchChild path left cursor progress).Ends safe fun spelling after =>
      ∃ (start : Nat) (held : List Token) (last : Frame σ ρ), last.Fits path held ∧
        holds held last.cursor after ∧ spelling = spellingOf start last := by
  induction left generalizing cursor progress with
  | zero =>
      rw [Aligner.restart]
      apply (upholds.attempt emits h).andThen
      rintro (spelling | ⟨terminal, reached⟩) after hafter
      · exact ⟨_, hafter⟩
      · obtain ⟨_, held, hheld⟩ := hafter
        exact upholds.giveUp terminal _ hheld
  | succ left ih =>
      rw [Aligner.restart]
      apply (upholds.attempt emits h).andThen
      rintro (spelling | ⟨terminal, reached⟩) after hafter
      · exact ⟨_, hafter⟩
      · obtain ⟨hempty, held, hheld⟩ := hafter
        cases hfall : Cursor.fallback reached with
        | ok next =>
            simp only [hfall]
            exact ih (again hheld hempty hfall)
        | error cause =>
            simp only [hfall]
            exact upholds.giveUp terminal cause hheld

end Upholds

/-- A whole match ends as the match of the root does. What is left in the slot then goes behind the
tokens of the root. -/
theorem run_ends {aligner : Aligner τ ρ} {root : Node Token} {cursor : σ} {supply : Nat}
    {failed : Failure → Progress τ σ ρ → Prop} {done : Spelling → Progress τ σ ρ → Prop}
    (h : (aligner.matchNode (aligner.limits.maxDepth + 1) (.root root) cursor
      ({ supply } : Progress τ σ ρ)).Ends failed done) :
    (∃ failure after, aligner.run root cursor supply = (.error failure, after) ∧
      failed failure after) ∨
    ∃ spelling after, aligner.run root cursor supply =
      (.ok ⟨{ spelling with tokens := spelling.tokens ++ after.pendingTokens }, after.subtrees⟩,
        after.claimed) ∧ done spelling after := by
  rw [run]
  cases hrun : aligner.matchNode (aligner.limits.maxDepth + 1) (.root root) cursor
      ({ supply } : Progress τ σ ρ) with
  | done spelling after =>
      rw [hrun] at h
      exact Or.inr ⟨spelling, after, rfl, h⟩
  | failed failure after =>
      rw [hrun] at h
      exact Or.inl ⟨failure, after, rfl, h⟩

end Aligner

end TreeAlign
