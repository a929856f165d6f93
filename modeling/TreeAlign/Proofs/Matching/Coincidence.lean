import TreeAlign.Alignment
import TreeAlign.Proofs.Matching.Keeping
import TreeAlign.Proofs.Termination

/-!
# Matches that coincide

Two grammars may ask for the same terminals through different commands. The
matches that follow them then have the same state at the same places, and
only their journals tell them apart. What a sequence of terminals does to a
state depends on the slot, the stored children and the supply alone, so two
sequences from states that coincide end in states that coincide.

Two matches may also part at some act of the first one, and from there on
nothing is said about the second one.

## Implementation notes

A sequence never looks at the tokens collected before it. The two sequences
are therefore compared in frames of which one has more tokens in front. With
no tokens in front this is a comparison in the same frame.
-/

namespace TreeAlign

variable {τ σ ρ α β : Type}

/-- The states are the same, whatever their journals say and whichever terminal has filled the
slot. -/
structure Progress.Coincides (progress other : Progress τ σ ρ) : Prop where
  subtrees_eq : other.subtrees = progress.subtrees
  pendingTokens_eq : other.pendingTokens = progress.pendingTokens
  supply_eq : other.supply = progress.supply

namespace Progress.Coincides

variable {progress other : Progress τ σ ρ}

theorem refl (progress : Progress τ σ ρ) : progress.Coincides progress :=
  ⟨rfl, rfl, rfl⟩

theorem symm (h : progress.Coincides other) : other.Coincides progress :=
  ⟨h.subtrees_eq.symm, h.pendingTokens_eq.symm, h.supply_eq.symm⟩

theorem trans {last : Progress τ σ ρ} (h : progress.Coincides other) (h' : other.Coincides last) :
    progress.Coincides last :=
  ⟨h'.subtrees_eq.trans h.subtrees_eq, h'.pendingTokens_eq.trans h.pendingTokens_eq,
    h'.supply_eq.trans h.supply_eq⟩

theorem note (h : progress.Coincides other) (frame frame' : Frame σ ρ) (act act' : Act τ) :
    (progress.note frame act).Coincides (other.note frame' act') :=
  ⟨h.subtrees_eq, h.pendingTokens_eq, h.supply_eq⟩

/-- Only the second match writes a moment. -/
theorem note_right (h : progress.Coincides other) (frame : Frame σ ρ) (act : Act τ) :
    progress.Coincides (other.note frame act) :=
  ⟨h.subtrees_eq, h.pendingTokens_eq, h.supply_eq⟩

theorem claimed (h : progress.Coincides other) : progress.claimed.Coincides other.claimed :=
  ⟨h.subtrees_eq, rfl, h.supply_eq⟩

theorem draw (h : progress.Coincides other) (found : Found) :
    (progress.draw found).Coincides (other.draw found) :=
  ⟨h.subtrees_eq, h.pendingTokens_eq, congrArg found.supplyAfter h.supply_eq⟩

theorem defer (h : progress.Coincides other) (tokens : List Token) (terminal terminal' : τ) :
    (progress.defer tokens terminal).Coincides (other.defer tokens terminal') :=
  ⟨h.subtrees_eq, rfl, h.supply_eq⟩

theorem record (h : progress.Coincides other) (reference : Token) (spelling : Spelling) :
    (progress.record reference spelling).Coincides (other.record reference spelling) :=
  ⟨congrArg (·.insert reference spelling) h.subtrees_eq, h.pendingTokens_eq, h.supply_eq⟩

end Progress.Coincides

/-- The match has come to an act at which another match may part from it. -/
def Progress.Parted (parting : Act τ → Prop) (progress : Progress τ σ ρ) : Prop :=
  ∃ moment ∈ progress.journal, parting moment.act

theorem Progress.Parted.note {parting : Act τ → Prop} {progress : Progress τ σ ρ}
    (h : progress.Parted parting) (frame : Frame σ ρ) (act : Act τ) :
    (progress.note frame act).Parted parting := by
  obtain ⟨moment, hmem, hact⟩ := h
  exact ⟨moment, List.mem_cons_of_mem _ hmem, hact⟩

/-- Matches for which no act is a parting never part. -/
theorem Progress.not_parted_never {progress : Progress τ σ ρ} :
    ¬ progress.Parted fun _ : Act τ => False := by
  rintro ⟨_, _, hfalse⟩
  exact hfalse

/-- Both runs end with results that are the same in the given sense, in states that coincide, or
both fail in the same way, unless they have parted. -/
inductive Run.Coincide (parting : Act τ → Prop) (same : α → α → Prop) :
    Run τ σ ρ α → Run τ σ ρ α → Prop where
  | done {value value' : α} {after after' : Progress τ σ ρ} (values : same value value')
      (states : after.Coincides after') :
      Coincide parting same (.done value after) (.done value' after')
  | failed {failure : Failure} {after after' : Progress τ σ ρ} :
      Coincide parting same (.failed failure after) (.failed failure after')
  | parted {run run' : Run τ σ ρ α} (away : run.last.Parted parting) :
      Coincide parting same run run'

/-- A relation that a run keeps holds of the state at its end. -/
theorem Run.Keeps.last {related : Progress τ σ ρ → Progress τ σ ρ → Prop}
    {before : Progress τ σ ρ} {result : α → Prop} {run : Run τ σ ρ α}
    (h : run.Keeps related before result) : related before run.last := by
  cases run with
  | done value after => exact h.1
  | failed failure after => exact h

theorem Run.Coincide.andThen {parting : Act τ → Prop} {same : α → α → Prop}
    {same' : β → β → Prop} {run run' : Run τ σ ρ α}
    {next next' : α → Progress τ σ ρ → Run τ σ ρ β} (h : run.Coincide parting same run')
    (onward : ∀ value after, after.Parted parting → (next value after).last.Parted parting)
    (hnext : ∀ value after value' after', same value value' → after.Coincides after' →
      (next value after).Coincide parting same' (next' value' after')) :
    (run.andThen next).Coincide parting same' (run'.andThen next') := by
  cases h with
  | done values states => exact hnext _ _ _ _ values states
  | failed => exact .failed
  | parted away =>
      cases run with
      | done value after => exact .parted (onward value after away)
      | failed failure after => exact .parted away

theorem Frame.behind_collect (before : List Token) (frame : Frame σ ρ) (tokens : List Token) :
    (frame.behind before).collect tokens = (frame.collect tokens).behind before := by
  simp only [behind, collect, List.append_assoc]

/-- Two grammars know the same types, and their procedures are related. -/
def Grammar.Linked (link : Procedure τ → Procedure τ → Prop) (grammar grammar' : Grammar τ) :
    Prop :=
  ∀ type, Option.Rel
    (fun rule rule' : Rule τ => ∀ path subtrees, link (rule path subtrees) (rule' path subtrees))
    (grammar.rule? type) (grammar'.rule? type)

namespace Grammar

/-- The grammar with every procedure changed in the same way. -/
def mapProcedures (change : Procedure τ → Procedure τ) (grammar : Grammar τ) : Grammar τ :=
  ⟨grammar.rules.map fun entry => (entry.1, fun path subtrees => change (entry.2 path subtrees))⟩

theorem linked_mapProcedures {link : Procedure τ → Procedure τ → Prop}
    {change : Procedure τ → Procedure τ} (h : ∀ procedure, link procedure (change procedure))
    (grammar : Grammar τ) : grammar.Linked link (grammar.mapProcedures change) := by
  obtain ⟨rules⟩ := grammar
  intro type
  simp only [rule?, mapProcedures]
  induction rules with
  | nil => exact .none
  | cons entry rest ih =>
      simp only [List.map_cons, Keyed.get?]
      split
      · exact .some fun path subtrees => h _
      · exact ih

end Grammar

namespace Aligner

/-- The same limits and the same resolver, with another grammar. -/
def withGrammar (aligner : Aligner τ ρ) (grammar : Grammar τ) : Aligner τ ρ :=
  { aligner with grammar }

/-- Matches that have parted do not come together again. -/
theorem kept_parted [Cursor σ] [Reads σ τ] (parting : Act τ → Prop) : Kept (fun _ : σ => True)
    fun before after : Progress τ σ ρ => before.Parted parting → after.Parted parting where
  refl _ h := h
  trans h h' := h' ∘ h
  note _ frame act h := h.note frame act
  claim _ h := h
  defer _ _ _ h := h
  draw _ _ h := h
  record _ _ _ h := h
  advance _ := trivial
  forChild _ := trivial
  fallback _ _ := trivial

/-- Ways to match nodes that coincide until they part, which the first one never takes back. -/
structure Coincident (parting : Act τ → Prop) (matchChild matchChild' : MatchChild τ σ ρ) :
    Prop where
  onward : ∀ path cursor progress, True → (matchChild path cursor progress).Keeps
    (fun before after => before.Parted parting → after.Parted parting) progress fun _ => True
  child : ∀ path cursor {progress progress'}, progress.Coincides progress' →
    (matchChild path cursor progress).Coincide parting Eq (matchChild' path cursor progress')

namespace Coincident

variable [Cursor σ] {parting : Act τ → Prop} {matchChild matchChild' : MatchChild τ σ ρ}
  (coincident : Coincident parting matchChild matchChild') {aligner : Aligner τ ρ}
  {grammar : Grammar τ} {frame : Frame σ ρ} {progress progress' : Progress τ σ ρ}

include coincident

theorem descend (before : List Token) (reference : Token) (h : progress.Coincides progress') :
    (aligner.descend matchChild reference (frame.behind before) progress).Coincide parting
      (fun last last' => last = last'.behind before)
      ((aligner.withGrammar grammar).descend matchChild' reference frame progress') := by
  have hchild : childAt? (frame.behind before)
      (aligner.resolver.resolve (frame.behind before).resolver reference).1 =
      childAt? frame ((aligner.withGrammar grammar).resolver.resolve frame.resolver reference).1 :=
    rfl
  rw [Aligner.descend, Aligner.descend, hchild]
  split
  · exact .failed
  · next route node _ =>
      apply (coincident.child _ _ (h.note _ _ _ _)).andThen
      · intro spelling after away
        exact away.note _ _
      · rintro spelling after _ after' rfl hafter
        refine .done ?_ ((hafter.note _ _ _ _).record reference spelling)
        simp only [Frame.behind, List.append_assoc]
        rfl

variable [Terminal τ] [Reads σ τ]

theorem findHere (before : List Token) (terminal : τ) (h : progress.Coincides progress') :
    (aligner.findHere matchChild terminal (frame.behind before) progress).Coincide parting
      (fun result result' => result = (result'.1, result'.2.behind before))
      ((aligner.withGrammar grammar).findHere matchChild' terminal frame progress') := by
  have hprobe : Reads.probe (frame.behind before).cursor terminal =
      Reads.probe frame.cursor terminal := rfl
  rw [Aligner.findHere, Aligner.findHere, hprobe]
  split
  · exact .done rfl (h.note _ _ _ _)
  · next found _ =>
      have hdraw := h.draw found
      rw [h.supply_eq]
      generalize found.tokens progress.supply = tokens
      unfold takeUp
      split
      · cases tokens with
        | nil => exact .done rfl (hdraw.note _ _ _ _)
        | cons reference rest =>
            apply (coincident.descend before reference hdraw).andThen
            · intro last after away
              exact away.note _ _
            · rintro _ after last after' rfl hafter
              rw [hafter.subtrees_eq]
              exact .done rfl (hafter.note _ _ _ _)
      · rw [hdraw.subtrees_eq]
        split
        · exact .done rfl (((hdraw.note _ _ _ _).defer _ _ _).note _ _ _ _)
        · refine .done ?_ (hdraw.note _ _ _ _)
          exact congrArg _ (Frame.behind_collect before (frame.move tokens _) tokens)

/-- A sequence of terminals does the same behind other tokens. -/
theorem sequence_behind (before : List Token) (terminals : List τ)
    (h : progress.Coincides progress') :
    (aligner.sequence matchChild terminals (frame.behind before) progress).Coincide parting
      (fun result result' => result = (result'.1, result'.2.behind before))
      ((aligner.withGrammar grammar).sequence matchChild' terminals frame progress') := by
  induction terminals generalizing frame progress progress' with
  | nil => exact .done rfl h
  | cons terminal rest ih =>
      have hfind : (aligner.find matchChild terminal (frame.behind before) progress).Coincide
          parting (fun result result' => result = (result'.1, result'.2.behind before))
          ((aligner.withGrammar grammar).find matchChild' terminal frame progress') := by
        rw [Aligner.find, Aligner.find, h.pendingTokens_eq, Frame.behind_collect]
        exact coincident.findHere before terminal h.claimed
      rw [Aligner.sequence, Aligner.sequence]
      apply hfind.andThen
      · rintro ⟨here, middle⟩ state away
        cases here with
        | true => exact ((kept_parted parting).sequence coincident.onward _ _ _ trivial).last away
        | false => exact away
      · rintro _ state ⟨here, middle⟩ state' rfl hstate
        cases here with
        | true => exact ih hstate
        | false => exact .done rfl hstate

/-- A sequence of terminals ends in the same frame in both matches. -/
theorem sequence (terminals : List τ) (frame : Frame σ ρ) (h : progress.Coincides progress') :
    (aligner.sequence matchChild terminals frame progress).Coincide parting Eq
      ((aligner.withGrammar grammar).sequence matchChild' terminals frame progress') :=
  coincident.sequence_behind [] terminals h

/-- An attempt that goes on after the matches have parted. -/
theorem onward_drive (start : Nat) (procedure : Procedure τ) (reply : Reply)
    (away : progress.Parted parting) :
    (aligner.drive matchChild start procedure frame
      (stepped frame reply procedure progress)).last.Parted parting :=
  ((kept_parted parting).drive coincident.onward start procedure _ trivial).last (away.note _ _)

/-- Both matches follow the same command, and go on alike after it. -/
theorem drive_yield (start : Nat) (command : Command τ) {next next' : Reply → Subtrees → Procedure τ}
    (hnext : ∀ reply subtrees frame {progress progress' : Progress τ σ ρ},
      progress.Coincides progress' →
      (aligner.drive matchChild start (next reply subtrees) frame progress).Coincide parting Eq
        ((aligner.withGrammar grammar).drive matchChild' start (next' reply subtrees) frame
          progress'))
    (frame : Frame σ ρ) (h : progress.Coincides progress') :
    (aligner.drive matchChild start (.yield command next) frame progress).Coincide parting Eq
      ((aligner.withGrammar grammar).drive matchChild' start (.yield command next') frame
        progress') := by
  cases command with
  | emit tokens =>
      rw [drive, drive, h.subtrees_eq]
      exact hnext _ _ _ (h.note _ _ _ _)
  | offer terminals =>
      rw [drive, drive]
      apply (coincident.sequence terminals frame.emptied h).andThen
      · rintro ⟨outcome, tried⟩ state away
        cases outcome with
        | matched => exact coincident.onward_drive start _ _ away
        | missed name => exact coincident.onward_drive start _ _ away
      · rintro ⟨outcome, tried⟩ state _ state' rfl hstate
        simp only [hstate.subtrees_eq]
        cases outcome with
        | matched => exact hnext _ _ _ (hstate.note _ _ _ _)
        | missed name => exact hnext _ _ _ (hstate.note _ _ _ _)
  | take terminals =>
      rw [drive, drive]
      apply (coincident.sequence terminals frame.emptied h).andThen
      · rintro ⟨outcome, tried⟩ state away
        cases outcome with
        | matched => exact coincident.onward_drive start _ _ away
        | missed name => exact away.note _ _
      · rintro ⟨outcome, tried⟩ state _ state' rfl hstate
        simp only [hstate.subtrees_eq]
        cases outcome with
        | matched => exact hnext _ _ _ (hstate.note _ _ _ _)
        | missed name => exact .done rfl (hstate.note _ _ _ _)

end Coincident

variable [Terminal τ] [Cursor σ] [Reads σ τ]

/-- Where children are matched in ways that coincide, procedures that are linked lead to attempts
that coincide. -/
def Follows (aligner : Aligner τ ρ) (grammar : Grammar τ) (parting : Act τ → Prop)
    (link : Procedure τ → Procedure τ → Prop) (matchChild matchChild' : MatchChild τ σ ρ) : Prop :=
  ∀ (start : Nat) {procedure procedure' : Procedure τ} (frame : Frame σ ρ)
    {progress progress' : Progress τ σ ρ}, link procedure procedure' →
    progress.Coincides progress' →
    (aligner.drive matchChild start procedure frame progress).Coincide parting Eq
      ((aligner.withGrammar grammar).drive matchChild' start procedure' frame progress')

variable {parting : Act τ → Prop} {link : Procedure τ → Procedure τ → Prop} {aligner : Aligner τ ρ}
  {grammar : Grammar τ} (linked : aligner.grammar.Linked link grammar)

include linked

theorem coincide_attempt {matchChild matchChild' : MatchChild τ σ ρ}
    (follows : aligner.Follows grammar parting link matchChild matchChild') (path : Ancestry)
    (cursor : σ) {progress progress' : Progress τ σ ρ} (h : progress.Coincides progress') :
    (aligner.attempt matchChild path cursor progress).Coincide parting Eq
      ((aligner.withGrammar grammar).attempt matchChild' path cursor progress') := by
  have hgrammar : (aligner.withGrammar grammar).grammar = grammar := rfl
  have hrule := linked path.node.type
  rw [attempt, attempt, Grammar.start, Grammar.start, h.subtrees_eq, hgrammar]
  generalize aligner.grammar.rule? path.node.type = rule at hrule
  generalize grammar.rule? path.node.type = rule' at hrule
  cases hrule with
  | none => exact .failed
  | some hlink => exact follows _ _ (hlink path progress.subtrees) ((h.note _ _ _ _).note _ _ _ _)

theorem coincide_restart {matchChild matchChild' : MatchChild τ σ ρ}
    (coincident : Coincident parting matchChild matchChild')
    (follows : aligner.Follows grammar parting link matchChild matchChild') (path : Ancestry)
    (left : Nat) (cursor : σ) {progress progress' : Progress τ σ ρ}
    (h : progress.Coincides progress') :
    (aligner.restart matchChild path left cursor progress).Coincide parting Eq
      ((aligner.withGrammar grammar).restart matchChild' path left cursor progress') := by
  induction left generalizing cursor progress progress' with
  | zero =>
      rw [restart, restart]
      apply (coincide_attempt linked follows path cursor h).andThen
      · rintro (spelling | ⟨terminal, reached⟩) after away
        · exact away
        · exact away.note _ _
      · rintro (spelling | ⟨terminal, reached⟩) after _ after' rfl hafter
        · exact .done rfl hafter
        · exact .failed
  | succ left ih =>
      rw [restart, restart]
      apply (coincide_attempt linked follows path cursor h).andThen
      · rintro (spelling | ⟨terminal, reached⟩) after away
        · exact away
        · cases hfall : Cursor.fallback reached with
          | ok next =>
              simp only [hfall]
              exact ((kept_parted parting).restart coincident.onward path left _ trivial).last away
          | error cause =>
              simp only [hfall]
              exact away.note _ _
      · rintro (spelling | ⟨terminal, reached⟩) after _ after' rfl hafter
        · exact .done rfl hafter
        · cases hfall : Cursor.fallback reached with
          | ok next =>
              simp only [hfall]
              exact ih next hafter
          | error cause =>
              simp only [hfall]
              exact .failed

/-- Matches of a node with linked grammars coincide until they part. -/
theorem coincident_matchNode
    (follows : ∀ {matchChild matchChild' : MatchChild τ σ ρ},
      Coincident parting matchChild matchChild' →
      aligner.Follows grammar parting link matchChild matchChild') (levels : Nat) :
    Coincident parting (aligner.matchNode levels : MatchChild τ σ ρ)
      ((aligner.withGrammar grammar).matchNode levels) := by
  have honward : ∀ levels path (cursor : σ) (progress : Progress τ σ ρ), True →
      (aligner.matchNode levels path cursor progress).Keeps
        (fun before after => before.Parted parting → after.Parted parting) progress
        fun _ => True :=
    fun levels path cursor progress _ => (kept_parted parting).matchNode levels path progress trivial
  induction levels with
  | zero => exact ⟨honward 0, fun _ _ _ _ _ => .failed⟩
  | succ levels ih =>
      refine ⟨honward (levels + 1), ?_⟩
      intro path cursor progress progress' h
      exact coincide_restart linked ih (follows ih) path aligner.limits.maxFallbacks cursor h

/-- Runs with linked grammars have the same outcome, unless the first one comes to an act at which
they part. -/
theorem run_eq_of_linked
    (follows : ∀ {matchChild matchChild' : MatchChild τ σ ρ},
      Coincident parting matchChild matchChild' →
      aligner.Follows grammar parting link matchChild matchChild')
    (root : Node Token) (cursor : σ) (supply : Nat)
    (together : ¬ (aligner.run root cursor supply).2.Parted parting) :
    ((aligner.withGrammar grammar).run root cursor supply).1 =
      (aligner.run root cursor supply).1 := by
  have hmatch := (coincident_matchNode linked follows (aligner.limits.maxDepth + 1)).child
    (.root root) cursor (.refl ({ supply } : Progress τ σ ρ))
  have hlimits : (aligner.withGrammar grammar).limits = aligner.limits := rfl
  rw [run] at together
  rw [run, run, hlimits]
  generalize aligner.matchNode (aligner.limits.maxDepth + 1) (.root root) cursor
    ({ supply } : Progress τ σ ρ) = ended at hmatch together
  generalize (aligner.withGrammar grammar).matchNode (aligner.limits.maxDepth + 1) (.root root)
    cursor ({ supply } : Progress τ σ ρ) = ended' at hmatch
  cases hmatch with
  | done values states =>
      subst values
      simp only [states.pendingTokens_eq, states.subtrees_eq]
  | failed => rfl
  | parted away =>
      cases ended with
      | done spelling after => exact absurd away together
      | failed failure after => exact absurd away together

end Aligner

end TreeAlign
