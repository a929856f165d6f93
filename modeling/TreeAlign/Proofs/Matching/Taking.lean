import TreeAlign.Proofs.Matching.Finding

/-!
# Invariants of a node's attempt

Two classes of grammars are named here. A grammar that takes only never
offers and never emits. A grammar that echoes emits nothing but what the
offer right before found. For both, a property of the frame and the state
holds at the end of every attempt that succeeds, as soon as it holds at the
beginning and is carried through the single steps: the slot is claimed, and
then a terminal's tokens are collected, or wait in the slot, or a child is
matched. Echoing grammars also leave things out, so their invariants have to
bear that tokens are dropped.

## Implementation notes

A sequence of terminals works on a frame without tokens, and what it finds
is put behind the tokens of the node later. The property is therefore
carried for the frame `behind` those tokens, not for the frame itself.
-/

namespace TreeAlign

namespace Procedure

variable {τ : Type}

/-- The procedure has no command but demands. -/
inductive TakesOnly : Procedure τ → Prop where
  | done : TakesOnly .done
  | take {terminals : List τ} {next : Reply → Subtrees → Procedure τ}
      (rest : ∀ subtrees, TakesOnly (next .proceed subtrees)) :
      TakesOnly (.yield (.take terminals) next)

/-- The procedure emits only what the offer right before has found. The argument is what was
found, if the command before was an offer that was taken up. -/
inductive Echoes : Option (List Token) → Procedure τ → Prop where
  | done {last : Option (List Token)} : Echoes last .done
  | take {last : Option (List Token)} {terminals : List τ}
      {next : Reply → Subtrees → Procedure τ}
      (rest : ∀ subtrees, Echoes none (next .proceed subtrees)) :
      Echoes last (.yield (.take terminals) next)
  | offer {last : Option (List Token)} {terminals : List τ}
      {next : Reply → Subtrees → Procedure τ}
      (matched : ∀ tokens subtrees, Echoes (some tokens) (next (.matched tokens) subtrees))
      (mismatched : ∀ subtrees, Echoes none (next .mismatched subtrees)) :
      Echoes last (.yield (.offer terminals) next)
  | emit {tokens : List Token} {next : Reply → Subtrees → Procedure τ}
      (rest : ∀ subtrees, Echoes none (next .proceed subtrees)) :
      Echoes (some tokens) (.yield (.emit tokens) next)

end Procedure

namespace Grammar

variable {τ : Type}

/-- All procedures of the grammar take only. -/
def TakesOnly (grammar : Grammar τ) : Prop :=
  ∀ type rule, grammar.rule? type = some rule →
    ∀ path subtrees, (rule path subtrees).TakesOnly

/-- All procedures of the grammar echo. -/
def Echoes (grammar : Grammar τ) : Prop :=
  ∀ type rule, grammar.rule? type = some rule →
    ∀ path subtrees, (rule path subtrees).Echoes none

/-- The grammar that makes the same demands of all nodes of a type. -/
def demanding (demands : List (String × List (List τ))) : Grammar τ :=
  ⟨demands.map fun entry => (entry.1, fun _ _ => .script (entry.2.map .take))⟩

/-- The rule of such a grammar asks for its demands one after the other. -/
theorem rule?_demanding {demands : List (String × List (List τ))} {type : String} {rule : Rule τ}
    (h : (demanding demands).rule? type = some rule) :
    ∃ demand ∈ demands, rule = fun _ _ => .script (demand.2.map .take) := by
  simp only [rule?, demanding] at h
  induction demands with
  | nil => exact absurd h (by simp [Keyed.get?])
  | cons entry rest ih =>
      simp only [List.map_cons, Keyed.get?] at h
      split at h
      · cases h
        exact ⟨entry, List.mem_cons_self .., rfl⟩
      · obtain ⟨demand, hmem, hrule⟩ := ih h
        exact ⟨demand, List.mem_cons_of_mem _ hmem, hrule⟩

end Grammar

/-- The act is a step inside an attempt: it begins, a command is yielded, or a terminal is passed or
missing. -/
def Act.IsStep {τ : Type} : Act τ → Prop
  | .begin | .step _ _ | .pass _ _ | .miss _ => True
  | .descend _ _ | .record _ _ | .defer _ | .abandon _ | .finish _ | .raise _ => False

/-- The frame with further tokens in front of its own. -/
def Frame.behind {σ ρ : Type} (before : List Token) (frame : Frame σ ρ) : Frame σ ρ :=
  { frame with tokens := before ++ frame.tokens }

namespace Aligner

variable {τ σ ρ : Type} [Terminal τ] [Cursor σ] [Reads σ τ]

/-- Looking for a terminal stays in the node. -/
theorem find_path {aligner : Aligner τ ρ} {matchChild : MatchChild τ σ ρ} {terminal : τ}
    {frame last : Frame σ ρ} {progress after : Progress τ σ ρ} {here : Bool}
    (h : aligner.find matchChild terminal frame progress = .done (here, last) after) :
    last.path = frame.path := by
  cases here with
  | true => cases find_eq_done_iff.mp h <;> rfl
  | false =>
      rw [(find_eq_missed h).1]
      rfl

/-- A sequence stays in its node. -/
theorem sequence_path {aligner : Aligner τ ρ} {matchChild : MatchChild τ σ ρ}
    {terminals : List τ} {frame last : Frame σ ρ} {progress after : Progress τ σ ρ}
    {outcome : Outcome}
    (h : aligner.sequence matchChild terminals frame progress = .done (outcome, last) after) :
    last.path = frame.path := by
  induction terminals generalizing frame progress with
  | nil =>
      cases h
      rfl
  | cons terminal rest ih =>
      rw [sequence, Run.andThen_eq_done_iff] at h
      obtain ⟨⟨here, middle⟩, state, hfind, hrest⟩ := h
      cases here with
      | true => exact (ih hrest).trans (find_path hfind)
      | false =>
          cases hrest
          exact find_path hfind

/-- A property of frames and states that every step of a sequence carries on. The end of an attempt
is not a step of it. What happens to a child is noted in a frame at the same place. -/
structure Carries (aligner : Aligner τ ρ) (matchChild : MatchChild τ σ ρ)
    (holds : Frame σ ρ → Progress τ σ ρ → Prop) : Prop where
  note : ∀ {frame progress} frame' act, act.IsStep → holds frame progress →
    holds frame (progress.note frame' act)
  claim : ∀ {frame progress}, holds frame progress →
    holds (frame.collect progress.pendingTokens) progress.claimed
  plain : ∀ {frame progress} {terminal : τ} {found}, holds frame progress →
    progress.pending = none → Reads.probe frame.cursor terminal = some found →
    Terminal.isReference terminal = false → Terminal.isSeparator terminal = false →
    holds ((frame.move (found.tokens progress.supply) progress.subtrees).collect
      (found.tokens progress.supply)) (progress.draw found)
  separator : ∀ {frame frame' progress} {terminal : τ} {found}, holds frame progress →
    progress.pending = none → Reads.probe frame.cursor terminal = some found →
    Terminal.isReference terminal = false → Terminal.isSeparator terminal = true →
    holds (frame.move (found.tokens progress.supply) progress.subtrees)
      (((progress.draw found).note frame' (.defer (found.tokens progress.supply))).defer
        (found.tokens progress.supply) terminal)
  child : ∀ {frame frame' progress} {terminal : τ} {found reference more route node spelling after},
    holds frame progress → frame'.path = frame.path → frame'.cursor = frame.cursor →
    progress.pending = none →
    Reads.probe frame.cursor terminal = some found → Terminal.isReference terminal = true →
    found.tokens progress.supply = reference :: more →
    childAt? frame (aligner.resolver.resolve frame.resolver reference).1 = some (route, node) →
    matchChild (.child frame.path node route) (Cursor.forChild node frame.cursor)
      ((progress.draw found).note frame' (.descend reference route)) = .done spelling after →
    holds ((aligner.joined frame reference route).move (reference :: more)
        (after.subtrees.insert reference spelling))
      ((after.note frame' (.record reference spelling)).record reference spelling)

namespace Carries

variable {aligner : Aligner τ ρ} {matchChild : MatchChild τ σ ρ}
  {holds : Frame σ ρ → Progress τ σ ρ → Prop} (carries : aligner.Carries matchChild holds)
  {before : List Token} {frame last : Frame σ ρ} {progress after : Progress τ σ ρ}

include carries

theorem find {terminal : τ} (h : holds (frame.behind before) progress)
    (hfind : aligner.find matchChild terminal frame progress = .done (true, last) after) :
    holds (last.behind before) after := by
  have hclaim : holds ((frame.collect progress.pendingTokens).behind before) progress.claimed := by
    simpa only [Frame.behind, Frame.collect, List.append_assoc] using carries.claim h
  cases find_eq_done_iff.mp hfind with
  | plain probe notReference notSeparator =>
      have hstep := carries.plain hclaim rfl probe notReference notSeparator
      apply carries.note _ _ (by trivial)
      simpa only [Frame.behind, Frame.collect, Frame.move, List.append_assoc] using hstep
  | separator probe notReference isSeparator =>
      apply carries.note _ _ (by trivial)
      exact carries.separator hclaim rfl probe notReference isSeparator
  | child probe isReference tokens resolved matched =>
      have hpath : (frame.collect progress.pendingTokens).path =
          ((frame.collect progress.pendingTokens).behind before).path := rfl
      have hstep := carries.child hclaim hpath rfl rfl probe isReference tokens resolved matched
      apply carries.note _ _ (by trivial)
      simpa only [Frame.behind, Frame.collect, joined, Frame.move, List.append_assoc] using hstep

theorem sequence {terminals : List τ} (h : holds (frame.behind before) progress)
    (hsequence : aligner.sequence matchChild terminals frame progress =
      .done (.matched, last) after) : holds (last.behind before) after := by
  induction terminals generalizing frame progress with
  | nil =>
      cases hsequence
      exact h
  | cons terminal rest ih =>
      obtain ⟨middle, state, hfind, hrest⟩ := sequence_cons_eq_matched_iff.mp hsequence
      exact ih (carries.find h hfind) hrest

/-- At the end of an attempt that takes only, the property holds of a frame whose spelling is the
result. -/
theorem drive {start : Nat} {procedure : Procedure τ} {spelling : Spelling}
    (takes : procedure.TakesOnly) (h : holds frame progress)
    (hdrive : aligner.drive matchChild start procedure frame progress =
      .done (.spelled spelling) after) :
    ∃ last state, holds last state ∧ spelling = spellingOf start last ∧
      after = state.note last (.finish spelling) := by
  induction takes generalizing frame progress with
  | done =>
      cases hdrive
      exact ⟨frame, progress, h, rfl, rfl⟩
  | take rest ih =>
      obtain ⟨tried, state, hsequence, hnext⟩ := drive_take_eq_spelled_iff.mp hdrive
      have hstart : holds (frame.emptied.behind frame.tokens) progress := by
        simpa only [Frame.emptied, Frame.behind, List.append_nil] using h
      exact ih state.subtrees (carries.note _ _ (by trivial) (carries.sequence hstart hsequence))
        hnext

/-- The property at the end of an attempt that takes only. -/
theorem attempt {path : Ancestry} {cursor : σ} {spelling : Spelling}
    (takes : aligner.grammar.TakesOnly) (h : holds (aligner.opening path cursor) progress)
    (hattempt : aligner.attempt matchChild path cursor progress =
      .done (.spelled spelling) after) :
    ∃ last state, holds last state ∧ spelling = spellingOf (Cursor.position cursor) last ∧
      after = state.note last (.finish spelling) := by
  obtain ⟨rule, hrule, hdrive⟩ := attempt_eq_spelled_iff.mp hattempt
  exact carries.drive (takes _ _ hrule _ _)
    (carries.note _ _ (by trivial) (carries.note _ _ (by trivial) h)) hdrive

end Carries

/-- A property that is carried on, and that bears when tokens are left out. -/
structure CarriesLoosely (aligner : Aligner τ ρ) (matchChild : MatchChild τ σ ρ)
    (holds : Frame σ ρ → Progress τ σ ρ → Prop) : Prop extends
    aligner.Carries matchChild holds where
  /-- Nothing was found, so nothing was drawn from the supply either. -/
  void : ∀ {frame progress} {terminal : τ} {found}, holds frame progress →
    Reads.probe frame.cursor terminal = some found → found.tokens progress.supply = [] →
    holds frame (progress.draw found)
  /-- The last tokens are dropped, and references are resolved anew. -/
  drop : ∀ {frame frame' progress} (dropped : List Token), holds frame progress →
    frame'.path = frame.path → frame'.cursor = frame.cursor →
    frame.tokens = frame'.tokens ++ dropped → holds frame' progress

namespace CarriesLoosely

variable {aligner : Aligner τ ρ} {matchChild : MatchChild τ σ ρ}
  {holds : Frame σ ρ → Progress τ σ ρ → Prop}
  (carries : aligner.CarriesLoosely matchChild holds)
  {before : List Token} {frame last : Frame σ ρ} {progress after : Progress τ σ ρ}

include carries

theorem find_missed {terminal : τ} (h : holds (frame.behind before) progress)
    (hfind : aligner.find matchChild terminal frame progress = .done (false, last) after) :
    holds (last.behind before) after := by
  have hclaim : holds ((frame.collect progress.pendingTokens).behind before) progress.claimed := by
    simpa only [Frame.behind, Frame.collect, List.append_assoc] using carries.claim h
  obtain ⟨rfl, rfl | ⟨result, hprobe, hvoid, rfl⟩⟩ := find_eq_missed hfind
  · exact carries.note _ _ (by trivial) hclaim
  · exact carries.note _ _ (by trivial) (carries.void hclaim hprobe hvoid)

theorem sequence_missed {terminals : List τ} {missing : String}
    (h : holds (frame.behind before) progress)
    (hsequence : aligner.sequence matchChild terminals frame progress =
      .done (.missed missing, last) after) : holds (last.behind before) after := by
  induction terminals generalizing frame progress with
  | nil => cases hsequence
  | cons terminal rest ih =>
      rcases sequence_cons_eq_missed hsequence with hfind | ⟨middle, state, hfind, hrest⟩
      · exact carries.find_missed h hfind
      · exact ih (carries.find h hfind) hrest

/-- What the last offer has found is left out, and a new sequence begins. -/
theorem emptied {tokens : List Token} (h : holds (frame.collect tokens) progress) :
    holds (frame.emptied.behind frame.tokens) progress := by
  have hframe : holds frame progress := carries.drop _ h rfl rfl rfl
  simpa only [Frame.emptied, Frame.behind, List.append_nil] using hframe

/-- At the end of an attempt that echoes, the property holds of a frame whose spelling is the
result. What the offer right before has found counts as if it were emitted. -/
theorem drive {start : Nat} {procedure : Procedure τ} {found : Option (List Token)}
    {spelling : Spelling} (echoes : procedure.Echoes found)
    (h : holds (frame.collect (found.getD [])) progress)
    (hdrive : aligner.drive matchChild start procedure frame progress =
      .done (.spelled spelling) after) :
    ∃ last state, holds last state ∧ spelling = spellingOf start last ∧
      after = state.note last (.finish spelling) := by
  induction echoes generalizing frame progress with
  | done =>
      cases hdrive
      exact ⟨frame, progress, carries.drop _ h rfl rfl rfl, rfl, rfl⟩
  | take rest ih =>
      obtain ⟨tried, state, hsequence, hnext⟩ := drive_take_eq_spelled_iff.mp hdrive
      have htried := carries.sequence (carries.emptied h) hsequence
      refine ih state.subtrees (carries.note _ _ (by trivial) ?_) hnext
      exact carries.drop [] htried rfl rfl (by simp [Frame.behind, Frame.collect, Frame.commit])
  | offer matched mismatched ih ih' =>
      rcases drive_offer_eq_spelled hdrive with
        ⟨tried, state, hsequence, hnext⟩ | ⟨tried, state, missing, hsequence, hnext⟩
      · have htried : holds ((frame.commit tried).collect tried.tokens) state :=
          carries.sequence (carries.emptied h) hsequence
        exact ih tried.tokens state.subtrees (carries.note _ _ (by trivial) htried) hnext
      · have htried := carries.sequence_missed (carries.emptied h) hsequence
        refine ih' state.subtrees (carries.note _ _ (by trivial) ?_) hnext
        exact carries.drop tried.tokens htried (sequence_path hsequence).symm rfl
          (by simp [Frame.behind, Frame.collect, Frame.giveBack])
  | emit rest ih =>
      refine ih progress.subtrees (carries.note _ _ (by trivial) ?_) hdrive
      exact carries.drop [] h rfl rfl (by simp [Frame.collect])

/-- The property at the end of an attempt that echoes. -/
theorem attempt {path : Ancestry} {cursor : σ} {spelling : Spelling}
    (echoes : aligner.grammar.Echoes) (h : holds (aligner.opening path cursor) progress)
    (hattempt : aligner.attempt matchChild path cursor progress =
      .done (.spelled spelling) after) :
    ∃ last state, holds last state ∧ spelling = spellingOf (Cursor.position cursor) last ∧
      after = state.note last (.finish spelling) := by
  obtain ⟨rule, hrule, hdrive⟩ := attempt_eq_spelled_iff.mp hattempt
  have hopening : holds ((aligner.opening path cursor).collect []) progress :=
    carries.drop [] h rfl rfl (by simp [Frame.collect])
  exact carries.drive (echoes _ _ hrule _ _)
    (carries.note _ _ (by trivial) (carries.note _ _ (by trivial) hopening)) hdrive

end CarriesLoosely

end Aligner

end TreeAlign
