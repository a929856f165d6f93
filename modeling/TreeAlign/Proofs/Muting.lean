import TreeAlign.Proofs.Grammar.Heedless
import TreeAlign.Proofs.Matching.Emissions
import TreeAlign.Proofs.Matching.Tandem
import TreeAlign.Proofs.Matching.Unread

/-!
# Emitting is neutral

Without its emit commands a grammar finds the same as with them. A match that
follows the grammar and one that follows the muted grammar are compared step
by step, on an input that has no other form to fall back to. Both fail in the
same way, or both succeed: the same references lead to the same children, all
extents are the same, and the muted match gives each node the tokens of the
other match without those at the places where something was emitted.

The input matters because of the leaves. A position in attached tokens counts
the leaves of children that were read from a text, emitted ones among them,
and children are read from a text only after a restart.

## Implementation notes

An emit command is a step of one match and none of the other. So the relation
between the two states leaves the journals apart, except for the descents, and
an attempt is related to its muted twin by what it has emitted so far.
-/

namespace TreeAlign

variable {τ σ ρ : Type}

/-- The procedure without its emit commands. Where one was yielded, the procedure goes on at once
with the reply that the command would get. -/
def Procedure.mute : Procedure τ → Subtrees → Procedure τ
  | .done, _ => .done
  | .yield (.emit _) next, subtrees => (next .proceed subtrees).mute subtrees
  | .yield (.offer terminals) next, _ =>
    .yield (.offer terminals) fun reply subtrees => (next reply subtrees).mute subtrees
  | .yield (.take terminals) next, _ =>
    .yield (.take terminals) fun reply subtrees => (next reply subtrees).mute subtrees

/-- The rule without emit commands. -/
def Rule.mute (rule : Rule τ) : Rule τ :=
  fun path subtrees => (rule path subtrees).mute subtrees

/-- The grammar without emit commands. -/
def Grammar.mute (grammar : Grammar τ) : Grammar τ :=
  ⟨grammar.rules.map fun entry => (entry.1, Rule.mute entry.2)⟩

theorem Grammar.rule?_mute (grammar : Grammar τ) (type : String) :
    grammar.mute.rule? type = (grammar.rule? type).map Rule.mute := by
  obtain ⟨rules⟩ := grammar
  simp only [rule?, mute]
  induction rules with
  | nil => rfl
  | cons entry rest ih =>
      simp only [List.map_cons, Keyed.get?]
      split
      · rfl
      · exact ih

/-- The same limits and the same resolver, with the muted grammar. -/
def Aligner.mute (aligner : Aligner τ ρ) : Aligner τ ρ :=
  { aligner with grammar := aligner.grammar.mute }

namespace Input

/-- There is no other form of the input. -/
def IsFinal : Input → Prop
  | .tokens reading => reading.text = none
  | .text _ | .synthetic => True

theorem IsFinal.fallback_eq_error {cursor : Input} (h : cursor.IsFinal) :
    ∃ cause, Cursor.fallback cursor = .error cause := by
  cases cursor with
  | text place => exact ⟨_, rfl⟩
  | tokens reading => exact IsTextless.fallback_eq_error h
  | synthetic => exact ⟨_, rfl⟩

/-- The cursor reads one medium for good. -/
structure Stays (medium : Medium) (cursor : Input) : Prop where
  isFinal : cursor.IsFinal
  medium_eq : Cursor.medium cursor = medium

namespace Stays

variable {medium : Medium} {cursor : Input}

theorem advance (h : cursor.Stays medium) (tokens : List Token) (subtrees : Subtrees) :
    (Cursor.advance tokens subtrees cursor).Stays medium := by
  cases cursor <;> exact ⟨h.isFinal, h.medium_eq⟩

theorem forChild (h : cursor.Stays medium) (child : Node Token) :
    (Cursor.forChild child cursor).Stays medium := by
  cases cursor <;> exact ⟨h.isFinal, h.medium_eq⟩

end Stays

end Input

section Extents

variable {subtrees other : Subtrees}
  (same : ∀ token, Option.Rel (fun stored stored' : Spelling => stored'.extent = stored.extent)
    (subtrees.get? token) (other.get? token))

include same

theorem TextCursor.after_congr (position : Nat) (token : Token) :
    after other position token = after subtrees position token := by
  unfold after
  split
  · have hstored := same token
    generalize subtrees.get? token = stored at hstored
    generalize other.get? token = stored' at hstored
    cases hstored with
    | some extent_eq => simp only [extent_eq]
    | none => rfl
  · rfl

theorem TokenCursor.leavesOf_congr {token : Token} (media : ∀ spelling,
      subtrees.get? token = some spelling → spelling.extent.medium = .tokens) :
    leavesOf other token = leavesOf subtrees token := by
  unfold leavesOf Subtrees.child?
  cases token.isReference with
  | false => rfl
  | true =>
      have hstored := same token
      revert media
      generalize subtrees.get? token = stored at hstored
      generalize other.get? token = stored' at hstored
      cases hstored with
      | some extent_eq =>
          intro media
          simp only [if_true, extent_eq, media _ rfl]
      | none => exact fun _ => rfl

/-- Cursors move alike over stores with the same extents, if these are of the cursor's medium. -/
theorem Input.advance_congr {cursor : Input} (media : ∀ token spelling,
      subtrees.get? token = some spelling → spelling.extent.medium = Cursor.medium cursor)
    (tokens : List Token) :
    Cursor.advance tokens other cursor = Cursor.advance tokens subtrees cursor := by
  cases cursor with
  | text place =>
      have hafter : TextCursor.after other = TextCursor.after subtrees := by
        funext position token
        exact TextCursor.after_congr same position token
      simp only [Cursor.advance, Input.advance, TextCursor.advance, hafter]
  | tokens reading =>
      have hleaves : TokenCursor.leavesOf other = TokenCursor.leavesOf subtrees := by
        funext token
        exact TokenCursor.leavesOf_congr same (media token)
      simp only [Cursor.advance, Input.advance, TokenCursor.advance, hleaves]
  | synthetic => rfl

end Extents

/-- The second spelling has the tokens of the first one that were not emitted. -/
structure Spelling.Mutes (emissions : List Emission) (made muted : Spelling) : Prop where
  node_eq : muted.node = made.node
  extent_eq : muted.extent = made.extent
  emitted : Emitted emissions made.tokens
  tokens_eq : muted.tokens = unemitted emissions made.tokens

/-- Tokens that were not emitted are added to both spellings. -/
theorem Spelling.Mutes.append {emissions : List Emission} {made muted : Spelling}
    (h : made.Mutes emissions muted) (tokens : List Token) :
    Mutes emissions { made with tokens := made.tokens ++ tokens }
      { muted with tokens := muted.tokens ++ tokens } where
  node_eq := h.node_eq
  extent_eq := h.extent_eq
  emitted := h.emitted.append tokens
  tokens_eq := by simp only [h.tokens_eq, unemitted_append h.emitted]

/-- The child that the moment leads to, and the reference to it. -/
def Moment.descent? (moment : Moment τ σ ρ) : Option (Ancestry × Token × Route) :=
  match moment.act with
  | .descend reference route => some (moment.frame.path, reference, route)
  | _ => none

/-- The references to children in the order in which they were followed, the latest first. -/
def descents (journal : List (Moment τ σ ρ)) : List (Ancestry × Token × Route) :=
  journal.filterMap Moment.descent?

/-- The second store has the same references, and they lead to the muted spellings. -/
structure Subtrees.Mutes (journal : List (Moment τ σ ρ)) (subtrees muted : Subtrees) : Prop where
  references_eq : muted.entries.map (·.1) = subtrees.entries.map (·.1)
  get? : ∀ reference, Option.Rel (Spelling.Mutes (emissionsOf reference journal))
    (subtrees.get? reference) (muted.get? reference)

/-- The states of a match and of the muted match. All that is stored was read from one medium. -/
structure Progress.Mutes (medium : Medium) (progress muted : Progress τ σ ρ) : Prop where
  pending_eq : muted.pending = progress.pending
  supply_eq : muted.supply = progress.supply
  descents_eq : descents muted.journal = descents progress.journal
  store : progress.subtrees.Mutes progress.journal muted.subtrees
  media : ∀ reference spelling, progress.subtrees.get? reference = some spelling →
    spelling.extent.medium = medium

/-- The act enters a child or comes back from it. -/
def Act.isVisit : Act τ → Bool
  | .descend _ _ | .record _ _ => true
  | _ => false

theorem descents_note (progress : Progress τ σ ρ) (frame : Frame σ ρ) {act : Act τ}
    (own : act.isVisit = false) :
    descents (progress.note frame act).journal = descents progress.journal := by
  cases act with
  | descend _ _ | record _ _ => cases own
  | _ => rfl

theorem emissionsOf_note (reference : Token) (progress : Progress τ σ ρ) (frame : Frame σ ρ)
    {act : Act τ} (own : act.isVisit = false) :
    emissionsOf reference (progress.note frame act).journal =
      emissionsOf reference progress.journal := by
  cases act with
  | descend _ _ | record _ _ => cases own
  | _ => rfl

/-- Which references a store has depends on the references alone. -/
theorem Subtrees.references_insertIn (reference : Token) (made muted : Spelling)
    {entries entries' : List (Token × Spelling)} (h : entries'.map (·.1) = entries.map (·.1)) :
    (insertIn reference muted entries').map (·.1) =
      (insertIn reference made entries).map (·.1) := by
  induction entries generalizing entries' with
  | nil =>
      obtain rfl : entries' = [] := List.map_eq_nil_iff.mp h
      rfl
  | cons entry rest ih =>
      cases entries' with
      | nil => cases h
      | cons entry' rest' =>
          obtain ⟨hkey, hrest⟩ := List.cons.inj h
          simp only [insertIn, hkey]
          split
          · rw [List.map_cons, List.map_cons, hrest]
          · rw [List.map_cons, List.map_cons, ih hrest]

namespace Progress.Mutes

variable {medium : Medium} {progress muted : Progress τ σ ρ}

theorem start (supply : Nat) :
    Mutes medium ({ supply } : Progress τ σ ρ) ({ supply } : Progress τ σ ρ) :=
  ⟨rfl, rfl, rfl, ⟨rfl, fun _ => .none⟩, fun _ _ h => nomatch h⟩

theorem claimed (h : progress.Mutes medium muted) : progress.claimed.Mutes medium muted.claimed :=
  { h with pending_eq := rfl }

theorem draw (h : progress.Mutes medium muted) (found : Found) :
    (progress.draw found).Mutes medium (muted.draw found) :=
  { h with supply_eq := congrArg found.supplyAfter h.supply_eq }

theorem defer (h : progress.Mutes medium muted) (tokens : List Token) (terminal : τ) :
    (progress.defer tokens terminal).Mutes medium (muted.defer tokens terminal) :=
  { h with pending_eq := rfl }

theorem pendingTokens_eq (h : progress.Mutes medium muted) :
    muted.pendingTokens = progress.pendingTokens := by
  rw [pendingTokens, pendingTokens, h.pending_eq]

/-- The match writes a moment that the muted match does not write. -/
theorem note_left (h : progress.Mutes medium muted) (frame : Frame σ ρ) {act : Act τ}
    (own : act.isVisit = false) : (progress.note frame act).Mutes medium muted where
  pending_eq := h.pending_eq
  supply_eq := h.supply_eq
  descents_eq := h.descents_eq.trans (descents_note progress frame own).symm
  store :=
    { references_eq := h.store.references_eq
      get? := fun reference => by
        rw [emissionsOf_note reference progress frame own]
        exact h.store.get? reference }
  media := h.media

theorem note_right (h : progress.Mutes medium muted) (frame : Frame σ ρ) {act : Act τ}
    (own : act.isVisit = false) : progress.Mutes medium (muted.note frame act) where
  pending_eq := h.pending_eq
  supply_eq := h.supply_eq
  descents_eq := (descents_note muted frame own).trans h.descents_eq
  store := h.store
  media := h.media

theorem note (h : progress.Mutes medium muted) (frame frame' : Frame σ ρ) {act act' : Act τ}
    (own : act.isVisit = false) (own' : act'.isVisit = false) :
    (progress.note frame act).Mutes medium (muted.note frame' act') :=
  (h.note_left frame own).note_right frame' own'

theorem descend (h : progress.Mutes medium muted) (frame : Frame σ ρ) (reference : Token)
    (route : Route) :
    (progress.note frame (.descend reference route)).Mutes medium
      (muted.note frame (.descend reference route)) where
  pending_eq := h.pending_eq
  supply_eq := h.supply_eq
  descents_eq := congrArg ((frame.path, reference, route) :: ·) h.descents_eq
  store := ⟨h.store.references_eq, h.store.get?⟩
  media := h.media

theorem record (h : progress.Mutes medium muted) (frame frame' : Frame σ ρ) (reference : Token)
    {made other : Spelling} (medium_eq : made.extent.medium = medium)
    (hmade : made.Mutes (emissionsAt (frame.path.depth + 1) progress.journal) other) :
    ((progress.note frame (.record reference made)).record reference made).Mutes medium
      ((muted.note frame' (.record reference other)).record reference other) where
  pending_eq := h.pending_eq
  supply_eq := h.supply_eq
  descents_eq := h.descents_eq
  store :=
    { references_eq := Subtrees.references_insertIn reference made other h.store.references_eq
      get? := fun token => by
        simp only [Progress.record, Progress.note, Subtrees.get?_insert, emissionsOf, Token.same,
          decide_eq_true_eq]
        split
        · exact .some hmade
        · exact h.store.get? token }
  media token spelling hstored := by
    simp only [Progress.record, Progress.note, Subtrees.get?_insert] at hstored
    split at hstored
    · cases hstored
      exact medium_eq
    · exact h.media token spelling hstored

/-- Cursors that stay on the medium move alike. -/
theorem advance_eq {progress muted : Progress τ Input ρ} (h : progress.Mutes medium muted)
    {cursor : Input} (stays : cursor.Stays medium) (tokens : List Token) :
    Cursor.advance tokens muted.subtrees cursor =
      Cursor.advance tokens progress.subtrees cursor := by
  apply Input.advance_congr
  · intro token
    have hstored := h.store.get? token
    generalize progress.subtrees.get? token = stored at hstored
    generalize muted.subtrees.get? token = stored' at hstored
    cases hstored with
    | some hmutes => exact .some hmutes.extent_eq
    | none => exact .none
  · rw [stays.medium_eq]
    exact h.media

end Progress.Mutes

/-- The frame of the muted attempt. -/
def Frame.mute (emissions : List Emission) (frame : Frame σ ρ) : Frame σ ρ :=
  { frame with tokens := unemitted emissions frame.tokens }

namespace Frame

variable {emissions : List Emission} {frame : Frame σ ρ}

/-- What is read is collected in both attempts. -/
theorem mute_collect (h : Emitted emissions frame.tokens) (tokens : List Token) :
    (frame.collect tokens).mute emissions = (frame.mute emissions).collect tokens := by
  simp only [mute, collect, unemitted_append h]

/-- What is emitted is collected in one attempt only. -/
theorem mute_emit (emissions : List Emission) (frame : Frame σ ρ) (tokens : List Token) :
    (frame.collect tokens).mute (⟨frame.tokens, tokens⟩ :: emissions) = frame.mute emissions := by
  simp only [mute, collect, unemitted_emit]

end Frame

namespace Aligner

/-- The spellings of a node at the given depth, and the states after both matches of it. -/
structure SpellingsMute (medium : Medium) (depth : Nat) (made : Spelling)
    (after : Progress τ σ ρ) (other : Spelling) (after' : Progress τ σ ρ) : Prop where
  progress : after.Mutes medium after'
  medium_eq : made.extent.medium = medium
  mutes : made.Mutes (emissionsAt depth after.journal) other

/-- How both attempts at a node end. -/
inductive AttemptsMute (medium : Medium) (depth : Nat) :
    Attempt Input → Progress τ Input ρ → Attempt Input → Progress τ Input ρ → Prop where
  | spelled {made other : Spelling} {after after' : Progress τ Input ρ}
      (h : SpellingsMute medium depth made after other after') :
      AttemptsMute medium depth (.spelled made) after (.spelled other) after'
  | abandoned {terminal : String} {cursor : Input} {after after' : Progress τ Input ρ}
      (isFinal : cursor.IsFinal) :
      AttemptsMute medium depth (.abandoned terminal cursor) after (.abandoned terminal cursor)
        after'

/-- An attempt that has made these emissions, and the muted attempt beside it in its muted frame. -/
structure Abreast (medium : Medium) (path : Ancestry) (emissions : List Emission)
    (frame : Frame Input ρ) (progress muted : Progress τ Input ρ) : Prop where
  path_eq : frame.path = path
  stays : frame.cursor.Stays medium
  emitted : Emitted emissions frame.tokens
  noted : emissionsAt path.depth progress.journal = emissions
  progress : progress.Mutes medium muted

/-- An attempt that begins has emitted nothing. -/
theorem Abreast.opening (aligner : Aligner τ ρ) {medium : Medium} (path : Ancestry) {cursor : Input}
    {progress muted : Progress τ Input ρ} (stays : cursor.Stays medium)
    (h : progress.Mutes medium muted) :
    Abreast medium path [] (aligner.opening path cursor)
      (progress.note (aligner.opening path cursor) .begin) muted :=
  ⟨rfl, stays, nofun, emissionsAt_note_begin progress rfl, h.note_left _ rfl⟩

/-- Ways to match nodes that differ only in what is emitted. -/
structure Mutes (medium : Medium) (matchChild matchChild' : MatchChild τ Input ρ) : Prop where
  child : ∀ (path : Ancestry) {cursor : Input} {progress muted : Progress τ Input ρ},
    cursor.Stays medium → progress.Mutes medium muted →
    (matchChild path cursor progress).Alike (SpellingsMute medium path.depth)
      (matchChild' path cursor muted)
  below : ∀ (path : Ancestry) (cursor : Input) (progress : Progress τ Input ρ),
    (matchChild path cursor progress).Ends (fun _ => progress.WritesBelow path.depth)
      fun _ => progress.WritesBelow path.depth

namespace Mutes

variable {medium : Medium} {matchChild matchChild' : MatchChild τ Input ρ}
  (mutes : Mutes medium matchChild matchChild')

include mutes

/-- A sequence of terminals emits nothing. -/
theorem tandem (aligner : Aligner τ ρ) (path : Ancestry) (emissions : List Emission) :
    Tandem aligner aligner.mute path (Input.Stays medium)
      (fun progress muted => progress.Mutes medium muted ∧
        emissionsAt path.depth progress.journal = emissions) matchChild matchChild' where
  resolver := rfl
  advance tokens subtrees stays := stays.advance tokens subtrees
  slot h := h.1.pendingTokens_eq
  supply h := h.1.supply_eq
  moves tokens h stays := h.1.advance_eq stays tokens
  claimed h := ⟨h.1.claimed, h.2⟩
  draw found h := ⟨h.1.draw found, h.2⟩
  defer tokens terminal h := ⟨h.1.defer tokens terminal, h.2⟩
  note {progress muted frame act} h path_eq finding := by
    have hact : act.isVisit = false ∧ act.isBegin = false ∧ act.emitted? = none := by
      cases act with
      | defer _ | pass _ _ | miss _ => exact ⟨rfl, rfl, rfl⟩
      | _ => cases finding
    obtain ⟨own, inner, mute⟩ := hact
    exact ⟨h.1.note _ _ own own, (emissionsAt_note progress path_eq inner mute).trans h.2⟩
  child {progress muted frame} reference node route h path_eq stays := by
    have hchild := mutes.child (.child frame.path node route) (stays.forChild node)
      (h.1.descend frame reference route)
    apply (hchild.and (mutes.below _ _ _)).imp
    rintro made after other after' ⟨hspelling, hbelow⟩
    refine ⟨hspelling.progress.record frame frame reference hspelling.medium_eq hspelling.mutes, ?_⟩
    -- The child has emitted at its own depth only.
    subst path_eq
    calc
      emissionsAt frame.path.depth (after.note frame (.record reference made)).journal
          = emissionsAt frame.path.depth after.journal := emissionsAt_note after rfl rfl rfl
      _ = emissionsAt frame.path.depth
            (progress.note frame (.descend reference route)).journal := hbelow.emissionsAt_eq
      _ = emissionsAt frame.path.depth progress.journal := emissionsAt_note progress rfl rfl rfl
      _ = emissions := h.2

variable {aligner : Aligner τ ρ} [Terminal τ] {path : Ancestry} {frame : Frame Input ρ}
  {progress muted : Progress τ Input ρ} {emissions : List Emission}

/-- While they look for terminals, both attempts have the same frame. -/
theorem look {procedure : Procedure τ} {reply : Reply}
    (mute : (Act.step reply procedure.command?).emitted? = none) (terminals : List τ)
    (h : Abreast medium path emissions frame progress muted) :
    (aligner.sequence matchChild terminals frame.emptied
      (stepped frame reply procedure progress)).Alike
      (fun result after result' after' => result' = result ∧ result.2.path = path ∧
        result.2.cursor.Stays medium ∧ after.Mutes medium after' ∧
        emissionsAt path.depth after.journal = emissions)
      (aligner.mute.sequence matchChild' terminals (frame.mute emissions).emptied muted) := by
  apply (mutes.tandem aligner path emissions).sequence terminals
  · exact h.path_eq
  · exact h.stays
  · exact ⟨h.progress.note_left frame rfl,
      (emissionsAt_note progress h.path_eq rfl mute).trans h.noted⟩

/-- An attempt that follows a procedure, whose first command is already in its journal, and the
attempt that follows the muted procedure. -/
theorem drive (start : Nat) {procedure : Procedure τ} (heedless : procedure.Heedless)
    (subtrees : Subtrees) (reply : Reply)
    (h : Abreast medium path emissions frame progress muted) :
    (aligner.drive matchChild start procedure frame
      (stepped frame reply procedure progress)).Alike (AttemptsMute medium path.depth)
      (aligner.mute.drive matchChild' start (procedure.mute subtrees) (frame.mute emissions)
        muted) := by
  induction heedless generalizing frame progress muted emissions reply subtrees with
  | done =>
      have hfinish : emissionsAt path.depth ((stepped frame reply .done progress).note frame
          (.finish (spellingOf start frame))).journal = emissions := by
        calc
          _ = emissionsAt path.depth (stepped frame reply .done progress).journal :=
            emissionsAt_note _ h.path_eq rfl rfl
          _ = emissionsAt path.depth progress.journal :=
            emissionsAt_note progress h.path_eq rfl rfl
          _ = emissions := h.noted
      have hprogress : (stepped frame reply .done progress).Mutes medium muted :=
        h.progress.note_left frame rfl
      refine .spelled ⟨hprogress.note _ _ rfl rfl, h.stays.medium_eq, rfl, rfl, ?_, ?_⟩
      · rw [hfinish]
        exact h.emitted
      · rw [hfinish]
        rfl
  | @yield command next same rest ih =>
      cases command with
      | emit tokens =>
          -- The muted procedure has gone on already, so only the one attempt takes a step.
          have hnoted := emissionsAt_note_emit progress h.path_eq reply tokens
          rw [h.noted] at hnoted
          rw [Procedure.mute, Aligner.drive, same .proceed _ subtrees, ← frame.mute_emit _ tokens]
          apply ih
          exact ⟨h.path_eq, h.stays, h.emitted.emit tokens, hnoted,
            h.progress.note_left frame rfl⟩
      | offer terminals =>
          rw [Procedure.mute, Aligner.drive, Aligner.drive]
          apply (mutes.look rfl terminals h).andThen
          rintro ⟨outcome, tried⟩ state _ state' ⟨rfl, htried, hstays, hstate, hnoted⟩
          simp only [same _ state'.subtrees state.subtrees]
          cases outcome with
          | matched =>
              apply ih
              exact ⟨htried, hstays, h.emitted, hnoted, hstate.note_right _ rfl⟩
          | missed name =>
              apply ih
              exact ⟨h.path_eq, hstays, h.emitted, hnoted, hstate.note_right _ rfl⟩
      | take terminals =>
          rw [Procedure.mute, Aligner.drive, Aligner.drive]
          apply (mutes.look rfl terminals h).andThen
          rintro ⟨outcome, tried⟩ state _ state' ⟨rfl, htried, hstays, hstate, hnoted⟩
          cases outcome with
          | matched =>
              have hemitted : Emitted emissions (frame.commit tried).tokens := h.emitted
              have hcollect : ((frame.mute emissions).commit tried).collect tried.tokens =
                  ((frame.commit tried).collect tried.tokens).mute emissions :=
                (Frame.mute_collect hemitted tried.tokens).symm
              simp only [same _ state'.subtrees state.subtrees, hcollect]
              apply ih
              exact ⟨htried, hstays, hemitted.append tried.tokens, hnoted,
                hstate.note_right _ rfl⟩
          | missed name =>
              -- What was emitted before is of no account, since no attempt follows.
              exact .abandoned hstays.isFinal

theorem attempt (heedless : aligner.grammar.Heedless) (path : Ancestry) {cursor : Input}
    (stays : cursor.Stays medium) (h : progress.Mutes medium muted) :
    (aligner.attempt matchChild path cursor progress).Alike (AttemptsMute medium path.depth)
      (aligner.mute.attempt matchChild' path cursor muted) := by
  have hmute : aligner.mute.grammar.rule? path.node.type =
      (aligner.grammar.rule? path.node.type).map Rule.mute := Grammar.rule?_mute _ _
  rw [Aligner.attempt, Aligner.attempt, Grammar.start, Grammar.start, hmute]
  cases hrule : aligner.grammar.rule? path.node.type with
  | none => exact rfl
  | some rule =>
      obtain ⟨hsame, hheedless⟩ := heedless _ rule hrule path
      simp only [Option.map_some, Rule.mute, hsame muted.subtrees progress.subtrees]
      exact mutes.drive _ (hheedless _) _ _
        (.opening aligner path stays ((h.note_right _ rfl).note_right _ rfl))

/-- A required terminal that is missing ends both matches of the node. -/
theorem restart (heedless : aligner.grammar.Heedless) (path : Ancestry) (left : Nat)
    {cursor : Input} (stays : cursor.Stays medium) (h : progress.Mutes medium muted) :
    (aligner.restart matchChild path left cursor progress).Alike (SpellingsMute medium path.depth)
      (aligner.mute.restart matchChild' path left cursor muted) := by
  have hattempt := mutes.attempt heedless path stays h
  cases left with
  | zero =>
      rw [Aligner.restart, Aligner.restart]
      apply hattempt.andThen
      rintro _ after _ after' (hspelled | _)
      · exact hspelled
      · exact rfl
  | succ left =>
      rw [Aligner.restart, Aligner.restart]
      apply hattempt.andThen
      rintro _ after _ after' (hspelled | isFinal)
      · exact hspelled
      · obtain ⟨cause, hcause⟩ := isFinal.fallback_eq_error
        simp only [hcause]
        exact rfl

end Mutes

variable [Terminal τ] {aligner : Aligner τ ρ}

/-- A match of a node and the match with the muted grammar. -/
theorem mutes_matchNode (heedless : aligner.grammar.Heedless) (medium : Medium) (levels : Nat) :
    Mutes medium (aligner.matchNode levels) (aligner.mute.matchNode levels) := by
  induction levels with
  | zero => exact ⟨fun _ _ _ _ _ _ => rfl, writesBelow_matchNode 0⟩
  | succ levels ih =>
      refine ⟨?_, writesBelow_matchNode (levels + 1)⟩
      intro path cursor progress muted stays h
      exact ih.restart heedless path aligner.limits.maxFallbacks stays h

/-- How a run ends, and how the run of the muted grammar ends: both in the same failure, or both
with alignments. Then the same references led to the same children, and each node, the root at depth
zero as well as what is stored for a reference, has the same extent and the tokens that were not
emitted. -/
inductive RunsMute : Except Failure Alignment × Progress τ σ ρ →
    Except Failure Alignment × Progress τ σ ρ → Prop where
  | failed {failure : Failure} {after after' : Progress τ σ ρ} :
      RunsMute (.error failure, after) (.error failure, after')
  | aligned {alignment alignment' : Alignment} {after after' : Progress τ σ ρ}
      (descents_eq : descents after'.journal = descents after.journal)
      (store : alignment.subtrees.Mutes after.journal alignment'.subtrees)
      (root : alignment.root.Mutes (emissionsAt 0 after.journal) alignment'.root) :
      RunsMute (.ok alignment, after) (.ok alignment', after')

/-- Emitting is neutral: where a grammar does not look at the children that have been found and the
input has no other form, leaving out all emit commands changes the tokens that were emitted and
nothing else. -/
theorem run_mute (aligner : Aligner τ ρ) (heedless : aligner.grammar.Heedless)
    (root : Node Token) {cursor : Input} (isFinal : cursor.IsFinal) (supply : Nat) :
    RunsMute (aligner.run root cursor supply) (aligner.mute.run root cursor supply) := by
  have hmatch := (mutes_matchNode heedless (Cursor.medium cursor)
    (aligner.limits.maxDepth + 1)).child (.root root) ⟨isFinal, rfl⟩ (.start supply)
  have hlimits : aligner.mute.limits = aligner.limits := rfl
  rw [run, run, hlimits]
  rcases hmatch.ends with ⟨made, after, other, after', hrun, hrun', h⟩ |
    ⟨failure, after, after', hrun, hrun'⟩
  · rw [hrun, hrun']
    simp only [h.progress.pendingTokens_eq]
    exact .aligned h.progress.descents_eq h.progress.store (h.mutes.append after.pendingTokens)
  · rw [hrun, hrun']
    exact .failed

/-- A call of a function with a name. -/
def markedCall : Node Token :=
  ⟨"Call", [("arg", .node ⟨"Name", [], none, none⟩)], none, none⟩

/-- A mark that is not in the text. -/
def mark (value : String) (id : Nat) : Token := ⟨⟨"Mark", value⟩, id⟩

/-- Both types of nodes have marks around them. A third mark comes between a separator and the child
in front of which the separator is claimed. -/
def markedCallAligner : Aligner Stock ByName where
  grammar := .scripted
    [("Call", [.emit [mark "<" 0], .take [.keyword "call", .separator], .emit [mark "-" 1],
        .take [.reference "arg"], .emit [mark ">" 2], .take [.punctuator ";"]]),
      ("Name", [.emit [mark "(" 3], .take [.identifier "a"], .emit [mark ")" 4]])]
  resolver := .byName

/-- The text of a call. -/
def markedCallInput : Input := .text (.whole "call a;".toList)

/-- The marks are missing from the muted call, and nothing else is. -/
theorem run_mute_markedCall :
    ∃ alignment after alignment' after',
      markedCallAligner.run markedCall markedCallInput 10 = (.ok alignment, after) ∧
      markedCallAligner.mute.run markedCall markedCallInput 10 = (.ok alignment', after') ∧
      alignment.text = "<call- (a)>;" ∧ alignment'.text = "call a;" ∧
      alignment.root.Mutes (emissionsAt 0 after.journal) alignment'.root ∧
      alignment.subtrees.Mutes after.journal alignment'.subtrees := by
  have htext : (markedCallAligner.run markedCall markedCallInput 10).1.toOption.map
      Alignment.text = some "<call- (a)>;" := by
    decide +kernel
  have htext' : (markedCallAligner.mute.run markedCall markedCallInput 10).1.toOption.map
      Alignment.text = some "call a;" := by
    decide +kernel
  have hmute := run_mute markedCallAligner (Grammar.heedless_scripted _) markedCall
    (show markedCallInput.IsFinal from trivial) 10
  revert hmute htext htext'
  generalize markedCallAligner.run markedCall markedCallInput 10 = ended
  generalize markedCallAligner.mute.run markedCall markedCallInput 10 = ended'
  intro htext htext' hmute
  cases hmute with
  | failed => cases htext
  | aligned _ store root =>
      exact ⟨_, _, _, _, rfl, rfl, Option.some.inj htext, Option.some.inj htext', root, store⟩

end Aligner

end TreeAlign
