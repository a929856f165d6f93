import TreeAlign.Proofs.Cursor.Onward
import TreeAlign.Proofs.Matching.Chronicle
import TreeAlign.Proofs.Matching.Gathering
import TreeAlign.Proofs.Matching.Stages
import TreeAlign.Proofs.Spelling.Inventory
import TreeAlign.Proofs.Spelling.Nesting
import TreeAlign.Proofs.Tree.Ranges

/-!
# Nodes lie within their parents, one behind the other

On a text without ranges, and on attached tokens without a text, a child is
read from where its parent stands, and the parent reads on where the child
has ended. The units of the two are different, and so is the way in which a
child is passed, but the positions agree. So the children of a node lie
within it, one behind the other, whatever was offered in vain between them
and whoever gets the white space behind them.

## Implementation notes

Which child a reference leads to is known only when nothing in the store is
replaced later. The invariant therefore looks ahead: it speaks of the store
at the end of the match, and of states from which that end can be reached.
-/

namespace TreeAlign

/-- Whatever is reached is stored. -/
theorem Subtrees.Reaches.exists_get? {subtrees : Subtrees} {spelling : Spelling}
    {tokens : List Token} (h : subtrees.Reaches spelling tokens) :
    ∃ token, subtrees.get? token = some spelling := by
  induction h with
  | here _ found => exact ⟨_, (child?_eq_some_iff.mp found).2⟩
  | deeper _ _ _ ih => exact ih

namespace Input

variable {cursor next : Input} {node child : Node Token} {route : Route}

/-- The input keeps pace with the tree below the node: a child begins where its parent stands, and
there is no other form of the input. -/
def KeepsPace (node : Node Token) : Input → Prop
  | .text _ => node.Rangeless
  | .tokens reading => reading.text = none
  | .synthetic => True

namespace KeepsPace

theorem onward (h : cursor.KeepsPace node) (on : cursor.Onward next) : next.KeepsPace node := by
  cases on with
  | text _ => exact h
  | tokens _ _ => exact h
  | synthetic => exact h

theorem fallback (h : cursor.KeepsPace node) : Cursor.fallback cursor ≠ .ok next := by
  intro hnext
  cases cursor with
  | text place => cases hnext
  | tokens reading =>
      have htextless : (Input.tokens reading).IsTextless := h
      obtain ⟨cause, hcause⟩ := htextless.fallback_eq_error
      rw [hcause] at hnext
      cases hnext
  | synthetic => cases hnext

/-- A child of a node without ranges is read with the same cursor. -/
theorem forChild_text {place : TextCursor} (h : (Input.text place).KeepsPace node)
    (found : node.get? route = some child) : place.forChild child = place := by
  have hrangeless : node.Rangeless := h
  rw [TextCursor.forChild, (hrangeless.get? found).range_eq_none]

theorem forChild (h : cursor.KeepsPace node) (found : node.get? route = some child) :
    (Cursor.forChild child cursor).KeepsPace child := by
  cases cursor with
  | text place =>
      have hrangeless : node.Rangeless := h
      exact hrangeless.get? found
  | tokens reading => exact h
  | synthetic => trivial

/-- A child begins where its parent stands. -/
theorem position_forChild (h : cursor.KeepsPace node) (found : node.get? route = some child) :
    Cursor.position (Cursor.forChild child cursor) = Cursor.position cursor := by
  cases cursor with
  | text place => exact congrArg TextCursor.position (h.forChild_text found)
  | tokens reading => rfl
  | synthetic => rfl

/-- The parent reads on where the child has ended. -/
theorem position_advance {last : Input} {reference : Token} {spelling : Spelling}
    (h : cursor.KeepsPace node) (found : node.get? route = some child)
    (on : (Cursor.forChild child cursor).Onward last) (safe : last.Safe)
    (extent : spelling.extent = last.extentFrom (Cursor.position (Cursor.forChild child cursor)))
    (isReference : reference.isReference = true) (subtrees : Subtrees) :
    Cursor.position (Cursor.advance [reference] (subtrees.insert reference spelling) cursor) =
      spelling.extent.stop := by
  cases cursor with
  | text place =>
      have hplace : Cursor.forChild child (Input.text place) = .text place :=
        congrArg Input.text (h.forChild_text found)
      rw [hplace] at on extent
      cases on with
      | @text _ position le =>
          have hstop : spelling.extent.stop = position := congrArg Extent.stop extent
          have hle : position ≤ place.stop := safe.1
          calc (place.advance [reference] (subtrees.insert reference spelling)).position
              = place.resume spelling.extent.stop :=
                congrArg TextCursor.position (TextCursor.advance_child isReference)
            _ = min (max spelling.extent.stop place.position) place.stop := rfl
            _ = spelling.extent.stop := by omega
  | tokens reading =>
      have hstored : (subtrees.insert reference spelling).get? reference = some spelling :=
        Subtrees.get?_insert_self _ _ _
      have hmedium : spelling.extent.medium = .tokens :=
        (congrArg Extent.medium extent).trans on.medium_eq
      have hstart : spelling.extent.start = reading.offset := congrArg Extent.start extent
      have hstop : spelling.extent.stop = Cursor.position last := congrArg Extent.stop extent
      have hle : reading.offset ≤ Cursor.position last := on.position_le
      have hleaves := TokenCursor.leavesOf_child isReference hstored hmedium
      show reading.offset + total (TokenCursor.leavesOf _) [reference] = _
      rw [total_cons, total_nil, hleaves]
      omega
  | synthetic =>
      cases on with
      | synthetic => exact (congrArg Extent.stop extent).symm

end KeepsPace

end Input

variable {τ ρ : Type}

/-- When a reference was passed at the moment, the cursor stands where the child that it leads to
has ended, then and in the given store. -/
def Moment.Meets (store : Subtrees) (moment : Moment τ Input ρ) : Prop :=
  ∀ terminal tokens, moment.act = .pass terminal tokens →
    ∀ reference ∈ tokens, reference.isReference = true →
      tokens = [reference] ∧ ∃ child, moment.subtrees.get? reference = some child ∧
        store.get? reference = some child ∧
        Cursor.position moment.frame.cursor = child.extent.stop

/-- In the given store, the children of all that is stored so far lie within their parents, and all
references were passed to where their children have ended. -/
structure Progress.Nested (store : Subtrees) (progress : Progress τ Input ρ) : Prop where
  stored : ∀ token spelling, progress.subtrees.get? token = some spelling → store.Nests spelling
  moments : ∀ moment ∈ progress.journal, moment.Meets store

theorem Progress.Nested.note {store : Subtrees} {progress : Progress τ Input ρ}
    (h : progress.Nested store) {frame : Frame Input ρ} {act : Act τ}
    (meets : (⟨frame, progress.subtrees, progress.pending, act⟩ : Moment τ Input ρ).Meets store) :
    (progress.note frame act).Nested store :=
  ⟨h.stored, List.forall_mem_cons.mpr ⟨meets, h.moments⟩⟩

/-- An attempt at a node that was opened at `first` stands at the cursor and has the tokens, in a
match that ends in the state `final`. -/
structure Nesting (final : Progress τ Input ρ) (first cursor : Input) (tokens : List Token)
    (progress : Progress τ Input ρ) : Prop where
  booked : progress.Booked
  plain : Token.Plain progress.pendingTokens
  safe : cursor.Safe
  onward : first.Onward cursor
  state : progress.Later final → progress.Nested final.subtrees
  nest : progress.Later final →
    Spelling.Nest (Cursor.position first) (final.subtrees.children tokens) (Cursor.position cursor)

/-- The node that was opened at `first` is spelled. -/
def Nested (final : Progress τ Input ρ) (first : Input) (spelling : Spelling)
    (progress : Progress τ Input ρ) : Prop :=
  ∃ last : Input, spelling.extent = last.extentFrom (Cursor.position first) ∧
    Nesting final first last spelling.tokens progress

theorem Nested.nests {final progress : Progress τ Input ρ} {first : Input} {spelling : Spelling}
    (h : Nested final first spelling progress) (later : progress.Later final) :
    final.subtrees.Nests spelling := by
  obtain ⟨last, hextent, hnesting⟩ := h
  rw [Subtrees.Nests, hextent]
  exact hnesting.nest later

namespace Nesting

variable {final progress after : Progress τ Input ρ} {first cursor next : Input}
  {tokens more : List Token}

/-- A later state in which the node has the same tokens. -/
theorem wait (h : Nesting final first cursor tokens progress) (later : progress.Later after)
    (plain : Token.Plain after.pendingTokens)
    (state : after.Later final → after.Nested final.subtrees) :
    Nesting final first cursor tokens after where
  booked := later.booked
  plain := plain
  safe := h.safe
  onward := h.onward
  state := state
  nest hfinal := h.nest (later.trans hfinal)

/-- The attempt writes a moment at which no reference is passed. -/
theorem note (h : Nesting final first cursor tokens progress) (frame : Frame Input ρ) {act : Act τ}
    (silent : ∀ terminal passed, act = .pass terminal passed → Token.Plain passed) :
    Nesting final first cursor tokens (progress.note frame act) := by
  have hlater := h.booked.later_note frame act
  refine h.wait hlater h.plain ?_
  intro hfinal
  refine (h.state (hlater.trans hfinal)).note ?_
  intro terminal passed hact reference hmem hreference
  exact absurd hreference (by simp [silent terminal passed hact reference hmem])

/-- Neither the store nor the journal changes. -/
theorem same (h : Nesting final first cursor tokens progress)
    (subtrees_eq : after.subtrees = progress.subtrees)
    (journal_eq : after.journal = progress.journal) (plain : Token.Plain after.pendingTokens) :
    Nesting final first cursor tokens after := by
  have hlater : progress.Later after := by
    refine ⟨?_, ?_, ?_⟩
    · rw [Progress.Booked, Progress.recorded, subtrees_eq, journal_eq]
      exact h.booked
    · exact ⟨[], journal_eq.symm⟩
    · intro _
      rw [subtrees_eq]
      exact .refl _
  refine h.wait hlater plain ?_
  intro hfinal
  have hstate := h.state (hlater.trans hfinal)
  exact ⟨subtrees_eq ▸ hstate.stored, journal_eq ▸ hstate.moments⟩

/-- More tokens that stand for no child. -/
theorem collect (h : Nesting final first cursor tokens progress) (plain : Token.Plain more) :
    Nesting final first cursor (tokens ++ more) progress := by
  refine { h with nest := ?_ }
  intro hfinal
  rw [Subtrees.children_append_plain plain]
  exact h.nest hfinal

/-- The last tokens are left out. -/
theorem drop (h : Nesting final first cursor (tokens ++ more) progress) :
    Nesting final first cursor tokens progress := by
  refine { h with nest := ?_ }
  intro hfinal
  have hnest := h.nest hfinal
  rw [Subtrees.children_append] at hnest
  exact hnest.left

/-- The node collects what is in the slot. -/
theorem claim (h : Nesting final first cursor tokens progress) :
    Nesting final first cursor (tokens ++ progress.pendingTokens) progress.claimed :=
  (h.collect h.plain).same rfl rfl Token.plain_nil

/-- The cursor goes on. -/
theorem move (h : Nesting final first cursor tokens progress)
    (moved : next.Safe ∧ cursor.Onward next) : Nesting final first next tokens progress where
  booked := h.booked
  plain := h.plain
  safe := moved.1
  onward := h.onward.trans moved.2
  state := h.state
  nest hfinal := (h.nest hfinal).mono moved.2.position_le

/-- A child may be opened. -/
theorem opened (h : Nesting final first cursor tokens progress) (safe : next.Safe) :
    Nesting final next next [] progress where
  booked := h.booked
  plain := h.plain
  safe := safe
  onward := .refl next
  state := h.state
  nest _ := Nat.le_refl _

/-- The cursor moves past what a terminal has found. -/
theorem read {final progress : Progress Stock Input ρ}
    (h : Nesting final first cursor tokens progress) {terminal : Stock} {found : Found}
    (probe : Reads.probe cursor terminal = some found)
    (notReference : Terminal.isReference terminal = false) :
    Nesting final first (Cursor.advance (found.tokens progress.supply) progress.subtrees cursor)
      tokens (progress.draw found) := by
  have hmoved := h.move
    (Input.advance_found h.safe probe notReference progress.supply progress.subtrees)
  exact hmoved.same rfl rfl h.plain

variable {node below : Node Token} {route : Route} {reference : Token} {spelling : Spelling}

/-- The attempt writes that it has passed a reference, with its cursor where the child has ended. -/
theorem pass (h : Nesting final first cursor tokens progress) (once : final.RecordsOnce)
    (stored : progress.subtrees.get? reference = some spelling) {frame : Frame Input ρ}
    (position : Cursor.position frame.cursor = spelling.extent.stop) (terminal : τ) :
    Nesting final first cursor tokens (progress.note frame (.pass terminal [reference])) := by
  have hlater := h.booked.later_note frame (.pass terminal [reference])
  refine h.wait hlater h.plain ?_
  intro hfinal
  refine (h.state (hlater.trans hfinal)).note ?_
  rintro _ _ ⟨⟩ token hmem _
  obtain rfl := List.mem_singleton.mp hmem
  exact ⟨rfl, spelling, stored, hfinal.kept once _ _ stored, position⟩

/-- What is spelled with a cursor for a child has a safe extent, on a text if the parent is read
from one. -/
theorem extent_safe {last : Input}
    (h : Nesting final (Cursor.forChild below cursor) last tokens progress) (safe : cursor.Safe)
    (extent : spelling.extent = last.extentFrom (Cursor.position (Cursor.forChild below cursor))) :
    spelling.extent.Safe cursor.text? ∧ (cursor.IsText → spelling.extent.medium = .text) := by
  obtain ⟨hsafe, htext⟩ := Input.forChild_safe safe below
  rw [extent]
  constructor
  · rw [← htext, ← h.onward.text?_eq]
    exact h.onward.extentFrom h.safe hsafe.extentFrom
  · intro hcursor
    exact (h.onward.isText (hcursor.forChild below)).medium_eq

/-- The attempt goes on after a child, which is stored. -/
theorem child (h : Nesting final first cursor tokens progress) (once : final.RecordsOnce)
    (pace : cursor.KeepsPace node) (found : node.get? route = some below)
    (isReference : reference.isReference = true) (later : progress.Later after)
    (nested : Nested final (Cursor.forChild below cursor) spelling after) (frame : Frame Input ρ) :
    Nesting final first
        (Cursor.advance [reference] (after.subtrees.insert reference spelling) cursor)
        (tokens ++ [reference])
        ((after.note frame (.record reference spelling)).record reference spelling) ∧
      Cursor.position
          (Cursor.advance [reference] (after.subtrees.insert reference spelling) cursor) =
        spelling.extent.stop := by
  have hnests := nested.nests
  obtain ⟨last, hextent, hinner⟩ := nested
  obtain ⟨hextentSafe, hmedium⟩ := hinner.extent_safe h.safe hextent
  obtain ⟨hsafe, honward⟩ := Input.advance_child h.safe isReference hextentSafe hmedium
    after.subtrees
  have hposition := pace.position_advance found hinner.onward hinner.safe hextent isReference
    after.subtrees
  have hrecord := hinner.booked.later_record frame reference spelling
  refine ⟨⟨hrecord.booked, hinner.plain, hsafe, h.onward.trans honward, ?_, ?_⟩, hposition⟩
  · intro hfinal
    have hstate := hinner.state (hrecord.trans hfinal)
    refine ⟨?_, List.forall_mem_cons.mpr ⟨?_, hstate.moments⟩⟩
    · intro token other hget
      change (after.subtrees.insert reference spelling).get? token = some other at hget
      rw [Subtrees.get?_insert] at hget
      split at hget
      · cases hget
        exact hnests (hrecord.trans hfinal)
      · exact hstate.stored token other hget
    · intro terminal passed hact
      cases hact
  · intro hfinal
    have hbefore := h.nest (later.trans (hrecord.trans hfinal))
    have hstored : final.subtrees.get? reference = some spelling :=
      hfinal.kept once _ _ (Subtrees.get?_insert_self _ _ _)
    have hstart : spelling.extent.start = Cursor.position cursor := by
      rw [hextent]
      exact pace.position_forChild found
    rw [Subtrees.children_append, Subtrees.children_reference isReference hstored, hposition]
    rw [← hstart] at hbefore
    exact hbefore.push hextentSafe.1

end Nesting

/-- What holds at a stage of a match of a node that was opened at the cursor `first`. What the last
offer has found counts as if it were emitted. -/
def Stage.Nests (final : Progress τ Input ρ) (first : Input) :
    Stage τ Input ρ → Progress τ Input ρ → Prop
  | .ready cursor, progress => cursor = first ∧ Nesting final first first [] progress
  | .idle start procedure frame, progress =>
    start = Cursor.position first ∧ ∃ found, procedure.Echoes found ∧
      Nesting final first frame.cursor (frame.tokens ++ found.getD []) progress
  | .busy start command next frame _ tried, progress
  | .missed start command next frame _ tried, progress =>
    start = Cursor.position first ∧ (Procedure.yield command next).Echoes none ∧
      Nesting final first tried.cursor (frame.tokens ++ tried.tokens) progress
  | .stuck _ cursor, _ => first.Onward cursor
  | .spelled spelling, progress => Nested final first spelling progress
  | .failed _, _ => True

/-- A command that looks for terminals may follow any other. -/
theorem Procedure.Echoes.look {command : Command τ} {next : Reply → Subtrees → Procedure τ}
    {found : Option (List Token)} {terminals : List τ}
    (h : (Procedure.yield command next).Echoes found)
    (looks : command.terminals? = some terminals) :
    (Procedure.yield command next).Echoes none := by
  cases h with
  | take rest => exact .take rest
  | offer matched mismatched => exact .offer matched mismatched
  | emit _ => cases looks

namespace Aligner

variable {aligner : Aligner Stock ρ} {levels : Nat} {final : Progress Stock Input ρ}
  {path : Ancestry} {first : Input}

/-- Children lie within their parents in all that is matched. -/
def MatchesNested (final : Progress Stock Input ρ) (matchChild : MatchChild Stock Input ρ) : Prop :=
  ∀ (path : Ancestry) {cursor : Input} {progress after : Progress Stock Input ρ}
    {spelling : Spelling}, cursor.KeepsPace path.node → Nesting final cursor cursor [] progress →
    matchChild path cursor progress = .done spelling after → Nested final cursor spelling after

/-- A terminal that is found goes behind the tokens of the node and of its sequence. -/
theorem Finding.nesting {terminal : Stock} {frame found : Frame Input ρ}
    {progress after : Progress Stock Input ρ} {outer : List Token} (once : final.RecordsOnce)
    (children : MatchesNested final (aligner.matchNode levels))
    (finding : aligner.Finding (aligner.matchNode levels) terminal frame progress found after)
    (empty : progress.pending = none) (pace : frame.cursor.KeepsPace frame.path.node)
    (h : Nesting final first frame.cursor (outer ++ frame.tokens) progress) :
    Nesting final first found.cursor (outer ++ found.tokens) after := by
  cases finding with
  | @plain result probe notReference _ =>
      have hplain := Input.plain_of_probe probe notReference progress.supply
      have hcollected := (h.read probe notReference).collect hplain
      rw [List.append_assoc] at hcollected
      apply hcollected.note
      rintro _ _ ⟨⟩
      exact hplain
  | @separator result probe notReference _ =>
      have hplain := Input.plain_of_probe probe notReference progress.supply
      have hnoted : Nesting _ _ _ _ ((progress.draw result).note
          (frame.move (result.tokens progress.supply) progress.subtrees)
          (.defer (result.tokens progress.supply))) :=
        (h.read probe notReference).note _ (by simp)
      have hwaiting : Nesting _ _ _ _ (((progress.draw result).note
          (frame.move (result.tokens progress.supply) progress.subtrees)
          (.defer (result.tokens progress.supply))).defer (result.tokens progress.supply)
            terminal) := hnoted.same rfl rfl hplain
      apply hwaiting.note
      rintro _ _ ⟨⟩
      exact hplain
  | @child result reference more route node spelling state probe isReference tokens resolved
      matched =>
      obtain ⟨rfl, hfinds⟩ := Input.finds_of_probe probe isReference tokens
      obtain ⟨_, hnode⟩ := childAt?_eq_some resolved
      have hdrawn : Nesting _ _ _ _ (progress.draw result) := h.same rfl rfl h.plain
      have hentered : Nesting _ _ _ _ ((progress.draw result).note frame
          (.descend reference route)) := hdrawn.note _ (by simp)
      have hopened := hentered.opened (Input.forChild_safe h.safe node).1
      have hmatched := children (.child frame.path node route) (pace.forChild hnode) hopened
        matched
      -- what the parent has collected leads to the same children after the child's match
      have hmoves := aligner.movesOnly_matchNode levels (.child frame.path node route)
        (Cursor.forChild node frame.cursor)
        ((progress.draw result).note frame (.descend reference route)) empty
      rw [matched] at hmoves
      have hlater := hmoves.1.later hentered.booked
      obtain ⟨hstored, hposition⟩ := hentered.child once pace hnode hfinds.isReference hlater
        hmatched frame
      rw [List.append_assoc] at hstored
      exact hstored.pass once (Subtrees.get?_insert_self _ _ _) hposition terminal

/-- Every step of the attempts at a node keeps the children within it. -/
theorem keeps_nesting (once : final.RecordsOnce) (echoes : aligner.grammar.Echoes)
    (pace : first.KeepsPace path.node)
    (children : MatchesNested final (aligner.matchNode levels)) :
    aligner.Keeps (aligner.matchNode levels) path (Stage.Nests final first) := by
  constructor
  intro stage later progress after h hat step
  cases step with
  | begin known =>
      obtain ⟨rfl, hnesting⟩ := h
      refine ⟨rfl, none, echoes _ _ known _ _, ?_⟩
      exact (hnesting.note _ (by simp)).note _ (by simp)
  | unknown _ => trivial
  | finish =>
      obtain ⟨rfl, found, _, hnesting⟩ := h
      exact ⟨_, rfl, hnesting.drop.note _ (by simp)⟩
  | emit =>
      obtain ⟨rfl, found, hechoes, hnesting⟩ := h
      cases hechoes with
      | emit rest =>
          exact ⟨rfl, none, rest _, (hnesting.collect Token.plain_nil).note _ (by simp)⟩
  | look looks =>
      obtain ⟨rfl, found, hechoes, hnesting⟩ := h
      exact ⟨rfl, hechoes.look looks, hnesting.drop.collect Token.plain_nil⟩
  | find finding =>
      obtain ⟨rfl, hechoes, hnesting⟩ := h
      obtain ⟨_, rfl⟩ := hat
      have hclaim := hnesting.claim
      rw [List.append_assoc] at hclaim
      exact ⟨rfl, hechoes, finding.nesting once children rfl (pace.onward hnesting.onward) hclaim⟩
  | @miss _ _ _ frame tried _ state _ _ missing =>
      obtain ⟨rfl, hechoes, hnesting⟩ := h
      have hclaim := hnesting.claim
      rw [List.append_assoc] at hclaim
      have hstate : Nesting final first tried.cursor
          (frame.tokens ++ (tried.tokens ++ progress.pendingTokens)) state := by
        cases missing with
        | nothing => exact hclaim
        | void _ _ => exact hclaim.same rfl rfl Token.plain_nil
      exact ⟨rfl, hechoes, hstate.note _ (by simp)⟩
  | breaks _ => trivial
  | offered =>
      obtain ⟨rfl, hechoes, hnesting⟩ := h
      cases hechoes with
      | offer matched _ => exact ⟨rfl, _, matched _ _, hnesting.note _ (by simp)⟩
  | taken =>
      obtain ⟨rfl, hechoes, hnesting⟩ := h
      cases hechoes with
      | take rest =>
          exact ⟨rfl, none, rest _, (hnesting.collect Token.plain_nil).note _ (by simp)⟩
  | declined =>
      obtain ⟨rfl, hechoes, hnesting⟩ := h
      cases hechoes with
      | offer _ mismatched =>
          -- the tokens are given back, but the cursor stays where the offer got to
          exact ⟨rfl, none, mismatched _,
            (hnesting.drop.collect Token.plain_nil).note _ (by simp)⟩
  | abandon => exact h.2.2.onward
  | again fallback =>
      -- there is no other input to begin again on
      exact absurd fallback (pace.onward h).fallback
  | giveUp _ => trivial

/-- A match of a node keeps the children within their parents. -/
theorem matchesNested_matchNode (once : final.RecordsOnce) (echoes : aligner.grammar.Echoes)
    (levels : Nat) : MatchesNested final (aligner.matchNode levels) := by
  induction levels with
  | zero =>
      intro path cursor progress after spelling _ _ h
      simp [matchNode, fail] at h
  | succ levels ih =>
      intro path cursor progress after spelling pace hnesting h
      exact ((keeps_nesting once echoes pace ih).restart ⟨rfl, hnesting⟩).of_done h

/-- Where the input keeps pace with the tree, the children of every node of an aligned tree lie
within it, one behind the other, and right after a child was matched its parent stands where the
child has ended. On attached tokens no two children may be stored under one identity. -/
theorem run_children_nest (aligner : Aligner Stock ρ) (echoes : aligner.grammar.Echoes)
    {root : Node Token} {cursor : Input} (opens : cursor.Opens) (pace : cursor.KeepsPace root)
    {supply : Nat} {alignment : Alignment} {progress : Progress Stock Input ρ}
    (h : aligner.run root cursor supply = (.ok alignment, progress))
    (once : Cursor.medium cursor = .tokens → progress.RecordsOnce) :
    (∀ spelling, alignment.Contains spelling →
      Spelling.Nest spelling.extent.start (alignment.subtrees.children spelling.tokens)
        spelling.extent.stop) ∧
    ∀ moment ∈ progress.moments, ∀ terminal tokens, moment.act = .pass terminal tokens →
      ∀ reference ∈ tokens, reference.isReference = true →
        tokens = [reference] ∧ ∃ child, moment.subtrees.get? reference = some child ∧
          alignment.subtrees.get? reference = some child ∧
          Cursor.position moment.frame.cursor = child.extent.stop := by
  have honce : progress.RecordsOnce := by
    by_cases hmedium : Cursor.medium cursor = .tokens
    · exact once hmedium
    · have hspells : cursor.Spells := by
        rintro reading rfl
        exact hmedium rfl
      have hrecords := aligner.recordsOnce_run hspells root supply
      rwa [h] at hrecords
  obtain ⟨spelling, after, hmatch, rfl, hafter⟩ := run_eq_ok (congrArg Prod.fst h)
  obtain rfl : progress = after.claimed := (congrArg Prod.snd h).symm.trans hafter
  have hstart : Nesting after.claimed cursor cursor [] ({ supply } : Progress Stock Input ρ) := by
    refine ⟨Progress.booked_start supply, Token.plain_nil, opens.safe, .refl cursor, ?_, ?_⟩
    · intro _
      refine ⟨?_, by simp⟩
      intro token stored hget
      simp [Subtrees.get?, Subtrees.empty] at hget
    · intro _
      exact Nat.le_refl _
  have hnested := matchesNested_matchNode honce echoes _ (.root root) pace hstart hmatch
  have hnests := hnested.nests
  obtain ⟨last, _, hnesting⟩ := hnested
  have hfinal : after.Later after.claimed := hnesting.booked.later (.claim after)
  have hstate := hnesting.state hfinal
  refine ⟨?_, ?_⟩
  · rintro other (rfl | hreached)
    · have hroot : Spelling.Nest _ (after.subtrees.children spelling.tokens) _ := hnests hfinal
      rw [← Subtrees.children_append_plain hnesting.plain] at hroot
      exact hroot
    · obtain ⟨token, hget⟩ := hreached.exists_get?
      exact hstate.stored token other hget
  · intro moment hmoment
    exact hstate.moments moment (List.mem_reverse.mp hmoment)

/-- A name and the white space behind it. -/
def spacedName : Node Token :=
  ⟨"Name", [], none, some [⟨⟨"Identifier", "a"⟩, 0⟩, ⟨⟨"Whitespace", " "⟩, 1⟩]⟩

/-- A sum of a name and of a name in brackets. In its tokens the first name stands twice. -/
def bracketedSum : Node Token :=
  ⟨"Sum",
    [("left", .node spacedName),
      ("right", .node ⟨"Group", [("inner", .node spacedName)], none,
        some [⟨⟨"Punctuator", "("⟩, 2⟩, ⟨.reference "inner", 3⟩, ⟨⟨"Punctuator", ")"⟩, 4⟩]⟩)],
    none,
    some [⟨.reference "left", 5⟩, ⟨.reference "left", 6⟩, ⟨⟨"Punctuator", "+"⟩, 7⟩,
      ⟨.reference "right", 8⟩]⟩

/-- Offers a product, then a sum, and emits the sum if it is there. Its right side has to follow. -/
def productOrSum : Procedure Stock :=
  .yield (.offer [.reference "left", .punctuator "*"]) fun reply _ =>
    match reply with
    | .matched tokens => .yield (.emit tokens) fun _ _ => .done
    | _ =>
      .yield (.offer [.reference "left", .punctuator "+"]) fun reply _ =>
        match reply with
        | .matched tokens =>
          .yield (.emit tokens) fun _ _ => .yield (.take [.reference "right"]) fun _ _ => .done
        | _ => .done

/-- Names read the white space behind them, and groups have brackets. -/
def bracketedSumAligner : Aligner Stock ByName where
  grammar := ⟨[
    ("Group", fun _ _ => .script [.take [.punctuator "(", .reference "inner", .punctuator ")"]]),
    ("Name", fun _ _ => .script [.take [.identifier "a", .separator]]),
    ("Sum", fun _ _ => productOrSum)]⟩
  resolver := .byName

theorem echoes_productOrSum : productOrSum.Echoes none := by
  have hright : (Procedure.yield (Command.take [Stock.reference "right"])
      fun _ _ => Procedure.done).Echoes none := .take fun _ => .done
  refine .offer (fun _ _ => .emit fun _ => .done) fun _ => ?_
  exact .offer (fun _ _ => .emit fun _ => hright) fun _ => .done

theorem echoes_bracketedSum : bracketedSumAligner.grammar.Echoes := by
  intro type rule h path subtrees
  simp only [Grammar.rule?, bracketedSumAligner, Keyed.get?] at h
  split at h
  · cases h
    exact .take fun _ => .done
  · split at h
    · cases h
      exact .take fun _ => .done
    · split at h
      · cases h
        exact echoes_productOrSum
      · cases h

/-- The product is offered in vain, and the name that was read for it is left out. The rest lies
behind it, at the same positions in the text and in the tokens. -/
theorem run_children_nest_bracketedSum :
    (∃ alignment progress,
      bracketedSumAligner.run bracketedSum (Input.text (.whole "a a +(a )".toList)) 9 =
        (.ok alignment, progress) ∧
      alignment.root.extent = ⟨.text, 0, 9⟩ ∧
      (alignment.subtrees.children alignment.root.tokens).map (·.extent) =
        [⟨.text, 2, 4⟩, ⟨.text, 5, 9⟩] ∧
      ∀ spelling, alignment.Contains spelling →
        Spelling.Nest spelling.extent.start (alignment.subtrees.children spelling.tokens)
          spelling.extent.stop) ∧
    ∃ alignment progress,
      bracketedSumAligner.run bracketedSum (Input.tokens (.ofNode bracketedSum)) 9 =
        (.ok alignment, progress) ∧
      progress.RecordsOnce ∧ alignment.root.extent = ⟨.tokens, 0, 9⟩ ∧
      (alignment.subtrees.children alignment.root.tokens).map (·.extent) =
        [⟨.tokens, 2, 4⟩, ⟨.tokens, 5, 9⟩] ∧
      ∀ spelling, alignment.Contains spelling →
        Spelling.Nest spelling.extent.start (alignment.subtrees.children spelling.tokens)
          spelling.extent.stop := by
  constructor
  · have hrun : ((bracketedSumAligner.run bracketedSum
        (Input.text (.whole "a a +(a )".toList)) 9).1.toOption.map fun alignment =>
          (alignment.root.extent,
            (alignment.subtrees.children alignment.root.tokens).map (·.extent))) =
        some (⟨.text, 0, 9⟩, [⟨.text, 2, 4⟩, ⟨.text, 5, 9⟩]) := by
      decide +kernel
    obtain ⟨alignment, hfound, hvalues⟩ := Option.map_eq_some_iff.mp hrun
    have h := eq_ok_of_toOption hfound
    have hrangeless : bracketedSum.Rangeless := by
      unfold Node.Rangeless
      decide +kernel
    obtain ⟨hnest, _⟩ := run_children_nest bracketedSumAligner echoes_bracketedSum
      (.text .whole) hrangeless (Prod.ext h rfl) (by simp [Cursor.medium, Input.medium])
    exact ⟨alignment, _, Prod.ext h rfl, congrArg Prod.fst hvalues, congrArg Prod.snd hvalues,
      hnest⟩
  · have hrun : ((bracketedSumAligner.run bracketedSum
        (Input.tokens (.ofNode bracketedSum)) 9).1.toOption.map fun alignment =>
          (alignment.root.extent,
            (alignment.subtrees.children alignment.root.tokens).map (·.extent))) =
        some (⟨.tokens, 0, 9⟩, [⟨.tokens, 2, 4⟩, ⟨.tokens, 5, 9⟩]) := by
      decide +kernel
    have honce : (bracketedSumAligner.run bracketedSum
        (Input.tokens (.ofNode bracketedSum)) 9).2.RecordsOnce := by
      unfold Progress.RecordsOnce
      decide +kernel
    obtain ⟨alignment, hfound, hvalues⟩ := Option.map_eq_some_iff.mp hrun
    have h := eq_ok_of_toOption hfound
    obtain ⟨hnest, _⟩ := run_children_nest bracketedSumAligner echoes_bracketedSum
      (.attached bracketedSum) rfl (Prod.ext h rfl) fun _ => honce
    exact ⟨alignment, _, Prod.ext h rfl, honce, congrArg Prod.fst hvalues,
      congrArg Prod.snd hvalues, hnest⟩

end Aligner

end TreeAlign
