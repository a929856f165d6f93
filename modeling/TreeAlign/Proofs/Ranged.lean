import TreeAlign.Proofs.Grammar.Settled
import TreeAlign.Proofs.Matching.Weave
import TreeAlign.Proofs.Text.Travel

/-!
# Alignments with flat text and ranges

A child with a range is read from its range, wherever the cursor of its
parent is. The match therefore reads the text with jumps: into a child from
the cursor of the parent to the start of the child, and out of it from where
the child ended to where the parent reads on. Beside the jumps nothing is
left out, nothing is read twice and nothing is read in another order.

When no jump goes backward, the text of the aligned tree is what the root
covers without the stretches that were jumped over. It is all of it exactly
when there was no jump.
-/

namespace TreeAlign

namespace TextCursor

variable {place : TextCursor}

/-- Where a cursor reads on after a child that ended at the given position. -/
def resume (place : TextCursor) (stop : Nat) : Nat :=
  min (max stop place.position) place.stop

theorem text_forChild (child : Node Token) : (place.forChild child).text = place.text := by
  rw [forChild]
  split <;> rfl

theorem sound_forChild (child : Node Token) (sound : place.Sound) :
    (place.forChild child).Sound := by
  rw [forChild]
  split
  · exact sound_within place.text _
  · exact sound

theorem advance_child {reference : Token} {spelling : Spelling} {subtrees : Subtrees}
    (isReference : reference.isReference = true) :
    place.advance [reference] (subtrees.insert reference spelling) =
      { place with position := place.resume spelling.extent.stop } := by
  simp only [advance, List.foldl_cons, List.foldl_nil, after, isReference, if_true,
    Subtrees.get?_insert_self, resume]

/-- A cursor reads on at a boundary. -/
theorem between_resume (sound : place.Sound) {stop : Nat}
    (boundary : Text.Between place.text stop stop []) :
    Text.Between place.text (place.resume stop) (place.resume stop) [] := by
  obtain ⟨rest, hrest⟩ := sound
  rw [resume]
  rcases Nat.le_total (max stop place.position) place.stop with hle | hle
  · rw [Nat.min_eq_left hle]
    rcases Nat.le_total stop place.position with hback | hahead
    · rw [Nat.max_eq_right hback]
      exact hrest.nil
    · rw [Nat.max_eq_left hahead]
      exact boundary
  · rw [Nat.min_eq_right hle]
    exact hrest.nil_stop

theorem sound_resume (sound : place.Sound) {stop : Nat}
    (boundary : Text.Between place.text stop stop []) :
    ({ place with position := place.resume stop } : TextCursor).Sound := by
  have hstart := between_resume sound boundary
  obtain ⟨rest, hrest⟩ := sound
  exact Text.exists_between hstart hrest.nil_stop (Nat.min_le_right _ _)

end TextCursor

variable {τ ρ : Type}

/-- The jump at a moment: into a child, or out of it. -/
def Moment.jump? (moment : Moment τ Input ρ) : Option Jump :=
  match moment.act, moment.frame.cursor with
  | .descend _ route, .text place =>
    match moment.frame.path.node.get? route with
    | some child => Jump.between? place.position (place.forChild child).position
    | none => none
  | .record _ spelling, .text place =>
    Jump.between? spelling.extent.stop (place.resume spelling.extent.stop)
  | _, _ => none

namespace Progress

variable {progress : Progress τ Input ρ}

/-- The jumps of a match so far, the earliest first. -/
def jumps (progress : Progress τ Input ρ) : List Jump :=
  progress.moments.filterMap Moment.jump?

theorem jumps_note (progress : Progress τ Input ρ) (frame : Frame Input ρ) (act : Act τ) :
    (progress.note frame act).jumps = progress.jumps ++
      (Moment.jump? ⟨frame, progress.subtrees, progress.pending, act⟩).toList := by
  simp only [jumps, moments, note, List.reverse_cons, List.filterMap_append, List.filterMap_cons,
    List.filterMap_nil]
  cases Moment.jump? ⟨frame, progress.subtrees, progress.pending, act⟩ <;> rfl

theorem jumps_note_defer (progress : Progress τ Input ρ) (frame : Frame Input ρ)
    (tokens : List Token) : (progress.note frame (.defer tokens)).jumps = progress.jumps := by
  rw [jumps_note]
  exact List.append_nil _

theorem jumps_note_finish (progress : Progress τ Input ρ) (frame : Frame Input ρ)
    (spelling : Spelling) : (progress.note frame (.finish spelling)).jumps = progress.jumps := by
  rw [jumps_note]
  exact List.append_nil _

/-- A step inside an attempt is no jump. -/
theorem jumps_note_step (frame : Frame Input ρ) {act : Act τ} (step : act.IsStep) :
    (progress.note frame act).jumps = progress.jumps := by
  rw [jumps_note]
  cases act with
  | descend reference route => exact absurd step id
  | record reference spelling => exact absurd step id
  | _ => exact List.append_nil _

/-- A child is entered by a jump from the cursor of its parent to its own. -/
theorem jumps_note_descend {frame : Frame Input ρ} {place : TextCursor} {route : Route}
    {child : Node Token} (cursor : frame.cursor = .text place)
    (found : frame.path.node.get? route = some child) (reference : Token) :
    (progress.note frame (.descend reference route)).jumps =
      progress.jumps ++ (Jump.between? place.position (place.forChild child).position).toList := by
  rw [jumps_note]
  simp only [Moment.jump?, cursor, found]

/-- A child is left by a jump from where it ended to where its parent reads on. -/
theorem jumps_note_record {frame : Frame Input ρ} {place : TextCursor}
    (cursor : frame.cursor = .text place) (reference : Token) (spelling : Spelling) :
    (progress.note frame (.record reference spelling)).jumps =
      progress.jumps ++
        (Jump.between? spelling.extent.stop (place.resume spelling.extent.stop)).toList := by
  rw [jumps_note]
  simp only [Moment.jump?, cursor]

end Progress

/-- What a match of a node that began at a place of a text has read on which way. -/
structure Travelled {ρ : Type} (before : Progress Stock Input ρ) (place : TextCursor)
    (spelling : Spelling) (after : Progress Stock Input ρ) : Prop where
  grows : before.Grows after
  extent : spelling.extent = ⟨.text, place.position, spelling.extent.stop⟩
  way : ∃ leaves jumps, after.subtrees.Expands (spelling.tokens ++ after.pendingTokens) leaves ∧
    Text.Travels place.text place.position spelling.extent.stop (Token.charsOf leaves) jumps ∧
    after.jumps = before.jumps ++ jumps

/-- A frame and a state in the middle of a way, with the position, the leaves and the jumps so
far. -/
structure Travelling {ρ : Type} (before : Progress Stock Input ρ) (place : TextCursor)
    (frame : Frame Input ρ) (progress : Progress Stock Input ρ) (position : Nat)
    (leaves : List Token) (jumps : List Jump) : Prop where
  grows : before.Grows progress
  cursor : frame.cursor = .text { place with position }
  sound : ({ place with position } : TextCursor).Sound
  expands : progress.subtrees.Expands (frame.tokens ++ progress.pendingTokens) leaves
  travels : Text.Travels place.text place.position position (Token.charsOf leaves) jumps
  jumps_eq : progress.jumps = before.jumps ++ jumps

namespace Travelling

variable {ρ : Type} {before progress after : Progress Stock Input ρ} {place : TextCursor}
  {frame frame' : Frame Input ρ} {position : Nat} {leaves : List Token} {jumps : List Jump}

/-- Tokens that stand at the cursor are read into the node or into the slot. -/
theorem read (h : Travelling before place frame progress position leaves jumps)
    (empty : progress.pending = none) {terminal : Stock} {found : Found}
    (probe : Reads.probe frame.cursor terminal = some found)
    (notReference : Terminal.isReference terminal = false) (grows : progress.Grows after)
    (hcursor : frame'.cursor = Cursor.advance (found.tokens progress.supply) progress.subtrees
      frame.cursor)
    (hsubtrees : after.subtrees = progress.subtrees)
    (htokens : frame'.tokens ++ after.pendingTokens =
      frame.tokens ++ found.tokens progress.supply) (hjumps : after.jumps = progress.jumps) :
    ∃ position' leaves', Travelling before place frame' after position' leaves' jumps := by
  rw [h.cursor] at probe
  obtain ⟨lexemes, position', rfl, _, hplain, hadvance, hsound, hpart, _⟩ :=
    Input.exists_part h.sound probe notReference progress.supply progress.subtrees
  have hexpands := h.expands
  rw [Progress.pendingTokens_eq_nil empty, List.append_nil] at hexpands
  have htravels := h.travels.read hpart
  rw [← Token.charsOf_append] at htravels
  refine ⟨position', _, h.grows.trans grows, ?_, hsound, ?_, htravels, ?_⟩
  · rw [hcursor, h.cursor, hadvance]
  · rw [htokens, hsubtrees]
    exact hexpands.append (.of_plain hplain)
  · rw [hjumps, h.jumps_eq]

/-- A child is entered, read on a way of its own, and left. -/
theorem child (h : Travelling before place frame progress position leaves jumps)
    (empty : progress.pending = none) {found : Found} {reference : Token} {route : Route}
    {node : Node Token} {spelling : Spelling} (isReference : reference.isReference = true)
    (cursor : frame'.cursor = frame.cursor) (node_eq : frame'.path.node.get? route = some node)
    (travelled : Travelled ((progress.draw found).note frame' (.descend reference route))
      (TextCursor.forChild node { place with position }) spelling after)
    (new : after.subtrees.get? reference = none)
    (grows : progress.Grows
      ((after.note frame' (.record reference spelling)).record reference spelling))
    {last : Frame Input ρ}
    (hlast : last.cursor = Cursor.advance [reference] (after.subtrees.insert reference spelling)
      frame.cursor) (htokens : last.tokens = frame.tokens ++ [reference]) :
    ∃ position' leaves' jumps', Travelling before place last
      ((after.note frame' (.record reference spelling)).record reference spelling) position' leaves'
      jumps' := by
  have hcursor : frame'.cursor = .text { place with position } := cursor.trans h.cursor
  obtain ⟨inner, others, hinner, hway, hothers⟩ := travelled.way
  obtain ⟨own, waiting, hown, hwaiting, rfl⟩ := hinner.split
  rw [TextCursor.text_forChild] at hway
  have hstart := (TextCursor.between_remaining
    (TextCursor.sound_forChild node h.sound)).nil
  rw [TextCursor.text_forChild] at hstart
  have hresume := TextCursor.between_resume h.sound hway.boundary
  have hgrown := Subtrees.extends_insert new spelling
  have hexpands := h.expands
  rw [Progress.pendingTokens_eq_nil empty, List.append_nil] at hexpands
  have htravels := ((h.travels.jumpTo hstart).append hway).jumpTo hresume
  rw [← Token.charsOf_append] at htravels
  refine ⟨_, _, _, h.grows.trans grows, ?_, TextCursor.sound_resume h.sound hway.boundary, ?_,
    htravels, ?_⟩
  · rw [hlast, h.cursor]
    exact congrArg Input.text (TextCursor.advance_child isReference)
  · have hchild : (after.subtrees.insert reference spelling).Expands
        ([reference] ++ after.pendingTokens) (own ++ waiting) :=
      .child isReference (Subtrees.get?_insert_self _ _ _) (hown.mono hgrown)
        (hwaiting.mono hgrown)
    rw [htokens, List.append_assoc]
    exact (hexpands.mono grows.adds.kept).append hchild
  · have hleft : ((after.note frame' (.record reference spelling)).record reference
        spelling).jumps = _ := Progress.jumps_note_record hcursor reference spelling
    have hentered : ((progress.draw found).note frame' (.descend reference route)).jumps = _ :=
      Progress.jumps_note_descend hcursor node_eq reference
    have hdrawn : (progress.draw found).jumps = before.jumps ++ jumps := h.jumps_eq
    rw [hleft, hothers, hentered, hdrawn]
    simp only [List.append_assoc]

end Travelling

namespace Aligner

variable {ρ : Type} {aligner : Aligner Stock ρ}

/-- A way to match nodes that reads a text with jumps and only adds to the state. -/
def Travels (matchChild : MatchChild Stock Input ρ) : Prop :=
  ∀ (path : Ancestry) {place : TextCursor} {progress after : Progress Stock Input ρ}
    {spelling : Spelling}, place.Sound → progress.Minted → progress.pending = none →
    matchChild path (.text place) progress = .done spelling after →
    Travelled progress place spelling after

/-- Every step of an attempt goes on reading the text with jumps. -/
theorem Travels.carries {matchChild : MatchChild Stock Input ρ} (travels : Travels matchChild)
    (before : Progress Stock Input ρ) (place : TextCursor) :
    aligner.Carries matchChild fun frame progress =>
      ∃ position leaves jumps, Travelling before place frame progress position leaves jumps where
  note := by
    rintro frame progress frame' act step ⟨position, leaves, jumps, h⟩
    have hnote := kept_grows.note progress frame' act h.grows.minted
    refine ⟨position, leaves, jumps, h.grows.trans hnote, h.cursor, h.sound, h.expands, h.travels,
      ?_⟩
    rw [Progress.jumps_note_step frame' step, h.jumps_eq]
  claim := by
    rintro frame progress ⟨position, leaves, jumps, h⟩
    have hclaim := kept_grows.claim progress h.grows.minted
    refine ⟨position, leaves, jumps, h.grows.trans hclaim, h.cursor, h.sound, ?_, h.travels,
      h.jumps_eq⟩
    rw [Progress.pendingTokens_claimed, List.append_nil]
    exact h.expands
  plain := by
    rintro frame progress terminal found ⟨position, leaves, jumps, h⟩ empty probe notReference _
    have hgrows := kept_grows.draw ⟨_, h.cursor⟩ probe h.grows.minted
    have htokens : ((frame.move (found.tokens progress.supply) progress.subtrees).collect
        (found.tokens progress.supply)).tokens ++ (progress.draw found).pendingTokens =
        frame.tokens ++ found.tokens progress.supply := by
      rw [Progress.pendingTokens_draw, Progress.pendingTokens_eq_nil empty, List.append_nil]
      rfl
    obtain ⟨position', leaves', hread⟩ := h.read empty probe notReference hgrows rfl rfl htokens rfl
    exact ⟨position', leaves', jumps, hread⟩
  separator := by
    rintro frame frame' progress terminal found ⟨position, leaves, jumps, h⟩ empty probe
      notReference _
    have hdraw := kept_grows.draw ⟨_, h.cursor⟩ probe h.grows.minted
    have hnote := kept_grows.note (progress.draw found) frame'
      (.defer (found.tokens progress.supply)) hdraw.minted
    have hdefer := kept_grows.defer _ (found.tokens progress.supply) terminal hnote.minted
    have hcursor : (frame.move (found.tokens progress.supply) progress.subtrees).cursor =
        Cursor.advance (found.tokens progress.supply) progress.subtrees frame.cursor := rfl
    obtain ⟨position', leaves', hread⟩ := h.read empty probe notReference
      (hdraw.trans (hnote.trans hdefer)) hcursor rfl rfl (Progress.jumps_note_defer _ _ _)
    exact ⟨position', leaves', jumps, hread⟩
  child := by
    rintro frame frame' progress terminal found reference more route node spelling after
      ⟨position, leaves, jumps, h⟩ hpath hcursor empty probe isReference tokens resolved matched
    rw [h.cursor] at probe matched
    obtain ⟨name, rfl, rfl, rfl, rfl⟩ := Input.exists_reference probe isReference tokens
    obtain ⟨_, hnode⟩ := childAt?_eq_some resolved
    rw [← hpath] at hnode
    have htravelled := travels (.child frame.path node route)
      (TextCursor.sound_forChild node h.sound) (h.grows.minted.draw_note _ _ _) empty matched
    obtain ⟨hgrows, hnew⟩ := grows_of_child spelling ⟨_, rfl⟩ h.grows.minted probe htravelled.grows
    exact h.child empty rfl hcursor hnode htravelled hnew hgrows rfl rfl

/-- Every level of a match with a grammar that takes only reads the text with jumps. -/
theorem travels_matchNode (takes : aligner.grammar.TakesOnly) (levels : Nat) :
    Travels (aligner.matchNode levels) := by
  induction levels with
  | zero =>
      intro path place progress after spelling _ _ _ h
      simp [matchNode, fail] at h
  | succ levels ih =>
      intro path place progress after spelling sound minted empty h
      have hattempt := attempt_of_matchNode ⟨place, rfl⟩ h
      have hstart := (TextCursor.between_remaining sound).nil
      have hopening : Travelling progress place (aligner.opening path (.text place)) progress
          place.position [] [] := by
        refine ⟨.refl minted, rfl, sound, ?_, .start hstart, (List.append_nil _).symm⟩
        rw [Progress.pendingTokens_eq_nil empty]
        exact .nil
      obtain ⟨last, state, ⟨position, leaves, jumps, hlast⟩, rfl, rfl⟩ :=
        (ih.carries progress place).attempt takes ⟨_, _, _, hopening⟩ hattempt
      have hextent := extent_spellingOf hlast.cursor
      refine ⟨grows_of_matchNode ⟨place, rfl⟩ minted h, ?_, leaves, jumps, hlast.expands, ?_, ?_⟩
      · rw [hextent]
      · rw [hextent]
        exact hlast.travels
      · rw [Progress.jumps_note_finish, hlast.jumps_eq]

/-- The text of the aligned tree is what is read on a way through the text that makes the jumps of
the match and no others. When they all go forward, it is what the root covers without the stretches
that were jumped over, and it is all of that only if there are no jumps. -/
theorem run_ranged_text (aligner : Aligner Stock ρ) (takes : aligner.grammar.TakesOnly)
    {root : Node Token} {text : List Char} {place : TextCursor} (opens : place.Opens text)
    {supply : Nat} {alignment : Alignment} {progress : Progress Stock Input ρ}
    (h : aligner.run root (Input.text place) supply = (.ok alignment, progress)) :
    alignment.root.extent.medium = .text ∧
      Text.Travels text alignment.root.extent.start alignment.root.extent.stop
        alignment.text.toList progress.jumps ∧
      ((∀ jump ∈ progress.jumps, jump.source ≤ jump.target) →
        ∃ covered, alignment.root.Covers text covered ∧
          alignment.text.toList.Sublist covered ∧
          Text.byteLength covered =
            Text.byteLength alignment.text.toList + total Jump.length progress.jumps ∧
          (alignment.text.toList = covered ↔ progress.jumps = [])) := by
  obtain ⟨spelling, after, hmatch, rfl, hrun⟩ := run_eq_ok (congrArg Prod.fst h)
  obtain rfl : after.claimed = progress := by rw [← hrun, h]
  have htravelled := travels_matchNode takes _ (.root root) opens.sound
    (Progress.minted_start supply) rfl hmatch
  obtain ⟨leaves, jumps, hexpands, htravels, hjumps⟩ := htravelled.way
  have hjumps : after.claimed.jumps = jumps := hjumps
  have htext : (Alignment.mk { spelling with tokens := spelling.tokens ++ after.pendingTokens }
      after.subtrees).text.toList = Token.charsOf leaves := by
    rw [Alignment.text, Alignment.leaves, Alignment.leavesOf, Token.toList_textOf]
    exact congrArg Token.charsOf hexpands.leaves_eq
  have hstart : spelling.extent.start = place.position := by rw [htravelled.extent]
  have hmedium : spelling.extent.medium = .text := by rw [htravelled.extent]
  rw [opens.text_eq, ← hstart, ← htext, ← hjumps] at htravels
  refine ⟨hmedium, htravels, ?_⟩
  intro ahead
  obtain ⟨covered, hcovered, hsublist, hlength⟩ := htravels.forward ahead
  exact ⟨covered, ⟨hmedium, hcovered⟩, hsublist, hlength,
    htravels.eq_covered_iff ahead hcovered hlength⟩

/-- A name in parentheses with white space in front of it, and the ranges of both. -/
def spacedGroup : Node Token :=
  ⟨"Group", [("inner", .node ⟨"Name", [], some ⟨2, 3⟩, none⟩)], some ⟨0, 4⟩, none⟩

/-- Groups have parentheses around what is inside. -/
def spacedGroupAligner : Aligner Stock ByName where
  grammar := .demanding
    [("Group", [[.punctuator "(", .reference "inner", .punctuator ")"]]),
      ("Name", [[.identifier "a"]])]
  resolver := .byName

/-- The white space in front of the name is jumped over, and nothing else. -/
theorem run_ranged_text_spacedGroup :
    ∃ alignment progress,
      spacedGroupAligner.run spacedGroup (Input.text (.whole "( a)".toList)) 0 =
        (.ok alignment, progress) ∧
      alignment.root.extent = ⟨.text, 0, 4⟩ ∧ alignment.text = "(a)" ∧
      progress.jumps = [⟨1, 2⟩] ∧
      Text.Travels "( a)".toList 0 4 "(a)".toList [⟨1, 2⟩] ∧
      ∃ covered, alignment.root.Covers "( a)".toList covered ∧
        alignment.text.toList.Sublist covered ∧
        Text.byteLength covered = Text.byteLength alignment.text.toList + 1 ∧
        alignment.text.toList ≠ covered := by
  have hrun : ((spacedGroupAligner.run spacedGroup (Input.text (.whole "( a)".toList))
      0).1.toOption.map fun alignment => (alignment.root.extent, alignment.text)) =
      some (⟨.text, 0, 4⟩, "(a)") := by
    decide +kernel
  have hjumps : (spacedGroupAligner.run spacedGroup (Input.text (.whole "( a)".toList))
      0).2.jumps = [⟨1, 2⟩] := by
    decide +kernel
  obtain ⟨alignment, hfound, hvalues⟩ := Option.map_eq_some_iff.mp hrun
  simp only [Prod.mk.injEq] at hvalues
  obtain ⟨hextent, htext⟩ := hvalues
  have h := eq_ok_of_toOption hfound
  obtain ⟨_, htravels, hforward⟩ := run_ranged_text spacedGroupAligner
    (Grammar.takesOnly_demanding _) .whole (Prod.ext h rfl)
  rw [hjumps] at htravels hforward
  obtain ⟨covered, hcovers, hsublist, hlength, hiff⟩ := hforward (by decide)
  rw [hextent, htext] at htravels
  refine ⟨alignment, _, Prod.ext h rfl, hextent, htext, hjumps, htravels, covered, hcovers,
    hsublist, hlength, ?_⟩
  intro hall
  exact absurd (hiff.mp hall) (by decide)

/-- A name that is read by a group, and again as what is inside. -/
def overlappingGroup : Node Token :=
  ⟨"Group", [("inner", .node ⟨"Name", [], some ⟨0, 1⟩, none⟩)], some ⟨0, 2⟩, none⟩

/-- Groups have a name of their own in front of what is inside. -/
def overlappingGroupAligner : Aligner Stock ByName where
  grammar := .demanding
    [("Group", [[.identifier "a", .reference "inner"]]), ("Name", [[.identifier "a"]])]
  resolver := .byName

/-- The text of an aligned tree need not be what the root covers, although the range of the only
child lies inside the range of the root and all ranges are made of whole characters: text in front
of the child may be missing, and text may be there twice. -/
theorem ranged_text_differs_from_covered :
    (spacedGroup.ranges = [⟨0, 4⟩, ⟨2, 3⟩] ∧ overlappingGroup.ranges = [⟨0, 2⟩, ⟨0, 1⟩]) ∧
      (∀ range ∈ spacedGroup.ranges, Text.floor "( a)".toList range.start = range.start ∧
        Text.floor "( a)".toList range.stop = range.stop) ∧
      (∀ range ∈ overlappingGroup.ranges, Text.floor "a ".toList range.start = range.start ∧
        Text.floor "a ".toList range.stop = range.stop) ∧
      (∃ alignment,
        (spacedGroupAligner.run spacedGroup (Input.text (.whole "( a)".toList)) 0).1 =
          .ok alignment ∧
        alignment.root.extent = ⟨.text, 0, 4⟩ ∧
        alignment.text.toList ≠ Text.slice "( a)".toList 0 4) ∧
      ∃ alignment,
        (overlappingGroupAligner.run overlappingGroup (Input.text (.whole "a ".toList)) 0).1 =
          .ok alignment ∧
        alignment.root.extent = ⟨.text, 0, 1⟩ ∧
        alignment.text.toList ≠ Text.slice "a ".toList 0 1 := by
  refine ⟨⟨rfl, rfl⟩, by decide, by decide, ?_, ?_⟩
  · have hrun : ((spacedGroupAligner.run spacedGroup (Input.text (.whole "( a)".toList))
        0).1.toOption.map fun alignment => (alignment.root.extent, alignment.text.toList)) =
        some (⟨.text, 0, 4⟩, "(a)".toList) := by
      decide +kernel
    obtain ⟨alignment, hfound, hvalues⟩ := Option.map_eq_some_iff.mp hrun
    simp only [Prod.mk.injEq] at hvalues
    refine ⟨alignment, eq_ok_of_toOption hfound, hvalues.1, ?_⟩
    rw [hvalues.2]
    decide
  · have hrun : ((overlappingGroupAligner.run overlappingGroup (Input.text (.whole "a ".toList))
        0).1.toOption.map fun alignment => (alignment.root.extent, alignment.text.toList)) =
        some (⟨.text, 0, 1⟩, "aa".toList) := by
      decide +kernel
    obtain ⟨alignment, hfound, hvalues⟩ := Option.map_eq_some_iff.mp hrun
    simp only [Prod.mk.injEq] at hvalues
    refine ⟨alignment, eq_ok_of_toOption hfound, hvalues.1, ?_⟩
    rw [hvalues.2]
    decide

end Aligner

end TreeAlign
