import TreeAlign.Proofs.Cursor.Onward
import TreeAlign.Proofs.Matching.Fallback
import TreeAlign.Proofs.Matching.Stages
import TreeAlign.Proofs.Slot

/-!
# No cursor of a match leaves its input

Ranges and spans may be anything, and children are matched with cursors of
their own. Whatever they are, every cursor that a match ever has stands
within its input, and the cursor of one attempt never goes back. So every
node that is spelled ends no earlier than it starts, and where it was found
in a text it covers whole characters.

## Implementation notes

A cursor on a text is moved to where a child ended, and that is a boundary
of the same text only if the child was found in a text too. The invariant
therefore also says that a node which is read from a text is spelled from
it. An attempt that begins on a text never changes the medium.
-/

namespace TreeAlign

variable {τ ρ : Type}

/-- Every stored spelling has a safe extent. -/
def Subtrees.Safe (text? : Option (List Char)) (subtrees : Subtrees) : Prop :=
  ∀ token spelling, subtrees.get? token = some spelling → spelling.extent.Safe text?

theorem Subtrees.Safe.insert {text? : Option (List Char)} {subtrees : Subtrees}
    (h : subtrees.Safe text?) {spelling : Spelling} (extent : spelling.extent.Safe text?)
    (reference : Token) : (subtrees.insert reference spelling).Safe text? := by
  intro token found hget
  rw [get?_insert] at hget
  split at hget
  · cases hget
    exact extent
  · exact h token found hget

/-- The cursor of the moment stands within its input, and all that is spelled by then has a safe
extent. -/
structure Moment.Safe (text? : Option (List Char)) (moment : Moment τ Input ρ) : Prop where
  cursor : moment.frame.cursor.Safe
  text_eq : moment.frame.cursor.text? = text?
  store : moment.subtrees.Safe text?
  finished : ∀ spelling, moment.act = .finish spelling → spelling.extent.Safe text?

/-- Since the last attempt at the node began, its cursor has only gone on, up to the given one. The
latest moment comes first. -/
def Trails (path : Ancestry) (cursor : Input) : List (Moment τ Input ρ) → Prop
  | [] => True
  | moment :: older =>
    (moment.frame.path = path → moment.frame.cursor.Onward cursor) ∧
      (moment.frame.path = path ∧ moment.act = .begin ∨ Trails path cursor older)

namespace Trails

variable {path : Ancestry} {cursor next : Input} {journal older : List (Moment τ Input ρ)}

theorem onward (h : Trails path cursor journal) (on : cursor.Onward next) :
    Trails path next journal := by
  induction journal with
  | nil => trivial
  | cons moment older ih =>
      refine ⟨fun hpath => (h.1 hpath).trans on, ?_⟩
      rcases h.2 with hbegin | hrest
      · exact Or.inl hbegin
      · exact Or.inr (ih hrest)

/-- Moments of other nodes do not count. -/
theorem append (h : Trails path cursor older)
    (others : ∀ moment ∈ journal, moment.frame.path ≠ path) :
    Trails path cursor (journal ++ older) := by
  induction journal with
  | nil => exact h
  | cons moment rest ih =>
      obtain ⟨hother, hothers⟩ := List.forall_mem_cons.mp others
      exact ⟨fun hpath => absurd hpath hother, Or.inr (ih hothers)⟩

/-- The cursor of every moment since the attempt began. -/
theorem onward_of_append {moment : Moment τ Input ρ}
    (h : Trails path cursor (journal ++ moment :: older)) (hpath : moment.frame.path = path)
    (going : ∀ other ∈ journal, other.frame.path = path → other.act ≠ .begin) :
    moment.frame.cursor.Onward cursor := by
  induction journal with
  | nil => exact h.1 hpath
  | cons first rest ih =>
      obtain ⟨hfirst, hrest⟩ := List.forall_mem_cons.mp going
      rcases h.2 with ⟨hat, hbegin⟩ | hlater
      · exact absurd hbegin (hfirst hat)
      · exact ih hlater hrest

end Trails

/-- At every moment at which no attempt begins, the cursor has only gone on since its attempt
began. -/
def Steady : List (Moment τ Input ρ) → Prop
  | [] => True
  | moment :: older =>
    (moment.act = .begin ∨ Trails moment.frame.path moment.frame.cursor older) ∧ Steady older

theorem Steady.trails_of_append {journal older : List (Moment τ Input ρ)}
    {moment : Moment τ Input ρ} (h : Steady (journal ++ moment :: older))
    (going : moment.act ≠ .begin) : Trails moment.frame.path moment.frame.cursor older := by
  induction journal with
  | nil => exact h.1.resolve_left going
  | cons first rest ih => exact ih h.2

namespace Progress

/-- All that a match has written and stored is safe. -/
structure Safe (text? : Option (List Char)) (progress : Progress τ Input ρ) : Prop where
  store : progress.subtrees.Safe text?
  moments : ∀ moment ∈ progress.journal, moment.Safe text?
  steady : Steady progress.journal

/-- No moment so far is further down than the limit. -/
def Shallow (limit : Nat) (progress : Progress τ Input ρ) : Prop :=
  ∀ moment ∈ progress.journal, moment.frame.path.depth ≤ limit

theorem Safe.note {text? : Option (List Char)} {progress : Progress τ Input ρ}
    (h : progress.Safe text?) {frame : Frame Input ρ} {act : Act τ} (safe : frame.cursor.Safe)
    (text_eq : frame.cursor.text? = text?)
    (finished : ∀ spelling, act = .finish spelling → spelling.extent.Safe text?)
    (trails : act = .begin ∨ Trails frame.path frame.cursor progress.journal) :
    (progress.note frame act).Safe text? where
  store := h.store
  moments := List.forall_mem_cons.mpr ⟨⟨safe, text_eq, h.store, finished⟩, h.moments⟩
  steady := ⟨trails, h.steady⟩

end Progress

/-- An attempt may begin at the cursor, in a match of a node that was opened at `first`. -/
structure Ready (text? : Option (List Char)) (limit : Nat) (first cursor : Input)
    (progress : Progress τ Input ρ) : Prop where
  state : progress.Safe text?
  shallow : progress.Shallow limit
  safe : cursor.Safe
  text_eq : cursor.text? = text?
  isText : first.IsText → cursor.IsText

/-- An attempt that began at position `start` stands at the cursor. -/
structure Standing (text? : Option (List Char)) (limit : Nat) (path : Ancestry) (first : Input)
    (start : Nat) (cursor : Input) (progress : Progress τ Input ρ) : Prop
    extends Ready text? limit first cursor progress where
  depth_le : path.depth ≤ limit
  extent : (cursor.extentFrom start).Safe text?
  trails : Trails path cursor progress.journal

/-- The node is spelled. -/
structure Done (text? : Option (List Char)) (limit : Nat) (first : Input) (spelling : Spelling)
    (progress : Progress τ Input ρ) : Prop where
  state : progress.Safe text?
  shallow : progress.Shallow limit
  extent : spelling.extent.Safe text?
  medium : first.IsText → spelling.extent.medium = .text

/-- An attempt begins. -/
theorem Ready.begin {text? : Option (List Char)} {limit : Nat} {path : Ancestry}
    {first cursor : Input} {progress : Progress τ Input ρ}
    (h : Ready text? limit first cursor progress) (depth_le : path.depth ≤ limit)
    {frame : Frame Input ρ} (path_eq : frame.path = path) (cursor_eq : frame.cursor = cursor) :
    Standing text? limit path first (Cursor.position cursor) cursor
      (progress.note frame .begin) := by
  subst path_eq cursor_eq
  exact { h with
    state := h.state.note h.safe h.text_eq (by simp) (Or.inl rfl)
    shallow := List.forall_mem_cons.mpr ⟨depth_le, h.shallow⟩
    depth_le := depth_le
    extent := h.text_eq ▸ h.safe.extentFrom
    trails := ⟨fun _ => .refl _, Or.inl ⟨rfl, rfl⟩⟩ }

namespace Standing

variable {text? : Option (List Char)} {limit start : Nat} {path : Ancestry}
  {first cursor next : Input} {progress after : Progress τ Input ρ}

/-- The attempt writes a moment, but does not end. -/
theorem note (h : Standing text? limit path first start cursor progress)
    {frame : Frame Input ρ} {act : Act τ} (path_eq : frame.path = path)
    (cursor_eq : frame.cursor = cursor) (going : ∀ spelling, act ≠ .finish spelling) :
    Standing text? limit path first start cursor (progress.note frame act) := by
  subst path_eq cursor_eq
  have hfinished : ∀ spelling, act = .finish spelling → spelling.extent.Safe text? :=
    fun spelling hact => absurd hact (going spelling)
  exact { h with
    state := h.state.note h.safe h.text_eq hfinished (Or.inr h.trails)
    shallow := List.forall_mem_cons.mpr ⟨h.depth_le, h.shallow⟩
    trails := ⟨fun _ => .refl _, Or.inr h.trails⟩ }

/-- Neither the store nor the journal changes. -/
theorem same (h : Standing text? limit path first start cursor progress)
    (subtrees_eq : after.subtrees = progress.subtrees)
    (journal_eq : after.journal = progress.journal) :
    Standing text? limit path first start cursor after := by
  exact { h with
    state := ⟨subtrees_eq ▸ h.state.store, journal_eq ▸ h.state.moments,
      journal_eq ▸ h.state.steady⟩
    shallow := fun moment hmoment => h.shallow moment (journal_eq ▸ hmoment)
    trails := journal_eq ▸ h.trails }

/-- The cursor goes on. -/
theorem onward (h : Standing text? limit path first start cursor progress)
    (moved : next.Safe ∧ cursor.Onward next) :
    Standing text? limit path first start next progress := by
  obtain ⟨hsafe, hon⟩ := moved
  have htext := hon.text?_eq.trans h.text_eq
  have hextent := h.extent
  rw [← h.text_eq] at hextent
  exact { h with
    safe := hsafe
    text_eq := htext
    isText := fun hfirst => hon.isText (h.isText hfirst)
    extent := htext ▸ hon.extentFrom hsafe hextent
    trails := h.trails.onward hon }

/-- The attempt ends with a spelling. -/
theorem finish (h : Standing text? limit path first start cursor progress) {frame : Frame Input ρ}
    (path_eq : frame.path = path) (cursor_eq : frame.cursor = cursor) :
    Done text? limit first (Aligner.spellingOf start frame)
      (progress.note frame (.finish (Aligner.spellingOf start frame))) := by
  subst path_eq cursor_eq
  have hfinished : ∀ spelling, Act.finish (Aligner.spellingOf start frame) =
      (.finish spelling : Act τ) → spelling.extent.Safe text? := by
    rintro _ ⟨⟩
    exact h.extent
  exact {
    state := h.state.note h.safe h.text_eq hfinished (Or.inr h.trails)
    shallow := List.forall_mem_cons.mpr ⟨h.depth_le, h.shallow⟩
    extent := h.extent
    medium := fun hfirst => (h.isText hfirst).medium_eq }

/-- A child may be matched with a cursor of its own. -/
theorem forChild (h : Standing text? limit path first start cursor progress)
    (node : Node Token) :
    Ready text? limit (Cursor.forChild node cursor) (Cursor.forChild node cursor) progress := by
  obtain ⟨hsafe, htext⟩ := Input.forChild_safe h.safe node
  exact ⟨h.state, h.shallow, hsafe, htext.trans h.text_eq, id⟩

/-- The attempt goes on after a child, which is stored. -/
theorem child (h : Standing text? limit path first start cursor progress) {node : Node Token}
    {reference : Token} {spelling : Spelling} (isReference : reference.isReference = true)
    (done : Done text? limit (Cursor.forChild node cursor) spelling after)
    (below : progress.WritesBelow (path.depth + 1) after) {frame : Frame Input ρ}
    (path_eq : frame.path = path) (cursor_eq : frame.cursor = cursor) :
    Standing text? limit path first start
      (Cursor.advance [reference] (after.subtrees.insert reference spelling) cursor)
      ((after.note frame (.record reference spelling)).record reference spelling) := by
  obtain ⟨new, hnew, hdepth⟩ := below
  have hothers : ∀ moment ∈ new, moment.frame.path ≠ path := by
    rintro moment hmoment rfl
    exact absurd (hdepth moment hmoment) (Nat.not_succ_le_self _)
  have hresumed : Standing text? limit path first start cursor after :=
    { h with
      state := done.state
      shallow := done.shallow
      trails := hnew ▸ h.trails.append hothers }
  have hnoted : Standing text? limit path first start cursor
      (after.note frame (.record reference spelling)) :=
    hresumed.note path_eq cursor_eq (by simp)
  have hextent := done.extent
  rw [← h.text_eq] at hextent
  have hmoved := Input.advance_child h.safe isReference hextent
    (fun hcursor => done.medium (hcursor.forChild node)) after.subtrees
  have hstored : Standing text? limit path first start cursor
      ((after.note frame (.record reference spelling)).record reference spelling) :=
    { hnoted with
      state := ⟨done.state.store.insert done.extent reference, hnoted.state.moments,
        hnoted.state.steady⟩ }
  exact hstored.onward hmoved

end Standing

/-- What holds at a stage of a match of a node that was opened at the cursor `first`. -/
def Stage.Safe (text? : Option (List Char)) (limit : Nat) (path : Ancestry) (first : Input) :
    Stage τ Input ρ → Progress τ Input ρ → Prop
  | .ready cursor, progress => Ready text? limit first cursor progress
  | .idle start _ frame, progress => Standing text? limit path first start frame.cursor progress
  | .busy start _ _ _ _ tried, progress | .missed start _ _ _ _ tried, progress =>
    Standing text? limit path first start tried.cursor progress
  | .stuck _ cursor, progress => ∃ start, Standing text? limit path first start cursor progress
  | .spelled spelling, progress => Done text? limit first spelling progress
  | .failed _, progress => progress.Safe text?

namespace Aligner

variable {aligner : Aligner Stock ρ} {levels limit start : Nat} {text? : Option (List Char)}
  {path : Ancestry} {first : Input} {terminal : Stock} {frame found : Frame Input ρ}
  {progress after : Progress Stock Input ρ}

/-- Children are matched safely. -/
def MatchesSafely (aligner : Aligner Stock ρ) (levels limit : Nat) (text? : Option (List Char))
    (path : Ancestry) : Prop :=
  ∀ node route cursor (progress : Progress Stock Input ρ),
    Ready text? limit cursor cursor progress →
    (aligner.matchNode levels (.child path node route) cursor progress).Ends
      (fun _ => Progress.Safe text?) (Done text? limit cursor)

/-- An attempt stays safe when a terminal is found. -/
theorem Finding.safe
    (finding : aligner.Finding (aligner.matchNode levels) terminal frame progress found after)
    (children : aligner.MatchesSafely levels limit text? path)
    (h : Standing text? limit path first start frame.cursor progress)
    (path_eq : frame.path = path) :
    Standing text? limit path first start found.cursor after := by
  subst path_eq
  cases finding with
  | @plain result probe notReference _ =>
      have hmoved := h.onward
        (Input.advance_found h.safe probe notReference progress.supply progress.subtrees)
      have hdrawn : Standing _ _ _ _ _ _ (progress.draw result) := hmoved.same rfl rfl
      exact hdrawn.note rfl rfl (by simp)
  | @separator result probe notReference _ =>
      have hmoved := h.onward
        (Input.advance_found h.safe probe notReference progress.supply progress.subtrees)
      have hdrawn : Standing _ _ _ _ _ _ (progress.draw result) := hmoved.same rfl rfl
      have hnoted : Standing _ _ _ _ _ _ ((progress.draw result).note
          (frame.move (result.tokens progress.supply) progress.subtrees)
          (.defer (result.tokens progress.supply))) := hdrawn.note rfl rfl (by simp)
      have hwaiting : Standing _ _ _ _ _ _ (((progress.draw result).note
          (frame.move (result.tokens progress.supply) progress.subtrees)
          (.defer (result.tokens progress.supply))).defer (result.tokens progress.supply)
            terminal) := hnoted.same rfl rfl
      exact hwaiting.note rfl rfl (by simp)
  | @child result reference more route node spelling state probe isReference tokens resolved
      matched =>
      obtain ⟨rfl, hfinds⟩ := Input.finds_of_probe probe isReference tokens
      have hdrawn : Standing _ _ _ _ _ _ (progress.draw result) := h.same rfl rfl
      have hopened : Standing _ _ _ _ _ _ ((progress.draw result).note frame
          (.descend reference route)) := hdrawn.note rfl rfl (by simp)
      have hdone := (children node route _ _ (hopened.forChild node)).of_done matched
      have hbelow := (aligner.writesBelow_matchNode levels _ _ _).of_done matched
      exact (hopened.child hfinds.isReference hdone hbelow rfl rfl).note rfl rfl (by simp)

/-- A failure leaves the match safe. -/
theorem Breaking.safe {failure : Failure}
    (breaking : aligner.Breaking (aligner.matchNode levels) terminal frame progress failure after)
    (children : aligner.MatchesSafely levels limit text? path)
    (h : Standing text? limit path first start frame.cursor progress)
    (path_eq : frame.path = path) : after.Safe text? := by
  subst path_eq
  cases breaking with
  | @unresolved result _ _ _ _ _ _ =>
      have hdrawn : Standing _ _ _ _ _ _ (progress.draw result) := h.same rfl rfl
      exact (hdrawn.note rfl rfl (by simp)).state
  | @child result reference more route node _ _ _ _ _ _ failed =>
      have hdrawn : Standing _ _ _ _ _ _ (progress.draw result) := h.same rfl rfl
      have hopened : Standing _ _ _ _ _ _ ((progress.draw result).note frame
          (.descend reference route)) := hdrawn.note rfl rfl (by simp)
      exact (children node route _ _ (hopened.forChild node)).of_failed failed

/-- Every step of the attempts at a node keeps the match safe. -/
theorem keeps_safe (depth_le : path.depth ≤ limit) (first : Input)
    (children : aligner.MatchesSafely levels limit text? path) :
    aligner.Keeps (aligner.matchNode levels) path (Stage.Safe text? limit path first) := by
  constructor
  intro stage later progress after h hat step
  cases step with
  | begin _ => exact (Ready.begin h depth_le rfl rfl).note rfl rfl (by simp)
  | unknown _ => exact ((Ready.begin h depth_le rfl rfl).note rfl rfl (by simp)).state
  | finish => exact Standing.finish h hat rfl
  | emit => exact Standing.note h hat rfl (by simp)
  | look _ => exact h
  | find finding =>
      have hclaim : Standing _ _ _ _ _ _ progress.claimed := Standing.same h rfl rfl
      exact finding.safe children hclaim hat.2
  | @miss start _ _ _ tried _ state _ _ missing =>
      have hstate : Standing text? limit path first start tried.cursor state := by
        cases missing with
        | nothing => exact Standing.same h rfl rfl
        | void _ _ => exact Standing.same h rfl rfl
      exact hstate.note hat.2 rfl (by simp)
  | breaks breaking =>
      have hclaim : Standing _ _ _ _ _ _ progress.claimed := Standing.same h rfl rfl
      exact breaking.safe children hclaim hat.2
  | offered => exact Standing.note h hat.2 rfl (by simp)
  | taken => exact Standing.note h hat.2 rfl (by simp)
  | declined => exact Standing.note h hat.1 rfl (by simp)
  | abandon => exact ⟨_, Standing.note h hat.1 rfl (by simp)⟩
  | again fallback =>
      obtain ⟨start, h⟩ := h
      obtain ⟨hsafe, htext⟩ := Input.fallback_safe fallback
      exact ⟨h.state, h.shallow, hsafe, htext.trans h.text_eq,
        fun _ => Input.isText_of_fallback fallback⟩
  | giveUp _ =>
      obtain ⟨start, h⟩ := h
      exact (h.note rfl rfl (by simp)).state

/-- A match of a node that may begin ends safe. -/
theorem safe_matchNode (levels : Nat) {path : Ancestry} {cursor : Input}
    (depth_eq : path.depth + levels = limit + 1)
    (h : Ready text? limit cursor cursor progress) :
    (aligner.matchNode levels path cursor progress).Ends (fun _ => Progress.Safe text?)
      (Done text? limit cursor) := by
  induction levels generalizing path cursor progress with
  | zero =>
      -- too deep: no moment so far is at this node
      have hothers : ∀ moment ∈ progress.journal, moment.frame.path ≠ path := by
        rintro moment hmoment rfl
        have hle := h.shallow moment hmoment
        omega
      have htrails : Trails path cursor (progress.journal ++ []) :=
        Trails.append trivial hothers
      rw [List.append_nil] at htrails
      exact h.state.note h.safe h.text_eq (by simp) (Or.inr htrails)
  | succ levels ih =>
      have hchildren : aligner.MatchesSafely levels limit text? path := by
        intro node route cursor progress hready
        apply ih _ hready
        change path.depth + 1 + levels = limit + 1
        omega
      exact (keeps_safe (by omega) cursor hchildren).restart h

/-- A whole match is safe, and so is what it spells. -/
theorem safe_run (aligner : Aligner Stock ρ) (root : Node Token) {cursor : Input}
    (safe : cursor.Safe) (supply : Nat) :
    (aligner.run root cursor supply).2.Safe cursor.text? ∧
      ∀ alignment, (aligner.run root cursor supply).1 = .ok alignment →
        alignment.subtrees.Safe cursor.text? ∧ alignment.root.extent.Safe cursor.text? := by
  have hstart : Ready cursor.text? aligner.limits.maxDepth cursor cursor
      ({ supply } : Progress Stock Input ρ) := by
    refine ⟨⟨?_, by simp, trivial⟩, by simp [Progress.Shallow], safe, rfl, id⟩
    intro token spelling hget
    simp [Subtrees.get?, Subtrees.empty] at hget
  have hdepth : (Ancestry.root root).depth + (aligner.limits.maxDepth + 1) =
      aligner.limits.maxDepth + 1 := Nat.zero_add _
  have hmatch := aligner.safe_matchNode (aligner.limits.maxDepth + 1) hdepth hstart
  rcases run_ends hmatch with ⟨failure, after, hrun, hsafe⟩ | ⟨spelling, after, hrun, hdone⟩
  · rw [hrun]
    exact ⟨hsafe, by simp⟩
  · rw [hrun]
    refine ⟨⟨hdone.state.store, hdone.state.moments, hdone.state.steady⟩, ?_⟩
    rintro _ ⟨⟩
    exact ⟨hdone.state.store, hdone.extent⟩

/-- Whatever the grammar, the ranges and the texts are, no cursor of a match leaves its input: at
every moment it stands within it, on a text at character boundaries. While an attempt lasts its
cursor never goes back. Everything that is spelled ends no earlier than it starts and covers whole
characters where it was found in a text. Terminals never find more than there is. -/
theorem run_cursors_safe (aligner : Aligner Stock ρ) (root : Node Token) {cursor : Input}
    (opens : cursor.Opens) (supply : Nat) :
    (∀ moment ∈ (aligner.run root cursor supply).2.moments, moment.Safe cursor.text?) ∧
    (∀ before earlier between later after,
      (aligner.run root cursor supply).2.moments =
        before ++ earlier :: (between ++ later :: after) →
      earlier.frame.path = later.frame.path →
      (∀ moment ∈ between ++ [later], moment.frame.path = later.frame.path →
        moment.act ≠ .begin) →
      earlier.frame.cursor.Onward later.frame.cursor) ∧
    (aligner.run root cursor supply).2.subtrees.Safe cursor.text? ∧
    (∀ alignment, (aligner.run root cursor supply).1 = .ok alignment →
      alignment.subtrees.Safe cursor.text? ∧ alignment.root.extent.Safe cursor.text?) ∧
    (∀ (terminal : Stock) text lexemes, terminal.matchText text = some lexemes →
      Text.Between text 0 (Text.byteLength (Lexeme.charsOf lexemes)) (Lexeme.charsOf lexemes)) ∧
    ∀ (terminal : Stock) tokens found, terminal.matchTokens tokens = some found →
      ∃ rest, tokens = found ++ rest := by
  obtain ⟨hsafe, halignment⟩ := aligner.safe_run root opens.safe supply
  refine ⟨?_, ?_, hsafe.store, halignment, ?_, ?_⟩
  · intro moment hmoment
    exact hsafe.moments moment (List.mem_reverse.mp hmoment)
  · intro before earlier between later after hsplit hpath hgoing
    obtain ⟨hbetween, hlater⟩ := List.forall_mem_append.mp hgoing
    have hjournal := journal_of_moments hsplit
    have hsteady := hsafe.steady
    rw [hjournal, List.reverse_cons, List.reverse_append, List.reverse_cons, List.append_assoc,
      List.append_assoc, List.append_assoc] at hsteady
    have htrails := hsteady.trails_of_append (hlater later (List.mem_singleton.mpr rfl) rfl)
    apply htrails.onward_of_append hpath
    intro other hother
    exact hbetween other (List.mem_reverse.mp hother)
  · intro terminal text lexemes hmatch
    obtain ⟨rest, htext⟩ := (Stock.spells_of_matchText hmatch).1
    exact ⟨[], rest, htext, rfl, Nat.zero_add _⟩
  · intro terminal tokens found hmatch
    exact Stock.append_of_matchTokens hmatch

/-- A name whose tokens are lost and whose range begins inside a character and ends behind the
text. -/
def strayName : Node Token :=
  ⟨"Name", [], some ⟨1, 9⟩, some []⟩

/-- Names are spelled with a character of two bytes. -/
def strayNameAligner : Aligner Stock ByName where
  grammar := .demanding [("Name", [[.identifier "éa"]])]
  resolver := .byName

/-- The name is read from the text after all, from the character in which its range begins. -/
theorem run_cursors_safe_strayName :
    ∃ alignment,
      (strayNameAligner.run strayName
        (Input.tokens ((TokenCursor.ofNode strayName).withText "éa".toList)) 0).1 =
          .ok alignment ∧
      alignment.root.extent = ⟨.text, 0, 3⟩ ∧
      alignment.root.extent.Safe (some "éa".toList) ∧
      ∀ moment ∈ (strayNameAligner.run strayName
        (Input.tokens ((TokenCursor.ofNode strayName).withText "éa".toList)) 0).2.moments,
        moment.Safe (some "éa".toList) := by
  have hrun : ((strayNameAligner.run strayName
      (Input.tokens ((TokenCursor.ofNode strayName).withText "éa".toList)) 0).1.toOption.map
        fun alignment => alignment.root.extent) = some ⟨.text, 0, 3⟩ := by
    decide +kernel
  obtain ⟨alignment, hfound, hextent⟩ := Option.map_eq_some_iff.mp hrun
  have h := eq_ok_of_toOption hfound
  obtain ⟨hmoments, _, _, halignment, _⟩ := run_cursors_safe strayNameAligner strayName
    (.backed strayName "éa".toList) 0
  exact ⟨alignment, h, hextent, (halignment alignment h).2, hmoments⟩

end Aligner

end TreeAlign
