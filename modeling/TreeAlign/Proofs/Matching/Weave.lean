import TreeAlign.Proofs.Matching.FlatText
import TreeAlign.Proofs.Matching.Taking

/-!
# How a demanding grammar lays tokens over a text

When a grammar takes only, the tokens of a node together with the slot
cover the text from where the node began to where the cursor is, without
gaps. `Woven` records how they came about, in the order of the match: the
slot is claimed, tokens are collected, separators wait in the slot, and a
child hands over the slot it leaves behind. A derivation also knows the
route of every reference, the moment in which each child was finished, and
the share of the supply that was used up.

## Implementation notes

A derivation refers to the store and to the journal of one state. Both only
grow on flat text, so a derivation holds for every later state.
-/

namespace TreeAlign

variable {τ σ ρ : Type}

/-- The tokens in the slot at a moment. -/
def Moment.slot (moment : Moment τ σ ρ) : List Token :=
  match moment.pending with
  | none => []
  | some pending => pending.tokens

/-- The node at the end of the path was finished with the spelling, and left the slot behind. -/
def Progress.Finished (progress : Progress τ σ ρ) (path : Ancestry) (spelling : Spelling)
    (slot : List Token) : Prop :=
  ∃ moment ∈ progress.journal, moment.frame.path = path ∧ moment.act = .finish spelling ∧
    moment.slot = slot

theorem Progress.Finished.mono {progress later : Progress τ σ ρ} {path : Ancestry}
    {spelling : Spelling} {slot : List Token} (h : progress.Finished path spelling slot)
    (noted : progress.journal <:+ later.journal) : later.Finished path spelling slot := by
  obtain ⟨moment, hmem, hmoment⟩ := h
  exact ⟨moment, noted.subset hmem, hmoment⟩

/-- How the tokens of a node and the slot were laid over a text. -/
inductive Woven (aligner : Aligner τ ρ) (text : List Char) (state : Progress τ σ ρ) :
    Ancestry → Mark → List Token → List Token → ρ → Mark → Prop where
  | opened (path : Ancestry) (mark : Mark) :
      Woven aligner text state path mark [] [] (aligner.resolver.start path.node) mark
  | claimed {path : Ancestry} {first last : Mark} {tokens slot : List Token} {resolver : ρ}
      (earlier : Woven aligner text state path first tokens slot resolver last) :
      Woven aligner text state path first (tokens ++ slot) [] resolver last
  | collected {path : Ancestry} {first last next : Mark} {tokens more : List Token}
      {resolver : ρ} (earlier : Woven aligner text state path first tokens [] resolver last)
      (plain : ∀ token ∈ more, token.isReference = false)
      (part : Text.Between text last.position next.position (Token.charsOf more))
      (drawn : last.supply ≤ next.supply) :
      Woven aligner text state path first (tokens ++ more) [] resolver next
  | deferred {path : Ancestry} {first last next : Mark} {tokens slot : List Token}
      {resolver : ρ} (earlier : Woven aligner text state path first tokens [] resolver last)
      (blank : ∀ token ∈ slot, token.IsBlank)
      (part : Text.Between text last.position next.position (Token.charsOf slot))
      (drawn : last.supply ≤ next.supply) :
      Woven aligner text state path first tokens slot resolver next
  | child {path : Ancestry} {first last next : Mark} {tokens slot : List Token}
      {resolver inner : ρ} {reference : Token} {route : Route} {node : Node Token}
      {spelling : Spelling}
      (earlier : Woven aligner text state path first tokens [] resolver last)
      (isReference : reference.isReference = true) (fresh : reference.id = last.supply)
      (resolved : (aligner.resolver.resolve resolver reference).1 = some route)
      (found : path.node.get? route = some node)
      (stored : state.subtrees.get? reference = some spelling)
      (node_eq : spelling.node = node)
      (extent_eq : spelling.extent = ⟨.text, last.position, next.position⟩)
      (finished : state.Finished (.child path node route) spelling slot)
      (inside : Woven aligner text state (.child path node route)
        ⟨last.position, last.supply + 1⟩ spelling.tokens slot inner next) :
      Woven aligner text state path first (tokens ++ [reference]) slot
        (aligner.resolver.resolve resolver reference).2 next

theorem Lexeme.IsBlank.isReference_eq_false {lexeme : Lexeme} (h : lexeme.IsBlank) :
    lexeme.isReference = false := by
  have hkind : Stock.whitespaceKind ≠ referenceKind := by decide
  exact Lexeme.isReference_eq_false (h.1 ▸ hkind)

namespace Woven

variable {aligner : Aligner τ ρ} {text : List Char} {state : Progress τ σ ρ} {path : Ancestry}
  {first last : Mark} {tokens slot : List Token} {resolver : ρ}

/-- A derivation holds for every state that stores and notes at least as much. -/
theorem mono {later : Progress τ σ ρ}
    (h : Woven aligner text state path first tokens slot resolver last)
    (grown : later.subtrees.Extends state.subtrees) (noted : state.journal <:+ later.journal) :
    Woven aligner text later path first tokens slot resolver last := by
  induction h with
  | opened path mark => exact .opened path mark
  | claimed _ ih => exact .claimed ih
  | collected _ plain part drawn ih => exact .collected ih plain part drawn
  | deferred _ blank part drawn ih => exact .deferred ih blank part drawn
  | child _ isReference fresh resolved found stored node_eq extent_eq finished _ ih ih' =>
      exact .child ih isReference fresh resolved found (grown _ _ stored) node_eq extent_eq
        (finished.mono noted) ih'

/-- Only white space waits in the slot. -/
theorem isBlank_slot (h : Woven aligner text state path first tokens slot resolver last) :
    ∀ token ∈ slot, token.IsBlank := by
  induction h with
  | deferred _ blank _ _ _ => exact blank
  | child _ _ _ _ _ _ _ _ _ _ _ ih => exact ih
  | _ => simp

theorem position_le (h : Woven aligner text state path first tokens slot resolver last) :
    first.position ≤ last.position := by
  induction h with
  | opened path mark => exact Nat.le_refl _
  | claimed _ ih => exact ih
  | collected _ _ part _ ih => exact Nat.le_trans ih part.start_le
  | deferred _ _ part _ ih => exact Nat.le_trans ih part.start_le
  | child _ _ _ _ _ _ _ _ _ _ ih ih' => exact Nat.le_trans ih ih'

/-- The leaves of the tokens, and the slot behind them, are the text from the first mark to the
last. -/
theorem exists_leaves (h : Woven aligner text state path first tokens slot resolver last)
    (start : Text.Between text first.position first.position []) :
    ∃ leaves, state.subtrees.Expands tokens leaves ∧
      Text.Between text first.position last.position (Token.charsOf (leaves ++ slot)) := by
  induction h with
  | opened path mark => exact ⟨[], .nil, start⟩
  | claimed earlier ih =>
      obtain ⟨leaves, hexpands, hbetween⟩ := ih start
      have hslot : state.subtrees.Expands _ _ := .of_plain fun token ht =>
        (earlier.isBlank_slot token ht).isReference_eq_false
      exact ⟨leaves ++ _, hexpands.append hslot, by simpa using hbetween⟩
  | collected _ plain part _ ih =>
      obtain ⟨leaves, hexpands, hbetween⟩ := ih start
      refine ⟨leaves ++ _, hexpands.append (.of_plain plain), ?_⟩
      simpa using hbetween.append part
  | deferred _ _ part _ ih =>
      obtain ⟨leaves, hexpands, hbetween⟩ := ih start
      refine ⟨leaves, hexpands, ?_⟩
      simpa using hbetween.append part
  | child _ isReference _ _ _ stored _ _ _ _ ih ih' =>
      obtain ⟨leaves, hexpands, hbetween⟩ := ih start
      obtain ⟨inner, hinside, hpart⟩ := ih' hbetween.nil_stop
      refine ⟨leaves ++ (inner ++ []), hexpands.append (.child isReference stored hinside .nil), ?_⟩
      simpa using hbetween.append hpart

end Woven

/-- What a match of a node that began at a place of a text has laid over it. -/
structure Wove (aligner : Aligner τ ρ) (path : Ancestry) (place : TextCursor) (supply : Nat)
    (spelling : Spelling) (after : Progress τ σ ρ) : Prop where
  node : spelling.node = path.node
  extent : spelling.extent = ⟨.text, place.position, spelling.extent.stop⟩
  sound : ({ place with position := spelling.extent.stop } : TextCursor).Sound
  finished : after.Finished path spelling after.pendingTokens
  woven : ∃ resolver, Woven aligner place.text after path ⟨place.position, supply⟩
    spelling.tokens after.pendingTokens resolver ⟨spelling.extent.stop, after.supply⟩

/-- A frame and a state in the middle of laying tokens over a text. -/
structure Weaving (aligner : Aligner τ ρ) (path : Ancestry) (place : TextCursor) (supply : Nat)
    (frame : Frame Input ρ) (progress : Progress τ Input ρ) : Prop where
  minted : progress.Minted
  path_eq : frame.path = path
  woven : ∃ position, frame.cursor = .text { place with position } ∧
    ({ place with position } : TextCursor).Sound ∧
    Woven aligner place.text progress path ⟨place.position, supply⟩ frame.tokens
      progress.pendingTokens frame.resolver ⟨position, progress.supply⟩

namespace Aligner

variable {ρ : Type} {aligner : Aligner Stock ρ}

/-- A way to match nodes that lays tokens over a text and only adds to the state. -/
def Weaves (aligner : Aligner Stock ρ) (matchChild : MatchChild Stock Input ρ) : Prop :=
  ∀ (path : Ancestry) {place : TextCursor} {progress after : Progress Stock Input ρ}
    {spelling : Spelling}, place.Sound → path.node.Rangeless → progress.Minted →
    progress.pending = none → matchChild path (.text place) progress = .done spelling after →
    progress.Grows after ∧ Wove aligner path place progress.supply spelling after

/-- Every step of an attempt goes on laying tokens over the text. -/
theorem Weaves.carries {matchChild : MatchChild Stock Input ρ}
    (weaves : aligner.Weaves matchChild) {path : Ancestry} (rangeless : path.node.Rangeless)
    (place : TextCursor) (supply : Nat) :
    aligner.Carries matchChild (Weaving aligner path place supply) where
  note frame' act _ h := by
    obtain ⟨position, hcursor, hsound, hwoven⟩ := h.woven
    exact ⟨h.minted, h.path_eq, position, hcursor, hsound,
      hwoven.mono (.refl _) (List.suffix_cons _ _)⟩
  claim {frame progress} h := by
    obtain ⟨position, hcursor, hsound, hwoven⟩ := h.woven
    have hclaimed : Woven aligner place.text progress.claimed path _ _ _ _ _ :=
      hwoven.mono (.refl _) List.suffix_rfl
    exact ⟨h.minted, h.path_eq, position, hcursor, hsound, hclaimed.claimed⟩
  plain {frame progress terminal found} h empty probe notReference notSeparator := by
    obtain ⟨position, hcursor, hsound, hwoven⟩ := h.woven
    rw [hcursor] at probe
    obtain ⟨lexemes, position', rfl, _, hplain, hadvance, hsound', hpart, _⟩ :=
      Input.exists_part hsound probe notReference progress.supply progress.subtrees
    have hgrows := h.minted.grows_draw lexemes
    have hslot := Progress.pendingTokens_eq_nil empty
    have hslot' : (progress.draw (.spelled lexemes)).pendingTokens = [] := hslot
    refine ⟨hgrows.minted, h.path_eq, position', ?_, hsound', ?_⟩
    · simp only [Frame.collect, Frame.move, hcursor, hadvance]
    · rw [hslot] at hwoven
      rw [hslot']
      exact (hwoven.mono hgrows.adds.kept hgrows.noted).collected hplain hpart hgrows.supply
  separator {frame frame' progress terminal found} h empty probe notReference isSeparator := by
    obtain ⟨position, hcursor, hsound, hwoven⟩ := h.woven
    rw [hcursor] at probe
    obtain ⟨lexemes, position', rfl, hmatch, _, hadvance, hsound', hpart, _⟩ :=
      Input.exists_part hsound probe notReference progress.supply progress.subtrees
    have hblank : ∀ token ∈ Token.mint progress.supply lexemes, token.IsBlank :=
      Token.forall_mem_mint (Stock.isBlank_of_mem_matchText isSeparator hmatch)
    have hdraw := h.minted.grows_draw lexemes
    have hnote := kept_grows.note (progress.draw (.spelled lexemes)) frame'
      (.defer (Token.mint progress.supply lexemes)) hdraw.minted
    have hdefer := kept_grows.defer _ (Token.mint progress.supply lexemes) terminal hnote.minted
    have hgrows := hdraw.trans (hnote.trans hdefer)
    have hslot := Progress.pendingTokens_eq_nil empty
    refine ⟨hgrows.minted, h.path_eq, position', ?_, hsound', ?_⟩
    · simp only [Frame.move, hcursor, hadvance]
    · rw [hslot] at hwoven
      exact (hwoven.mono hgrows.adds.kept hgrows.noted).deferred hblank hpart hgrows.supply
  child {frame frame' progress terminal found reference more route node spelling after}
      h _ _ empty probe isReference tokens resolved matched := by
    obtain ⟨position, hcursor, hsound, hwoven⟩ := h.woven
    rw [← h.path_eq] at rangeless
    obtain ⟨name, rfl, rfl, rfl, rfl, hresolve, hnode, hrangeless, matched⟩ :=
      matched_of_reference hcursor rangeless probe isReference tokens resolved matched
    rw [hcursor] at probe
    rw [h.path_eq] at hnode matched
    obtain ⟨hmatch, hwove⟩ := weaves (.child path node route) hsound hrangeless
      (h.minted.draw_note _ _ _) empty matched
    obtain ⟨hgrows, hnew⟩ := grows_of_child spelling ⟨_, rfl⟩ h.minted probe hmatch
    obtain ⟨inner, hinside⟩ := hwove.woven
    have hslot := Progress.pendingTokens_eq_nil empty
    refine ⟨hgrows.minted, h.path_eq, spelling.extent.stop, ?_, hwove.sound, ?_⟩
    · simp only [Frame.move, joined, hcursor]
      exact Input.advance_reference rfl hinside.position_le hwove.sound
    · rw [hslot] at hwoven
      exact (hwoven.mono hgrows.adds.kept hgrows.noted).child rfl rfl hresolve hnode
        (Subtrees.get?_insert_self _ _ _) hwove.node hwove.extent
        (hwove.finished.mono (List.suffix_cons _ _))
        (hinside.mono (Subtrees.extends_insert hnew spelling) (List.suffix_cons _ _))

/-- Every level of a match with a grammar that takes only lays tokens over the text. -/
theorem weaves_matchNode (takes : aligner.grammar.TakesOnly) (levels : Nat) :
    aligner.Weaves (aligner.matchNode levels) := by
  induction levels with
  | zero =>
      intro path place progress after spelling _ _ _ _ h
      simp [matchNode, fail] at h
  | succ levels ih =>
      intro path place progress after spelling sound rangeless minted empty h
      have hattempt := attempt_of_matchNode ⟨place, rfl⟩ h
      have hslot := Progress.pendingTokens_eq_nil empty
      have hopening : Weaving aligner path place progress.supply
          (aligner.opening path (.text place)) progress := by
        refine ⟨minted, rfl, place.position, rfl, sound, ?_⟩
        rw [hslot]
        exact .opened path _
      obtain ⟨last, state, hlast, rfl, rfl⟩ :=
        (ih.carries rangeless place progress.supply).attempt takes hopening hattempt
      refine ⟨grows_of_matchNode ⟨place, rfl⟩ minted h, ?_⟩
      obtain ⟨position, hcursor, hsound, hwoven⟩ := hlast.woven
      have hextent := extent_spellingOf hcursor
      refine ⟨congrArg Ancestry.node hlast.path_eq, ?_, ?_, ?_, last.resolver, ?_⟩
      · rw [hextent]
      · rw [hextent]
        exact hsound
      · exact ⟨_, List.mem_cons_self .., hlast.path_eq, rfl, rfl⟩
      · rw [hextent]
        exact hwoven.mono (.refl _) (List.suffix_cons _ _)

/-- A whole match with a grammar that takes only lays the tokens of the root over the text. What
is left in the slot at the end is laid behind them. -/
theorem woven_of_run (takes : aligner.grammar.TakesOnly) {root : Node Token}
    (rangeless : root.Rangeless) {place : TextCursor} (sound : place.Sound) {supply : Nat}
    {alignment : Alignment}
    (h : (aligner.run root (Input.text place) supply).1 = .ok alignment) :
    ∃ resolver, alignment.root.extent = ⟨.text, place.position, alignment.root.extent.stop⟩ ∧
      alignment.subtrees = (aligner.run root (Input.text place) supply).2.subtrees ∧
      Woven aligner place.text (aligner.run root (Input.text place) supply).2 (.root root)
        ⟨place.position, supply⟩ alignment.root.tokens [] resolver
        ⟨alignment.root.extent.stop, (aligner.run root (Input.text place) supply).2.supply⟩ := by
  obtain ⟨spelling, after, hmatch, rfl, hrun⟩ := run_eq_ok h
  obtain ⟨_, hwove⟩ := weaves_matchNode takes _ (.root root) sound rangeless
    (Progress.minted_start supply) rfl hmatch
  obtain ⟨resolver, hwoven⟩ := hwove.woven
  have hclaimed : Woven aligner place.text after.claimed (.root root) _ _ _ _ _ :=
    hwoven.mono (.refl _) List.suffix_rfl
  rw [hrun]
  exact ⟨resolver, hwove.extent, rfl, hclaimed.claimed⟩

end Aligner

end TreeAlign
