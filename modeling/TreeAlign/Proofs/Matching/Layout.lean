import TreeAlign.Proofs.Matching.FlatText
import TreeAlign.Proofs.Matching.Taking

/-!
# How an echoing grammar lays tokens over a text

A grammar that offers may read a part of the text and leave it out, so its
tokens cover the text with gaps. `Laid` says that the leaves of a token list
stand in the text in order, between two marks, and got their identities in
the same order. Gaps may be anywhere. Leaving tokens out therefore keeps a
layout, and nothing else that a speculative grammar does can break it: the
cursor and the supply never move back.
-/

namespace TreeAlign

/-- The mark is not behind the other, neither in the text nor in the supply. -/
def Mark.Before (first last : Mark) : Prop :=
  first.position ≤ last.position ∧ first.supply ≤ last.supply

namespace Mark.Before

variable {first second third : Mark}

theorem refl (mark : Mark) : mark.Before mark :=
  ⟨Nat.le_refl _, Nat.le_refl _⟩

theorem trans (h : first.Before second) (h' : second.Before third) : first.Before third :=
  ⟨Nat.le_trans h.1 h'.1, Nat.le_trans h.2 h'.2⟩

end Mark.Before

/-- The leaves of the tokens stand in the text between two marks, with gaps. -/
inductive Laid (subtrees : Subtrees) (text : List Char) : Mark → List Token → Mark → Prop where
  | nil {first last : Mark} (before : first.Before last) : Laid subtrees text first [] last
  | leaf {first next last : Mark} {start : Nat} {token : Token} {rest : List Token}
      (plain : token.isReference = false) (ahead : first.Before ⟨start, token.id⟩)
      (part : Text.Between text start next.position token.value.toList)
      (drawn : token.id < next.supply) (tail : Laid subtrees text next rest last) :
      Laid subtrees text first (token :: rest) last
  | child {first next last : Mark} {reference : Token} {spelling : Spelling} {rest : List Token}
      (isReference : reference.isReference = true)
      (stored : subtrees.get? reference = some spelling)
      (inside : Laid subtrees text first spelling.tokens next)
      (tail : Laid subtrees text next rest last) :
      Laid subtrees text first (reference :: rest) last

namespace Laid

variable {subtrees : Subtrees} {text : List Char} {first middle last : Mark}
  {tokens left right : List Token}

theorem mono (h : Laid subtrees text first tokens last) {later : Subtrees}
    (grown : later.Extends subtrees) : Laid later text first tokens last := by
  induction h with
  | nil before => exact .nil before
  | leaf plain ahead part drawn _ ih => exact .leaf plain ahead part drawn ih
  | child isReference stored _ _ ih ih' =>
      exact .child isReference (grown _ _ stored) ih ih'

theorem before (h : Laid subtrees text first tokens last) : first.Before last := by
  induction h with
  | nil before => exact before
  | leaf _ ahead part drawn _ ih =>
      exact ahead.trans (Mark.Before.trans ⟨part.start_le, Nat.le_of_lt drawn⟩ ih)
  | child _ _ _ _ ih ih' => exact ih.trans ih'

/-- A layout may begin earlier. -/
theorem since (h : Laid subtrees text middle tokens last) (before : first.Before middle) :
    Laid subtrees text first tokens last := by
  induction h generalizing first with
  | nil before' => exact .nil (before.trans before')
  | leaf plain ahead part drawn tail _ =>
      exact .leaf plain (before.trans ahead) part drawn tail
  | child isReference stored _ tail ih _ => exact .child isReference stored (ih before) tail

/-- Neighbouring layouts make one layout. -/
theorem append (hl : Laid subtrees text first left middle)
    (hr : Laid subtrees text middle right last) :
    Laid subtrees text first (left ++ right) last := by
  induction hl with
  | nil before => exact hr.since before
  | leaf plain ahead part drawn _ ih => exact .leaf plain ahead part drawn (ih hr)
  | child isReference stored inside _ _ ih => exact .child isReference stored inside (ih hr)

/-- A layout of two lists has a mark between them. -/
theorem split (h : Laid subtrees text first (left ++ right) last) :
    ∃ middle, Laid subtrees text first left middle ∧ Laid subtrees text middle right last := by
  induction left generalizing first with
  | nil => exact ⟨first, .nil (.refl first), h⟩
  | cons token rest ih =>
      cases h with
      | leaf plain ahead part drawn tail =>
          obtain ⟨middle, hl, hr⟩ := ih tail
          exact ⟨middle, .leaf plain ahead part drawn hl, hr⟩
      | child isReference stored inside tail =>
          obtain ⟨middle, hl, hr⟩ := ih tail
          exact ⟨middle, .child isReference stored inside hl, hr⟩

/-- A layout bears it when a part is left out. -/
theorem leaveOut {dropped : List Token}
    (h : Laid subtrees text first (left ++ dropped ++ right) last) :
    Laid subtrees text first (left ++ right) last := by
  obtain ⟨middle, hl, hr⟩ := h.split
  obtain ⟨middle', hl, hd⟩ := hl.split
  exact hl.append (hr.since hd.before)

/-- Tokens that have just been minted lie where they were read. -/
theorem mint {start stop supply : Nat} {lexemes : List Lexeme}
    (plain : ∀ token ∈ Token.mint supply lexemes, token.isReference = false)
    (part : Text.Between text start stop (Token.charsOf (Token.mint supply lexemes))) :
    Laid subtrees text ⟨start, supply⟩ (Token.mint supply lexemes)
      ⟨stop, supply + lexemes.length⟩ := by
  induction lexemes generalizing start supply with
  | nil => exact .nil ⟨part.start_le, Nat.le_refl _⟩
  | cons lexeme rest ih =>
      rw [Token.mint, Token.charsOf_cons] at part
      have htail := ih (fun token ht => plain token (List.mem_cons_of_mem _ ht)) part.split.2
      rw [Nat.add_right_comm] at htail
      exact .leaf (plain _ (List.mem_cons_self ..)) (.refl _) part.split.1 (Nat.lt_succ_self _)
        htail

end Laid

/-- What a match of a node that began at a place of a text has laid over it. -/
structure LaidOver {ρ : Type} (place : TextCursor) (supply : Nat) (spelling : Spelling)
    (after : Progress Stock Input ρ) : Prop where
  extent : spelling.extent = ⟨.text, place.position, spelling.extent.stop⟩
  sound : ({ place with position := spelling.extent.stop } : TextCursor).Sound
  laid : Laid after.subtrees place.text ⟨place.position, supply⟩
    (spelling.tokens ++ after.pendingTokens) ⟨spelling.extent.stop, after.supply⟩

/-- A frame and a state in the middle of laying tokens over a text. -/
structure Laying {ρ : Type} (path : Ancestry) (place : TextCursor) (supply : Nat)
    (frame : Frame Input ρ) (progress : Progress Stock Input ρ) : Prop where
  minted : progress.Minted
  path_eq : frame.path = path
  laid : ∃ position, frame.cursor = .text { place with position } ∧
    ({ place with position } : TextCursor).Sound ∧
    Laid progress.subtrees place.text ⟨place.position, supply⟩
      (frame.tokens ++ progress.pendingTokens) ⟨position, progress.supply⟩

namespace Aligner

variable {ρ : Type} {aligner : Aligner Stock ρ}

/-- A way to match nodes that lays tokens over a text, with gaps, and only adds to the state. -/
def Lays (matchChild : MatchChild Stock Input ρ) : Prop :=
  ∀ (path : Ancestry) {place : TextCursor} {progress after : Progress Stock Input ρ}
    {spelling : Spelling}, place.Sound → path.node.Rangeless → progress.Minted →
    progress.pending = none → matchChild path (.text place) progress = .done spelling after →
    progress.Grows after ∧ LaidOver place progress.supply spelling after

/-- Every step of an attempt goes on laying tokens over the text, and tokens may be dropped. -/
theorem Lays.carriesLoosely {matchChild : MatchChild Stock Input ρ} (lays : Lays matchChild)
    {path : Ancestry} (rangeless : path.node.Rangeless) (place : TextCursor) (supply : Nat) :
    aligner.CarriesLoosely matchChild (Laying path place supply) where
  note frame' act _ h := ⟨h.minted, h.path_eq, h.laid⟩
  claim {frame progress} h := by
    obtain ⟨position, hcursor, hsound, hlaid⟩ := h.laid
    refine ⟨h.minted, h.path_eq, position, hcursor, hsound, ?_⟩
    simpa only [Frame.collect, Progress.claimed, Progress.pendingTokens, List.append_nil]
      using hlaid
  plain {frame progress terminal found} h empty probe notReference notSeparator := by
    obtain ⟨position, hcursor, hsound, hlaid⟩ := h.laid
    rw [hcursor] at probe
    obtain ⟨lexemes, position', rfl, _, hplain, hadvance, hsound', hpart, _⟩ :=
      Input.exists_part hsound probe notReference progress.supply progress.subtrees
    have hslot := Progress.pendingTokens_eq_nil empty
    have hslot' : (progress.draw (.spelled lexemes)).pendingTokens = [] := hslot
    refine ⟨(h.minted.grows_draw lexemes).minted, h.path_eq, position', ?_, hsound', ?_⟩
    · simp only [Frame.collect, Frame.move, hcursor, hadvance]
    · rw [hslot, List.append_nil] at hlaid
      rw [hslot', List.append_nil]
      exact hlaid.append (Laid.mint hplain hpart)
  separator {frame frame' progress terminal found} h empty probe notReference isSeparator := by
    obtain ⟨position, hcursor, hsound, hlaid⟩ := h.laid
    rw [hcursor] at probe
    obtain ⟨lexemes, position', rfl, _, hplain, hadvance, hsound', hpart, _⟩ :=
      Input.exists_part hsound probe notReference progress.supply progress.subtrees
    have hslot := Progress.pendingTokens_eq_nil empty
    refine ⟨(h.minted.grows_draw lexemes).minted, h.path_eq, position', ?_, hsound', ?_⟩
    · simp only [Frame.move, hcursor, hadvance]
    · rw [hslot, List.append_nil] at hlaid
      exact hlaid.append (Laid.mint hplain hpart)
  child {frame frame' progress terminal found reference more route node spelling after}
      h _ _ empty probe isReference tokens resolved matched := by
    obtain ⟨position, hcursor, hsound, hlaid⟩ := h.laid
    rw [← h.path_eq] at rangeless
    obtain ⟨name, rfl, rfl, rfl, rfl, _, _, hrangeless, matched⟩ :=
      matched_of_reference hcursor rangeless probe isReference tokens resolved matched
    rw [hcursor] at probe
    obtain ⟨hmatch, hover⟩ := lays (.child frame.path node route) hsound hrangeless
      (h.minted.draw_note _ _ _) empty matched
    obtain ⟨hgrows, hnew⟩ := grows_of_child spelling ⟨_, rfl⟩ h.minted probe hmatch
    have hslot := Progress.pendingTokens_eq_nil empty
    rw [hslot, List.append_nil] at hlaid
    obtain ⟨middle, hinside, hpending⟩ :=
      (hover.laid.mono (Subtrees.extends_insert hnew spelling)).split
    refine ⟨hgrows.minted, h.path_eq, spelling.extent.stop, ?_, hover.sound, ?_⟩
    · simp only [Frame.move, joined, hcursor]
      exact Input.advance_reference rfl hover.laid.before.1 hover.sound
    · have hchild : Laid _ place.text ⟨position, progress.supply⟩
          ([⟨.reference name, progress.supply⟩] ++ after.pendingTokens)
          ⟨spelling.extent.stop, after.supply⟩ :=
        .child rfl (Subtrees.get?_insert_self _ _ _)
          (hinside.since ⟨Nat.le_refl _, Nat.le_succ _⟩) hpending
      have hall := (hlaid.mono hgrows.adds.kept).append hchild
      rw [← List.append_assoc] at hall
      exact hall
  void {frame progress terminal found} h probe hempty := by
    obtain ⟨position, hcursor, hsound, hlaid⟩ := h.laid
    obtain ⟨lexemes, rfl⟩ := Input.spelled_of_probe ⟨_, hcursor⟩ probe
    have hlexemes : lexemes = [] := by
      cases lexemes with
      | nil => rfl
      | cons lexeme rest => simp [Found.tokens, Token.mint] at hempty
    subst hlexemes
    exact ⟨h.minted, h.path_eq, position, hcursor, hsound, hlaid⟩
  drop {frame frame' progress} dropped h hpath hcursor htokens := by
    obtain ⟨position, hcursor', hsound, hlaid⟩ := h.laid
    rw [htokens] at hlaid
    exact ⟨h.minted, hpath.trans h.path_eq, position, hcursor.trans hcursor', hsound,
      hlaid.leaveOut⟩

/-- Every level of a match with a grammar that echoes lays tokens over the text, with gaps. -/
theorem lays_matchNode (echoes : aligner.grammar.Echoes) (levels : Nat) :
    Lays (aligner.matchNode levels) := by
  induction levels with
  | zero =>
      intro path place progress after spelling _ _ _ _ h
      simp [matchNode, fail] at h
  | succ levels ih =>
      intro path place progress after spelling sound rangeless minted empty h
      have hattempt := attempt_of_matchNode ⟨place, rfl⟩ h
      have hslot := Progress.pendingTokens_eq_nil empty
      have hopening : Laying path place progress.supply
          (aligner.opening path (.text place)) progress := by
        refine ⟨minted, rfl, place.position, rfl, sound, ?_⟩
        rw [hslot]
        exact .nil (.refl _)
      obtain ⟨last, state, hlast, rfl, rfl⟩ :=
        (ih.carriesLoosely rangeless place progress.supply).attempt echoes hopening hattempt
      refine ⟨grows_of_matchNode ⟨place, rfl⟩ minted h, ?_⟩
      obtain ⟨position, hcursor, hsound, hlaid⟩ := hlast.laid
      have hextent := extent_spellingOf hcursor
      refine ⟨?_, ?_, ?_⟩
      · rw [hextent]
      · rw [hextent]
        exact hsound
      · rw [hextent]
        exact hlaid

/-- A whole match with a grammar that echoes lays the tokens of the root over the text, with
gaps. What is left in the slot at the end is laid behind them. -/
theorem laid_of_run (echoes : aligner.grammar.Echoes) {root : Node Token}
    (rangeless : root.Rangeless) {place : TextCursor} (sound : place.Sound) {supply : Nat}
    {alignment : Alignment}
    (h : (aligner.run root (Input.text place) supply).1 = .ok alignment) :
    alignment.root.extent = ⟨.text, place.position, alignment.root.extent.stop⟩ ∧
      ({ place with position := alignment.root.extent.stop } : TextCursor).Sound ∧
      ∃ last, Laid alignment.subtrees place.text ⟨place.position, supply⟩ alignment.root.tokens
        ⟨alignment.root.extent.stop, last⟩ := by
  obtain ⟨spelling, after, hmatch, rfl, _⟩ := run_eq_ok h
  obtain ⟨_, hover⟩ := lays_matchNode echoes _ (.root root) sound rangeless
    (Progress.minted_start supply) rfl hmatch
  exact ⟨hover.extent, hover.sound, after.supply, hover.laid⟩

end Aligner

end TreeAlign
