import TreeAlign.Proofs.Matching.Probing
import TreeAlign.Proofs.Matching.Recording

/-!
# Nodes that are read from the text after all

A match on attached tokens goes on in the text when a required token is
missing, and then all descendants are read from the text too. Of such a node
it is shown that its tokens have an expansion, which is the same in the store
and in what the children were read from, and that nothing but plain tokens is
left in the slot. Where in the text it is read does not matter, so ranges are
allowed.

The identities of the attached tokens come from the outside, so an identity
from the supply need not be new. The store grows as long as the journal tells
of no identity twice.
-/

namespace TreeAlign

variable {ρ : Type}

namespace Input

/-- Only a text is ever fallen back to. -/
theorem isText_of_fallback {cursor next : Input} (h : Cursor.fallback cursor = .ok next) :
    next.IsText := by
  cases cursor with
  | tokens reading =>
      have hmap : reading.fallback.map Input.text = .ok next := h
      cases hfall : reading.fallback with
      | error cause => simp [hfall, Except.map] at hmap
      | ok place =>
          rw [hfall] at hmap
          cases hmap
          exact ⟨place, rfl⟩
  | text place => cases h
  | synthetic => cases h

end Input

/-- The tokens have the same leaves in the store and in what the children were read from. -/
structure Progress.ExpandsAlike (progress : Progress Stock Input ρ) (tokens leaves : List Token) :
    Prop where
  expands : progress.subtrees.Expands tokens leaves
  source : progress.source.Expands tokens leaves

namespace Progress.ExpandsAlike

variable {before after progress : Progress Stock Input ρ} {tokens leaves inner outer : List Token}

theorem of_plain (plain : Token.Plain tokens) : progress.ExpandsAlike tokens tokens :=
  ⟨.of_plain plain, .of_plain plain⟩

theorem append {left right : List Token} (hl : progress.ExpandsAlike left inner)
    (hr : progress.ExpandsAlike right outer) :
    progress.ExpandsAlike (left ++ right) (inner ++ outer) :=
  ⟨hl.expands.append hr.expands, hl.source.append hr.source⟩

theorem mono (h : before.ExpandsAlike tokens leaves) (later : before.Later after)
    (booked : before.Booked) (once : after.RecordsOnce) : after.ExpandsAlike tokens leaves :=
  ⟨h.expands.mono (later.kept once), h.source.mono (later.source_extends booked once)⟩

/-- A reference to a child that was read from a text. -/
theorem reference {reference : Token} {spelling : Spelling}
    (isReference : reference.isReference = true)
    (stored : progress.subtrees.get? reference = some spelling)
    (medium : spelling.extent.medium = .text)
    (inside : progress.ExpandsAlike spelling.tokens inner) :
    progress.ExpandsAlike [reference] inner := by
  have hexpands : progress.subtrees.Expands [reference] (inner ++ []) :=
    .child isReference stored inside.expands .nil
  have hinside := inside.source
  rw [← Receipt.source_of_text medium (progress.receipt reference.id)] at hinside
  have hsource : progress.source.Expands [reference] (inner ++ []) :=
    .child isReference (get?_source stored) hinside .nil
  rw [List.append_nil] at hexpands hsource
  exact ⟨hexpands, hsource⟩

end Progress.ExpandsAlike

/-- What a match of a node on a text has left behind. -/
structure Fallen (before : Progress Stock Input ρ) (spelling : Spelling)
    (after : Progress Stock Input ρ) : Prop where
  medium : spelling.extent.medium = .text
  later : before.Later after
  plain : Token.Plain after.pendingTokens
  expands : after.RecordsOnce → ∃ leaves, after.ExpandsAlike spelling.tokens leaves

/-- A frame and a state in the middle of reading a node from a text. -/
structure Falling (before : Progress Stock Input ρ) (frame : Frame Input ρ)
    (progress : Progress Stock Input ρ) : Prop where
  isText : frame.cursor.IsText
  later : before.Later progress
  plain : Token.Plain progress.pendingTokens
  expands : progress.RecordsOnce → ∃ leaves, progress.ExpandsAlike frame.tokens leaves

namespace Falling

variable {before progress after : Progress Stock Input ρ} {frame : Frame Input ρ}

theorem expands_later (h : Falling before frame progress) (later : progress.Later after)
    (once : after.RecordsOnce) : ∃ leaves, after.ExpandsAlike frame.tokens leaves := by
  obtain ⟨leaves, hexpands⟩ := h.expands (once.earlier later.noted)
  exact ⟨leaves, hexpands.mono later h.later.booked once⟩

end Falling

namespace Aligner

variable {aligner : Aligner Stock ρ} {matchChild : MatchChild Stock Input ρ}

/-- A way to match nodes on a text, whatever is in the store. -/
def FallsBack (matchChild : MatchChild Stock Input ρ) : Prop :=
  ∀ (path : Ancestry) {cursor : Input} {progress after : Progress Stock Input ρ}
    {spelling : Spelling}, cursor.IsText → progress.Booked → progress.pending = none →
    matchChild path cursor progress = .done spelling after → Fallen progress spelling after

namespace FallsBack

variable (falls : FallsBack matchChild)

include falls

/-- Every step of an attempt on a text keeps the tokens expandable. -/
theorem carries (before : Progress Stock Input ρ) :
    aligner.Carries matchChild (Falling before) where
  note frame' act _ h := by
    have hnote := h.later.booked.later_note frame' act
    exact ⟨h.isText, h.later.trans hnote, h.plain, h.expands_later hnote⟩
  claim {frame progress} h := by
    have hclaim := h.later.booked.later (.claim progress)
    refine ⟨h.isText, h.later.trans hclaim, Token.plain_nil, ?_⟩
    intro once
    obtain ⟨leaves, hexpands⟩ := h.expands_later hclaim once
    exact ⟨leaves ++ progress.pendingTokens, hexpands.append (.of_plain h.plain)⟩
  plain {frame progress terminal found} h empty probe notReference _ := by
    have hplain := Input.plain_of_probe probe notReference progress.supply
    have hdraw := h.later.booked.later (.draw progress found)
    refine ⟨h.isText.advance _ _, h.later.trans hdraw, h.plain, ?_⟩
    intro once
    obtain ⟨leaves, hexpands⟩ := h.expands_later hdraw once
    exact ⟨_, hexpands.append (.of_plain hplain)⟩
  separator {frame frame' progress terminal found} h empty probe notReference _ := by
    have hplain := Input.plain_of_probe probe notReference progress.supply
    have hdraw := h.later.booked.later (.draw progress found)
    have hdefer := hdraw.trans
      (hdraw.booked.later_defer frame' (found.tokens progress.supply) terminal)
    exact ⟨h.isText.advance _ _, h.later.trans hdefer, hplain, h.expands_later hdefer⟩
  child {frame frame' progress terminal found reference more route node spelling after}
      h _ _ empty probe isReference tokens resolved matched := by
    obtain ⟨place, hcursor⟩ := h.isText
    rw [hcursor] at probe matched
    obtain ⟨name, rfl, rfl, rfl, rfl⟩ := Input.exists_reference probe isReference tokens
    have hdraw := h.later.booked.later (.draw progress (.spelled [Lexeme.reference name]))
    have henter := hdraw.trans (hdraw.booked.later_note frame'
      (.descend ⟨.reference name, progress.supply⟩ route))
    have hfallen := falls _ ⟨place.forChild node, rfl⟩ henter.booked empty matched
    have hafter := henter.trans hfallen.later
    have hrecord := hafter.booked.later_record frame' ⟨.reference name, progress.supply⟩ spelling
    refine ⟨h.isText.advance _ _, h.later.trans (hafter.trans hrecord), hfallen.plain, ?_⟩
    intro once
    obtain ⟨leaves, hexpands⟩ := h.expands_later (hafter.trans hrecord) once
    obtain ⟨inner, hinner⟩ := hfallen.expands (once.earlier hrecord.noted)
    exact ⟨leaves ++ inner, hexpands.append (.reference rfl (Subtrees.get?_insert_self _ _ _)
      hfallen.medium (hinner.mono hrecord hafter.booked once))⟩

/-- An attempt on a text. -/
theorem attempt (takes : aligner.grammar.TakesOnly) {path : Ancestry} {cursor : Input}
    {progress after : Progress Stock Input ρ} {spelling : Spelling} (isText : cursor.IsText)
    (booked : progress.Booked) (empty : progress.pending = none)
    (h : aligner.attempt matchChild path cursor progress = .done (.spelled spelling) after) :
    Fallen progress spelling after := by
  have hslot := Progress.pendingTokens_eq_nil empty
  have hplain : Token.Plain progress.pendingTokens := by
    rw [hslot]
    exact Token.plain_nil
  have hopening : Falling progress (aligner.opening path cursor) progress :=
    ⟨isText, .refl booked, hplain, fun _ => ⟨[], .of_plain Token.plain_nil⟩⟩
  obtain ⟨last, state, hlast, rfl, rfl⟩ := (falls.carries progress).attempt takes hopening h
  have hfinish := hlast.later.booked.later_note last
    (.finish (spellingOf (Cursor.position cursor) last))
  refine ⟨?_, hlast.later.trans hfinish, hlast.plain, hlast.expands_later hfinish⟩
  obtain ⟨place, hcursor⟩ := hlast.isText
  simp only [spellingOf, hcursor]
  rfl

end FallsBack

/-- On a text every level of a match reads nodes like that. -/
theorem fallsBack_matchNode (takes : aligner.grammar.TakesOnly) (levels : Nat) :
    FallsBack (aligner.matchNode levels) := by
  induction levels with
  | zero =>
      intro path cursor progress after spelling _ _ _ h
      simp [matchNode, fail] at h
  | succ levels ih =>
      intro path cursor progress after spelling isText booked empty h
      exact ih.attempt takes isText booked empty (attempt_of_matchNode isText h)

/-- A node that is begun again on a text is read from it. -/
theorem fallen_of_restart (takes : aligner.grammar.TakesOnly) {levels left : Nat} {path : Ancestry}
    {cursor : Input} {progress after : Progress Stock Input ρ} {spelling : Spelling}
    (isText : cursor.IsText) (booked : progress.Booked) (empty : progress.pending = none)
    (h : aligner.restart (aligner.matchNode levels) path left cursor progress =
      .done spelling after) : Fallen progress spelling after := by
  have hattempt := kept_grows.attempt_of_restart
    (fun path _ progress h => kept_grows.matchNode levels path progress h)
    (fun _ => Input.noFallback_of_isText) isText h
  exact (fallsBack_matchNode takes levels).attempt takes isText booked empty hattempt

end Aligner

end TreeAlign
