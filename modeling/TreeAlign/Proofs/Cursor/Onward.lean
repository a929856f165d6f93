import TreeAlign.Proofs.Matching.Probing
import TreeAlign.Proofs.Ranged

/-!
# Cursors stay within their input and never go back

A cursor is safe when it stands inside its input: on a text between two
character boundaries, in attached tokens not behind the last of them. It is
moved past what a terminal finds, or past a child, and then it stays safe,
reads the same input, and stands no further to the front. Where it lies on a
text, the way back to any earlier position is a part of that text.

An extent is safe when it does not end before it starts and, if it was found
in a text, both ends are character boundaries there.
-/

namespace TreeAlign

namespace Input

/-- The text that a match with the cursor can read, or go on in. -/
def text? : Input → Option (List Char)
  | .text place => some place.text
  | .tokens reading => reading.text
  | .synthetic => none

/-- A cursor at the beginning of an input: of a text or a part of it, of the tokens attached to a
node, with or without a text to fall back to, or of no input at all. -/
inductive Opens : Input → Prop where
  | text {text : List Char} {place : TextCursor} (opens : place.Opens text) : Opens (.text place)
  | attached (node : Node Token) : Opens (.tokens (.ofNode node))
  | backed (node : Node Token) (text : List Char) :
      Opens (.tokens ((TokenCursor.ofNode node).withText text))
  | synthetic : Opens .synthetic

/-- The cursor stands within its input. On a text it is not behind its end, its end is not behind
the end of the text, and what is left to read are the whole characters between the two. -/
def Safe : Input → Prop
  | .text place => place.position ≤ place.stop ∧ place.stop ≤ Text.byteLength place.text ∧
      Text.Between place.text place.position place.stop place.remaining
  | .tokens reading => reading.index ≤ reading.tokens.length
  | .synthetic => True

/-- The second cursor reads the same input as the first, and stands no further to the front. -/
inductive Onward : Input → Input → Prop where
  | text {place : TextCursor} {position : Nat} (le : place.position ≤ position) :
      Onward (.text place) (.text { place with position })
  | tokens {reading : TokenCursor} {index offset : Nat} (index_le : reading.index ≤ index)
      (le : reading.offset ≤ offset) :
      Onward (.tokens reading) (.tokens { reading with index, offset })
  | synthetic : Onward .synthetic .synthetic

variable {cursor : Input}

theorem safe_text_iff {place : TextCursor} : (Input.text place).Safe ↔ place.Sound := by
  constructor
  · intro h
    exact ⟨_, h.2.2⟩
  · intro h
    have hrest := TextCursor.between_remaining h
    exact ⟨hrest.start_le, hrest.stop_le, hrest⟩

namespace Opens

theorem safe (h : cursor.Opens) : cursor.Safe := by
  cases h with
  | text opens => exact safe_text_iff.mpr opens.sound
  | attached node => exact Nat.zero_le _
  | backed node text => exact Nat.zero_le _
  | synthetic => trivial

end Opens

namespace Onward

variable {first second third : Input}

theorem refl (cursor : Input) : cursor.Onward cursor := by
  cases cursor with
  | text place => exact .text (Nat.le_refl _)
  | tokens reading => exact .tokens (Nat.le_refl _) (Nat.le_refl _)
  | synthetic => exact .synthetic

theorem trans (h : first.Onward second) (h' : second.Onward third) : first.Onward third := by
  cases h with
  | text le =>
      cases h' with
      | text le' => exact .text (Nat.le_trans le le')
  | tokens index_le le =>
      cases h' with
      | tokens index_le' le' =>
          exact .tokens (Nat.le_trans index_le index_le') (Nat.le_trans le le')
  | synthetic => exact h'

theorem position_le (h : first.Onward second) :
    Cursor.position first ≤ Cursor.position second := by
  cases h with
  | text le => exact le
  | tokens _ le => exact le
  | synthetic => exact Nat.le_refl _

theorem medium_eq (h : first.Onward second) : Cursor.medium second = Cursor.medium first := by
  cases h <;> rfl

theorem text?_eq (h : first.Onward second) : second.text? = first.text? := by
  cases h <;> rfl

end Onward

end Input

/-- The extent does not end before it starts. If it was found in a text, there is a text, and both
ends are character boundaries of it. -/
def Extent.Safe (text? : Option (List Char)) (extent : Extent) : Prop :=
  extent.start ≤ extent.stop ∧
    (extent.medium = .text →
      ∃ text part, text? = some text ∧ Text.Between text extent.start extent.stop part)

namespace Input

variable {cursor next : Input}

/-- The extent from a position of the cursor to where it stands now. -/
def extentFrom (start : Nat) (cursor : Input) : Extent :=
  ⟨Cursor.medium cursor, start, Cursor.position cursor⟩

/-- Nothing has been read where a safe cursor begins. -/
theorem Safe.extentFrom (safe : cursor.Safe) :
    (cursor.extentFrom (Cursor.position cursor)).Safe cursor.text? := by
  refine ⟨Nat.le_refl _, ?_⟩
  intro hmedium
  cases cursor with
  | text place => exact ⟨place.text, [], rfl, safe.2.2.nil⟩
  | tokens reading => cases hmedium
  | synthetic => cases hmedium

/-- An extent stays safe while its cursor goes on. -/
theorem Onward.extentFrom {start : Nat} (h : cursor.Onward next) (safe : next.Safe)
    (extent : (cursor.extentFrom start).Safe cursor.text?) :
    (next.extentFrom start).Safe next.text? := by
  refine ⟨Nat.le_trans extent.1 h.position_le, ?_⟩
  intro hmedium
  cases h with
  | @text place position le =>
      obtain ⟨text, part, htext, hpart⟩ := extent.2 rfl
      obtain rfl : place.text = text := Option.some.inj htext
      obtain ⟨whole, hwhole⟩ :=
        Text.exists_between hpart.nil safe.2.2.nil (Nat.le_trans extent.1 le)
      exact ⟨place.text, whole, rfl, hwhole⟩
  | tokens _ _ => cases hmedium
  | synthetic => cases hmedium

/-- A cursor in attached tokens may be moved past anything. -/
theorem advance_tokens (reading : TokenCursor) (safe : (Input.tokens reading).Safe)
    (tokens : List Token) (subtrees : Subtrees) :
    (Cursor.advance tokens subtrees (Input.tokens reading)).Safe ∧
      (Input.tokens reading).Onward (Cursor.advance tokens subtrees (Input.tokens reading)) := by
  have hindex : reading.index ≤ min (reading.index + tokens.length) reading.tokens.length :=
    Nat.le_min.mpr ⟨Nat.le_add_right _ _, safe⟩
  exact ⟨Nat.min_le_right _ _, .tokens hindex (Nat.le_add_right _ _)⟩

/-- A cursor that is moved past what a terminal found stays safe and goes on. -/
theorem advance_found (safe : cursor.Safe) {terminal : Stock} {found : Found}
    (probe : Reads.probe cursor terminal = some found)
    (notReference : Terminal.isReference terminal = false) (supply : Nat) (subtrees : Subtrees) :
    (Cursor.advance (found.tokens supply) subtrees cursor).Safe ∧
      cursor.Onward (Cursor.advance (found.tokens supply) subtrees cursor) := by
  cases cursor with
  | text place =>
      obtain ⟨_, position, _, _, _, hadvance, hsound, hpart, _⟩ :=
        exists_part (safe_text_iff.mp safe) probe notReference supply subtrees
      rw [hadvance]
      exact ⟨safe_text_iff.mpr hsound, .text hpart.start_le⟩
  | tokens reading => exact advance_tokens reading safe _ _
  | synthetic => exact ⟨trivial, .synthetic⟩

/-- A cursor that is moved past a child stays safe and goes on, wherever the child was found. Only
on a text the child must have been found in a text too. -/
theorem advance_child (safe : cursor.Safe) {reference : Token} {spelling : Spelling}
    (isReference : reference.isReference = true) (extent : spelling.extent.Safe cursor.text?)
    (isText : cursor.IsText → spelling.extent.medium = .text) (subtrees : Subtrees) :
    (Cursor.advance [reference] (subtrees.insert reference spelling) cursor).Safe ∧
      cursor.Onward (Cursor.advance [reference] (subtrees.insert reference spelling) cursor) := by
  cases cursor with
  | text place =>
      have hsound := safe_text_iff.mp safe
      obtain ⟨text, part, htext, hpart⟩ := extent.2 (isText ⟨place, rfl⟩)
      obtain rfl : place.text = text := Option.some.inj htext
      have hadvance : Cursor.advance [reference] (subtrees.insert reference spelling)
          (Input.text place) = .text { place with position := place.resume spelling.extent.stop } :=
        congrArg Input.text (TextCursor.advance_child isReference)
      have hle : place.position ≤ place.resume spelling.extent.stop :=
        Nat.le_min.mpr ⟨Nat.le_max_right _ _, safe.1⟩
      rw [hadvance]
      exact ⟨safe_text_iff.mpr (TextCursor.sound_resume hsound hpart.nil_stop), .text hle⟩
  | tokens reading => exact advance_tokens reading safe _ _
  | synthetic => exact ⟨trivial, .synthetic⟩

/-- The cursor for a child is safe, and the match reads the same text. -/
theorem forChild_safe (safe : cursor.Safe) (child : Node Token) :
    (Cursor.forChild child cursor).Safe ∧ (Cursor.forChild child cursor).text? = cursor.text? := by
  cases cursor with
  | text place =>
      have hsound := TextCursor.sound_forChild child (safe_text_iff.mp safe)
      exact ⟨safe_text_iff.mpr hsound, congrArg some (TextCursor.text_forChild child)⟩
  | tokens reading => exact ⟨Nat.zero_le _, rfl⟩
  | synthetic => exact ⟨trivial, rfl⟩

theorem IsText.forChild (h : cursor.IsText) (child : Node Token) :
    (Cursor.forChild child cursor).IsText := by
  obtain ⟨place, rfl⟩ := h
  exact ⟨place.forChild child, rfl⟩

theorem Onward.isText (h : cursor.Onward next) (isText : cursor.IsText) : next.IsText := by
  obtain ⟨place, rfl⟩ := isText
  cases h with
  | text _ => exact ⟨_, rfl⟩

theorem IsText.medium_eq (h : cursor.IsText) : Cursor.medium cursor = .text := by
  obtain ⟨place, rfl⟩ := h
  rfl

/-- The text that a cursor falls back to is read safely. -/
theorem fallback_safe (h : Cursor.fallback cursor = .ok next) :
    next.Safe ∧ next.text? = cursor.text? := by
  cases cursor with
  | text place => cases h
  | synthetic => cases h
  | tokens reading =>
      have hmap : reading.fallback.map Input.text = .ok next := h
      rw [TokenCursor.fallback] at hmap
      cases htext : reading.text with
      | none => simp [htext, Except.map] at hmap
      | some text =>
          cases hrange : reading.range with
          | none => simp [htext, hrange, Except.map] at hmap
          | some range =>
              simp only [htext, hrange] at hmap
              cases hmap
              exact ⟨safe_text_iff.mpr (TextCursor.sound_within text range), htext.symm⟩

end Input

end TreeAlign
