import TreeAlign.Proofs.Matching.Keeping
import TreeAlign.Proofs.Spelling.Expansion

/-!
# Identities in a match on flat text

On flat text every token is new: its identity is the next of the supply. A
child is therefore never stored under an identity that is already there,
and the store of a later state leads wherever the store of an earlier one
led. The journal only grows.
-/

namespace TreeAlign

namespace Input

/-- The cursor reads flat text. -/
def IsText (cursor : Input) : Prop :=
  ∃ place, cursor = .text place

/-- What is found in flat text has just been spelled. -/
theorem spelled_of_probe {τ : Type} [Terminal τ] {cursor : Input} {terminal : τ} {found : Found}
    (h : cursor.IsText) (hprobe : Reads.probe cursor terminal = some found) :
    ∃ lexemes, found = .spelled lexemes := by
  obtain ⟨place, rfl⟩ := h
  have hmap : (place.probe terminal).map Found.spelled = some found := hprobe
  obtain ⟨lexemes, _, rfl⟩ := Option.map_eq_some_iff.mp hmap
  exact ⟨lexemes, rfl⟩

theorem IsText.advance {cursor : Input} (h : cursor.IsText) (tokens : List Token)
    (subtrees : Subtrees) : (Cursor.advance tokens subtrees cursor).IsText := by
  obtain ⟨place, rfl⟩ := h
  exact ⟨place.advance tokens subtrees, rfl⟩

theorem noFallback_of_isText {cursor : Input} (h : cursor.IsText) :
    ∃ cause, Cursor.fallback cursor = .error cause := by
  obtain ⟨place, rfl⟩ := h
  exact ⟨_, rfl⟩

end Input

namespace Progress

variable {τ ρ : Type}

/-- Every identity in the store has been handed out. -/
def Minted {σ : Type} (progress : Progress τ σ ρ) : Prop :=
  progress.subtrees.Below progress.supply

/-- A match begins with an empty store. -/
theorem minted_start {σ : Type} (supply : Nat) : ({ supply } : Progress τ σ ρ).Minted :=
  Subtrees.below_empty supply

/-- A later state of a match in which no stored child is ever replaced. -/
structure Grows {σ : Type} (before after : Progress τ σ ρ) : Prop where
  minted : after.Minted
  adds : before.subtrees.Adds after.subtrees before.supply
  noted : before.journal <:+ after.journal
  supply : before.supply ≤ after.supply

variable {σ : Type}

theorem Grows.refl {progress : Progress τ σ ρ} (h : progress.Minted) : progress.Grows progress :=
  ⟨h, .refl _ _, List.suffix_rfl, Nat.le_refl _⟩

theorem Grows.trans {first second third : Progress τ σ ρ} (h : first.Grows second)
    (h' : second.Grows third) : first.Grows third where
  minted := h'.minted
  adds := h.adds.trans h'.adds h.supply
  noted := h.noted.trans h'.noted
  supply := Nat.le_trans h.supply h'.supply

theorem Minted.grows_draw {progress : Progress τ σ ρ} (h : progress.Minted)
    (lexemes : List Lexeme) : progress.Grows (progress.draw (.spelled lexemes)) where
  minted := h.mono (Nat.le_add_right _ _)
  adds := .refl _ _
  noted := List.suffix_rfl
  supply := Nat.le_add_right _ _

theorem Minted.draw_note {progress : Progress τ σ ρ} (h : progress.Minted)
    (lexemes : List Lexeme) (frame : Frame σ ρ) (act : Act τ) :
    ((progress.draw (.spelled lexemes)).note frame act).Minted :=
  (h.grows_draw lexemes).minted

/-- A child may be stored under an identity that was handed out and is not in the store yet. -/
theorem Grows.record {before after : Progress τ σ ρ} (h : before.Grows after) {reference : Token}
    (hnew : after.subtrees.get? reference = none) (hlow : before.supply ≤ reference.id)
    (hhigh : reference.id < after.supply) (spelling : Spelling) :
    before.Grows (after.record reference spelling) where
  minted := h.minted.insert hhigh spelling
  adds := h.adds.insert hnew hlow spelling
  noted := h.noted
  supply := h.supply

/-- What is stored after a draw is not stored under the identity that was drawn first. -/
theorem Minted.get?_eq_none {progress after : Progress τ σ ρ} (h : progress.Minted)
    {lexeme : Lexeme} {rest : List Lexeme}
    (grows : (progress.draw (.spelled (lexeme :: rest))).Grows after) :
    after.subtrees.get? ⟨lexeme, progress.supply⟩ = none := by
  have hle : progress.supply + 1 ≤ (progress.draw (.spelled (lexeme :: rest))).supply := by
    simp only [Progress.draw, Found.supplyAfter, List.length_cons]
    omega
  exact (grows.adds.since hle).get?_eq_none h

end Progress

namespace Aligner

variable {τ ρ : Type} [Terminal τ]

/-- Where everything that is found is new, every move of a match leads to a later state of this
kind. -/
theorem kept_grows_of {within : Input → Prop}
    (spelled : ∀ {cursor} {terminal : τ} {found}, within cursor →
      Reads.probe cursor terminal = some found → ∃ lexemes, found = .spelled lexemes)
    (advance : ∀ {tokens subtrees cursor}, within cursor →
      within (Cursor.advance tokens subtrees cursor))
    (forChild : ∀ {child cursor}, within cursor → within (Cursor.forChild child cursor))
    (fallback : ∀ {cursor next}, within cursor → Cursor.fallback cursor = .ok next →
      within next) :
    Kept within fun before after : Progress τ Input ρ => before.Minted → before.Grows after where
  refl _ h := .refl h
  trans h h' hm := (h hm).trans (h' (h hm).minted)
  note progress frame act hm := ⟨hm, .refl _ _, List.suffix_cons _ _, Nat.le_refl _⟩
  claim progress hm := ⟨hm, .refl _ _, List.suffix_rfl, Nat.le_refl _⟩
  defer progress tokens terminal hm := ⟨hm, .refl _ _, List.suffix_rfl, Nat.le_refl _⟩
  draw hcursor hprobe hm := by
    obtain ⟨lexemes, rfl⟩ := spelled hcursor hprobe
    exact hm.grows_draw lexemes
  record {progress cursor terminal found reference more spelling after}
      hcursor hprobe htokens hafter hm := by
    obtain ⟨lexemes, rfl⟩ := spelled hcursor hprobe
    obtain ⟨lexeme, rest, rfl⟩ : ∃ lexeme rest, lexemes = lexeme :: rest := by
      cases lexemes with
      | nil => simp [Found.tokens, Token.mint] at htokens
      | cons lexeme rest => exact ⟨lexeme, rest, rfl⟩
    simp only [Found.tokens, Token.mint, List.cons.injEq] at htokens
    obtain ⟨rfl, _⟩ := htokens
    have hdraw := hm.grows_draw (lexeme :: rest)
    have hgrows := hafter hdraw.minted
    have hsupply : progress.supply < after.supply := by
      have := hgrows.supply
      simp only [Progress.draw, Found.supplyAfter, List.length_cons] at this
      omega
    exact (hdraw.trans hgrows).record (hm.get?_eq_none hgrows) (Nat.le_refl _) hsupply spelling
  advance h := advance h
  forChild h := forChild h
  fallback h hnext := fallback h hnext

/-- Every move of a match on flat text leads to a later state of this kind. -/
theorem kept_grows : Kept Input.IsText
    fun before after : Progress τ Input ρ => before.Minted → before.Grows after := by
  apply kept_grows_of
  · exact Input.spelled_of_probe
  · exact fun h => h.advance _ _
  · rintro child _ ⟨place, rfl⟩
    exact ⟨place.forChild child, rfl⟩
  · intro cursor next h hnext
    obtain ⟨cause, hcause⟩ := Input.noFallback_of_isText h
    rw [hcause] at hnext
    exact absurd hnext (by simp)

/-- A match of a node on flat text leads to a later state, and nothing that was stored is
replaced. -/
theorem grows_of_matchNode {aligner : Aligner τ ρ} {levels : Nat} {path : Ancestry}
    {cursor : Input} {progress after : Progress τ Input ρ} {spelling : Spelling}
    (hcursor : cursor.IsText) (hm : progress.Minted)
    (h : aligner.matchNode levels path cursor progress = .done spelling after) :
    progress.Grows after := by
  have hkeeps : (aligner.matchNode levels path cursor progress).Keeps _ progress _ :=
    kept_grows.matchNode levels path progress hcursor
  rw [h] at hkeeps
  exact hkeeps.1 hm

theorem grows_of_sequence {aligner : Aligner τ ρ} {levels : Nat} {terminals : List τ}
    {frame last : Frame Input ρ} {progress after : Progress τ Input ρ} {outcome : Outcome}
    (hcursor : frame.cursor.IsText) (hm : progress.Minted)
    (h : aligner.sequence (aligner.matchNode levels) terminals frame progress =
      .done (outcome, last) after) : progress.Grows after ∧ last.cursor.IsText := by
  have hkeeps : (aligner.sequence (aligner.matchNode levels) terminals frame progress).Keeps _
      progress _ :=
    kept_grows.sequence (fun path _ progress h => kept_grows.matchNode levels path progress h)
      terminals frame progress hcursor
  rw [h] at hkeeps
  exact ⟨hkeeps.1 hm, hkeeps.2⟩

theorem grows_of_drive {aligner : Aligner τ ρ} {levels start : Nat} {procedure : Procedure τ}
    {frame : Frame Input ρ} {progress after : Progress τ Input ρ} {result : Attempt Input}
    (hcursor : frame.cursor.IsText) (hm : progress.Minted)
    (h : aligner.drive (aligner.matchNode levels) start procedure frame progress =
      .done result after) : progress.Grows after := by
  have hkeeps : (aligner.drive (aligner.matchNode levels) start procedure frame progress).Keeps _
      progress _ :=
    kept_grows.drive (fun path _ progress h => kept_grows.matchNode levels path progress h)
      start procedure progress hcursor
  rw [h] at hkeeps
  exact hkeeps.1 hm

/-- On flat text a node is matched by its first attempt. -/
theorem attempt_of_matchNode {aligner : Aligner τ ρ} {levels : Nat} {path : Ancestry}
    {cursor : Input} {progress after : Progress τ Input ρ} {spelling : Spelling}
    (hcursor : cursor.IsText)
    (h : aligner.matchNode (levels + 1) path cursor progress = .done spelling after) :
    aligner.attempt (aligner.matchNode levels) path cursor progress =
      .done (.spelled spelling) after :=
  kept_grows.attempt_of_matchNode (fun _ => Input.noFallback_of_isText) hcursor h

end Aligner

end TreeAlign
