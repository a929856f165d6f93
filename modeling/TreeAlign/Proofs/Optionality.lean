import TreeAlign.Proofs.Cursor.Onward
import TreeAlign.Proofs.Matching.Coincidence

/-!
# What an optional terminal does

An optional terminal is meant to find what the terminal inside finds, and to
be passed over where that one is missing. This is so for every terminal that
is no reference, however many optional layers there are: on a text and on
attached tokens it finds the same or is passed over, and without input it is
always passed over.

An optional reference is still a reference, and a match that looks for one
needs a token to descend from. The optional layer spells no such token, so on
a text and without input the reference is always missing, whether or not the
plain one would lead to a child. On attached tokens the optional layer makes
no difference: the reference is missing where the plain one is.
-/

namespace TreeAlign

variable {τ σ ρ : Type}

namespace Run

/-- The run ends with the outcome and has read nothing. It has claimed the tokens in the slot, and
neither the cursor nor the stored children nor the supply has changed. -/
def Idles (outcome : Outcome) (frame : Frame σ ρ) (progress : Progress τ σ ρ) :
    Run τ σ ρ (Outcome × Frame σ ρ) → Prop
  | .done result after =>
    result = (outcome, frame.collect progress.pendingTokens) ∧ progress.claimed.Coincides after
  | .failed _ _ => False

/-- Runs that coincide and never part end alike. -/
theorem Coincide.exists_done {α : Type} {run run' : Run τ σ ρ α} {value : α}
    {after : Progress τ σ ρ} (h : run.Coincide (fun _ => False) Eq run')
    (hrun : run = .done value after) :
    ∃ after', run' = .done value after' ∧ after.Coincides after' := by
  cases h with
  | @done found found' last last' values states =>
      subst values
      cases hrun
      exact ⟨last', rfl, states⟩
  | failed => cases hrun
  | parted away => exact absurd away Progress.not_parted_never

/-- Runs that have read nothing and have the same outcome coincide. -/
theorem Idles.coincide {outcome : Outcome} {frame : Frame σ ρ} {progress : Progress τ σ ρ}
    {run run' : Run τ σ ρ (Outcome × Frame σ ρ)} (h : run.Idles outcome frame progress)
    (h' : run'.Idles outcome frame progress) : run.Coincide (fun _ => False) Eq run' := by
  cases run with
  | failed failure after => exact h.elim
  | done result after =>
      cases run' with
      | failed failure after' => exact h'.elim
      | done result' after' =>
          obtain ⟨rfl, hafter⟩ := h
          obtain ⟨rfl, hafter'⟩ := h'
          exact .done rfl (hafter.symm.trans hafter')

/-- The second run does what the first one does where that finds its terminals. Where that misses
one, the second run goes on and has read nothing. -/
inductive Relaxes (frame : Frame σ ρ) (progress : Progress τ σ ρ) :
    Run τ σ ρ (Outcome × Frame σ ρ) → Run τ σ ρ (Outcome × Frame σ ρ) → Prop where
  | matched {last : Frame σ ρ} {after after' : Progress τ σ ρ} (states : after.Coincides after') :
      Relaxes frame progress (.done (.matched, last) after) (.done (.matched, last) after')
  | missed {name : String} {last : Frame σ ρ} {after : Progress τ σ ρ}
      {run : Run τ σ ρ (Outcome × Frame σ ρ)} (idles : run.Idles .matched frame progress) :
      Relaxes frame progress (.done (.missed name, last) after) run

end Run

namespace Input

/-- A cursor that is moved past nothing stays where it is. -/
theorem Safe.advance_nil {cursor : Input} (safe : cursor.Safe) (subtrees : Subtrees) :
    Cursor.advance [] subtrees cursor = cursor := by
  cases cursor with
  | text place => rfl
  | tokens reading =>
      have hindex : min (reading.index + 0) reading.tokens.length = reading.index :=
        Nat.min_eq_left safe
      exact congrArg (fun index => Input.tokens { reading with index }) hindex
  | synthetic => rfl

/-- No tokens, as they are found at the cursor. -/
def nothing : Input → Found
  | .tokens _ => .stored []
  | .text _ | .synthetic => .spelled []

@[simp] theorem tokens_nothing (cursor : Input) (supply : Nat) :
    cursor.nothing.tokens supply = [] := by
  cases cursor <;> rfl

theorem draw_nothing (cursor : Input) (progress : Progress τ σ ρ) :
    progress.draw cursor.nothing = progress := by
  cases cursor <;> rfl

/-- An optional terminal finds what the one inside finds, or nothing. It is not asked where it would
be a reference in a text. -/
theorem probe_optional {cursor : Input} {inner : Stock} (reads : cursor ≠ .synthetic)
    (asked : Cursor.medium cursor = .tokens ∨ Terminal.isReference inner = false) :
    Reads.probe cursor (Stock.optional inner) =
      some ((Reads.probe cursor inner).getD cursor.nothing) := by
  cases cursor with
  | text place =>
      have hplain : Terminal.isReference inner = false := asked.resolve_left nofun
      have hwrapped : Terminal.isReference (Stock.optional inner) = false := hplain
      simp only [Reads.probe, Input.probe, TextCursor.probe, hplain, hwrapped, Bool.false_eq_true,
        if_false, nothing]
      change (some ((inner.matchText place.remaining).getD [])).map Found.spelled =
        some (((inner.matchText place.remaining).map Found.spelled).getD (.spelled []))
      cases inner.matchText place.remaining <;> rfl
  | tokens reading =>
      change (some ((inner.matchTokens reading.remaining).getD [])).map Found.stored =
        some (((inner.matchTokens reading.remaining).map Found.stored).getD (.stored []))
      cases inner.matchTokens reading.remaining <;> rfl
  | synthetic => exact absurd rfl reads

end Input

namespace Aligner

variable {aligner : Aligner Stock ρ} {matchChild : MatchChild Stock Input ρ} {inner : Stock}
  {frame : Frame Input ρ} {progress : Progress Stock Input ρ}

section

variable [Terminal τ] [Cursor σ] [Reads σ τ] {aligner : Aligner τ ρ} {matchChild : MatchChild τ σ ρ}
  {terminal : τ} {frame : Frame σ ρ} {progress : Progress τ σ ρ}

/-- Looking for one terminal that is not there. -/
theorem sequence_of_probe_none (h : Reads.probe frame.cursor terminal = none) :
    aligner.sequence matchChild [terminal] frame progress =
      .done (.missed (Terminal.describe terminal), frame.collect progress.pendingTokens)
        (progress.claimed.note (frame.collect progress.pendingTokens) (.miss terminal)) := by
  have hprobe : Reads.probe (frame.collect progress.pendingTokens).cursor terminal = none := h
  rw [sequence, find, findHere, hprobe]
  rfl

/-- Looking for one terminal that finds something. -/
theorem sequence_of_probe_some {found : Found} (h : Reads.probe frame.cursor terminal = some found) :
    aligner.sequence matchChild [terminal] frame progress =
      (aligner.takeUp matchChild terminal (found.tokens progress.supply)
        (frame.collect progress.pendingTokens) (progress.claimed.draw found)).andThen
        fun result progress =>
          .done (if result.1 then .matched else .missed (Terminal.describe terminal), result.2)
            progress := by
  have hprobe : Reads.probe (frame.collect progress.pendingTokens).cursor terminal =
      some found := h
  have hsupply : progress.claimed.supply = progress.supply := rfl
  rw [sequence, find, findHere, hprobe]
  simp only [hsupply]
  cases aligner.takeUp matchChild terminal (found.tokens progress.supply)
      (frame.collect progress.pendingTokens) (progress.claimed.draw found) with
  | failed failure after => rfl
  | done result after =>
      obtain ⟨here, last⟩ := result
      cases here <;> rfl

end

/-- Whatever was found, it makes no difference for taking it up whether the terminal is optional. -/
theorem takeUp_optional (tokens : List Token) :
    (aligner.takeUp matchChild inner tokens frame progress).Coincide (fun _ => False) Eq
      (aligner.takeUp matchChild (.optional inner) tokens frame progress) := by
  have hreference : Terminal.isReference (Stock.optional inner) = Terminal.isReference inner := rfl
  have hseparator : Terminal.isSeparator (Stock.optional inner) = Terminal.isSeparator inner := rfl
  have hsame := Progress.Coincides.refl progress
  unfold takeUp
  rw [hreference, hseparator]
  split
  · cases tokens with
    | nil => exact .done rfl (hsame.note _ _ _ _)
    | cons reference more =>
        dsimp only
        cases aligner.descend matchChild reference frame progress with
        | failed failure after => exact .failed
        | done last after => exact .done rfl ((Progress.Coincides.refl after).note _ _ _ _)
  · split
    · exact .done rfl (((hsame.note _ _ _ _).defer _ _ _).note _ _ _ _)
    · exact .done rfl (hsame.note _ _ _ _)

/-- Taking up nothing is passing over it, unless a reference is looked for. -/
theorem takeUp_nil (aligner : Aligner Stock ρ) (matchChild : MatchChild Stock Input ρ)
    {terminal : Stock} (notReference : Terminal.isReference terminal = false)
    (safe : frame.cursor.Safe) (empty : progress.pendingTokens = []) :
    ∃ after, aligner.takeUp matchChild terminal [] frame progress = .done (true, frame) after ∧
      progress.Coincides after := by
  have hmove : frame.move [] progress.subtrees = frame := by
    rw [Frame.move, safe.advance_nil]
  have hcollect : frame.collect [] = frame := by
    rw [Frame.collect, List.append_nil]
  unfold takeUp
  rw [notReference, hmove, hcollect]
  simp only [Bool.false_eq_true, if_false]
  split
  -- The slot is filled by a separator without tokens, and nothing waits in it.
  · exact ⟨_, rfl, ⟨rfl, empty.symm, rfl⟩⟩
  · exact ⟨_, rfl, (Progress.Coincides.refl progress).note_right _ _⟩

/-- A terminal that finds nothing at all, and is no reference, is passed over. -/
theorem idles_of_nothing {terminal : Stock} (safe : frame.cursor.Safe)
    (notReference : Terminal.isReference terminal = false)
    (probe : Reads.probe frame.cursor terminal = some frame.cursor.nothing) :
    (aligner.sequence matchChild [terminal] frame progress).Idles .matched frame progress := by
  have hsafe : (frame.collect progress.pendingTokens).cursor.Safe := safe
  obtain ⟨after, hrun, hafter⟩ := takeUp_nil aligner matchChild notReference hsafe
    progress.pendingTokens_claimed
  rw [sequence_of_probe_some probe, Input.tokens_nothing, Input.draw_nothing, hrun]
  exact ⟨rfl, hafter⟩

/-- A reference that finds no token, or is not found at all, is missing. -/
theorem idles_of_void {terminal : Stock} (isReference : Terminal.isReference terminal = true)
    (probe : ∀ found ∈ Reads.probe frame.cursor terminal, found = frame.cursor.nothing) :
    (aligner.sequence matchChild [terminal] frame progress).Idles
      (.missed (Terminal.describe terminal)) frame progress := by
  have hclaimed := Progress.Coincides.refl progress.claimed
  cases hfound : Reads.probe frame.cursor terminal with
  | none =>
      rw [sequence_of_probe_none hfound]
      exact ⟨rfl, hclaimed.note_right _ _⟩
  | some found =>
      obtain rfl := probe found hfound
      rw [sequence_of_probe_some hfound, Input.tokens_nothing, Input.draw_nothing]
      simp only [takeUp, isReference, if_true]
      exact ⟨rfl, hclaimed.note_right _ _⟩

/-- Where an optional terminal finds what the one inside finds, it does what that one does. -/
theorem coincide_optional {found : Found} (probe : Reads.probe frame.cursor inner = some found)
    (same : Reads.probe frame.cursor (Stock.optional inner) = some found) :
    (aligner.sequence matchChild [inner] frame progress).Coincide (fun _ => False) Eq
      (aligner.sequence matchChild [.optional inner] frame progress) := by
  have hdescribe : Terminal.describe (Stock.optional inner) = Terminal.describe inner := rfl
  rw [sequence_of_probe_some probe, sequence_of_probe_some same, hdescribe]
  apply (takeUp_optional _).andThen
  · intro result after away
    exact absurd away Progress.not_parted_never
  · rintro result after _ after' rfl hafter
    exact .done rfl hafter

/-- An optional terminal that is no reference does what the terminal inside does, or is passed over
where that one is missing. -/
theorem relaxes_optional (safe : frame.cursor.Safe) (reads : frame.cursor ≠ .synthetic)
    (notReference : Terminal.isReference inner = false) :
    Run.Relaxes frame progress (aligner.sequence matchChild [inner] frame progress)
      (aligner.sequence matchChild [.optional inner] frame progress) := by
  have hprobe := Input.probe_optional reads (.inr notReference)
  cases hinner : Reads.probe frame.cursor inner with
  | none =>
      rw [hinner] at hprobe
      rw [sequence_of_probe_none hinner]
      exact .missed (idles_of_nothing safe notReference hprobe)
  | some found =>
      rw [hinner] at hprobe
      have hcoincide : (aligner.sequence matchChild [inner] frame progress).Coincide
          (fun _ => False) Eq (aligner.sequence matchChild [.optional inner] frame progress) :=
        coincide_optional hinner hprobe
      obtain ⟨last, after, hrun⟩ : ∃ last after,
          aligner.sequence matchChild [inner] frame progress = .done (.matched, last) after := by
        rw [sequence_of_probe_some hinner]
        simp only [takeUp, notReference, Bool.false_eq_true, if_false]
        split
        · exact ⟨_, _, rfl⟩
        · exact ⟨_, _, rfl⟩
      obtain ⟨after', hrun', hafter⟩ := hcoincide.exists_done hrun
      rw [hrun, hrun']
      exact .matched hafter

/-- An optional reference in attached tokens does what the reference does. -/
theorem coincide_optional_of_tokens (reads : Cursor.medium frame.cursor = .tokens)
    (isReference : Terminal.isReference inner = true) :
    (aligner.sequence matchChild [inner] frame progress).Coincide (fun _ => False) Eq
      (aligner.sequence matchChild [.optional inner] frame progress) := by
  have hreads : frame.cursor ≠ .synthetic := by
    intro hnone
    rw [hnone] at reads
    cases reads
  have hprobe : Reads.probe frame.cursor (Stock.optional inner) =
      some ((Reads.probe frame.cursor inner).getD frame.cursor.nothing) :=
    Input.probe_optional hreads (.inl reads)
  cases hinner : Reads.probe frame.cursor inner with
  | some found =>
      rw [hinner] at hprobe
      exact coincide_optional hinner hprobe
  | none =>
      rw [hinner] at hprobe
      have hplain : (aligner.sequence matchChild [inner] frame progress).Idles
          (.missed (Terminal.describe inner)) frame progress := by
        apply idles_of_void isReference
        simp [hinner]
      have hwrapped : (aligner.sequence matchChild [.optional inner] frame progress).Idles
          (.missed (Terminal.describe inner)) frame progress := by
        apply idles_of_void (show Terminal.isReference (Stock.optional inner) = true from isReference)
        simp [hprobe]
      exact hplain.coincide hwrapped

/-- An optional reference in a text, or without input, is missing. -/
theorem idles_optional_reference (reads : Cursor.medium frame.cursor ≠ .tokens)
    (isReference : Terminal.isReference inner = true) :
    (aligner.sequence matchChild [.optional inner] frame progress).Idles
      (.missed (Terminal.describe inner)) frame progress := by
  have hwrapped : Terminal.isReference (Stock.optional inner) = true := isReference
  apply idles_of_void hwrapped
  intro found hfound
  cases hcursor : frame.cursor with
  | text place =>
      rw [hcursor] at hfound
      simp only [Reads.probe, Input.probe, TextCursor.probe, hwrapped, if_true,
        Option.mem_def, Option.map_eq_some_iff] at hfound
      obtain ⟨lexemes, hlexemes, rfl⟩ := hfound
      split at hlexemes
      · cases hlexemes
      · cases hlexemes
        rfl
  | tokens reading =>
      rw [hcursor] at reads
      exact absurd rfl reads
  | synthetic =>
      rw [hcursor] at hfound
      cases hfound
      rfl

/-- What an optional terminal does, for every terminal inside it, at every safe cursor and in every
state of a match. One that is no reference never misses: with an input to read it does what the
terminal inside does or is passed over, and without one it is passed over. A reference that is
optional misses on a text and without input, and in attached tokens it does what the reference does,
so it misses where that one misses. -/
theorem sequence_optional (aligner : Aligner Stock ρ) (matchChild : MatchChild Stock Input ρ)
    (inner : Stock) (frame : Frame Input ρ) (progress : Progress Stock Input ρ)
    (safe : frame.cursor.Safe) :
    let plain := aligner.sequence matchChild [inner] frame progress
    let relaxed := aligner.sequence matchChild [.optional inner] frame progress
    match Terminal.isReference inner, Cursor.medium frame.cursor with
    | false, .text => plain.Relaxes frame progress relaxed
    | false, .tokens => plain.Relaxes frame progress relaxed
    | false, .synthetic => relaxed.Idles .matched frame progress
    | true, .text => relaxed.Idles (.missed (Terminal.describe inner)) frame progress
    | true, .tokens => plain.Coincide (fun _ => False) Eq relaxed
    | true, .synthetic => relaxed.Idles (.missed (Terminal.describe inner)) frame progress := by
  have hreads : Cursor.medium frame.cursor ≠ .synthetic → frame.cursor ≠ .synthetic := by
    intro hmedium hnone
    rw [hnone] at hmedium
    exact hmedium rfl
  cases hkind : Terminal.isReference inner with
  | false =>
      cases hmedium : Cursor.medium frame.cursor with
      | text => exact relaxes_optional safe (hreads (by simp [hmedium])) hkind
      | tokens => exact relaxes_optional safe (hreads (by simp [hmedium])) hkind
      | synthetic =>
          apply idles_of_nothing safe (show Terminal.isReference (Stock.optional inner) = false
            from hkind)
          cases hcursor : frame.cursor with
          | synthetic => rfl
          | text place => simp [hcursor, Cursor.medium, Input.medium] at hmedium
          | tokens reading => simp [hcursor, Cursor.medium, Input.medium] at hmedium
  | true =>
      cases hmedium : Cursor.medium frame.cursor with
      | text => exact idles_optional_reference (by simp [hmedium]) hkind
      | tokens => exact coincide_optional_of_tokens hmedium hkind
      | synthetic => exact idles_optional_reference (by simp [hmedium]) hkind

/-- A box around a name. -/
def optionalBox : Node Token :=
  ⟨"Box", [("content", .node ⟨"Name", [], none, none⟩)], none, none⟩

/-- A name is one word. -/
def optionalBoxAligner : Aligner Stock ByName where
  grammar := .demanding [("Name", [[.identifier "a"]])]
  resolver := .byName

/-- The frame in which terminals of the box are looked for in a text. -/
def optionalBoxFrame (text : String) : Frame Input ByName :=
  optionalBoxAligner.opening (.root optionalBox) (.text (.whole text.toList))

/-- A space waits in the slot. -/
def optionalBoxProgress : Progress Stock Input ByName :=
  { pending := some ⟨[⟨⟨"Whitespace", " "⟩, 0⟩], .separator⟩, supply := 1 }

/-- A sign that is not there is passed over where it is optional, and the optional reference is
missing. -/
theorem sequence_optional_optionalBox :
    Run.Idles .matched (optionalBoxFrame "a") optionalBoxProgress
      (optionalBoxAligner.sequence (optionalBoxAligner.matchNode 1)
        [.optional (.punctuator "+")] (optionalBoxFrame "a") optionalBoxProgress) ∧
    Run.Idles (.missed "Reference(\"content\")") (optionalBoxFrame "a") optionalBoxProgress
      (optionalBoxAligner.sequence (optionalBoxAligner.matchNode 1)
        [.optional (.reference "content")] (optionalBoxFrame "a") optionalBoxProgress) := by
  have hsafe : (optionalBoxFrame "a").cursor.Safe := (Input.Opens.text .whole).safe
  constructor
  · have hrelaxes : Run.Relaxes (optionalBoxFrame "a") optionalBoxProgress
        (optionalBoxAligner.sequence (optionalBoxAligner.matchNode 1) [.punctuator "+"]
          (optionalBoxFrame "a") optionalBoxProgress)
        (optionalBoxAligner.sequence (optionalBoxAligner.matchNode 1) [.optional (.punctuator "+")]
          (optionalBoxFrame "a") optionalBoxProgress) :=
      sequence_optional optionalBoxAligner (optionalBoxAligner.matchNode 1) (.punctuator "+")
        (optionalBoxFrame "a") optionalBoxProgress hsafe
    obtain ⟨name, last, after, hmissed⟩ : ∃ name last after,
        optionalBoxAligner.sequence (optionalBoxAligner.matchNode 1) [.punctuator "+"]
          (optionalBoxFrame "a") optionalBoxProgress = .done (.missed name, last) after :=
      ⟨_, _, _, rfl⟩
    rw [hmissed] at hrelaxes
    cases hrelaxes with
    | missed idles => exact idles
  · exact sequence_optional optionalBoxAligner (optionalBoxAligner.matchNode 1)
      (.reference "content") (optionalBoxFrame "a") optionalBoxProgress hsafe

/-- A reference leads to a child in the text, and the same reference is missing when it is
optional. -/
theorem optional_reference_missed :
    (∃ last after, optionalBoxAligner.sequence (optionalBoxAligner.matchNode 1)
      [.reference "content"] (optionalBoxFrame "a") optionalBoxProgress =
        .done (.matched, last) after) ∧
    ∃ last after, optionalBoxAligner.sequence (optionalBoxAligner.matchNode 1)
      [.optional (.reference "content")] (optionalBoxFrame "a") optionalBoxProgress =
        .done (.missed "Reference(\"content\")", last) after := by
  constructor
  · exact ⟨_, _, rfl⟩
  · exact ⟨_, _, rfl⟩

end Aligner

end TreeAlign
