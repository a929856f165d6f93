import TreeAlign.Proofs.Matching.Underway

/-!
# What an attempt has emitted

The journal tells of every emit command which tokens it appends, and the frame
of that moment tells behind which tokens. An emission therefore covers certain
places of the node's token list, and `unemitted` drops what stands there.
Places are told apart, not tokens: a token that is emitted and also read is
dropped where it was emitted and stays where it was read.
-/

namespace TreeAlign

variable {τ σ ρ : Type}

/-- Tokens that were emitted, and the tokens that the node had before. -/
structure Emission where
  behind : List Token
  tokens : List Token
deriving DecidableEq

/-- The token at this place of the node's list was emitted. -/
def Emission.covers (emission : Emission) (place : Nat) : Bool :=
  emission.behind.length ≤ place && place < emission.behind.length + emission.tokens.length

/-- Every emission stands in the list where it was made. -/
def Emitted (emissions : List Emission) (tokens : List Token) : Prop :=
  ∀ emission ∈ emissions, emission.behind ++ emission.tokens <+: tokens

/-- The tokens at the places that no emission covers. -/
def unemitted (emissions : List Emission) (tokens : List Token) : List Token :=
  (tokens.zipIdx.filter fun entry => !emissions.any (·.covers entry.2)).map (·.1)

section Lists

variable {emissions : List Emission} {tokens : List Token}

theorem Emitted.append (h : Emitted emissions tokens) (more : List Token) :
    Emitted emissions (tokens ++ more) :=
  fun emission hmem => (h emission hmem).trans (List.prefix_append _ _)

theorem Emitted.emit (h : Emitted emissions tokens) (emitted : List Token) :
    Emitted (⟨tokens, emitted⟩ :: emissions) (tokens ++ emitted) :=
  List.forall_mem_cons.mpr ⟨List.prefix_refl _, h.append emitted⟩

/-- No emission reaches beyond the list that it stands in. -/
theorem Emitted.covers_eq_false (h : Emitted emissions tokens) {place : Nat}
    (le : tokens.length ≤ place) : emissions.any (·.covers place) = false := by
  apply List.any_eq_false.mpr
  intro emission hmem hcovers
  have hlength := (h emission hmem).length_le
  simp only [Emission.covers, Bool.and_eq_true, decide_eq_true_eq] at hcovers
  rw [List.length_append] at hlength
  omega

/-- What is read later stays. -/
theorem unemitted_append (h : Emitted emissions tokens) (more : List Token) :
    unemitted emissions (tokens ++ more) = unemitted emissions tokens ++ more := by
  have hstays : ∀ entry ∈ more.zipIdx (0 + tokens.length),
      (!emissions.any (·.covers entry.2)) = true := by
    intro entry hmem
    have hplace := List.le_snd_of_mem_zipIdx hmem
    rw [h.covers_eq_false (by omega), Bool.not_false]
  rw [unemitted, unemitted, List.zipIdx_append, List.filter_append, List.map_append,
    List.filter_eq_self.mpr hstays, List.zipIdx_map_fst]

/-- What is emitted is dropped. -/
theorem unemitted_emit (emissions : List Emission) (tokens emitted : List Token) :
    unemitted (⟨tokens, emitted⟩ :: emissions) (tokens ++ emitted) =
      unemitted emissions tokens := by
  have hsame : ∀ entry ∈ tokens.zipIdx,
      (!((⟨tokens, emitted⟩ : Emission) :: emissions).any (·.covers entry.2)) =
        !emissions.any (·.covers entry.2) := by
    intro entry hmem
    have hplace := List.snd_lt_add_of_mem_zipIdx hmem
    have hcovers : Emission.covers ⟨tokens, emitted⟩ entry.2 = false := by
      simp only [Emission.covers, Bool.and_eq_false_iff, decide_eq_false_iff_not]
      omega
    rw [List.any_cons, hcovers, Bool.false_or]
  have hdropped : ∀ entry ∈ emitted.zipIdx (0 + tokens.length),
      ¬ (!((⟨tokens, emitted⟩ : Emission) :: emissions).any (·.covers entry.2)) = true := by
    intro entry hmem
    have hfirst := List.le_snd_of_mem_zipIdx hmem
    have hlast := List.snd_lt_add_of_mem_zipIdx hmem
    have hcovers : Emission.covers ⟨tokens, emitted⟩ entry.2 = true := by
      simp only [Emission.covers, Bool.and_eq_true, decide_eq_true_eq]
      omega
    rw [List.any_cons, hcovers, Bool.true_or]
    exact Bool.false_ne_true
  rw [unemitted, unemitted, List.zipIdx_append, List.filter_append, List.map_append,
    List.filter_congr hsame, List.filter_eq_nil_iff.mpr hdropped, List.map_nil, List.append_nil]

end Lists

/-- The tokens that the act appends without reading. -/
def Act.emitted? : Act τ → Option (List Token)
  | .step _ (some (.emit tokens)) => some tokens
  | _ => none

/-- What is emitted at a moment. -/
def Moment.emission? (moment : Moment τ σ ρ) : Option Emission :=
  moment.act.emitted?.map (⟨moment.frame.tokens, ·⟩)

/-- The emissions of the attempt under way at a depth, the latest first. -/
def emissionsAt (depth : Nat) (journal : List (Moment τ σ ρ)) : List Emission :=
  (underway depth journal).filterMap Moment.emission?

/-- The emissions of the child that a reference stands for: those of the attempt that was under way
one level further down when the child was last stored. -/
def emissionsOf (reference : Token) : List (Moment τ σ ρ) → List Emission
  | [] => []
  | moment :: older =>
    match moment.act with
    | .record stored _ =>
      if stored.same reference then emissionsAt (moment.frame.path.depth + 1) older
      else emissionsOf reference older
    | _ => emissionsOf reference older

section Journal

variable {path : Ancestry} (progress : Progress τ σ ρ) {frame : Frame σ ρ}

/-- An attempt that begins has emitted nothing. -/
theorem emissionsAt_note_begin (path_eq : frame.path = path) :
    emissionsAt path.depth (progress.note frame .begin).journal = [] := by
  rw [emissionsAt, underway_note_begin progress frame path_eq]
  rfl

theorem emissionsAt_note (path_eq : frame.path = path) {act : Act τ}
    (inner : act.isBegin = false) (mute : act.emitted? = none) :
    emissionsAt path.depth (progress.note frame act).journal =
      emissionsAt path.depth progress.journal := by
  rw [emissionsAt, underway_note progress frame path_eq inner, List.filterMap_cons_none]
  · rfl
  · simp [Moment.emission?, mute]

theorem emissionsAt_note_emit (path_eq : frame.path = path) (reply : Reply)
    (tokens : List Token) :
    emissionsAt path.depth (progress.note frame (.step reply (some (.emit tokens)))).journal =
      ⟨frame.tokens, tokens⟩ :: emissionsAt path.depth progress.journal := by
  rw [emissionsAt, underway_note progress frame path_eq rfl]
  rfl

/-- What is written further down is no emission of the attempt. -/
theorem Progress.WritesBelow.emissionsAt_eq {depth : Nat} {before after : Progress τ σ ρ}
    (h : before.WritesBelow (depth + 1) after) :
    emissionsAt depth after.journal = emissionsAt depth before.journal := by
  rw [emissionsAt, h.underway_eq, emissionsAt]

end Journal

end TreeAlign
