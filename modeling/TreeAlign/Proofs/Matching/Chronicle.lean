import TreeAlign.Proofs.Matching.Holding
import TreeAlign.Proofs.Matching.Recording

/-!
# The stores of a match, one after the other

The journal keeps the store of every moment. No store has lost an identity
of an earlier one. When no identity was recorded twice, every store leads
where all earlier ones led, and to the spelling that was recorded. That is
so whenever all tokens are new: the identity of a child is drawn before the
child is matched, and everything recorded on the way has a later one.
-/

namespace TreeAlign

variable {τ σ ρ : Type}

namespace Progress

/-- The present store and the store of every moment are related to all that came before. -/
structure Tracks (related : Subtrees → Subtrees → Prop) (progress : Progress τ σ ρ) : Prop where
  past : progress.journal.Pairwise fun later earlier => related later.subtrees earlier.subtrees
  present : ∀ moment ∈ progress.journal, related progress.subtrees moment.subtrees

namespace Tracks

variable {related : Subtrees → Subtrees → Prop} {progress after : Progress τ σ ρ}

theorem start (supply : Nat) : ({ supply } : Progress τ σ ρ).Tracks related :=
  ⟨.nil, by simp⟩

theorem note (h : progress.Tracks related) (refl : ∀ subtrees, related subtrees subtrees)
    (frame : Frame σ ρ) (act : Act τ) : (progress.note frame act).Tracks related where
  past := List.pairwise_cons.mpr ⟨h.present, h.past⟩
  present := List.forall_mem_cons.mpr ⟨refl _, h.present⟩

/-- A move leads to a related store if it does so from the store before it. -/
theorem move (h : progress.Tracks related) (refl : ∀ subtrees, related subtrees subtrees)
    (trans : ∀ {first second third}, related third second → related second first →
      related third first)
    (move : progress.Move after) (step : related after.subtrees progress.subtrees) :
    after.Tracks related := by
  cases move with
  | note frame _ _ => exact h.note refl frame _
  | claim => exact ⟨h.past, h.present⟩
  | draw found => exact ⟨h.past, h.present⟩
  | defer frame tokens terminal _ =>
      have hnote := h.note refl frame (.defer tokens)
      have hdefer : ((progress.note frame (.defer tokens)).defer tokens terminal).Tracks related :=
        ⟨hnote.past, hnote.present⟩
      exact hdefer.note refl frame (.pass terminal tokens)
  | record frame reference spelling =>
      have hnote := h.note refl frame (.record reference spelling)
      refine ⟨hnote.past, ?_⟩
      intro moment hmoment
      exact trans step (hnote.present moment hmoment)

end Tracks

theorem Move.covers {before after : Progress τ σ ρ} (move : before.Move after) :
    after.subtrees.Covers before.subtrees := by
  cases move with
  | record frame reference spelling => exact Subtrees.covers_insert _ _ _
  | _ => exact Subtrees.Covers.refl _

/-- No store of a match has lost an identity of an earlier one. -/
theorem Leads.tracks_covers {before after : Progress τ σ ρ} (h : before.Leads after)
    (start : before.Tracks Subtrees.Covers) : after.Tracks Subtrees.Covers :=
  h.keeps (fun move htracks => htracks.move .refl .trans move move.covers) start

/-- What is stored for an identity was recorded under it. -/
def Told (progress : Progress τ σ ρ) : Prop :=
  ∀ token spelling, progress.subtrees.get? token = some spelling →
    ∃ moment ∈ progress.journal, ∃ reference, moment.act = .record reference spelling ∧
      reference.id = token.id

theorem told_start (supply : Nat) : ({ supply } : Progress τ σ ρ).Told := by
  intro token spelling h
  simp [Subtrees.get?, Subtrees.empty] at h

theorem Told.note {progress : Progress τ σ ρ} (h : progress.Told) (frame : Frame σ ρ)
    (act : Act τ) : (progress.note frame act).Told := by
  intro token spelling hget
  obtain ⟨moment, hmoment, hact⟩ := h token spelling hget
  exact ⟨moment, List.mem_cons_of_mem _ hmoment, hact⟩

theorem Leads.told {before after : Progress τ σ ρ} (h : before.Leads after) (start : before.Told) :
    after.Told := by
  apply h.keeps _ start
  intro first second move htold
  cases move with
  | note frame _ _ => exact htold.note frame _
  | claim => exact htold
  | draw found => exact htold
  | defer frame tokens terminal _ =>
      have hdefer : ((first.note frame (.defer tokens)).defer tokens terminal).Told :=
        htold.note frame (.defer tokens)
      exact hdefer.note frame (.pass terminal tokens)
  | record frame reference spelling =>
      intro token found hget
      change (first.subtrees.insert reference spelling).get? token = some found at hget
      rw [Subtrees.get?_insert] at hget
      split at hget
      · next hid =>
          cases hget
          exact ⟨_, List.mem_cons_self .., reference, rfl, hid⟩
      · exact htold.note frame _ token found hget

/-- Everything that was recorded is still there. -/
def Answers (progress : Progress τ σ ρ) : Prop :=
  ∀ moment ∈ progress.journal, ∀ reference spelling, moment.act = .record reference spelling →
    progress.subtrees.get? reference = some spelling

theorem Answers.note {progress : Progress τ σ ρ} (h : progress.Answers) (frame : Frame σ ρ)
    {act : Act τ} (other : ∀ reference spelling, act ≠ .record reference spelling) :
    (progress.note frame act).Answers := by
  intro moment hmoment reference spelling hact
  rcases List.mem_cons.mp hmoment with rfl | hmoment
  · exact absurd hact (other reference spelling)
  · exact h moment hmoment reference spelling hact

theorem Answers.move {progress after : Progress τ σ ρ} (h : progress.Answers)
    (move : progress.Move after) (kept : after.subtrees.Extends progress.subtrees) :
    after.Answers := by
  cases move with
  | note frame quiet _ =>
      apply h.note
      rintro reference spelling rfl
      exact quiet
  | claim => exact h
  | draw found => exact h
  | defer frame tokens terminal _ =>
      have hdefer : ((progress.note frame (.defer tokens)).defer tokens terminal).Answers :=
        h.note frame (by simp)
      exact hdefer.note frame (by simp)
  | record frame reference spelling =>
      intro moment hmoment other found hact
      rcases List.mem_cons.mp hmoment with rfl | hmoment
      · cases hact
        exact Subtrees.get?_insert_self _ _ _
      · exact kept _ _ (h moment hmoment other found hact)

/-- Where no identity was recorded twice, no store of a match has replaced anything, and everything
that was recorded is still there. -/
theorem Leads.tracks_extends {before after : Progress τ σ ρ} (h : before.Leads after)
    (booked : before.Booked) (tracks : before.Tracks Subtrees.Extends) (answers : before.Answers)
    (once : after.RecordsOnce) : after.Tracks Subtrees.Extends ∧ after.Answers := by
  have hkept : after.Booked ∧
      (after.RecordsOnce → after.Tracks Subtrees.Extends ∧ after.Answers) := by
    apply h.keeps
    · rintro first second move ⟨hbooked, hfirst⟩
      have hlater := hbooked.later move
      refine ⟨hlater.booked, fun honce => ?_⟩
      obtain ⟨htracks, hanswers⟩ := hfirst (honce.earlier hlater.noted)
      exact ⟨htracks.move .refl .trans move (hlater.kept honce),
        hanswers.move move (hlater.kept honce)⟩
    · exact ⟨booked, fun _ => ⟨tracks, answers⟩⟩
  exact hkept.2 once

/-- The identities recorded since the earlier state are different ones, and all were drawn from the
supply since then. -/
structure Fresh (before after : Progress τ σ ρ) : Prop where
  supply : before.supply ≤ after.supply
  recorded : ∃ new, after.recorded = new ++ before.recorded ∧ new.Nodup ∧
    ∀ id ∈ new, before.supply ≤ id ∧ id < after.supply

namespace Fresh

variable {before progress after : Progress τ σ ρ}

theorem refl (progress : Progress τ σ ρ) : progress.Fresh progress :=
  ⟨Nat.le_refl _, [], rfl, List.nodup_nil, by simp⟩

theorem trans (h : before.Fresh progress) (h' : progress.Fresh after) : before.Fresh after := by
  obtain ⟨hsupply, new, hnew, hnodup, hdrawn⟩ := h
  obtain ⟨hsupply', new', hnew', hnodup', hdrawn'⟩ := h'
  refine ⟨Nat.le_trans hsupply hsupply', new' ++ new, ?_, ?_, ?_⟩
  · rw [hnew', hnew, List.append_assoc]
  · apply List.nodup_append.mpr
    refine ⟨hnodup', hnodup, ?_⟩
    intro later hlater earlier hearlier
    have hle := (hdrawn' later hlater).1
    have hlt := (hdrawn earlier hearlier).2
    omega
  · intro id hid
    rcases List.mem_append.mp hid with hid | hid
    · have hbounds := hdrawn' id hid
      omega
    · have hbounds := hdrawn id hid
      omega

theorem note (h : before.Fresh progress) (frame : Frame σ ρ) {act : Act τ}
    (other : ∀ reference spelling, act ≠ .record reference spelling) :
    before.Fresh (progress.note frame act) := by
  refine ⟨h.supply, ?_⟩
  have hsame : (progress.note frame act).recorded = progress.recorded := by
    cases act with
    | record reference spelling => exact absurd rfl (other reference spelling)
    | _ => rfl
  rw [hsame]
  exact h.recorded

theorem draw (h : before.Fresh progress) (found : Found) : before.Fresh (progress.draw found) := by
  have hle := progress.supply_le_draw found
  obtain ⟨new, hnew, hnodup, hdrawn⟩ := h.recorded
  refine ⟨Nat.le_trans h.supply hle, new, hnew, hnodup, ?_⟩
  intro id hid
  exact ⟨(hdrawn id hid).1, Nat.lt_of_lt_of_le (hdrawn id hid).2 hle⟩

theorem claimed (h : before.Fresh progress) : before.Fresh progress.claimed :=
  ⟨h.supply, h.recorded⟩

theorem defer (h : before.Fresh progress) (tokens : List Token) (terminal : τ) :
    before.Fresh (progress.defer tokens terminal) :=
  ⟨h.supply, h.recorded⟩

/-- A child is recorded under the identity that was drawn for it. -/
theorem record {lexeme : Lexeme} {rest : List Lexeme}
    (h : (progress.draw (.spelled (lexeme :: rest))).Fresh after) (frame : Frame σ ρ)
    (spelling : Spelling) :
    progress.Fresh ((after.note frame (.record ⟨lexeme, progress.supply⟩ spelling)).record
      ⟨lexeme, progress.supply⟩ spelling) := by
  obtain ⟨hsupply, new, hnew, hnodup, hdrawn⟩ := h
  simp only [Progress.draw, Found.supplyAfter, List.length_cons] at hsupply hdrawn
  refine ⟨?_, progress.supply :: new, ?_, ?_, ?_⟩
  · change progress.supply ≤ after.supply
    omega
  · exact congrArg (progress.supply :: ·) hnew
  · apply List.nodup_cons.mpr
    refine ⟨?_, hnodup⟩
    intro hmem
    have hle := (hdrawn _ hmem).1
    omega
  · intro id hid
    change progress.supply ≤ id ∧ id < after.supply
    rcases List.mem_cons.mp hid with rfl | hid
    · omega
    · have hbounds := hdrawn id hid
      omega

theorem recordsOnce {supply : Nat} (h : ({ supply } : Progress τ σ ρ).Fresh after) :
    after.RecordsOnce := by
  obtain ⟨new, hnew, hnodup, _⟩ := h.recorded
  have hrecorded : after.recorded = new := by rw [hnew]; exact List.append_nil new
  rw [RecordsOnce, hrecorded]
  exact hnodup

end Fresh

end Progress

/-- Whatever is found at the cursor is new. -/
def Input.Spells (cursor : Input) : Prop :=
  ∀ reading, cursor ≠ .tokens reading

namespace Input.Spells

variable [Terminal τ] {cursor : Input}

theorem found (h : cursor.Spells) {terminal : τ} {found : Found}
    (probe : Reads.probe cursor terminal = some found) : ∃ lexemes, found = .spelled lexemes := by
  cases cursor with
  | tokens reading => exact absurd rfl (h reading)
  | text place => exact spelled_of_probe ⟨place, rfl⟩ probe
  | synthetic =>
      have hbuild : some (Found.spelled (Terminal.build terminal none)) = some found := probe
      cases hbuild
      exact ⟨_, rfl⟩

theorem advance (h : cursor.Spells) (tokens : List Token) (subtrees : Subtrees) :
    (Cursor.advance tokens subtrees cursor).Spells := by
  intro reading hreading
  cases cursor with
  | tokens old => exact h old rfl
  | text place => exact Input.noConfusion hreading
  | synthetic => exact Input.noConfusion hreading

theorem forChild (h : cursor.Spells) (child : Node Token) :
    (Cursor.forChild child cursor).Spells := by
  intro reading hreading
  cases cursor with
  | tokens old => exact h old rfl
  | text place => exact Input.noConfusion hreading
  | synthetic => exact Input.noConfusion hreading

theorem fallback (h : cursor.Spells) {next : Input} : Cursor.fallback cursor ≠ .ok next := by
  intro hnext
  cases cursor with
  | tokens old => exact h old rfl
  | text place => cases hnext
  | synthetic => cases hnext

end Input.Spells

namespace Aligner

variable [Terminal τ] {aligner : Aligner τ ρ}

/-- Where everything is new, the attempts at a node record new identities only. -/
theorem upholds_fresh {matchChild : MatchChild τ Input ρ} (before : Progress τ Input ρ)
    (hchild : ∀ path cursor progress, cursor.Spells →
      (matchChild path cursor progress).Ends (fun _ => progress.Fresh) fun _ => progress.Fresh)
    (path : Ancestry) :
    aligner.Upholds matchChild path (fun _ _ => True)
      (fun cursor progress => cursor.Spells ∧ before.Fresh progress)
      (fun _ cursor progress => cursor.Spells ∧ before.Fresh progress)
      fun _ => before.Fresh where
  begin h := ⟨h.1, h.2.note _ (by simp)⟩
  note {held progress frame act} h _ inner := by
    refine ⟨h.1, h.2.note frame ?_⟩
    rintro reference spelling rfl
    exact inner
  claim h := ⟨h.1, h.2.claimed⟩
  draw h _ _ := ⟨h.1, h.2.draw _⟩
  plain h _ _ _ := ⟨h.1.advance _ _, h.2.draw _⟩
  separator {held progress frame terminal found} h _ _ _ _ := by
    refine ⟨h.1.advance _ _, Progress.Fresh.defer ?_ _ _⟩
    exact (h.2.draw found).note _ (by simp)
  child {held progress frame terminal found reference more route node}
      h _ _ probe _ tokens _ := by
    obtain ⟨lexemes, rfl⟩ := h.1.found probe
    cases lexemes with
    | nil => exact absurd tokens (by simp [Found.tokens, Token.mint])
    | cons lexeme rest =>
        simp only [Found.tokens, Token.mint, List.cons.injEq] at tokens
        obtain ⟨rfl, _⟩ := tokens
        have hmatch := hchild (.child path node route) _
          ((progress.draw (.spelled (lexeme :: rest))).note frame
            (.descend ⟨lexeme, progress.supply⟩ route)) (h.1.forChild node)
        have hsince : ∀ after, ((progress.draw (.spelled (lexeme :: rest))).note frame
            (.descend ⟨lexeme, progress.supply⟩ route)).Fresh after →
            (progress.draw (.spelled (lexeme :: rest))).Fresh after :=
          fun after hafter => ((Progress.Fresh.refl _).note frame (by simp)).trans hafter
        refine hmatch.mono ?_ ?_
        · intro failure after hafter
          exact h.2.trans (((Progress.Fresh.refl progress).draw _).trans (hsince after hafter))
        · intro spelling after hafter
          exact ⟨h.1.advance _ _, h.2.trans ((hsince after hafter).record frame spelling)⟩
  emit h _ _ := h
  raise h _ _ := h.2.note _ (by simp)

/-- Where everything is new, a match of a node records new identities only. -/
theorem fresh_matchNode (levels : Nat) (path : Ancestry) {cursor : Input}
    (progress : Progress τ Input ρ) (hcursor : cursor.Spells) :
    (aligner.matchNode levels path cursor progress).Ends (fun _ => progress.Fresh)
      fun _ => progress.Fresh := by
  induction levels generalizing path cursor progress with
  | zero => exact (Progress.Fresh.refl progress).note _ (by simp)
  | succ levels ih =>
      have hupholds := aligner.upholds_fresh progress
        (fun path _ progress hcursor => ih path progress hcursor) path
      rw [matchNode]
      apply (hupholds.restart aligner.grammar.emits_anything
        (fun h _ hnext => absurd hnext h.1.fallback) ⟨hcursor, .refl progress⟩).imp
      rintro spelling after ⟨_, _, _, _, hafter, _⟩
      exact hafter.2

/-- Where everything is new, a whole match records no identity twice. -/
theorem recordsOnce_run {cursor : Input} (hcursor : cursor.Spells) (root : Node Token)
    (supply : Nat) : (aligner.run root cursor supply).2.RecordsOnce := by
  have hmatch := aligner.fresh_matchNode (aligner.limits.maxDepth + 1) (.root root) { supply }
    hcursor
  rcases run_ends hmatch with ⟨failure, after, hrun, hfresh⟩ | ⟨spelling, after, hrun, hfresh⟩
  · rw [hrun]
    exact hfresh.recordsOnce
  · rw [hrun]
    exact hfresh.claimed.recordsOnce

end Aligner

end TreeAlign
