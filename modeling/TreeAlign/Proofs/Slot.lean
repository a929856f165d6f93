import TreeAlign.Proofs.Matching.Moves
import TreeAlign.Proofs.Matching.Weave

/-!
# The slot for separators

One slot is shared by all nodes of a match. Separator tokens are put into it
only while it is empty, and nothing waits in it when an attempt begins, when
a terminal is missing, or when an attempt is given up. So whatever is in the
slot at some moment was put there by the latest separator, and no attempt
has been given up since. The tokens that an attempt leaves behind when it is
given up are therefore lost with it: no later attempt, no node above and not
the root at the very end can claim them.

## Implementation notes

Tokens may be shared between several lists, so the separator that is waiting
is traced to the moment in which it was put into the slot, not to tokens.
-/

namespace TreeAlign

variable {τ σ ρ : Type}

/-- The latest separator of a journal is the given one, and the slot has held it since. -/
inductive Waiting (slot : Pending τ) : List (Moment τ σ ρ) → Prop where
  | put {moment : Moment τ σ ρ} {earlier : List (Moment τ σ ρ)}
      (act : moment.act = .defer slot.tokens) (empty : moment.pending = none) :
      Waiting slot (moment :: earlier)
  | kept {moment : Moment τ σ ρ} {earlier : List (Moment τ σ ρ)}
      (full : moment.pending = some slot) (before : Waiting slot earlier) :
      Waiting slot (moment :: earlier)

/-- Between the separator that is waiting and now the slot was never empty. -/
theorem Waiting.exists_put {slot : Pending τ} {journal : List (Moment τ σ ρ)}
    (h : Waiting slot journal) :
    ∃ since put earlier, journal = since ++ put :: earlier ∧ put.act = .defer slot.tokens ∧
      put.pending = none ∧ ∀ moment ∈ since, moment.pending = some slot := by
  induction h with
  | @put moment earlier act empty => exact ⟨[], moment, earlier, rfl, act, empty, by simp⟩
  | @kept moment _ full _ ih =>
      obtain ⟨since, put, earlier, rfl, hact, hempty, hsince⟩ := ih
      refine ⟨moment :: since, put, earlier, rfl, hact, hempty, ?_⟩
      exact List.forall_mem_cons.mpr ⟨full, hsince⟩

/-- A separator that is waiting was put into the slot after any moment at which the slot was
empty. -/
theorem Waiting.exists_put_after {slot : Pending τ} {later earlier : List (Moment τ σ ρ)}
    {moment : Moment τ σ ρ} (h : Waiting slot (later ++ moment :: earlier))
    (empty : moment.pending = none) (other : ∀ tokens, moment.act ≠ .defer tokens) :
    ∃ put ∈ later, put.act = .defer slot.tokens ∧ put.pending = none := by
  induction later with
  | nil =>
      cases h with
      | put act _ => exact absurd act (other _)
      | kept full _ => exact absurd (empty.symm.trans full) (by simp)
  | cons first rest ih =>
      cases h with
      | put act empty => exact ⟨first, List.mem_cons_self .., act, empty⟩
      | kept _ before =>
          obtain ⟨put, hmem, hput⟩ := ih before
          exact ⟨put, List.mem_cons_of_mem _ hmem, hput⟩

/-- The slot was empty at every moment of the journal that needs it, and full only with the latest
separator. Every separator that was put into it was there at the next moment. -/
inductive Orderly : List (Moment τ σ ρ) → Prop where
  | nil : Orderly []
  | cons {moment : Moment τ σ ρ} {earlier : List (Moment τ σ ρ)} (before : Orderly earlier)
      (empty : moment.act.NeedsEmptySlot → moment.pending = none)
      (waiting : ∀ slot, moment.pending = some slot → Waiting slot earlier)
      (held : ∀ put ∈ earlier.head?, ∀ tokens, put.act = .defer tokens →
        ∃ terminal, moment.pending = some ⟨tokens, terminal⟩) :
      Orderly (moment :: earlier)

namespace Orderly

variable {journal : List (Moment τ σ ρ)}

theorem empty_of_mem (h : Orderly journal) {moment : Moment τ σ ρ} (hmem : moment ∈ journal)
    (hneeds : moment.act.NeedsEmptySlot) : moment.pending = none := by
  induction h with
  | nil => exact absurd hmem (by simp)
  | cons _ empty _ _ ih =>
      rcases List.mem_cons.mp hmem with rfl | hmem
      · exact empty hneeds
      · exact ih hmem

theorem waiting_of_append {later earlier : List (Moment τ σ ρ)} {moment : Moment τ σ ρ}
    (h : Orderly (later ++ moment :: earlier)) {slot : Pending τ}
    (hfull : moment.pending = some slot) : Waiting slot earlier := by
  induction later with
  | nil =>
      cases h with
      | cons _ _ waiting _ => exact waiting slot hfull
  | cons first rest ih =>
      cases h with
      | cons before _ _ _ => exact ih before

theorem held_of_append {later earlier : List (Moment τ σ ρ)} {next put : Moment τ σ ρ}
    (h : Orderly (later ++ next :: put :: earlier)) {tokens : List Token}
    (hact : put.act = .defer tokens) : ∃ terminal, next.pending = some ⟨tokens, terminal⟩ := by
  induction later with
  | nil =>
      cases h with
      | cons _ _ _ held => exact held put rfl tokens hact
  | cons first rest ih =>
      cases h with
      | cons before _ _ _ => exact ih before

end Orderly

/-- A state whose journal is orderly, with the latest separator in its slot or nothing. A separator
is not the last thing that happened, since the cursor moves past it at once. -/
structure Progress.Orderly (progress : Progress τ σ ρ) : Prop where
  journal : TreeAlign.Orderly progress.journal
  slot : ∀ slot, progress.pending = some slot → Waiting slot progress.journal
  passed : ∀ last ∈ progress.journal.head?, ∀ tokens, last.act ≠ .defer tokens

namespace Progress.Orderly

variable {progress after : Progress τ σ ρ}

theorem start (supply : Nat) : ({ supply } : Progress τ σ ρ).Orderly :=
  ⟨.nil, by simp, by simp⟩

theorem journal_note (h : progress.Orderly) (frame : Frame σ ρ) {act : Act τ}
    (empty : act.NeedsEmptySlot → progress.pending = none) :
    TreeAlign.Orderly (progress.note frame act).journal := by
  refine .cons h.journal empty h.slot ?_
  intro put hput tokens hact
  exact absurd hact (h.passed put hput tokens)

/-- Writing into the journal keeps it orderly, and what was waiting goes on waiting. -/
theorem note (h : progress.Orderly) (frame : Frame σ ρ) {act : Act τ}
    (other : ∀ tokens, act ≠ .defer tokens)
    (empty : act.NeedsEmptySlot → progress.pending = none) :
    (progress.note frame act).Orderly where
  journal := h.journal_note frame empty
  slot slot hfull := .kept hfull (h.slot slot hfull)
  passed last hlast := by
    obtain rfl := Option.some.inj hlast
    exact other

/-- Every move keeps a state orderly. -/
theorem move (move : progress.Move after) (h : progress.Orderly) : after.Orderly := by
  cases move with
  | note frame quiet empty =>
      refine h.note frame ?_ empty
      rintro tokens rfl
      exact quiet
  | claim => exact ⟨h.journal, by simp [claimed], h.passed⟩
  | draw found => exact ⟨h.journal, h.slot, h.passed⟩
  | defer frame tokens terminal empty =>
      have hwaiting : ∀ slot, some ⟨tokens, terminal⟩ = some slot →
          Waiting slot (progress.note frame (.defer tokens)).journal := by
        intro slot hfull
        obtain rfl := Option.some.inj hfull
        exact .put rfl empty
      refine ⟨.cons (h.journal_note frame fun _ => empty) False.elim hwaiting ?_, ?_, ?_⟩
      · intro put hput tokens' hact
        obtain rfl := Option.some.inj hput
        cases hact
        exact ⟨terminal, rfl⟩
      · intro slot hfull
        exact .kept hfull (hwaiting slot hfull)
      · intro last hlast tokens'
        obtain rfl := Option.some.inj hlast
        simp
  | record frame reference spelling =>
      have hnote : (progress.note frame (.record reference spelling)).Orderly :=
        h.note frame (by simp) False.elim
      exact ⟨hnote.journal, hnote.slot, hnote.passed⟩

end Progress.Orderly

namespace Aligner

variable [Terminal τ] [Cursor σ] [Reads σ τ] {aligner : Aligner τ ρ}

theorem orderly_run (aligner : Aligner τ ρ) (root : Node Token) (cursor : σ) (supply : Nat) :
    (aligner.run root cursor supply).2.Orderly :=
  (aligner.leads_of_run root cursor supply).keeps Progress.Orderly.move (.start supply)

omit [Terminal τ] [Cursor σ] [Reads σ τ] in
theorem journal_of_moments {progress : Progress τ σ ρ} {before after : List (Moment τ σ ρ)}
    (h : progress.moments = before ++ after) :
    progress.journal = after.reverse ++ before.reverse := by
  rw [← List.reverse_append, ← h]
  exact (List.reverse_reverse _).symm

/-- What is in the slot at a moment is waiting since before. -/
theorem waiting_of_run {root : Node Token} {cursor : σ} {supply : Nat}
    {before after : List (Moment τ σ ρ)} {moment : Moment τ σ ρ} {slot : Pending τ}
    (hsplit : (aligner.run root cursor supply).2.moments = before ++ moment :: after)
    (hfull : moment.pending = some slot) : Waiting slot before.reverse := by
  have horderly := (aligner.orderly_run root cursor supply).journal
  rw [journal_of_moments hsplit, List.reverse_cons, List.append_assoc] at horderly
  exact horderly.waiting_of_append hfull

/-- What is put into the slot is there at the next moment. -/
theorem held_of_run {root : Node Token} {cursor : σ} {supply : Nat}
    {before after : List (Moment τ σ ρ)} {put next : Moment τ σ ρ} {tokens : List Token}
    (hsplit : (aligner.run root cursor supply).2.moments = before ++ put :: next :: after)
    (hact : put.act = .defer tokens) : ∃ terminal, next.pending = some ⟨tokens, terminal⟩ := by
  have horderly := (aligner.orderly_run root cursor supply).journal
  rw [journal_of_moments hsplit, List.reverse_cons, List.reverse_cons, List.append_assoc,
    List.append_assoc] at horderly
  exact horderly.held_of_append hact

/-- The last moment of an attempt that succeeds is the end of its node. -/
theorem exists_finish_of_drive {matchChild : MatchChild τ σ ρ} {start : Nat}
    {procedure : Procedure τ} {frame : Frame σ ρ} {progress after : Progress τ σ ρ}
    {spelling : Spelling} (h : aligner.drive matchChild start procedure frame progress =
      .done (.spelled spelling) after) :
    ∃ (last : Frame σ ρ) (state : Progress τ σ ρ), last.path = frame.path ∧
      after = state.note last (.finish spelling) := by
  induction procedure generalizing frame progress with
  | done =>
      cases h
      exact ⟨frame, progress, rfl, rfl⟩
  | yield command next ih =>
      cases command with
      | emit tokens =>
          rw [drive] at h
          obtain ⟨last, state, hpath, hafter⟩ := ih _ _ h
          exact ⟨last, state, hpath, hafter⟩
      | offer terminals =>
          rcases drive_offer_eq_spelled h with ⟨tried, _, hsequence, h⟩ | ⟨_, _, _, _, h⟩
          · obtain ⟨last, state, hpath, hafter⟩ := ih _ _ h
            have htried : tried.path = frame.emptied.path := sequence_path hsequence
            exact ⟨last, state, hpath.trans htried, hafter⟩
          · obtain ⟨last, state, hpath, hafter⟩ := ih _ _ h
            exact ⟨last, state, hpath, hafter⟩
      | take terminals =>
          obtain ⟨tried, _, hsequence, h⟩ := drive_take_eq_spelled_iff.mp h
          obtain ⟨last, state, hpath, hafter⟩ := ih _ _ h
          have htried : tried.path = frame.emptied.path := sequence_path hsequence
          exact ⟨last, state, hpath.trans htried, hafter⟩

theorem exists_finish_of_attempt {matchChild : MatchChild τ σ ρ} {path : Ancestry} {cursor : σ}
    {progress after : Progress τ σ ρ} {spelling : Spelling}
    (h : aligner.attempt matchChild path cursor progress = .done (.spelled spelling) after) :
    ∃ (last : Frame σ ρ) (state : Progress τ σ ρ), last.path = path ∧
      after = state.note last (.finish spelling) := by
  obtain ⟨_, _, hdrive⟩ := attempt_eq_spelled_iff.mp h
  exact exists_finish_of_drive hdrive

theorem exists_finish_of_restart {matchChild : MatchChild τ σ ρ} {path : Ancestry} {left : Nat}
    {cursor : σ} {progress after : Progress τ σ ρ} {spelling : Spelling}
    (h : aligner.restart matchChild path left cursor progress = .done spelling after) :
    ∃ (last : Frame σ ρ) (state : Progress τ σ ρ), last.path = path ∧
      after = state.note last (.finish spelling) := by
  induction left generalizing cursor progress with
  | zero =>
      rcases restart_eq_done h with hattempt | ⟨_, _, _, _, _, hleft, _⟩
      · exact exists_finish_of_attempt hattempt
      · exact absurd hleft (by simp)
  | succ left ih =>
      rcases restart_eq_done h with hattempt | ⟨_, _, _, _, _, hleft, _, _, h⟩
      · exact exists_finish_of_attempt hattempt
      · cases hleft
        exact ih h

/-- The last moment of a match that succeeds is the end of the root, and what is in the slot then
is put behind the tokens of the root. -/
theorem moments_of_run {root : Node Token} {cursor : σ} {supply : Nat} {alignment : Alignment}
    (h : (aligner.run root cursor supply).1 = .ok alignment) :
    ∃ before last spelling,
      (aligner.run root cursor supply).2.moments = before ++ [last] ∧
      last.frame.path = .root root ∧ last.act = .finish spelling ∧
      alignment.root.tokens = spelling.tokens ++ last.slot := by
  obtain ⟨spelling, after, hmatch, rfl, hrun⟩ := run_eq_ok h
  obtain ⟨last, state, hpath, rfl⟩ := exists_finish_of_restart hmatch
  refine ⟨state.moments, ⟨last, state.subtrees, state.pending, .finish spelling⟩, spelling, ?_,
    hpath, rfl, rfl⟩
  rw [hrun]
  exact List.reverse_cons

/-- The protocol of the slot. It is empty when an attempt begins, a child is entered, a terminal is
missing, an attempt is given up or the match fails, and whenever a separator is put into it. A
separator that is put into it is there at the next moment. What is in it at any moment was put there
by the latest separator, and it has been there since. So what is in it after an attempt was given up
was put there after that; and what the root gets in the end is what is in the slot at the last
moment. -/
theorem run_slot_protocol (aligner : Aligner τ ρ) (root : Node Token) (cursor : σ)
    (supply : Nat) :
    (∀ moment ∈ (aligner.run root cursor supply).2.moments,
      moment.act.NeedsEmptySlot → moment.pending = none) ∧
    (∀ before put next after tokens,
      (aligner.run root cursor supply).2.moments = before ++ put :: next :: after →
      put.act = .defer tokens → ∃ terminal, next.pending = some ⟨tokens, terminal⟩) ∧
    (∀ before moment after slot,
      (aligner.run root cursor supply).2.moments = before ++ moment :: after →
      moment.pending = some slot →
      ∃ earlier put since, before = earlier ++ put :: since ∧ put.act = .defer slot.tokens ∧
        put.pending = none ∧ ∀ other ∈ since, other.pending = some slot) ∧
    (∀ before abandoned between moment after terminal slot,
      (aligner.run root cursor supply).2.moments =
        before ++ abandoned :: between ++ moment :: after →
      abandoned.act = .abandon terminal → moment.pending = some slot →
      ∃ put ∈ between, put.act = .defer slot.tokens ∧ put.pending = none) ∧
    ∀ alignment, (aligner.run root cursor supply).1 = .ok alignment →
      ∃ before last spelling,
        (aligner.run root cursor supply).2.moments = before ++ [last] ∧
        last.frame.path = .root root ∧ last.act = .finish spelling ∧
        alignment.root.tokens = spelling.tokens ++ last.slot := by
  have hempty : ∀ moment ∈ (aligner.run root cursor supply).2.moments,
      moment.act.NeedsEmptySlot → moment.pending = none := by
    intro moment hmem
    exact (aligner.orderly_run root cursor supply).journal.empty_of_mem (List.mem_reverse.mp hmem)
  refine ⟨hempty, fun _ _ _ _ _ => held_of_run, ?_, ?_, fun alignment => moments_of_run⟩
  · intro before moment after slot hsplit hfull
    obtain ⟨since, put, earlier, hbefore, hact, hnone, hsince⟩ :=
      (waiting_of_run hsplit hfull).exists_put
    refine ⟨earlier.reverse, put, since.reverse, ?_, hact, hnone, ?_⟩
    · rw [← List.reverse_reverse before, hbefore]
      simp
    · intro other hmem
      exact hsince other (List.mem_reverse.mp hmem)
  · intro before abandoned between moment after terminal slot hsplit hact hfull
    have hwaiting := waiting_of_run hsplit hfull
    have habandoned : abandoned.pending = none := by
      apply hempty abandoned
      · rw [hsplit]
        simp
      · rw [hact]
        trivial
    rw [List.reverse_append, List.reverse_cons, List.append_assoc] at hwaiting
    obtain ⟨put, hmem, hput⟩ := hwaiting.exists_put_after habandoned (by simp [hact])
    exact ⟨put, List.mem_reverse.mp hmem, hput⟩

end Aligner

end TreeAlign
