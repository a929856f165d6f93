import TreeAlign.Proofs.Matching.Moves
import TreeAlign.Proofs.Matching.Weave

/-!
# Children that are stored once

A match on attached tokens stores children under identities that come from
the outside, and the same token may stand in several lists. The journal
tells under which identities children were stored. When no identity occurs
in it twice, nothing in the store is ever replaced, and a later store leads
wherever an earlier one led, also across attempts that were given up.

The journal also tells what a child has left in the slot and how many tokens
of its list it has read, which its spelling does not. With that the tokens
are known that the child was read from.

## Implementation notes

The last moment of a child stands right before the moment in which the child
is stored, and its cursor is where the child has stopped reading.
-/

namespace TreeAlign

variable {τ σ ρ : Type}

/-- The identity under which a child is stored at a moment. -/
def Moment.recorded? (moment : Moment τ σ ρ) : Option Nat :=
  match moment.act with
  | .record reference _ => some reference.id
  | _ => none

namespace Progress

/-- The identities under which children were stored, the latest first. -/
def recorded (progress : Progress τ σ ρ) : List Nat :=
  progress.journal.filterMap Moment.recorded?

/-- No two children were stored under one identity. -/
def RecordsOnce (progress : Progress τ σ ρ) : Prop :=
  progress.recorded.Nodup

/-- All identities in the store are those of children that the journal tells of. -/
def Booked (progress : Progress τ σ ρ) : Prop :=
  ∀ token spelling, progress.subtrees.get? token = some spelling → token.id ∈ progress.recorded

variable {progress before after : Progress τ σ ρ}

theorem booked_start (supply : Nat) : ({ supply } : Progress τ σ ρ).Booked := by
  intro token spelling h
  simp [Subtrees.get?, Subtrees.empty] at h

theorem recorded_suffix (noted : before.journal <:+ after.journal) :
    before.recorded <:+ after.recorded :=
  noted.filterMap _

/-- What holds of a whole match holds of each of its states. -/
theorem RecordsOnce.earlier (h : after.RecordsOnce) (noted : before.journal <:+ after.journal) :
    before.RecordsOnce :=
  List.Nodup.sublist (recorded_suffix noted).sublist h

/-- An identity that was not recorded is free in the store. -/
theorem Booked.get?_eq_none (h : progress.Booked) {reference : Token}
    (new : reference.id ∉ progress.recorded) : progress.subtrees.get? reference = none := by
  cases hget : progress.subtrees.get? reference with
  | none => rfl
  | some spelling => exact absurd (h reference spelling hget) new

theorem Booked.record (h : progress.Booked) (frame : Frame σ ρ) (reference : Token)
    (spelling : Spelling) :
    ((progress.note frame (.record reference spelling)).record reference spelling).Booked := by
  intro token found hget
  change token.id ∈ reference.id :: progress.recorded
  change (progress.subtrees.insert reference spelling).get? token = some found at hget
  rw [Subtrees.get?_insert] at hget
  split at hget
  · next hid => exact List.mem_cons.mpr (Or.inl hid.symm)
  · exact List.mem_cons_of_mem _ (h token found hget)

/-- A later state of a match, in which nothing was replaced if no identity was recorded twice. -/
structure Later (before after : Progress τ σ ρ) : Prop where
  booked : after.Booked
  noted : before.journal <:+ after.journal
  kept : after.RecordsOnce → after.subtrees.Extends before.subtrees

theorem Later.refl (booked : progress.Booked) : progress.Later progress :=
  ⟨booked, List.suffix_rfl, fun _ => .refl _⟩

theorem Later.trans {middle : Progress τ σ ρ} (h : before.Later middle)
    (h' : middle.Later after) : before.Later after where
  booked := h'.booked
  noted := h.noted.trans h'.noted
  kept once := (h'.kept once).trans (h.kept (once.earlier h'.noted))

theorem Booked.later_note (h : progress.Booked) (frame : Frame σ ρ) (act : Act τ) :
    progress.Later (progress.note frame act) where
  booked := by
    intro token spelling hget
    have hsuffix : progress.recorded <:+ (progress.note frame act).recorded :=
      recorded_suffix (List.suffix_cons _ _)
    exact hsuffix.subset (h token spelling hget)
  noted := List.suffix_cons _ _
  kept _ := .refl _

theorem Booked.later_record (h : progress.Booked) (frame : Frame σ ρ) (reference : Token)
    (spelling : Spelling) :
    progress.Later
      ((progress.note frame (.record reference spelling)).record reference spelling) where
  booked := h.record frame reference spelling
  noted := List.suffix_cons _ _
  kept once := by
    have hnew : reference.id ∉ progress.recorded := (List.nodup_cons.mp once).1
    exact Subtrees.extends_insert (h.get?_eq_none hnew) spelling

theorem Booked.later_defer (h : progress.Booked) (frame : Frame σ ρ) (tokens : List Token)
    (terminal : τ) :
    progress.Later ((progress.note frame (.defer tokens)).defer tokens terminal) :=
  ⟨h, List.suffix_cons _ _, fun _ => .refl _⟩

/-- A move leads to a later state. -/
theorem Booked.later (h : progress.Booked) (move : progress.Move after) :
    progress.Later after := by
  cases move with
  | note frame _ _ => exact h.later_note frame _
  | claim => exact ⟨h, List.suffix_rfl, fun _ => .refl _⟩
  | draw found => exact ⟨h, List.suffix_rfl, fun _ => .refl _⟩
  | defer frame tokens terminal _ =>
      have hdefer := h.later_defer frame tokens terminal
      exact hdefer.trans (hdefer.booked.later_note frame (.pass terminal tokens))
  | record frame reference spelling => exact h.later_record frame reference spelling

theorem Leads.later (h : before.Leads after) (booked : before.Booked) : before.Later after := by
  apply h.keeps
  · intro first second move hfirst
    exact hfirst.trans (hfirst.booked.later move)
  · exact .refl booked

end Progress

namespace Subtrees

/-- The store in which every spelling has other tokens, given by its identity and itself. -/
def retold (subtrees : Subtrees) (tokensOf : Nat → Spelling → List Token) : Subtrees :=
  ⟨subtrees.entries.map fun entry =>
    (entry.1, { entry.2 with tokens := tokensOf entry.1.id entry.2 })⟩

theorem get?_retold (subtrees : Subtrees) (tokensOf : Nat → Spelling → List Token)
    (token : Token) :
    (subtrees.retold tokensOf).get? token =
      (subtrees.get? token).map fun spelling =>
        { spelling with tokens := tokensOf token.id spelling } := by
  obtain ⟨entries⟩ := subtrees
  simp only [retold, get?]
  induction entries with
  | nil => rfl
  | cons entry rest ih =>
      by_cases h : entry.1.id = token.id
      · simp [Token.same, h]
      · simpa [Token.same, h] using ih

end Subtrees

/-- The number of tokens that the frame of a moment has read of its list. -/
def Moment.read (moment : Moment τ Input ρ) : Nat :=
  match moment.frame.cursor with
  | .tokens reading => reading.index
  | _ => 0

/-- What the journal tells of a child that was stored. -/
structure Receipt where
  /-- What the child left in the slot. -/
  slot : List Token
  /-- How many tokens of its list the child had read. -/
  read : Nat

/-- The tokens that a child was read from: the first of its own list, or those it is spelled with
if it was read from something else. -/
def Receipt.source (receipt : Receipt) (spelling : Spelling) : List Token :=
  match spelling.extent.medium with
  | .tokens => (spelling.node.tokens.getD []).take receipt.read
  | _ => spelling.tokens

theorem Receipt.source_of_tokens {spelling : Spelling} (h : spelling.extent.medium = .tokens)
    (receipt : Receipt) :
    receipt.source spelling = (spelling.node.tokens.getD []).take receipt.read := by
  rw [source, h]

theorem Receipt.source_of_text {spelling : Spelling} (h : spelling.extent.medium = .text)
    (receipt : Receipt) : receipt.source spelling = spelling.tokens := by
  rw [source, h]

namespace Progress

/-- The number of tokens read at the latest of the given moments. -/
def readAt : List (Moment τ Input ρ) → Nat
  | [] => 0
  | moment :: _ => moment.read

/-- What the given moments, the latest first, tell of the child stored under the identity. -/
def receiptIn (id : Nat) : List (Moment τ Input ρ) → Receipt
  | [] => ⟨[], 0⟩
  | moment :: earlier =>
    if moment.recorded? = some id then ⟨moment.slot, readAt earlier⟩ else receiptIn id earlier

/-- What the journal tells of the child stored under the identity. -/
def receipt (progress : Progress τ Input ρ) (id : Nat) : Receipt :=
  receiptIn id progress.journal

/-- The store in which children have the tokens that they were read from. -/
def source (progress : Progress τ Input ρ) : Subtrees :=
  progress.subtrees.retold fun id spelling => (progress.receipt id).source spelling

variable {before after progress : Progress τ Input ρ}

theorem receiptIn_append {id : Nat} {later : List (Moment τ Input ρ)}
    (h : id ∉ later.filterMap Moment.recorded?) (earlier : List (Moment τ Input ρ)) :
    receiptIn id (later ++ earlier) = receiptIn id earlier := by
  induction later with
  | nil => rfl
  | cons moment rest ih =>
      have hmoment : moment.recorded? ≠ some id := by
        intro hrecorded
        exact h (List.mem_filterMap.mpr ⟨moment, List.mem_cons_self .., hrecorded⟩)
      have hrest : id ∉ rest.filterMap Moment.recorded? := by
        intro hmem
        obtain ⟨other, hother, hrecorded⟩ := List.mem_filterMap.mp hmem
        exact h (List.mem_filterMap.mpr ⟨other, List.mem_cons_of_mem _ hother, hrecorded⟩)
      rw [List.cons_append, receiptIn, if_neg hmoment, ih hrest]

/-- Later moments tell nothing new of a child that was stored before. -/
theorem receipt_eq (noted : before.journal <:+ after.journal) (once : after.RecordsOnce) {id : Nat}
    (mem : id ∈ before.recorded) : after.receipt id = before.receipt id := by
  obtain ⟨later, hjournal⟩ := noted
  have hnodup : (later.filterMap Moment.recorded? ++ before.recorded).Nodup := by
    rw [recorded, ← List.filterMap_append, hjournal]
    exact once
  have hnew : id ∉ later.filterMap Moment.recorded? := by
    intro hmem
    exact (List.nodup_append.mp hnodup).2.2 id hmem id mem rfl
  rw [receipt, ← hjournal, receiptIn_append hnew]
  rfl

/-- The receipt of a child that has just been stored. -/
theorem receipt_record (progress : Progress τ Input ρ) (frame : Frame Input ρ) (reference : Token)
    (spelling : Spelling) :
    ((progress.note frame (.record reference spelling)).record reference spelling).receipt
      reference.id = ⟨progress.pendingTokens, readAt progress.journal⟩ := by
  rw [receipt]
  exact if_pos rfl

theorem get?_source {reference : Token} {spelling : Spelling}
    (h : progress.subtrees.get? reference = some spelling) :
    progress.source.get? reference =
      some { spelling with tokens := (progress.receipt reference.id).source spelling } := by
  rw [source, Subtrees.get?_retold, h]
  rfl

/-- What children were read from stays as it is while identities are stored once. -/
theorem Later.source_extends (later : before.Later after) (booked : before.Booked)
    (once : after.RecordsOnce) : after.source.Extends before.source := by
  intro token found h
  rw [source, Subtrees.get?_retold] at h
  obtain ⟨spelling, hget, rfl⟩ := Option.map_eq_some_iff.mp h
  rw [get?_source (later.kept once token spelling hget),
    receipt_eq later.noted once (booked token spelling hget)]

end Progress

end TreeAlign
