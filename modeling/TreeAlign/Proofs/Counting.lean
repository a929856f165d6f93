import TreeAlign.Proofs.Grammar.Settled
import TreeAlign.Proofs.Matching.Accounting
import TreeAlign.Proofs.Resolved

/-!
# Leaves that are counted while a match is running

The position in attached tokens moves past a child by the number of its
leaves, and these are counted when the child has just been stored. In an
acyclic store counting and listing leaves follow the same references to the
same end, so the count is the length of the list.

Later entries change neither. A child is stored only after the children that
its references stand for, so its leaves are there at that moment. As long as
no identity is recorded twice, all later stores lead where the earlier ones
led, whichever attempt has made the entries, and the leaves of the child
stay what they were.
-/

namespace TreeAlign

namespace Subtrees

variable {subtrees later : Subtrees}

namespace Acyclic

theorem settles (h : subtrees.Acyclic) (spelling : Spelling) :
    subtrees.Settles subtrees.size spelling :=
  (h.endsWithin spelling.tokens).settles

/-- In an acyclic store the leaves are found by replacing every reference by the leaves of its
child. -/
theorem leaves_eq (h : subtrees.Acyclic) (spelling : Spelling) :
    subtrees.leaves spelling = spelling.tokens.flatMap fun token =>
      match subtrees.child? token with
      | some child => subtrees.leaves child
      | none => [token] :=
  ((h.settles spelling).leaves (subtrees.size + 1) (Nat.le_succ _)).symm

/-- In an acyclic store the leaves are counted by adding up the counts of the children, and one for
every other token. -/
theorem leafCount_eq (h : subtrees.Acyclic) (spelling : Spelling) :
    subtrees.leafCount spelling = total (fun token =>
      match subtrees.child? token with
      | some child => subtrees.leafCount child
      | none => 1) spelling.tokens :=
  ((h.settles spelling).leafCount (subtrees.size + 1) (Nat.le_succ _)).symm

end Acyclic

theorem leafCount_eq_length (subtrees : Subtrees) (spelling : Spelling) :
    subtrees.leafCount spelling = (subtrees.leaves spelling).length :=
  leafCountWithin_eq_length _ _ _

/-- Every stored spelling has leaves: its references can be followed to an end in the store. -/
def Grounded (subtrees : Subtrees) : Prop :=
  ∀ token spelling, subtrees.get? token = some spelling →
    ∃ leaves, subtrees.Expands spelling.tokens leaves

namespace Grounded

theorem empty : Subtrees.empty.Grounded := by
  intro token spelling h
  simp [get?, Subtrees.empty] at h

/-- Tokens whose references are stored have leaves. -/
theorem exists_leaves (h : subtrees.Grounded) {tokens : List Token}
    (knows : subtrees.Knows tokens) : ∃ leaves, subtrees.Expands tokens leaves := by
  induction tokens with
  | nil => exact ⟨[], .nil⟩
  | cons token rest ih =>
      obtain ⟨leaves, hleaves⟩ := ih (knows.subset (List.subset_cons_self ..))
      cases hreference : token.isReference with
      | false => exact ⟨token :: leaves, .leaf hreference hleaves⟩
      | true =>
          obtain ⟨spelling, stored⟩ := knows token (List.mem_cons_self ..) hreference
          obtain ⟨inner, hinner⟩ := h token spelling stored
          exact ⟨inner ++ leaves, .child hreference stored hinner hleaves⟩

/-- A spelling whose references are stored may be stored next, if nothing is replaced by it. -/
theorem insert (h : subtrees.Grounded) {reference : Token} {spelling : Spelling}
    (knows : subtrees.Knows spelling.tokens)
    (kept : (subtrees.insert reference spelling).Extends subtrees) :
    (subtrees.insert reference spelling).Grounded := by
  intro token found hget
  rw [get?_insert] at hget
  split at hget
  · cases hget
    obtain ⟨leaves, hleaves⟩ := h.exists_leaves knows
    exact ⟨leaves, hleaves.mono kept⟩
  · obtain ⟨leaves, hleaves⟩ := h token found hget
    exact ⟨leaves, hleaves.mono kept⟩

/-- What is stored keeps its leaves in every store that leads where this one led. -/
theorem leaves_eq (h : subtrees.Grounded) (grown : later.Extends subtrees) {token : Token}
    {spelling : Spelling} (stored : subtrees.get? token = some spelling) :
    later.leaves spelling = subtrees.leaves spelling := by
  obtain ⟨leaves, hleaves⟩ := h token spelling stored
  rw [hleaves.leaves_eq, (hleaves.mono grown).leaves_eq]

end Grounded

end Subtrees

namespace Progress

variable {τ σ ρ : Type} {progress before after : Progress τ σ ρ}

/-- In the present store and in those of all moments, everything that is stored has leaves. -/
structure Grounded (progress : Progress τ σ ρ) : Prop where
  present : progress.subtrees.Grounded
  past : ∀ moment ∈ progress.journal, moment.subtrees.Grounded

namespace Grounded

theorem start (supply : Nat) : ({ supply } : Progress τ σ ρ).Grounded :=
  ⟨.empty, by simp⟩

theorem note (h : progress.Grounded) (frame : Frame σ ρ) (act : Act τ) :
    (progress.note frame act).Grounded :=
  ⟨h.present, List.forall_mem_cons.mpr ⟨h.present, h.past⟩⟩

/-- A move keeps the leaves of everything, if what it records has known references only and the
store loses nothing. -/
theorem move (h : progress.Grounded) (move : progress.Move after)
    (resolved : ∀ moment ∈ after.journal, moment.Resolved)
    (kept : after.subtrees.Extends progress.subtrees) : after.Grounded := by
  cases move with
  | note frame _ _ => exact h.note frame _
  | claim => exact ⟨h.present, h.past⟩
  | draw found => exact ⟨h.present, h.past⟩
  | defer frame tokens terminal _ =>
      have hnote := h.note frame (.defer tokens)
      have hdefer : ((progress.note frame (.defer tokens)).defer tokens terminal).Grounded :=
        ⟨hnote.present, hnote.past⟩
      exact hdefer.note frame (.pass terminal tokens)
  | record frame reference spelling =>
      have hrecorded := resolved _ (List.mem_cons_self ..)
      have hknows : progress.subtrees.Knows spelling.tokens :=
        hrecorded.recorded reference spelling rfl
      exact ⟨h.present.insert hknows kept, (h.note frame (.record reference spelling)).past⟩

end Grounded

/-- Where no identity was recorded twice and all references are known when they are recorded, every
store of a match is grounded. -/
theorem Leads.grounded (h : before.Leads after) (booked : before.Booked)
    (start : before.Grounded) (once : after.RecordsOnce)
    (resolved : ∀ moment ∈ after.journal, moment.Resolved) : after.Grounded := by
  have hkept : after.Booked ∧ (after.RecordsOnce →
      (∀ moment ∈ after.journal, moment.Resolved) → after.Grounded) := by
    apply h.keeps
    · rintro first second move ⟨hbooked, hfirst⟩
      have hlater := hbooked.later move
      refine ⟨hlater.booked, fun honce hresolved => ?_⟩
      have hgrounded := hfirst (honce.earlier hlater.noted)
        fun moment hmem => hresolved moment (hlater.noted.subset hmem)
      exact hgrounded.move move hresolved (hlater.kept honce)
    · exact ⟨booked, fun _ _ => start⟩
  exact hkept.2 once resolved

end Progress

namespace Aligner

/-- The leaf count is the number of leaves. In an acyclic store counting and listing leaves follow
every reference to its end, and the count is the length of the list. In a match that records no
identity twice and emits no references but those that its offers have found, the leaves of a stored
child are at every moment those that it has in the aligned tree, and so is their count, by which
positions in attached tokens move. -/
theorem leafCount_is_stable :
    (∀ subtrees : Subtrees, subtrees.Acyclic → ∀ spelling,
      (subtrees.leaves spelling = spelling.tokens.flatMap fun token =>
        match subtrees.child? token with
        | some child => subtrees.leaves child
        | none => [token]) ∧
      (subtrees.leafCount spelling = total (fun token =>
        match subtrees.child? token with
        | some child => subtrees.leafCount child
        | none => 1) spelling.tokens) ∧
      subtrees.leafCount spelling = (subtrees.leaves spelling).length) ∧
    ∀ {ρ : Type} (aligner : Aligner Stock ρ), aligner.grammar.Emits Token.Own →
      ∀ (root : Node Token) (cursor : Input) (supply : Nat) (alignment : Alignment)
        (progress : Progress Stock Input ρ),
      aligner.run root cursor supply = (.ok alignment, progress) → progress.RecordsOnce →
      ∀ moment ∈ progress.moments, ∀ reference spelling,
        moment.subtrees.get? reference = some spelling →
        alignment.subtrees.get? reference = some spelling ∧
        moment.subtrees.leaves spelling = alignment.leavesOf spelling ∧
        moment.subtrees.leafCount spelling = (alignment.leavesOf spelling).length ∧
        (reference.isReference = true → spelling.extent.medium ≠ .tokens →
          TokenCursor.leavesOf moment.subtrees reference =
            (alignment.leavesOf spelling).length) := by
  refine ⟨?_, ?_⟩
  · intro subtrees hacyclic spelling
    exact ⟨hacyclic.leaves_eq spelling, hacyclic.leafCount_eq spelling,
      subtrees.leafCount_eq_length spelling⟩
  · intro ρ aligner emits root cursor supply alignment progress h once moment hmoment reference
      spelling stored
    obtain ⟨hresolved, hroot⟩ := resolved_run emits h
    have hleads := aligner.leads_of_run root cursor supply
    rw [h] at hleads
    have hbooked : ({ supply } : Progress Stock Input ρ).Booked := Progress.booked_start supply
    have hgrounded := hleads.grounded hbooked (.start supply) once hresolved.moments
    obtain ⟨hextends, _⟩ := hleads.tracks_extends hbooked (.start supply)
      (by simp [Progress.Answers]) once
    have hjournal := List.mem_reverse.mp hmoment
    have hgrown : alignment.subtrees.Extends moment.subtrees := by
      rw [(hroot alignment rfl).1]
      exact hextends.present moment hjournal
    have hleaves : alignment.leavesOf spelling = moment.subtrees.leaves spelling :=
      (hgrounded.past moment hjournal).leaves_eq hgrown stored
    have hcount : moment.subtrees.leafCount spelling = (alignment.leavesOf spelling).length := by
      rw [hleaves]
      exact moment.subtrees.leafCount_eq_length spelling
    refine ⟨hgrown reference spelling stored, hleaves.symm, hcount, ?_⟩
    intro hreference hmedium
    rw [TokenCursor.leavesOf_eq_leafCount hreference stored hmedium]
    exact hcount

/-- A sum with attached tokens. Its left side is a group with a name in it, and has only a range. -/
def recountedSum : Node Token :=
  ⟨"Sum", [("left", .node ⟨"Group", [("inner", .node ⟨"Name", [], none, none⟩)], some ⟨0, 3⟩, none⟩)],
    none, some [⟨.reference "left", 0⟩, ⟨⟨"Punctuator", "+"⟩, 1⟩]⟩

/-- The grammar of such sums. -/
def recountedSumAligner : Aligner Stock ByName where
  grammar := .demanding
    [("Group", [[.punctuator "(", .reference "inner"], [.punctuator ")"]]),
      ("Name", [[.identifier "a"]]), ("Sum", [[.reference "left", .punctuator "+"]])]
  resolver := .byName

/-- The group is read from the text after all. When the sum moves past it, three leaves are counted,
and it has three in the end. -/
theorem leafCount_is_stable_recountedSum :
    ∃ alignment progress,
      recountedSumAligner.run recountedSum
          (Input.tokens ((TokenCursor.ofNode recountedSum).withText "(a)+".toList)) 2 =
        (.ok alignment, progress) ∧
      progress.RecordsOnce ∧ alignment.root.extent = ⟨.tokens, 0, 4⟩ ∧
      ∃ moment ∈ progress.moments, ∃ spelling,
        moment.subtrees.get? ⟨.reference "left", 0⟩ = some spelling ∧
        spelling.extent.medium = .text ∧ moment.subtrees.leafCount spelling = 3 ∧
        moment.subtrees.leaves spelling = alignment.leavesOf spelling ∧
        (alignment.leavesOf spelling).length = 3 := by
  have hrun : ((recountedSumAligner.run recountedSum
      (Input.tokens ((TokenCursor.ofNode recountedSum).withText "(a)+".toList)) 2).1.toOption.map
      fun alignment => alignment.root.extent) = some ⟨.tokens, 0, 4⟩ := by
    decide +kernel
  have honce : (recountedSumAligner.run recountedSum
      (Input.tokens ((TokenCursor.ofNode recountedSum).withText "(a)+".toList))
      2).2.RecordsOnce := by
    unfold Progress.RecordsOnce
    decide +kernel
  have hcounted : ((recountedSumAligner.run recountedSum
      (Input.tokens ((TokenCursor.ofNode recountedSum).withText "(a)+".toList))
      2).2.moments.any fun moment =>
        ((moment.subtrees.get? ⟨.reference "left", 0⟩).map fun spelling =>
          (spelling.extent.medium, moment.subtrees.leafCount spelling)) == some (.text, 3)) =
      true := by
    decide +kernel
  obtain ⟨alignment, hfound, hextent⟩ := Option.map_eq_some_iff.mp hrun
  obtain ⟨moment, hmoment, hany⟩ := List.any_eq_true.mp hcounted
  obtain ⟨spelling, hget, hvalues⟩ := Option.map_eq_some_iff.mp (beq_iff_eq.mp hany)
  simp only [Prod.mk.injEq] at hvalues
  have hemits : recountedSumAligner.grammar.Emits Token.Own :=
    (Grammar.takesOnly_demanding _).emits _
  obtain ⟨_, hleaves, hcount, _⟩ := leafCount_is_stable.2 recountedSumAligner hemits recountedSum _ 2
    alignment _ (Prod.ext (eq_ok_of_toOption hfound) rfl) honce moment hmoment _ spelling hget
  refine ⟨alignment, _, Prod.ext (eq_ok_of_toOption hfound) rfl, honce, hextent, moment, hmoment,
    spelling, hget, hvalues.1, hvalues.2, hleaves, ?_⟩
  rw [← hcount]
  exact hvalues.2

end Aligner

end TreeAlign
