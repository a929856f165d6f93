import TreeAlign.Proofs.Matching.Chronicle
import TreeAlign.Proofs.Matching.Probing
import TreeAlign.Proofs.Spelling.Ending

/-!
# References lead somewhere

A reference is collected only after its child has been stored, and the slot
holds white space only. So as long as a grammar emits no references but
those that an offer of the same procedure has found, every reference that
any attempt has collected, and every reference in a stored spelling, leads
to a spelling, at every moment of a match and whatever becomes of the
attempt. Where following the references of an aligned tree ends, none is
left among its leaves.
-/

namespace TreeAlign

variable {ρ : Type}

namespace Subtrees

/-- Every reference among the tokens leads to a spelling. -/
def Knows (subtrees : Subtrees) (tokens : List Token) : Prop :=
  ∀ token ∈ tokens, token.isReference = true → ∃ spelling, subtrees.get? token = some spelling

/-- Every reference in a stored spelling leads to a spelling. -/
def Closed (subtrees : Subtrees) : Prop :=
  ∀ token spelling, subtrees.get? token = some spelling → subtrees.Knows spelling.tokens

variable {subtrees later : Subtrees} {tokens more : List Token}

theorem knows_of_plain (plain : Token.Plain tokens) : subtrees.Knows tokens := by
  intro token hmem hreference
  exact absurd hreference (by simp [plain token hmem])

theorem Knows.subset (h : subtrees.Knows more) (subset : tokens ⊆ more) : subtrees.Knows tokens :=
  fun token hmem => h token (subset hmem)

theorem Knows.append (h : subtrees.Knows tokens) (h' : subtrees.Knows more) :
    subtrees.Knows (tokens ++ more) := by
  intro token hmem
  rcases List.mem_append.mp hmem with hmem | hmem
  · exact h token hmem
  · exact h' token hmem

theorem Knows.mono (h : subtrees.Knows tokens) (covers : later.Covers subtrees) :
    later.Knows tokens := by
  intro token hmem hreference
  obtain ⟨spelling, hget⟩ := h token hmem hreference
  exact covers token spelling hget

theorem knows_insert (subtrees : Subtrees) (token : Token) (spelling : Spelling) :
    (subtrees.insert token spelling).Knows [token] := by
  intro other hmem _
  obtain rfl := List.mem_singleton.mp hmem
  exact ⟨spelling, get?_insert_self _ _ _⟩

theorem closed_empty : empty.Closed := by
  intro token spelling h
  simp [get?, empty] at h

theorem Closed.insert (h : subtrees.Closed) {spelling : Spelling}
    (knows : subtrees.Knows spelling.tokens) (token : Token) :
    (subtrees.insert token spelling).Closed := by
  intro other found hget
  have hcovers := covers_insert subtrees token spelling
  rw [get?_insert] at hget
  split at hget
  · cases hget
    exact knows.mono hcovers
  · exact (h other found hget).mono hcovers

/-- Known references that can be followed to an end have leaves. -/
theorem EndsWithin.exists_leaves {levels : Nat} (h : subtrees.EndsWithin levels tokens)
    (knows : subtrees.Knows tokens) (closed : subtrees.Closed) :
    ∃ leaves, subtrees.Expands tokens leaves := by
  induction levels generalizing tokens with
  | zero =>
      refine ⟨tokens, .of_plain ?_⟩
      intro token hmem
      cases hreference : token.isReference with
      | false => rfl
      | true =>
          obtain ⟨spelling, hget⟩ := knows token hmem hreference
          have hchild := child?_eq_some_iff.mpr ⟨hreference, hget⟩
          exact absurd (h token hmem) (by simp [hchild])
  | succ levels ih =>
      induction tokens with
      | nil => exact ⟨[], .nil⟩
      | cons token rest ihrest =>
          have hsubset : rest ⊆ token :: rest := List.subset_cons_self ..
          obtain ⟨leaves, hleaves⟩ := ihrest (fun other hmem => h other (hsubset hmem))
            (knows.subset hsubset)
          cases hreference : token.isReference with
          | false => exact ⟨token :: leaves, .leaf hreference hleaves⟩
          | true =>
              obtain ⟨spelling, hget⟩ := knows token (List.mem_cons_self ..) hreference
              have hchild := child?_eq_some_iff.mpr ⟨hreference, hget⟩
              obtain ⟨inner, hinner⟩ := ih (h token (List.mem_cons_self ..) spelling hchild)
                (closed token spelling hget)
              exact ⟨inner ++ leaves, .child hreference hget hinner hleaves⟩

end Subtrees

theorem Frame.Fits.knows {σ : Type} {frame : Frame σ ρ} {path : Ancestry} {held outer : List Token}
    {subtrees : Subtrees} (fits : frame.Fits path held) (h : subtrees.Knows (outer ++ held)) :
    subtrees.Knows frame.tokens :=
  h.subset (List.subset_append_of_subset_right outer fits.tokens)

/-- At the moment, all references that were collected lead to spellings: those of the frame, those of
a node that is finished or recorded, and those of all stored spellings. -/
structure Moment.Resolved {τ σ : Type} (moment : Moment τ σ ρ) : Prop where
  tokens : moment.subtrees.Knows moment.frame.tokens
  slot : Token.Plain moment.slot
  finished : ∀ spelling, moment.act = .finish spelling → moment.subtrees.Knows spelling.tokens
  recorded : ∀ reference spelling, moment.act = .record reference spelling →
    moment.subtrees.Knows spelling.tokens
  store : moment.subtrees.Closed

/-- At all moments so far, and now, the references lead to spellings. -/
structure Progress.Resolved {τ σ : Type} (progress : Progress τ σ ρ) : Prop where
  moments : ∀ moment ∈ progress.journal, moment.Resolved
  slot : Token.Plain progress.pendingTokens
  store : progress.subtrees.Closed

namespace Progress.Resolved

variable {τ σ : Type} {progress : Progress τ σ ρ}

theorem start (supply : Nat) : ({ supply } : Progress τ σ ρ).Resolved :=
  ⟨by simp, Token.plain_nil, Subtrees.closed_empty⟩

theorem note (h : progress.Resolved) {frame : Frame σ ρ} {act : Act τ}
    (tokens : progress.subtrees.Knows frame.tokens)
    (finished : ∀ spelling, act = .finish spelling → progress.subtrees.Knows spelling.tokens)
    (recorded : ∀ reference spelling, act = .record reference spelling →
      progress.subtrees.Knows spelling.tokens) : (progress.note frame act).Resolved :=
  ⟨List.forall_mem_cons.mpr ⟨⟨tokens, h.slot, finished, recorded, h.store⟩, h.moments⟩,
    h.slot, h.store⟩

/-- An act other than these two tells of no spelling. -/
theorem note_other (h : progress.Resolved) {frame : Frame σ ρ} {act : Act τ}
    (tokens : progress.subtrees.Knows frame.tokens)
    (finishes : ∀ spelling, act ≠ .finish spelling)
    (records : ∀ reference spelling, act ≠ .record reference spelling) :
    (progress.note frame act).Resolved :=
  h.note tokens (fun _ hact => absurd hact (finishes _)) fun _ _ hact => absurd hact (records _ _)

theorem draw (h : progress.Resolved) (found : Found) : (progress.draw found).Resolved :=
  ⟨h.moments, h.slot, h.store⟩

theorem claimed (h : progress.Resolved) : progress.claimed.Resolved :=
  ⟨h.moments, Token.plain_nil, h.store⟩

theorem defer (h : progress.Resolved) {tokens : List Token} (plain : Token.Plain tokens)
    (terminal : τ) : (progress.defer tokens terminal).Resolved :=
  ⟨h.moments, plain, h.store⟩

theorem record (h : progress.Resolved) {spelling : Spelling}
    (knows : progress.subtrees.Knows spelling.tokens) (reference : Token) :
    (progress.record reference spelling).Resolved :=
  ⟨h.moments, h.slot, h.store.insert knows reference⟩

end Progress.Resolved

namespace Aligner

variable {aligner : Aligner Stock ρ} {matchChild : MatchChild Stock Input ρ}

/-- A way to match nodes that collects known references only, and leaves those known that are. -/
def Resolves (matchChild : MatchChild Stock Input ρ) : Prop :=
  ∀ path cursor (progress : Progress Stock Input ρ) outer, progress.Resolved →
    progress.subtrees.Knows outer →
    (matchChild path cursor progress).Ends (fun _ after => after.Resolved) fun spelling after =>
      after.Resolved ∧ after.subtrees.Knows (outer ++ spelling.tokens)

/-- While a node is matched, all that its attempts hold is known, and so is what is held outside. -/
theorem Resolves.upholds (resolves : Resolves matchChild) (path : Ancestry) (outer : List Token) :
    aligner.Upholds matchChild path Token.Own
      (fun _ progress => progress.Resolved ∧ progress.subtrees.Knows outer)
      (fun held _ progress => progress.Resolved ∧ progress.subtrees.Knows (outer ++ held))
      fun _ progress => progress.Resolved where
  begin h := by
    refine ⟨h.1.note_other (Subtrees.knows_of_plain Token.plain_nil) (by simp) (by simp), ?_⟩
    rw [List.append_nil]
    exact h.2
  note {held progress frame act} h fits inner := by
    have hframe := fits.knows h.2
    refine ⟨h.1.note hframe ?_ ?_, h.2⟩
    · rintro spelling rfl
      rw [inner.2]
      exact hframe
    · rintro reference spelling rfl
      exact inner.elim
  claim {held cursor progress} h := by
    refine ⟨h.1.claimed, ?_⟩
    rw [← List.append_assoc]
    exact h.2.append (Subtrees.knows_of_plain h.1.slot)
  draw h _ _ := ⟨h.1.draw _, h.2⟩
  plain {held cursor progress terminal found} h probe notReference _ := by
    refine ⟨h.1.draw _, ?_⟩
    rw [← List.append_assoc]
    exact h.2.append (Subtrees.knows_of_plain (Input.plain_of_probe probe notReference _))
  separator {held progress frame terminal found} h fits probe notReference _ := by
    refine ⟨Progress.Resolved.defer ?_ (Input.plain_of_probe probe notReference _) terminal, h.2⟩
    exact (h.1.draw found).note_other (fits.knows h.2) (by simp) (by simp)
  child {held progress frame terminal found reference more route node}
      h fits _ _ _ _ _ := by
    have henter : ((progress.draw found).note frame (.descend reference route)).Resolved :=
      (h.1.draw found).note_other (fits.knows h.2) (by simp) (by simp)
    apply (resolves _ _ _ (outer ++ held) henter h.2).imp
    rintro spelling after ⟨hafter, hknows⟩
    have hheld := hknows.subset (List.subset_append_left _ _)
    have hspelling := hknows.subset (List.subset_append_right _ _)
    have hrecord : (after.note frame (.record reference spelling)).Resolved := by
      apply hafter.note (fits.knows hheld) (by simp)
      rintro _ _ heq
      cases heq
      exact hspelling
    refine ⟨hrecord.record hspelling reference, ?_⟩
    rw [← List.append_assoc]
    have hcovers := Subtrees.covers_insert after.subtrees reference spelling
    exact (hheld.mono hcovers).append (Subtrees.knows_insert _ _ _)
  emit {known held cursor progress tokens} h hknown own := by
    refine ⟨h.1, ?_⟩
    rw [← List.append_assoc]
    apply h.2.append
    intro token hmem hreference
    have hheld := hknown (own token hmem hreference)
    exact h.2 token (List.mem_append_right _ hheld) hreference
  raise {held progress frame failure} h fits _ :=
    h.1.note_other (fits.knows h.2) (by simp) (by simp)

/-- Every level of a match collects known references only. -/
theorem resolves_matchNode (emits : aligner.grammar.Emits Token.Own) (levels : Nat) :
    Resolves (aligner.matchNode levels) := by
  induction levels with
  | zero =>
      intro path cursor progress outer h _
      exact h.note_other (Subtrees.knows_of_plain Token.plain_nil) (by simp) (by simp)
  | succ levels ih =>
      intro path cursor progress outer h hknows
      rw [matchNode]
      have again : ∀ {held : List Token} {cursor next : Input}
          {progress : Progress Stock Input ρ},
          progress.Resolved ∧ progress.subtrees.Knows (outer ++ held) →
          progress.pending = none → Cursor.fallback cursor = .ok next →
          progress.Resolved ∧ progress.subtrees.Knows outer :=
        fun h _ _ => ⟨h.1, h.2.subset (List.subset_append_left _ _)⟩
      apply ((ih.upholds path outer).restart emits again ⟨h, hknows⟩).imp
      rintro spelling after ⟨start, held, last, fits, hafter, rfl⟩
      refine ⟨hafter.1, hafter.2.subset ?_⟩
      exact List.append_subset.mpr ⟨List.subset_append_left _ _,
        List.subset_append_of_subset_right _ fits.tokens⟩

/-- At all moments of a whole match the references lead to spellings, and so do those of the root in
the end. -/
theorem resolved_run (emits : aligner.grammar.Emits Token.Own) {root : Node Token}
    {cursor : Input} {supply : Nat} {result : Except Failure Alignment}
    {progress : Progress Stock Input ρ}
    (h : aligner.run root cursor supply = (result, progress)) :
    progress.Resolved ∧ ∀ alignment, result = .ok alignment →
      alignment.subtrees = progress.subtrees ∧
        alignment.subtrees.Knows alignment.root.tokens := by
  have hmatch := aligner.resolves_matchNode emits (aligner.limits.maxDepth + 1) (.root root) cursor
    ({ supply } : Progress Stock Input ρ) [] (.start supply)
    (Subtrees.knows_of_plain Token.plain_nil)
  rcases run_ends hmatch with ⟨failure, after, hrun, hafter⟩ | ⟨spelling, after, hrun, hafter⟩
  · rw [hrun] at h
    cases h
    exact ⟨hafter, by simp⟩
  · rw [hrun] at h
    cases h
    refine ⟨hafter.1.claimed, ?_⟩
    rintro alignment heq
    cases heq
    exact ⟨rfl, hafter.2.append (Subtrees.knows_of_plain hafter.1.slot)⟩

/-- Every reference leads to a spelling, and no child is lost. At every moment of a match all
references that were collected lead to spellings, and no later store has lost an identity. Where
everything is new, no later store has replaced anything, and what an identity leads to is what was
recorded under it. No reference is left among the leaves of an aligned tree in which following
references ends. -/
theorem run_references_resolved (aligner : Aligner Stock ρ)
    (emits : aligner.grammar.Emits Token.Own) {root : Node Token} {cursor : Input} {supply : Nat}
    {result : Except Failure Alignment} {progress : Progress Stock Input ρ}
    (h : aligner.run root cursor supply = (result, progress)) :
    (∀ moment ∈ progress.moments, moment.Resolved) ∧
    (progress.moments.Pairwise fun earlier later => later.subtrees.Covers earlier.subtrees) ∧
    (∀ moment ∈ progress.moments, progress.subtrees.Covers moment.subtrees) ∧
    (cursor.Spells →
      (progress.moments.Pairwise fun earlier later => later.subtrees.Extends earlier.subtrees) ∧
      (∀ moment ∈ progress.moments, progress.subtrees.Extends moment.subtrees) ∧
      ∀ token spelling, progress.subtrees.get? token = some spelling ↔
        ∃ moment ∈ progress.moments, ∃ reference, moment.act = .record reference spelling ∧
          reference.id = token.id) ∧
    ∀ alignment, result = .ok alignment →
      alignment.subtrees = progress.subtrees ∧
      alignment.subtrees.Knows alignment.root.tokens ∧ alignment.subtrees.Closed ∧
      ∀ levels, alignment.subtrees.EndsWithin levels alignment.root.tokens →
        ∀ token ∈ alignment.leaves, token.isReference = false := by
  obtain ⟨hresolved, hroot⟩ := resolved_run emits h
  have hleads := aligner.leads_of_run root cursor supply
  rw [h] at hleads
  have hcovers := hleads.tracks_covers (.start supply)
  have hjournal : ∀ {moment}, moment ∈ progress.moments ↔ moment ∈ progress.journal :=
    List.mem_reverse
  refine ⟨fun moment hmem => hresolved.moments moment (hjournal.mp hmem),
    List.pairwise_reverse.mpr hcovers.past,
    fun moment hmem => hcovers.present moment (hjournal.mp hmem), ?_, ?_⟩
  · intro hspells
    have honce := aligner.recordsOnce_run hspells root supply
    rw [h] at honce
    obtain ⟨hextends, hanswers⟩ := hleads.tracks_extends (Progress.booked_start supply)
      (.start supply) (by simp [Progress.Answers]) honce
    refine ⟨List.pairwise_reverse.mpr hextends.past,
      fun moment hmem => hextends.present moment (hjournal.mp hmem), ?_⟩
    intro token spelling
    constructor
    · intro hget
      obtain ⟨moment, hmem, hact⟩ := hleads.told (Progress.told_start supply) token spelling hget
      exact ⟨moment, hjournal.mpr hmem, hact⟩
    · rintro ⟨moment, hmem, reference, hact, hid⟩
      rw [← progress.subtrees.get?_congr hid]
      exact hanswers moment (hjournal.mp hmem) reference spelling hact
  · intro alignment hok
    obtain ⟨hsubtrees, hknows⟩ := hroot alignment hok
    have hclosed : alignment.subtrees.Closed := hsubtrees ▸ hresolved.store
    refine ⟨hsubtrees, hknows, hclosed, ?_⟩
    intro levels hends
    obtain ⟨leaves, hexpands⟩ := hends.exists_leaves hknows hclosed
    have hleaves : alignment.leaves = leaves := hexpands.leaves_eq
    rw [hleaves]
    exact hexpands.isReference_eq_false

/-- Offers the name of a sum and emits what was found. A sign has to follow. -/
def offeredSum : Procedure Stock :=
  .yield (.offer [.reference "left"]) fun reply _ =>
    match reply with
    | .matched tokens =>
      .yield (.emit tokens) fun _ _ => .yield (.take [.punctuator "+"]) fun _ _ => .done
    | _ => .done

/-- The grammar of such sums, and of their names. -/
def offeredSumAligner : Aligner Stock ByName where
  grammar := ⟨[("Name", fun _ _ => .script [.take [.identifier "a"]]),
    ("Sum", fun _ _ => offeredSum)]⟩
  resolver := .byName

theorem emits_offeredSum : offeredSumAligner.grammar.Emits Token.Own := by
  intro type rule h path subtrees
  simp only [Grammar.rule?, offeredSumAligner, Keyed.get?] at h
  split at h
  · obtain rfl := Option.some.inj h
    exact .take fun _ => .done
  · split at h
    · obtain rfl := Option.some.inj h
      exact .offer (fun _ _ => .emit (fun _ hmem _ => hmem) fun _ => .take fun _ => .done)
        fun _ => .done
    · exact absurd h (by simp)

/-- A sum with one name. -/
def offeredSumRoot : Node Token :=
  ⟨"Sum", [("left", .node ⟨"Name", [], none, none⟩)], none, none⟩

/-- The name of the sum is found by an offer and emitted, and its reference leads to it. -/
theorem run_references_resolved_offeredSum :
    ∃ alignment progress,
      offeredSumAligner.run offeredSumRoot (Input.text (.whole "a+".toList)) 0 =
        (.ok alignment, progress) ∧
      alignment.text = "a+" ∧ (∀ moment ∈ progress.moments, moment.Resolved) ∧
      (progress.moments.Pairwise fun earlier later => later.subtrees.Extends earlier.subtrees) ∧
      alignment.root.tokens = [⟨.reference "left", 0⟩, ⟨⟨"Punctuator", "+"⟩, 2⟩] ∧
      (∃ spelling, alignment.child? ⟨.reference "left", 0⟩ = some spelling) ∧
      ∀ token ∈ alignment.leaves, token.isReference = false := by
  have hrun : ((offeredSumAligner.run offeredSumRoot
      (Input.text (.whole "a+".toList)) 0).1.toOption.map fun alignment =>
        (alignment.text, alignment.root.tokens,
          decide (alignment.subtrees.EndsWithin 1 alignment.root.tokens))) =
      some ("a+", [⟨.reference "left", 0⟩, ⟨⟨"Punctuator", "+"⟩, 2⟩], true) := by
    decide +kernel
  obtain ⟨alignment, hfound, hvalues⟩ := Option.map_eq_some_iff.mp hrun
  simp only [Prod.mk.injEq, decide_eq_true_eq] at hvalues
  obtain ⟨htext, htokens, hends⟩ := hvalues
  have hspells : (Input.text (.whole "a+".toList)).Spells := fun _ => Input.noConfusion
  have h := run_references_resolved offeredSumAligner emits_offeredSum
    (Prod.ext (eq_ok_of_toOption hfound) rfl)
  obtain ⟨hmoments, _, _, hextends, halignment⟩ := h
  obtain ⟨_, hknows, _, hleaves⟩ := halignment alignment rfl
  refine ⟨alignment, _, Prod.ext (eq_ok_of_toOption hfound) rfl, htext, hmoments,
    (hextends hspells).1, htokens, ?_, hleaves 1 hends⟩
  rw [htokens] at hknows
  exact hknows _ (List.mem_cons_self ..) rfl

end Aligner

end TreeAlign
