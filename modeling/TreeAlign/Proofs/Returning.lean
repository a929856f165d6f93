import TreeAlign.Proofs.Grammar.Heedless
import TreeAlign.Proofs.Matching.Layering
import TreeAlign.Proofs.Muting
import TreeAlign.Proofs.Termination

/-!
# Matches that come to an end

The nodes that are matched lie below each other, procedures yield finitely
many commands, and attempts are limited. So a match comes to an end if each
of its moves does. One kind of move need not: past a child that was not read
from tokens a cursor in attached tokens counts leaves, and a grammar that
emits a reference which leads back to where it is emitted gives a child
whose leaves cannot be counted.

Inputs that have no other form to fall back to are safe from this. There all
children are read from one medium, and no leaves are counted. With a text to
fall back to, a match comes to an end if the grammar emits no references but
those that it was told of.
-/

namespace TreeAlign

variable {τ ρ : Type}

/-- The tokens that the cursor has moved past. -/
def Act.passed? : Act τ → Option (List Token)
  | .pass _ tokens => some tokens
  | _ => none

theorem Act.exists_of_passed? {act : Act τ} {tokens : List Token} (h : act.passed? = some tokens) :
    ∃ terminal, act = .pass terminal tokens := by
  cases act with
  | pass terminal found =>
      cases h
      exact ⟨terminal, rfl⟩
  | _ => cases h

/-- Where one medium is read for good, and all children were read from it, a cursor can be moved past
anything. -/
theorem Input.Stays.advanceEnds {medium : Medium} {cursor : Input} (stays : cursor.Stays medium)
    {subtrees : Subtrees} (stored : ∀ token spelling, subtrees.get? token = some spelling →
      spelling.extent.medium = medium) (tokens : List Token) :
    Cursor.advanceEnds tokens subtrees cursor = true := by
  cases cursor with
  | text place => rfl
  | synthetic => rfl
  | tokens reading =>
      obtain rfl : Medium.tokens = medium := stays.medium_eq
      apply TokenCursor.advanceEnds_iff.mpr
      intro token _ child hchild hmedium
      obtain ⟨_, hget⟩ := Subtrees.child?_eq_some_iff.mp hchild
      exact absurd (stored token child hget) hmedium

/-- All children were read from the medium, and all moments so far have come to an end. -/
structure Progress.Uniform (medium : Medium) (progress : Progress τ Input ρ) : Prop where
  stored : ∀ token spelling, progress.subtrees.get? token = some spelling →
    spelling.extent.medium = medium
  ends : progress.ends = true

namespace Progress.Uniform

variable {medium : Medium} {progress : Progress τ Input ρ}

theorem start (medium : Medium) (supply : Nat) :
    ({ supply } : Progress τ Input ρ).Uniform medium := by
  refine ⟨?_, rfl⟩
  intro token spelling hget
  simp [Subtrees.get?, Subtrees.empty] at hget

theorem note (h : progress.Uniform medium) (frame : Frame Input ρ)
    (stays : frame.cursor.Stays medium) (act : Act τ) :
    (progress.note frame act).Uniform medium :=
  ⟨h.stored, ends_note h.ends (Moment.ends_of_moves (stays.advanceEnds h.stored))⟩

theorem draw (h : progress.Uniform medium) (found : Found) :
    (progress.draw found).Uniform medium :=
  ⟨h.stored, h.ends⟩

theorem record (h : progress.Uniform medium) (reference : Token) {spelling : Spelling}
    (same : spelling.extent.medium = medium) :
    (progress.record reference spelling).Uniform medium := by
  refine ⟨?_, h.ends⟩
  intro token found hget
  change (progress.subtrees.insert reference spelling).get? token = some found at hget
  rw [Subtrees.get?_insert] at hget
  split at hget
  · cases hget
    exact same
  · exact h.stored token found hget

end Progress.Uniform

namespace Aligner

section

variable [Terminal τ] {aligner : Aligner τ ρ} {matchChild : MatchChild τ Input ρ}

/-- A way to match nodes that reads one medium for good, and comes to an end. -/
def ReadsOnly (medium : Medium) (matchChild : MatchChild τ Input ρ) : Prop :=
  ∀ path cursor (progress : Progress τ Input ρ), cursor.Stays medium → progress.Uniform medium →
    (matchChild path cursor progress).Ends (fun _ after => after.ends = true)
      fun spelling after => spelling.extent.medium = medium ∧ after.Uniform medium

theorem ReadsOnly.upholds {medium : Medium} (readsOnly : ReadsOnly medium matchChild)
    (path : Ancestry) :
    aligner.Upholds matchChild path (fun _ _ => True)
      (fun cursor progress => cursor.Stays medium ∧ progress.Uniform medium)
      (fun _ cursor progress => cursor.Stays medium ∧ progress.Uniform medium)
      fun _ progress => progress.ends = true where
  begin h := ⟨h.1, h.2.note _ h.1 _⟩
  note h _ _ := ⟨h.1, h.2.note _ h.1 _⟩
  claim h := ⟨h.1, h.2.stored, h.2.ends⟩
  draw h _ _ := ⟨h.1, h.2.draw _⟩
  plain h _ _ _ := ⟨h.1.advance _ _, h.2.draw _⟩
  separator {held progress frame terminal found} h _ _ _ _ := by
    have hmoved := h.1.advance (found.tokens progress.supply) progress.subtrees
    have hnote := (h.2.draw found).note
      (frame.move (found.tokens progress.supply) progress.subtrees) hmoved
      (.defer (found.tokens progress.supply))
    exact ⟨hmoved, hnote.stored, hnote.ends⟩
  child {held progress frame terminal found reference more route node} h _ _ _ _ _ _ := by
    have henter := (h.2.draw found).note frame h.1 (.descend reference route)
    apply (readsOnly (.child path node route) _ _ (h.1.forChild node) henter).imp
    rintro spelling after ⟨hmedium, hafter⟩
    exact ⟨h.1.advance _ _, (hafter.note frame h.1 _).record reference hmedium⟩
  emit h _ _ := h
  raise h _ _ := (h.2.note _ h.1 _).ends

/-- Every level of a match reads one medium for good, if it begins where no other form of the input
is left. -/
theorem readsOnly_matchNode (medium : Medium) (levels : Nat) :
    ReadsOnly medium (aligner.matchNode levels) := by
  induction levels with
  | zero =>
      intro path cursor progress stays h
      exact (h.note _ stays _).ends
  | succ levels ih =>
      intro path cursor progress stays h
      rw [matchNode]
      apply ((ih.upholds path).restart aligner.grammar.emits_anything ?_ ⟨stays, h⟩).imp
      · rintro spelling after ⟨start, held, last, _, ⟨hlast, hafter⟩, rfl⟩
        exact ⟨hlast.medium_eq, hafter⟩
      · rintro held cursor next state ⟨hstays, _⟩ _ hnext
        obtain ⟨cause, hcause⟩ := hstays.isFinal.fallback_eq_error
        rw [hcause] at hnext
        cases hnext

end

/-- A whole match comes to an end if the match of the root does. -/
theorem returns_of_ends {σ : Type} [Terminal τ] [Cursor σ] [Reads σ τ] {aligner : Aligner τ ρ}
    {root : Node Token} {cursor : σ} {supply : Nat}
    {done : Spelling → Progress τ σ ρ → Prop}
    (h : (aligner.matchNode (aligner.limits.maxDepth + 1) (.root root) cursor
      ({ supply } : Progress τ σ ρ)).Ends (fun _ after => after.ends = true) done)
    (ends : ∀ spelling after, done spelling after → after.ends = true) :
    aligner.returns root cursor supply = true := by
  rw [returns]
  rcases run_ends h with ⟨failure, after, hrun, hafter⟩ | ⟨spelling, after, hrun, hafter⟩
  · rw [hrun]
    exact hafter
  · rw [hrun]
    exact ends spelling after hafter

/-- With the inputs of the library, a match comes to an end exactly if all leaves can be counted that
are counted when a cursor in attached tokens is moved. -/
theorem returns_iff [Terminal τ] (aligner : Aligner τ ρ) (root : Node Token) (cursor : Input)
    (supply : Nat) :
    aligner.returns root cursor supply = true ↔
      ∀ moment ∈ (aligner.run root cursor supply).2.moments, ∀ terminal tokens reading,
        moment.act = .pass terminal tokens → moment.frame.cursor = .tokens reading →
          ∀ token ∈ tokens, TokenCursor.Countable moment.subtrees token := by
  rw [returns, Progress.ends, List.all_eq_true]
  apply forall₂_congr
  intro moment _
  constructor
  · intro h terminal tokens reading hact hcursor
    rw [Moment.ends, hact, hcursor] at h
    exact TokenCursor.advanceEnds_iff.mp h
  · intro h
    rw [Moment.ends]
    split
    · next terminal tokens hact =>
        cases hcursor : moment.frame.cursor with
        | text place => rfl
        | tokens reading =>
            exact TokenCursor.advanceEnds_iff.mpr (h terminal tokens reading hact hcursor)
        | synthetic => rfl
    · rfl

/-- Matches are nested within the tree, whatever is matched, and come to an end if all moves of the
cursor do. With the inputs of the library, only the leaves of children that were not read from
tokens can keep a match from its end. They cannot if the input has no other form, or if the grammar
emits no references but those that it was told of. -/
theorem matching_ends :
    (∀ {τ σ ρ : Type} [Terminal τ] [Cursor σ] [Reads σ τ] (aligner : Aligner τ ρ),
      aligner.Nests σ ∧
      ((∀ (tokens : List Token) (subtrees : Subtrees) (cursor : σ),
          Cursor.advanceEnds tokens subtrees cursor = true) →
        ∀ (root : Node Token) (cursor : σ) (supply : Nat),
          aligner.returns root cursor supply = true)) ∧
    (∀ {τ ρ : Type} [Terminal τ] (aligner : Aligner τ ρ) (root : Node Token) (cursor : Input)
        (supply : Nat),
      (aligner.returns root cursor supply = true ↔
        ∀ moment ∈ (aligner.run root cursor supply).2.moments, ∀ terminal tokens reading,
          moment.act = .pass terminal tokens → moment.frame.cursor = .tokens reading →
            ∀ token ∈ tokens, TokenCursor.Countable moment.subtrees token) ∧
      (cursor.IsFinal → aligner.returns root cursor supply = true)) ∧
    ∀ {ρ : Type} (aligner : Aligner Stock ρ) (root : Node Token) (cursor : Input) (supply : Nat),
      aligner.grammar.Emits Token.Own → AttachedBelow root cursor supply →
        aligner.returns root cursor supply = true := by
  refine ⟨?_, ?_, ?_⟩
  · intro τ σ ρ _ _ _ aligner
    refine ⟨aligner.nests, ?_⟩
    intro moves root cursor supply
    apply List.all_eq_true.mpr
    intro moment _
    exact moment.ends_of_moves fun tokens => moves tokens _ _
  · intro τ ρ _ aligner root cursor supply
    refine ⟨aligner.returns_iff root cursor supply, ?_⟩
    intro isFinal
    apply returns_of_ends (readsOnly_matchNode (Cursor.medium cursor) _ _ cursor _ ⟨isFinal, rfl⟩
      (.start _ supply))
    intro spelling after hafter
    exact hafter.2.ends
  · intro ρ aligner root cursor supply emits attached
    apply returns_of_ends (layersBelow_matchNode emits attached _ _ cursor _ .here (.start _ _)
      (.start supply))
    intro spelling after hafter
    exact hafter.layered.ends

/-- The reference that is attached to a sum. -/
def attachedLeft : Token :=
  ⟨.reference "left", 0⟩

/-- A sum of a name that has no tokens. -/
def tokenlessSum : Node Token :=
  ⟨"Sum", [("left", .node ⟨"Name", [], some ⟨0, 1⟩, none⟩)], none, some [attachedLeft]⟩

/-- The tokens of the sum, and the text to fall back to. -/
def tokenlessReading : Input :=
  .tokens ((TokenCursor.ofNode tokenlessSum).withText "a".toList)

/-- The left side of a sum is offered, and what was found is emitted. -/
def echoedSumAligner : Aligner Stock ByName where
  grammar := ⟨[
    ("Name", fun _ _ => .script [.take [.identifier "a"]]),
    ("Sum", fun _ _ => .yield (.offer [.reference "left"]) fun reply _ =>
      match reply with
      | .matched tokens => .script [.emit tokens]
      | _ => .done)]⟩
  resolver := .byName

theorem emits_echoedSum : echoedSumAligner.grammar.Emits Token.Own := by
  intro type rule hrule path subtrees
  simp only [Grammar.rule?, echoedSumAligner, Keyed.get?] at hrule
  split at hrule
  · cases hrule
    exact .take fun _ => .done
  · split at hrule
    · cases hrule
      refine .offer (fun tokens _ => .emit ?_ fun _ => .done) fun _ => .done
      intro token hmem _
      exact List.mem_append_right _ hmem
    · cases hrule

theorem attachedBelow_tokenlessSum : AttachedBelow tokenlessSum tokenlessReading 1 := by
  intro node token h _
  cases h with
  | root mem =>
      obtain rfl := List.mem_singleton.mp mem
      decide
  | below found mem =>
      rw [Node.eq_of_get?_single rfl found] at mem
      cases mem

/-- The name is read from the text, its leaf is counted, and the match comes to its end. -/
theorem matching_ends_echoedSum :
    echoedSumAligner.grammar.Emits Token.Own ∧ AttachedBelow tokenlessSum tokenlessReading 1 ∧
      echoedSumAligner.returns tokenlessSum tokenlessReading 1 = true ∧
      ∃ alignment, (echoedSumAligner.run tokenlessSum tokenlessReading 1).1 = .ok alignment ∧
        alignment.root.tokens = [attachedLeft] ∧ alignment.root.extent = ⟨.tokens, 0, 1⟩ ∧
        (alignment.child? attachedLeft).map (·.extent.medium) = some .text := by
  have hrun : ((echoedSumAligner.run tokenlessSum tokenlessReading 1).1.toOption.map
      fun alignment => (alignment.root.tokens, alignment.root.extent,
        (alignment.child? attachedLeft).map (·.extent.medium))) =
      some ([attachedLeft], ⟨.tokens, 0, 1⟩, some .text) := by
    decide +kernel
  obtain ⟨alignment, hfound, hvalues⟩ := Option.map_eq_some_iff.mp hrun
  simp only [Prod.mk.injEq] at hvalues
  refine ⟨emits_echoedSum, attachedBelow_tokenlessSum, ?_, alignment,
    eq_ok_of_toOption hfound, hvalues⟩
  exact matching_ends.2.2 echoedSumAligner tokenlessSum tokenlessReading 1 emits_echoedSum
    attachedBelow_tokenlessSum

/-- A name emits the reference that stands for it. -/
def circularGrammar : Grammar Stock :=
  .scripted [("Name", [.take [.identifier "a"], .emit [attachedLeft]]),
    ("Sum", [.take [.reference "left"]])]

/-- The default limits and resolver for that grammar. -/
def circularSumAligner : Aligner Stock ByName where
  grammar := circularGrammar
  resolver := .byName

/-- The name is read from the text, and its reference is among its own tokens. To move past it the
leaves of the name are counted, and that never ends. -/
theorem matching_never_ends :
    align circularGrammar tokenlessSum tokenlessReading 1 = none ∧
    circularSumAligner.returns tokenlessSum tokenlessReading 1 = false ∧
    ∃ moment ∈ (circularSumAligner.run tokenlessSum tokenlessReading 1).2.moments,
      ∃ terminal child, moment.act = .pass terminal [attachedLeft] ∧
        Cursor.medium moment.frame.cursor = .tokens ∧
        moment.subtrees.child? attachedLeft = some child ∧ child.extent.medium = .text ∧
        attachedLeft ∈ child.tokens ∧ ∀ count, ¬ moment.subtrees.Counts child.tokens count := by
  refine ⟨by decide +kernel, by decide +kernel, ?_⟩
  have hrun : ((circularSumAligner.run tokenlessSum tokenlessReading 1).2.moments.any fun moment =>
      moment.act.passed? == some [attachedLeft] && Cursor.medium moment.frame.cursor == .tokens &&
      (moment.subtrees.child? attachedLeft).any fun child =>
        child.extent.medium == .text && child.tokens.contains attachedLeft) = true := by
    decide +kernel
  obtain ⟨moment, hmoment, hvalues⟩ := List.any_eq_true.mp hrun
  simp only [Bool.and_eq_true, beq_iff_eq] at hvalues
  obtain ⟨⟨hact, hmedium⟩, hchild⟩ := hvalues
  obtain ⟨terminal, hpass⟩ := Act.exists_of_passed? hact
  obtain ⟨child, hchild, hfacts⟩ := (Option.any_eq_true _ _).mp hchild
  simp only [Bool.and_eq_true, beq_iff_eq, List.contains_iff_mem] at hfacts
  obtain ⟨htext, hmem⟩ := hfacts
  obtain ⟨isReference, stored⟩ := Subtrees.child?_eq_some_iff.mp hchild
  refine ⟨moment, hmoment, terminal, child, hpass, hmedium, hchild, htext, hmem, ?_⟩
  exact Subtrees.not_counts_of_meets stored (.here hmem isReference)

end Aligner

end TreeAlign
