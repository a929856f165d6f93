import TreeAlign.Proofs.Matching.Chronicle
import TreeAlign.Proofs.Matching.Probing
import TreeAlign.Proofs.Spelling.Inventory

/-!
# The store of a match is the tree below its root

When a grammar takes only and everything that is found is new, nothing that
was stored is ever left out: every reference is collected, and no spelling
of an attempt is given up and made again. The store of a match that succeeds
then holds the nodes below the root and nothing else, each of them under a
key that occurs once in the whole tree.

## Implementation notes

The invariant of an attempt speaks of all tokens that exist since the
attempt began: those of the frame, those in the slot, and those of the
entries that were added. Their identities were drawn from the supply one
after the other, so they are different ones.
-/

namespace TreeAlign

/-- The identities of the tokens are different, and were drawn between two states of the supply. -/
structure Token.Drawn (low high : Nat) (tokens : List Token) : Prop where
  le : low ≤ high
  nodup : (tokens.map (·.id)).Nodup
  bounds : ∀ token ∈ tokens, low ≤ token.id ∧ token.id < high

namespace Token.Drawn

variable {low middle high : Nat} {tokens left right : List Token}

theorem nil (supply : Nat) : Drawn supply supply [] :=
  ⟨Nat.le_refl _, List.nodup_nil, by simp⟩

theorem perm (h : Drawn low high left) (same : left.Perm right) : Drawn low high right where
  le := h.le
  nodup := (same.map _).nodup_iff.mp h.nodup
  bounds token hmem := h.bounds token (same.mem_iff.mpr hmem)

/-- What is drawn later has other identities. -/
theorem append (h : Drawn low middle left) (h' : Drawn middle high right) :
    Drawn low high (left ++ right) where
  le := Nat.le_trans h.le h'.le
  nodup := by
    rw [List.map_append, List.nodup_append]
    refine ⟨h.nodup, h'.nodup, ?_⟩
    rintro _ hearlier _ hlater rfl
    obtain ⟨first, hfirst, hid⟩ := List.mem_map.mp hearlier
    obtain ⟨second, hsecond, hid'⟩ := List.mem_map.mp hlater
    have hlt := (h.bounds first hfirst).2
    have hle := (h'.bounds second hsecond).1
    omega
  bounds token hmem := by
    have hle := h.le
    have hle' := h'.le
    rcases List.mem_append.mp hmem with hmem | hmem
    · have hbounds := h.bounds token hmem
      omega
    · have hbounds := h'.bounds token hmem
      omega

theorem mint (supply : Nat) (lexemes : List Lexeme) :
    Drawn supply (supply + lexemes.length) (Token.mint supply lexemes) := by
  induction lexemes generalizing supply with
  | nil => exact nil supply
  | cons lexeme rest ih =>
      have hfirst : Drawn supply (supply + 1) [⟨lexeme, supply⟩] :=
        ⟨Nat.le_succ _, List.nodup_singleton _, by simp⟩
      have hboth := hfirst.append (ih (supply + 1))
      rw [Nat.add_right_comm] at hboth
      exact hboth

/-- The keys of the entries below a token list were drawn with all its tokens. -/
theorem key {slot : List Token} {entries : List (Token × Spelling)}
    (h : Drawn low high (tokens ++ slot ++ entries.flatMap (·.2.tokens)))
    (lists : Subtrees.Lists tokens entries) {entry : Token × Spelling} (hentry : entry ∈ entries) :
    low ≤ entry.1.id ∧ entry.1.id < high := by
  obtain ⟨token, hmem, hid⟩ := List.mem_map.mp (lists.key_mem hentry)
  rw [← hid]
  apply h.bounds
  rcases List.mem_append.mp hmem with hmem | hmem
  · exact List.mem_append_left _ (List.mem_append_left _ hmem)
  · exact List.mem_append_right _ hmem

end Token.Drawn

namespace Progress

variable {τ σ ρ : Type}

/-- Since the earlier state the store got the entries below the tokens, and all tokens that exist
since then have identities of their own. -/
def Tallies (before : Progress τ σ ρ) (tokens : List Token) (after : Progress τ σ ρ) : Prop :=
  Token.Plain after.pendingTokens ∧
    ∃ new, after.subtrees.entries = before.subtrees.entries ++ new ∧
      Subtrees.Lists tokens new ∧
      Token.Drawn before.supply after.supply
        (tokens ++ after.pendingTokens ++ new.flatMap (·.2.tokens))

namespace Tallies

variable {before progress after : Progress τ σ ρ} {tokens : List Token}

theorem refl (empty : progress.pending = none) : progress.Tallies [] progress := by
  have hslot := pendingTokens_eq_nil empty
  refine ⟨?_, [], (List.append_nil _).symm, .nil, ?_⟩
  · rw [hslot]
    exact Token.plain_nil
  · rw [hslot]
    exact .nil _

/-- All keys that were added were drawn since the earlier state. -/
theorem minted (h : before.Tallies tokens after) (minted : before.Minted) : after.Minted := by
  obtain ⟨_, new, hentries, hlists, hdrawn⟩ := h
  rw [Minted, Subtrees.below_iff, hentries]
  intro entry hentry
  rcases List.mem_append.mp hentry with hold | hnew
  · exact Nat.lt_of_lt_of_le (Subtrees.below_iff.mp minted entry hold) hdrawn.le
  · exact (hdrawn.key hlists hnew).2

theorem claim (h : before.Tallies tokens progress) :
    before.Tallies (tokens ++ progress.pendingTokens) progress.claimed := by
  obtain ⟨hplain, new, hentries, hlists, hdrawn⟩ := h
  refine ⟨Token.plain_nil, new, hentries, ?_, ?_⟩
  · simpa only [List.append_nil] using hlists.append (.of_plain hplain)
  · rw [pendingTokens_claimed, List.append_nil]
    exact hdrawn

variable {lexemes : List Lexeme}

/-- What is drawn now goes behind the tokens. -/
theorem plain (h : before.Tallies tokens progress) (empty : progress.pending = none)
    (hplain : Token.Plain (Token.mint progress.supply lexemes)) :
    before.Tallies (tokens ++ Token.mint progress.supply lexemes)
      (progress.draw (.spelled lexemes)) := by
  obtain ⟨hslot, new, hentries, hlists, hdrawn⟩ := h
  refine ⟨hslot, new, hentries, ?_, ?_⟩
  · simpa only [List.append_nil] using hlists.append (.of_plain hplain)
  · apply (hdrawn.append (.mint progress.supply lexemes)).perm
    rw [pendingTokens_draw, pendingTokens_eq_nil empty, List.perm_iff_count]
    intro token
    simp only [List.append_nil, List.count_append]
    omega

/-- What is drawn now goes into the slot. -/
theorem separator (h : before.Tallies tokens progress) (empty : progress.pending = none)
    (hplain : Token.Plain (Token.mint progress.supply lexemes)) (frame : Frame σ ρ) (act : Act τ)
    (terminal : τ) :
    before.Tallies tokens
      (((progress.draw (.spelled lexemes)).note frame act).defer
        (Token.mint progress.supply lexemes) terminal) := by
  obtain ⟨_, new, hentries, hlists, hdrawn⟩ := h
  refine ⟨hplain, new, hentries, hlists, ?_⟩
  apply (hdrawn.append (.mint progress.supply lexemes)).perm
  rw [pendingTokens_defer, pendingTokens_eq_nil empty, List.perm_iff_count]
  intro token
  simp only [List.append_nil, List.count_append]
  omega

/-- A child that was matched since its reference was drawn is stored behind what it has stored
itself. -/
theorem child (h : before.Tallies tokens progress) (minted : before.Minted)
    (empty : progress.pending = none) {name : String} {spelling : Spelling}
    {frame : Frame σ ρ} {act act' : Act τ}
    (hchild : ((progress.draw (.spelled [.reference name])).note frame act).Tallies
      spelling.tokens after) :
    before.Tallies (tokens ++ [⟨.reference name, progress.supply⟩])
      ((after.note frame act').record ⟨.reference name, progress.supply⟩ spelling) := by
  have hminted := h.minted minted
  obtain ⟨_, new, hentries, hlists, hdrawn⟩ := h
  obtain ⟨hslot, inner, hinner, hinside, hbelow⟩ := hchild
  change after.subtrees.entries = progress.subtrees.entries ++ inner at hinner
  change Token.Drawn (progress.supply + 1) after.supply _ at hbelow
  -- what was stored before lies below the identity of the reference, and what the child has
  -- stored lies above it
  have hnew : after.subtrees.get? ⟨.reference name, progress.supply⟩ = none := by
    rw [Subtrees.get?_eq_none_iff, hinner]
    intro entry hentry hid
    change entry.1.id = progress.supply at hid
    rcases List.mem_append.mp hentry with hold | hlater
    · have hlt := Subtrees.below_iff.mp hminted entry hold
      omega
    · have hle := (hbelow.key hinside hlater).1
      omega
  refine ⟨hslot, new ++ (inner ++ [(⟨.reference name, progress.supply⟩, spelling)]), ?_, ?_, ?_⟩
  · calc (after.subtrees.insert ⟨.reference name, progress.supply⟩ spelling).entries
        = after.subtrees.entries ++ [(⟨.reference name, progress.supply⟩, spelling)] :=
          Subtrees.entries_insert hnew spelling
      _ = _ := by rw [hinner, hentries, List.append_assoc, List.append_assoc]
  · exact hlists.append (.child rfl hinside .nil)
  · have hmint : Token.Drawn progress.supply (progress.supply + 1)
        [⟨.reference name, progress.supply⟩] := .mint progress.supply [.reference name]
    apply ((hdrawn.append hmint).append hbelow).perm
    rw [pendingTokens_eq_nil empty, List.perm_iff_count]
    intro token
    simp only [pendingTokens_record, pendingTokens_note, List.append_nil, List.flatMap_append,
      List.flatMap_cons, List.flatMap_nil, List.count_append]
    omega

end Tallies

end Progress

namespace Aligner

variable {ρ : Type}

/-- Every step of an attempt that takes only keeps the tally, where everything found is new. -/
theorem carries_tallies {aligner : Aligner Stock ρ} {matchChild : MatchChild Stock Input ρ}
    {before : Progress Stock Input ρ} (minted : before.Minted)
    (hchild : ∀ {path cursor progress spelling after}, cursor.Spells → progress.Minted →
      progress.pending = none → matchChild path cursor progress = .done spelling after →
      progress.Tallies spelling.tokens after) :
    aligner.Carries matchChild fun frame progress =>
      frame.cursor.Spells ∧ before.Tallies frame.tokens progress where
  note _ _ _ h := h
  claim h := ⟨h.1, h.2.claim⟩
  plain {frame progress terminal found} h empty probe notReference _ := by
    obtain ⟨lexemes, rfl⟩ := h.1.found probe
    have hplain := Input.plain_of_probe probe notReference progress.supply
    exact ⟨h.1.advance _ _, h.2.plain empty hplain⟩
  separator {frame frame' progress terminal found} h empty probe notReference _ := by
    obtain ⟨lexemes, rfl⟩ := h.1.found probe
    have hplain := Input.plain_of_probe probe notReference progress.supply
    exact ⟨h.1.advance _ _, h.2.separator empty hplain _ _ _⟩
  child {frame frame' progress terminal found reference more route node spelling after}
      h _ _ empty probe isReference tokens _ matched := by
    obtain ⟨_, hfinds⟩ := Input.finds_of_probe probe isReference tokens
    have hspells := h.1
    generalize frame.cursor = cursor at hfinds hspells
    cases hfinds with
    | attached _ _ => exact absurd rfl (hspells _)
    | new _ name =>
        have hdrawn : Progress.Minted ((progress.draw (.spelled [.reference name])).note frame'
            (.descend ⟨.reference name, progress.supply⟩ route)) :=
          (h.2.minted minted).draw_note _ _ _
        have hmatch := hchild (h.1.forChild node) hdrawn empty matched
        exact ⟨h.1.advance _ _, h.2.child minted empty hmatch⟩

theorem kept_spells : Kept Input.Spells
    fun _ _ : Progress Stock Input ρ => True where
  refl _ := trivial
  trans _ _ := trivial
  note _ _ _ := trivial
  claim _ := trivial
  defer _ _ _ := trivial
  draw _ _ := trivial
  record _ _ _ _ := trivial
  advance h := h.advance _ _
  forChild h := h.forChild _
  fallback h hnext := absurd hnext h.fallback

/-- A match of a node adds the entries below its tokens to the store and nothing else. -/
theorem tallies_of_matchNode {aligner : Aligner Stock ρ} (takes : aligner.grammar.TakesOnly)
    {levels : Nat} {path : Ancestry} {cursor : Input} {progress after : Progress Stock Input ρ}
    {spelling : Spelling} (spells : cursor.Spells) (minted : progress.Minted)
    (empty : progress.pending = none)
    (h : aligner.matchNode levels path cursor progress = .done spelling after) :
    progress.Tallies spelling.tokens after := by
  induction levels generalizing path cursor progress spelling after with
  | zero => exact absurd h (by simp [matchNode, fail])
  | succ levels ih =>
      have hno : ∀ cursor : Input, cursor.Spells →
          ∃ cause, Cursor.fallback cursor = .error cause := by
        intro cursor hspells
        cases hfall : Cursor.fallback cursor with
        | ok next => exact absurd hfall hspells.fallback
        | error cause => exact ⟨cause, rfl⟩
      have hattempt := kept_spells.attempt_of_matchNode hno spells h
      have hcarries : aligner.Carries (aligner.matchNode levels) _ := carries_tallies minted ih
      obtain ⟨last, state, hlast, rfl, rfl⟩ :=
        hcarries.attempt takes ⟨spells, .refl empty⟩ hattempt
      exact hlast.2

/-- When a grammar takes only and everything is new, the store of an alignment is the tree below its
root. Every key of it leads to its entry and occurs once among the tokens of the tree, in one
spelling that is part of the tree. Every entry is part of the tree, and there is one more node
than there are entries. -/
theorem run_store_is_tree (aligner : Aligner Stock ρ) (takes : aligner.grammar.TakesOnly)
    {root : Node Token} {cursor : Input} (spells : cursor.Spells) {supply : Nat}
    {alignment : Alignment} (h : (aligner.run root cursor supply).1 = .ok alignment) :
    (∀ entry ∈ alignment.subtrees.entries,
      alignment.subtrees.child? entry.1 = some entry.2 ∧ alignment.OwnedOnce entry.1 ∧
        alignment.Contains entry.2) ∧
      alignment.nodeCount = alignment.subtrees.size + 1 := by
  obtain ⟨spelling, after, hmatch, rfl, _⟩ := run_eq_ok h
  obtain ⟨hplain, new, hentries, hlists, hdrawn⟩ :=
    tallies_of_matchNode takes spells (Progress.minted_start supply) rfl hmatch
  have hstore : after.subtrees.entries = new := hentries
  rw [← hstore] at hlists hdrawn
  apply Alignment.tree_of_lists
  · simpa only [List.append_nil] using hlists.append (.of_plain hplain)
  · exact hdrawn.nodup

/-- A sum of a name inside a group and of two more names. -/
def longSum : Node Token :=
  ⟨"Sum",
    [("items", .list [⟨"Name", [], none, none⟩, ⟨"Name", [], none, none⟩]),
      ("left", .node ⟨"Group", [("inner", .node ⟨"Name", [], none, none⟩)], none, none⟩)],
    none, none⟩

/-- All names are spelled alike, with white space behind them. -/
def longSumAligner : Aligner Stock ByName where
  grammar := .demanding
    [("Group", [[.reference "inner"]]), ("Name", [[.identifier "a", .separator]]),
      ("Sum", [[.reference "left", .punctuator "+", .separator],
        [.reference "items", .punctuator "+"], [.reference "items"]])]
  resolver := .byName

/-- Three names with the same text are stored under keys of their own. -/
theorem run_store_is_tree_longSum :
    ∃ alignment,
      (longSumAligner.run longSum (Input.text (.whole "a + a+a".toList)) 0).1 = .ok alignment ∧
      alignment.subtrees.size = 4 ∧ alignment.nodeCount = 5 ∧
      ∀ entry ∈ alignment.subtrees.entries,
        alignment.subtrees.child? entry.1 = some entry.2 ∧ alignment.OwnedOnce entry.1 ∧
          alignment.Contains entry.2 := by
  have hrun : ((longSumAligner.run longSum
      (Input.text (.whole "a + a+a".toList)) 0).1.toOption.map
        fun alignment => alignment.subtrees.size) = some 4 := by
    decide +kernel
  obtain ⟨alignment, hfound, hsize⟩ := Option.map_eq_some_iff.mp hrun
  have h := eq_ok_of_toOption hfound
  obtain ⟨hentries, hcount⟩ := run_store_is_tree longSumAligner (Grammar.takesOnly_demanding _)
    (fun _ => Input.noConfusion) h
  exact ⟨alignment, h, hsize, by rw [hcount, hsize], hentries⟩

end Aligner

end TreeAlign
