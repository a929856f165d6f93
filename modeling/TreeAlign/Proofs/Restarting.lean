import TreeAlign.Proofs.Matching.Twins
import TreeAlign.Proofs.Spelling.Ending
import TreeAlign.Proofs.Tree.Address

/-!
# Beginning again on the text

When an attempt at a node is given up on the attached tokens, the match of
the node begins again on its range of the text. By then the store has the
children of the first attempt in it, and identities have been drawn. Still
the outcome is that of a match which begins on the text at once, in the
state before the first attempt: the same failure, or the same spelling with
other identities. Nothing that is reached from the spelling was stored by
the first attempt.

One thing can be told apart. When no restart is left, a node that is given
up on the text says so, and not that a text has no other form.
-/

namespace TreeAlign

variable {τ σ ρ : Type}

/-- Moves the identities from a bound on up by an offset. -/
def shift (low offset id : Nat) : Nat :=
  if id < low then id else id + offset

theorem shift_of_le {low offset id : Nat} (h : low ≤ id) : shift low offset id = id + offset := by
  rw [shift, if_neg (Nat.not_lt.mpr h)]

theorem fixes_shift (low offset : Nat) : Fixes (shift low offset) low where
  injective {id id'} h := by
    unfold shift at h
    split at h
    · split at h
      · exact h
      · omega
    · split at h
      · omega
      · omega
  keeps {id} h := by
    rw [shift, if_pos h]

/-- Scripted commands do not look at anything, so only the identities that they emit matter. -/
theorem Procedure.alike_script {f : Nat → Nat} {commands : List (Command τ)}
    (kept : ∀ tokens, .emit tokens ∈ commands → ∀ token ∈ tokens, f token.id = token.id) :
    (script commands).Alike f (script commands) := by
  induction commands with
  | nil => exact .done
  | cons command rest ih =>
      have hrest := ih fun tokens hmem => kept tokens (List.mem_cons_of_mem _ hmem)
      cases command with
      | emit tokens =>
          have hsame : tokens.map (Token.rename f) = tokens := by
            calc tokens.map (Token.rename f)
                = tokens.map id := by
                  apply List.map_congr_left
                  intro token hmem
                  rw [Token.rename, kept tokens (List.mem_cons_self ..) token hmem]
                  rfl
              _ = tokens := List.map_id _
          have hemit : (script (.emit tokens :: rest)).Alike f
              (script (.emit (tokens.map (Token.rename f)) :: rest)) := .emit fun _ _ => hrest
          rwa [hsame] at hemit
      | offer terminals => exact .offer (fun _ _ _ => hrest) fun _ _ => hrest
      | take terminals => exact .take fun _ _ => hrest

/-- A resolver that looks at kinds and values only has no use for numbers. -/
theorem Resolver.anonymous_of_blind {resolver : Resolver ρ} {low : Nat}
    (blind : ∀ f state reference,
      resolver.resolve state (reference.rename f) = resolver.resolve state reference) :
    resolver.Anonymous low := by
  intro f _
  refine ⟨Eq, fun _ => rfl, ?_⟩
  rintro state _ reference rfl
  rw [blind]
  exact ⟨rfl, rfl⟩

namespace Subtrees.Mirrors

variable {f : Nat → Nat} {shared : List Nat} {first second : Subtrees}

/-- Whatever is met from known tokens is a shared identity. -/
theorem mem_of_meets (h : first.Mirrors f shared second) {tokens : List Token}
    (known : Token.Shared shared tokens) {id : Nat} (met : first.Meets tokens id) :
    id ∈ shared := by
  induction met with
  | here mem isReference => exact known _ mem isReference
  | @inside reference _ _ _ mem isReference stored _ ih =>
      obtain ⟨spelling, hfirst, _, hinside⟩ := h reference (known reference mem isReference)
      rw [hfirst] at stored
      cases stored
      exact ih hinside

/-- Whatever is met from renamed tokens is a shared identity, renamed. -/
theorem exists_of_meets (h : first.Mirrors f shared second) {tokens : List Token}
    (known : Token.Shared shared tokens) {id : Nat}
    (met : second.Meets (tokens.map (Token.rename f)) id) : ∃ old ∈ shared, id = f old := by
  generalize hall : tokens.map (Token.rename f) = all at met
  induction met generalizing tokens with
  | here mem isReference =>
      rw [← hall] at mem
      obtain ⟨token, hmem, rfl⟩ := List.mem_map.mp mem
      exact ⟨token.id, known token hmem isReference, rfl⟩
  | inside mem isReference stored _ ih =>
      rw [← hall] at mem
      obtain ⟨token, hmem, rfl⟩ := List.mem_map.mp mem
      obtain ⟨spelling, _, hsecond, hinside⟩ := h token (known token hmem isReference)
      rw [hsecond] at stored
      cases stored
      exact ih hinside rfl

theorem child?_rename (h : first.Mirrors f shared second) {tokens : List Token}
    (known : Token.Shared shared tokens) {token : Token} (hmem : token ∈ tokens) :
    second.child? (token.rename f) = (first.child? token).map (Spelling.rename f) := by
  rw [child?, child?, Token.isReference_rename]
  split
  · next isReference =>
      obtain ⟨spelling, hfirst, hsecond, _⟩ := h token (known token hmem isReference)
      rw [hfirst, hsecond]
      rfl
  · rfl

/-- Both stores expand to the same leaves, renamed. -/
theorem leavesWithin_rename (h : first.Mirrors f shared second) (levels : Nat) {spelling : Spelling}
    (known : Token.Shared shared spelling.tokens) :
    second.leavesWithin levels (spelling.rename f) =
      (first.leavesWithin levels spelling).map (Token.rename f) := by
  induction levels generalizing spelling with
  | zero => rfl
  | succ levels ih =>
      rw [leavesWithin, leavesWithin, Spelling.rename, List.flatMap_map, List.map_flatMap]
      apply List.flatMap_congr
      intro token hmem
      rw [h.child?_rename known hmem]
      cases hchild : first.child? token with
      | none => rfl
      | some child =>
          obtain ⟨isReference, stored⟩ := child?_eq_some_iff.mp hchild
          obtain ⟨_, hfirst, _, hinside⟩ := h token (known token hmem isReference)
          rw [stored] at hfirst
          cases hfirst
          exact ih hinside

end Subtrees.Mirrors

/-- The result of a run that did not fail, and the state it left. -/
def Run.done? {α : Type} : Run τ σ ρ α → Option (α × Progress τ σ ρ)
  | .done value after => some (value, after)
  | .failed _ _ => none

theorem Run.eq_done_of_done? {α : Type} {run : Run τ σ ρ α} {value : α} {after : Progress τ σ ρ}
    (h : run.done? = some (value, after)) : run = .done value after := by
  cases run with
  | done found last =>
      cases h
      rfl
  | failed failure last => cases h

/-- The attempt was given up. -/
def Attempt.isAbandoned : Attempt σ → Bool
  | .spelled _ => false
  | .abandoned _ _ => true

theorem Attempt.exists_of_isAbandoned {attempt : Attempt σ} (h : attempt.isAbandoned = true) :
    ∃ terminal reached, attempt = .abandoned terminal reached := by
  cases attempt with
  | spelled spelling => cases h
  | abandoned terminal reached => exact ⟨terminal, reached, rfl⟩

namespace Aligner

variable [Terminal τ] [Cursor σ] [Reads σ τ] {aligner : Aligner τ ρ}

/-- A node whose attempt fails is not attempted again. -/
theorem restart_of_failed {matchChild : MatchChild τ σ ρ} {path : Ancestry} {cursor : σ}
    {progress after : Progress τ σ ρ} {failure : Failure} (left : Nat)
    (h : aligner.attempt matchChild path cursor progress = .failed failure after) :
    aligner.restart matchChild path left cursor progress = .failed failure after := by
  cases left with
  | zero => rw [restart, h, Run.andThen_failed]
  | succ left => rw [restart, h, Run.andThen_failed]

omit [Terminal τ] in
/-- A match never gives identities back. -/
theorem kept_supply : Kept (fun _ : σ => True)
    fun before after : Progress τ σ ρ => before.supply ≤ after.supply where
  refl _ := Nat.le_refl _
  trans := Nat.le_trans
  note _ _ _ := Nat.le_refl _
  claim _ := Nat.le_refl _
  defer _ _ _ := Nat.le_refl _
  draw {progress _ _ found} _ _ := progress.supply_le_draw found
  record {progress _ _ found _ _ _ _} _ _ _ h := Nat.le_trans (progress.supply_le_draw found) h
  advance _ := trivial
  forChild _ := trivial
  fallback _ _ := trivial

/-- What moving past tokens keeps of a cursor is kept by the attempts at a node. -/
theorem upholds_cursor (matchChild : MatchChild τ σ ρ) (path : Ancestry) {within : σ → Prop}
    (advance : ∀ {tokens subtrees cursor}, within cursor →
      within (Cursor.advance tokens subtrees cursor)) :
    aligner.Upholds matchChild path (fun _ _ => True) (fun cursor _ => within cursor)
      (fun _ cursor _ => within cursor) fun _ _ => True where
  begin h := h
  note h _ _ := h
  claim h := h
  draw h _ _ := h
  plain h _ _ _ := advance h
  separator h _ _ _ _ := advance h
  child {held progress frame terminal found reference more route node} h _ _ _ _ _ _ := by
    cases matchChild (.child path node route) (Cursor.forChild node frame.cursor)
        ((progress.draw found).note frame (.descend reference route)) with
    | done spelling after => exact advance h
    | failed failure after => trivial
  emit h _ _ := h
  raise _ _ _ := trivial

end Aligner

/-- The cursor reads attached tokens and knows what text to fall back to. -/
def Input.FallsBackTo (cursor : Input) (text : List Char) (range : Span) : Prop :=
  ∃ reading : TokenCursor, cursor = .tokens reading ∧ reading.text = some text ∧
    reading.range = some range

namespace Input.FallsBackTo

variable {cursor : Input} {text : List Char} {range : Span}

theorem advance (h : cursor.FallsBackTo text range) {tokens : List Token} {subtrees : Subtrees} :
    (Cursor.advance tokens subtrees cursor).FallsBackTo text range := by
  obtain ⟨reading, rfl, known⟩ := h
  exact ⟨reading.advance tokens subtrees, rfl, known⟩

theorem fallback_eq (h : cursor.FallsBackTo text range) :
    Cursor.fallback cursor = .ok (.text (.within text range)) := by
  obtain ⟨reading, rfl, htext, hrange⟩ := h
  change reading.fallback.map Input.text = _
  rw [TokenCursor.fallback, htext, hrange]
  rfl

end Input.FallsBackTo

/-- The spelling after a restart repeats the one that is found at once, under other identities, and so
does everything reached from it. The references in it were handed out and stored after the state at
the base. -/
structure Repeated (f : Nat → Nat) (base : Progress τ σ ρ) (spelling : Spelling)
    (fresh : Progress τ σ ρ) (spelling' : Spelling) (restarted : Progress τ σ ρ) : Prop where
  spelling_eq : spelling' = spelling.rename f
  pendingTokens : restarted.pendingTokens = fresh.pendingTokens.map (Token.rename f)
  reached : ∀ token : Token, fresh.subtrees.Meets spelling.tokens token.id →
    ∃ child, fresh.subtrees.get? token = some child ∧
      restarted.subtrees.get? (token.rename f) = some (child.rename f)
  leaves : ∀ levels, restarted.subtrees.leavesWithin levels spelling' =
    (fresh.subtrees.leavesWithin levels spelling).map (Token.rename f)
  new : ∃ since, restarted.recorded = since ++ base.recorded ∧
    ∀ id, restarted.subtrees.Meets spelling'.tokens id → base.supply ≤ id ∧ id ∈ since

/-- The last moment is that the node at the path raised the failure. -/
def Progress.RaisedAt (progress : Progress τ σ ρ) (path : Ancestry) (failure : Failure) : Prop :=
  ∃ moment earlier, progress.journal = moment :: earlier ∧ moment.frame.path = path ∧
    moment.act = .raise failure

/-- The node at the path lacks a terminal in the text, and there is no other input for the reason
given. -/
def Failure.givenUpOnText (path : Ancestry) (terminal : String) (position : Nat) (reason : String) :
    Failure :=
  .parsing path.node.type terminal .text position (some (.noFallback .text reason))

/-- How a match ends that begins again, beside one that begins on the text at once. -/
inductive Repeats (f : Nat → Nat) (path : Ancestry) (base : Progress τ σ ρ) :
    Run τ σ ρ Spelling → Run τ σ ρ Spelling → Prop where
  | done {spelling spelling' : Spelling} {fresh restarted : Progress τ σ ρ}
      (repeated : Repeated f base spelling fresh spelling' restarted) :
      Repeats f path base (.done spelling fresh) (.done spelling' restarted)
  | failed {failure : Failure} {fresh restarted : Progress τ σ ρ} :
      Repeats f path base (.failed failure fresh) (.failed failure restarted)
  /-- The node itself is given up on the text, and only the reason may differ. -/
  | givenUp {terminal reason reason' : String} {position : Nat} {fresh restarted : Progress τ σ ρ}
      (raised : fresh.RaisedAt path (.givenUpOnText path terminal position reason))
      (raised' : restarted.RaisedAt path (.givenUpOnText path terminal position reason')) :
      Repeats f path base (.failed (.givenUpOnText path terminal position reason) fresh)
        (.failed (.givenUpOnText path terminal position reason') restarted)

/-- A spelling after the restart is one that is found at once. -/
theorem Repeats.exists_of_done {f : Nat → Nat} {path : Ancestry} {base restarted : Progress τ σ ρ}
    {run : Run τ σ ρ Spelling} {spelling' : Spelling}
    (h : Repeats f path base run (.done spelling' restarted)) :
    ∃ spelling fresh, run = .done spelling fresh ∧
      Repeated f base spelling fresh spelling' restarted := by
  cases h with
  | done repeated => exact ⟨_, _, rfl, repeated⟩

namespace Aligner

variable {aligner : Aligner Stock ρ} {f : Nat → Nat} {low : Nat} {like : ρ → ρ → Prop}
  {base first second : Progress Stock Input ρ} {shared : List Nat}

/-- Spellings that are alike are repeated, and the states with them. -/
theorem SpellingsAlike.repeated {spelling spelling' : Spelling}
    {after after' : Progress Stock Input ρ}
    (h : SpellingsAlike f base shared spelling after spelling' after') :
    Repeated f base spelling after spelling' after' := by
  obtain ⟨rfl, more, _, known, renames⟩ := h
  refine ⟨rfl, renames.pendingTokens, ?_, fun levels =>
    renames.store.leavesWithin_rename levels known, ?_⟩
  · intro token met
    obtain ⟨child, hfirst, hsecond, _⟩ := renames.store token (renames.store.mem_of_meets known met)
    exact ⟨child, hfirst, hsecond⟩
  · obtain ⟨since, hsince, hshared⟩ := renames.recorded
    refine ⟨since, hsince, ?_⟩
    intro id met
    obtain ⟨old, hold, rfl⟩ := renames.store.exists_of_meets known met
    exact ⟨(hshared old hold).2, (hshared old hold).1⟩

/-- An attempt that is given up on the text is the last one, however many are left. -/
theorem restart_of_abandoned {matchChild : MatchChild Stock Input ρ} {path : Ancestry}
    {cursor reached : Input} {progress after : Progress Stock Input ρ} {terminal : String}
    (left : Nat) (isText : reached.IsText)
    (h : aligner.attempt matchChild path cursor progress =
      .done (.abandoned terminal reached) after) :
    ∃ (reason : String) (last : Progress Stock Input ρ),
      aligner.restart matchChild path left cursor progress =
        .failed (.givenUpOnText path terminal (Cursor.position reached) reason) last ∧
      last.RaisedAt path (.givenUpOnText path terminal (Cursor.position reached) reason) := by
  obtain ⟨place, rfl⟩ := isText
  cases left with
  | zero =>
      rw [restart, h]
      exact ⟨_, _, rfl, _, _, rfl, rfl, rfl⟩
  | succ left =>
      rw [restart, h]
      exact ⟨_, _, rfl, _, _, rfl, rfl, rfl⟩

/-- Matches on the text end the same, also if fewer restarts are left to one of them. -/
theorem Mimics.repeats {matchChild : MatchChild Stock Input ρ}
    {path : Ancestry} (mimics : aligner.Mimics f low like path base matchChild)
    (anonymous : aligner.grammar.Anonymous path low) (emits : aligner.grammar.Emits Token.Own)
    (left fewer : Nat) {cursor : Input} (isText : cursor.IsText)
    (h : first.Renames f base shared second) :
    Repeats f path base (aligner.restart matchChild path left cursor first)
      (aligner.restart matchChild path fewer cursor second) := by
  rcases (mimics.attempt anonymous emits .here isText h).ends with
    ⟨result, after, result', after', hfirst, hsecond, halike⟩ |
    ⟨failure, after, after', hfirst, hsecond⟩
  · rcases halike.ends with ⟨spelling, spelling', rfl, rfl, hspelling⟩ |
      ⟨terminal, reached, rfl, rfl, hreached⟩
    · rw [restart_of_attempt _ hfirst, restart_of_attempt _ hsecond]
      exact .done hspelling.repeated
    · obtain ⟨reason, last, hrun, hraised⟩ := restart_of_abandoned left hreached hfirst
      obtain ⟨reason', last', hrun', hraised'⟩ := restart_of_abandoned fewer hreached hsecond
      rw [hrun, hrun']
      exact .givenUp hraised hraised'
  · rw [restart_of_failed _ hfirst, restart_of_failed _ hsecond]
    exact .failed

/-- An attempt on attached tokens that is given up falls back to the node's range of the text, and
leaves the slot empty. -/
theorem fallback_of_abandoned {matchChild : MatchChild Stock Input ρ} {path : Ancestry}
    {cursor reached : Input} {text : List Char} {range : Span}
    {progress state : Progress Stock Input ρ} {terminal : String}
    (falls : cursor.FallsBackTo text range)
    (h : aligner.attempt matchChild path cursor progress =
      .done (.abandoned terminal reached) state) :
    state.pending = none ∧ Cursor.fallback reached = .ok (.text (.within text range)) := by
  have hupholds : aligner.Upholds matchChild path (fun _ _ => True)
      (fun cursor _ => cursor.FallsBackTo text range)
      (fun _ cursor _ => cursor.FallsBackTo text range) fun _ _ => True :=
    upholds_cursor matchChild path fun h => h.advance
  have hend : (aligner.attempt matchChild path cursor progress).Ends _ _ :=
    hupholds.attempt aligner.grammar.emits_anything falls
  rw [h] at hend
  obtain ⟨hempty, _, hreached⟩ := hend
  exact ⟨hempty, hreached.fallback_eq⟩

/-- No attempt gives identities back. -/
theorem supply_le_of_attempt {levels : Nat} {path : Ancestry} {cursor : Input}
    {progress state : Progress Stock Input ρ} {result : Attempt Input}
    (h : aligner.attempt (aligner.matchNode levels) path cursor progress = .done result state) :
    progress.supply ≤ state.supply := by
  have hchild : ∀ (path : Ancestry) (cursor : Input) (progress : Progress Stock Input ρ), True →
      (aligner.matchNode levels path cursor progress).Keeps _ progress _ :=
    fun path _ progress h => kept_supply.matchNode levels path progress h
  have hkeeps : (aligner.attempt (aligner.matchNode levels) path cursor progress).Keeps _ _ _ :=
    kept_supply.attempt hchild path progress trivial
  rw [h] at hkeeps
  exact hkeeps.1

/-- The state after an attempt that was given up is that before it, as far as the next attempt can
see: it draws other identities. -/
theorem renames_of_supply {progress state : Progress Stock Input ρ}
    (drawn : progress.supply ≤ state.supply) (empty : progress.pending = none)
    (empty' : state.pending = none) :
    progress.Renames (shift progress.supply (state.supply - progress.supply)) state [] state := by
  refine ⟨?_, ?_, ?_, ?_, Nat.le_refl _, [], rfl, ?_⟩
  · intro k
    rw [shift_of_le (Nat.le_add_right _ _)]
    omega
  · rw [empty', empty]
    rfl
  · rw [Progress.pendingTokens_eq_nil empty]
    exact Token.plain_nil
  · intro token hmem
    cases hmem
  · intro id hmem
    cases hmem

/-- A match of a node that is given up on the attached tokens and begins again on the text ends like
a match that begins on the text at once, in the state before. The slot is empty in that state: the
terminal that led to the node has claimed it. -/
theorem restart_like_fresh (levels : Nat) (path : Ancestry) {reading : TokenCursor}
    {text : List Char} {range : Span} (htext : reading.text = some text)
    (hrange : reading.range = some range) (restarts : 1 ≤ aligner.limits.maxFallbacks)
    {progress state : Progress Stock Input ρ} (empty : progress.pending = none)
    (anonymous : aligner.grammar.Anonymous path progress.supply)
    (emits : aligner.grammar.Emits Token.Own)
    (resolves : aligner.resolver.Anonymous progress.supply) {terminal : String} {reached : Input}
    (abandoned : aligner.attempt (aligner.matchNode levels) path (.tokens reading) progress =
      .done (.abandoned terminal reached) state) :
    ∃ f, Fixes f progress.supply ∧ Repeats f path state
      (aligner.matchNode (levels + 1) path (.text (.within text range)) progress)
      (aligner.matchNode (levels + 1) path (.tokens reading) progress) := by
  have hfixes := fixes_shift progress.supply (state.supply - progress.supply)
  refine ⟨_, hfixes, ?_⟩
  obtain ⟨hslot, hfall⟩ := fallback_of_abandoned ⟨reading, rfl, htext, hrange⟩ abandoned
  obtain ⟨fewer, hfewer⟩ : ∃ fewer, aligner.limits.maxFallbacks = fewer + 1 :=
    ⟨aligner.limits.maxFallbacks - 1, by omega⟩
  have hagain : aligner.matchNode (levels + 1) path (.tokens reading) progress =
      aligner.restart (aligner.matchNode levels) path fewer (.text (.within text range)) state := by
    rw [matchNode, hfewer, restart, abandoned]
    simp only [Run.andThen_done, hfall]
  rw [hagain]
  obtain ⟨like, hrespects⟩ := resolves _ hfixes
  have hrenames := renames_of_supply (supply_le_of_attempt abandoned) empty hslot
  exact (mimics_matchNode hfixes hrespects anonymous emits levels).repeats anonymous emits _ _
    ⟨_, rfl⟩ hrenames

/-- A name with a remark attached to it. -/
def remarkedName : Node Token :=
  ⟨"Name", [], some ⟨0, 1⟩, some [⟨⟨"Identifier", "a"⟩, 2⟩, ⟨⟨"Comment", "/**/"⟩, 3⟩]⟩

/-- A sum of that name, whose own tokens have the wrong sign. -/
def misspelledSum : Node Token :=
  ⟨"Sum", [("left", .node remarkedName)], some ⟨0, 2⟩,
    some [⟨.reference "left", 0⟩, ⟨⟨"Punctuator", "-"⟩, 1⟩]⟩

/-- The remarks attached to a node. -/
def remarks (node : Node Token) : List Token :=
  (node.tokens.getD []).filter fun token => token.kind = "Comment"

/-- A sum has a sign behind its left side, and the remarks on a name are kept behind it. -/
def misspelledSumAligner : Aligner Stock ByName where
  grammar := ⟨[
    ("Name", fun path _ => .script [.take [.identifier "a"], .emit (remarks path.node)]),
    ("Sum", fun _ _ => .script [.take [.reference "left"], .take [.punctuator "+"]])]⟩
  resolver := .byName

/-- The tokens of the sum, and the text to fall back to. -/
def misspelledReading : TokenCursor :=
  (TokenCursor.ofNode misspelledSum).withText "a+".toList

/-- The rules of the grammar, one by one. -/
theorem rule?_misspelledSum {type : String} {rule : Rule Stock}
    (h : misspelledSumAligner.grammar.rule? type = some rule) :
    (rule = fun path _ => .script [.take [.identifier "a"], .emit (remarks path.node)]) ∨
      rule = fun _ _ => .script [.take [.reference "left"], .take [.punctuator "+"]] := by
  simp only [Grammar.rule?, misspelledSumAligner, Keyed.get?] at h
  split at h
  · exact Or.inl (Option.some.inj h).symm
  · split at h
    · exact Or.inr (Option.some.inj h).symm
    · cases h

/-- Remarks are attached, so the supply is above their identities. -/
theorem anonymous_misspelledSum :
    misspelledSumAligner.grammar.Anonymous (.root misspelledSum) 4 := by
  have hbelow : ∀ path, (Ancestry.root misspelledSum).LeadsTo path →
      ∀ token ∈ path.node.tokens.getD [], token.id < 4 := by
    intro path hpath
    rcases hpath.get?_address with rfl | hfound
    · decide
    · rw [Node.eq_of_get?_single rfl hfound]
      decide
  intro f fixes type rule hrule path hpath subtrees subtrees'
  rcases rule?_misspelledSum hrule with rfl | rfl
  · apply Procedure.alike_script
    intro tokens hemit token hmem
    obtain rfl : tokens = remarks path.node := by simpa using hemit
    exact fixes.keeps (hbelow path hpath token (List.mem_filter.mp hmem).1)
  · exact Procedure.alike_script (by simp)

theorem emits_misspelledSum : misspelledSumAligner.grammar.Emits Token.Own := by
  intro type rule hrule path subtrees
  rcases rule?_misspelledSum hrule with rfl | rfl
  · refine .take fun _ => .emit ?_ fun _ => .done
    intro token hmem isReference
    have hkind : token.kind = "Comment" := by simpa using (List.mem_filter.mp hmem).2
    exact absurd isReference (by simp [Token.isReference, Lexeme.isReference, hkind,
      Lexeme.referenceKind])
  · exact .take fun _ => .take fun _ => .done

/-- The name that was found among the tokens stays stored, and is not reached from the result. The
remark on it is emitted again, with the identity it has. -/
theorem restart_like_fresh_misspelledSum :
    ∃ (f : Nat → Nat) (spelling : Spelling) (fresh restarted : Progress Stock Input ByName),
      Fixes f 4 ∧
      misspelledSumAligner.matchNode 2 (.root misspelledSum) (.text (.within "a+".toList ⟨0, 2⟩))
        { supply := 4 } = .done spelling fresh ∧
      misspelledSumAligner.matchNode 2 (.root misspelledSum) (.tokens misspelledReading)
        { supply := 4 } = .done (spelling.rename f) restarted ∧
      Token.textOf (restarted.subtrees.leaves (spelling.rename f)) = "a/**/+" ∧
      (restarted.subtrees.get? ⟨.reference "left", 0⟩).isSome = true ∧
      ¬ restarted.subtrees.Meets (spelling.rename f).tokens 0 := by
  have habandoned : ((misspelledSumAligner.attempt (misspelledSumAligner.matchNode 1)
      (.root misspelledSum) (Input.tokens misspelledReading) { supply := 4 }).done?.map
      fun result => (result.1.isAbandoned, result.2.supply)) = some (true, 4) := by
    decide +kernel
  have hrestarted : ((misspelledSumAligner.matchNode 2 (.root misspelledSum)
      (Input.tokens misspelledReading) { supply := 4 }).done?.map
      fun result => (Token.textOf (result.2.subtrees.leaves result.1),
        (result.2.subtrees.get? ⟨.reference "left", 0⟩).isSome)) = some ("a/**/+", true) := by
    decide +kernel
  obtain ⟨⟨result, state⟩, hattempt, hvalues⟩ := Option.map_eq_some_iff.mp habandoned
  obtain ⟨⟨spelling', restarted⟩, hrun, hfacts⟩ := Option.map_eq_some_iff.mp hrestarted
  simp only [Prod.mk.injEq] at hvalues hfacts
  obtain ⟨hgiven, hsupply⟩ := hvalues
  obtain ⟨terminal, reached, rfl⟩ := Attempt.exists_of_isAbandoned hgiven
  obtain ⟨f, hfixes, hrepeats⟩ := restart_like_fresh 1 (.root misspelledSum) rfl rfl
    (by decide) rfl anonymous_misspelledSum emits_misspelledSum
    (Resolver.anonymous_of_blind fun _ _ _ => rfl) (Run.eq_done_of_done? hattempt)
  rw [Run.eq_done_of_done? hrun] at hrepeats
  obtain ⟨spelling, fresh, hfresh, repeated⟩ := hrepeats.exists_of_done
  obtain ⟨since, _, hnew⟩ := repeated.new
  obtain rfl := repeated.spelling_eq
  refine ⟨f, spelling, fresh, restarted, hfixes, hfresh, Run.eq_done_of_done? hrun, hfacts.1,
    hfacts.2, ?_⟩
  intro hmet
  have hlate := (hnew 0 hmet).1
  omega

end Aligner

end TreeAlign
