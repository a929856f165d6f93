import Mathlib.Data.List.Basic
import TreeAlign.Proofs.Matching.Holding
import TreeAlign.Proofs.Matching.Probing
import TreeAlign.Proofs.Matching.Recording
import TreeAlign.Proofs.Tree.Height

/-!
# Two matches on one text that differ in identities

The same node is matched on the same text in two different states. If the
grammar and the resolver tell tokens apart but have no use for the numbers,
and if procedures do not look at the children found so far, then both
matches find the same, and the identities that they draw differ by a
renaming. What the two states have in store besides does not matter: both
matches only ever look up children that both of them have stored.

`Alike` relates procedures, and `Renames` states and frames. The identities
of children that both matches have stored are kept in a list of shared
identities, which grows along the way.
-/

namespace TreeAlign

/-- The token with another identity. -/
def Token.rename (f : Nat → Nat) (token : Token) : Token :=
  { token with id := f token.id }

/-- The spelling with other identities. -/
def Spelling.rename (f : Nat → Nat) (spelling : Spelling) : Spelling :=
  { spelling with tokens := spelling.tokens.map (Token.rename f) }

namespace Token

variable {f : Nat → Nat}

@[simp] theorem isReference_rename (token : Token) :
    (token.rename f).isReference = token.isReference := rfl

/-- Tokens minted from a supply are renamed by minting from the other supply. -/
theorem map_rename_mint {supply other : Nat} (tracks : ∀ k, f (supply + k) = other + k)
    (lexemes : List Lexeme) : (mint supply lexemes).map (rename f) = mint other lexemes := by
  induction lexemes generalizing supply other with
  | nil => rfl
  | cons lexeme rest ih =>
      have hhead : f supply = other := tracks 0
      have htail : ∀ k, f (supply + 1 + k) = other + 1 + k := by
        intro k
        rw [Nat.add_assoc, Nat.add_assoc]
        exact tracks (1 + k)
      simp only [mint, List.map_cons, ih htail, rename, hhead]

end Token

/-- The identities of all references among the tokens are shared. -/
def Token.Shared (shared : List Nat) (tokens : List Token) : Prop :=
  ∀ token ∈ tokens, token.isReference = true → token.id ∈ shared

namespace Token.Shared

variable {shared more : List Nat} {tokens others : List Token}

theorem of_plain (plain : Token.Plain tokens) : Token.Shared shared tokens := by
  intro token hmem hreference
  exact absurd hreference (by simp [plain token hmem])

theorem mono (h : Token.Shared shared tokens) (subset : shared ⊆ more) : Token.Shared more tokens :=
  fun token hmem hreference => subset (h token hmem hreference)

theorem append (h : Token.Shared shared tokens) (h' : Token.Shared shared others) :
    Token.Shared shared (tokens ++ others) := by
  intro token hmem
  rcases List.mem_append.mp hmem with hmem | hmem
  · exact h token hmem
  · exact h' token hmem

end Token.Shared

namespace Procedure

/-- The two procedures yield the same commands, up to a renaming, when they get the same replies, up
to the renaming, whatever children have been found. -/
inductive Alike {τ : Type} (f : Nat → Nat) : Procedure τ → Procedure τ → Prop where
  | done : Alike f .done .done
  | emit {tokens : List Token} {next next' : Reply → Subtrees → Procedure τ}
      (rest : ∀ subtrees subtrees', Alike f (next .proceed subtrees) (next' .proceed subtrees')) :
      Alike f (.yield (.emit tokens) next) (.yield (.emit (tokens.map (Token.rename f))) next')
  | offer {terminals : List τ} {next next' : Reply → Subtrees → Procedure τ}
      (matched : ∀ tokens subtrees subtrees', Alike f (next (.matched tokens) subtrees)
        (next' (.matched (tokens.map (Token.rename f))) subtrees'))
      (mismatched : ∀ subtrees subtrees',
        Alike f (next .mismatched subtrees) (next' .mismatched subtrees')) :
      Alike f (.yield (.offer terminals) next) (.yield (.offer terminals) next')
  | take {terminals : List τ} {next next' : Reply → Subtrees → Procedure τ}
      (rest : ∀ subtrees subtrees', Alike f (next .proceed subtrees) (next' .proceed subtrees')) :
      Alike f (.yield (.take terminals) next) (.yield (.take terminals) next')

end Procedure

/-- The renaming keeps identities apart, and keeps those below the bound as they are. -/
structure Fixes (f : Nat → Nat) (low : Nat) : Prop where
  injective : ∀ {id id'}, f id = f id' → id = id'
  keeps : ∀ {id}, id < low → f id = id

/-- The procedures of a node and of all nodes below it do not look at the children found so far, and
have no use for the numbers of identities that are free. They may emit tokens that are attached to
these nodes, if the identities of those are below the bound. -/
def Grammar.Anonymous {τ : Type} (grammar : Grammar τ) (top : Ancestry) (low : Nat) : Prop :=
  ∀ f, Fixes f low → ∀ type rule, grammar.rule? type = some rule →
    ∀ path, top.LeadsTo path → ∀ subtrees subtrees',
      (rule path subtrees).Alike f (rule path subtrees')

/-- The states of the resolver that are alike are resolved alike. -/
structure Resolver.Respects {ρ : Type} (resolver : Resolver ρ) (f : Nat → Nat)
    (like : ρ → ρ → Prop) : Prop where
  start : ∀ node, like (resolver.start node) (resolver.start node)
  resolve : ∀ {state state'} reference, like state state' →
    (resolver.resolve state' (reference.rename f)).1 = (resolver.resolve state reference).1 ∧
      like (resolver.resolve state reference).2 (resolver.resolve state' (reference.rename f)).2

/-- The resolver has no use for the numbers of identities that are free. -/
def Resolver.Anonymous {ρ : Type} (resolver : Resolver ρ) (low : Nat) : Prop :=
  ∀ f, Fixes f low → ∃ like, resolver.Respects f like

namespace Subtrees

/-- What the first store has for a shared identity, the second has under the renamed one, and the
references in it are shared. -/
def Mirrors (first : Subtrees) (f : Nat → Nat) (shared : List Nat) (second : Subtrees) : Prop :=
  ∀ token : Token, token.id ∈ shared → ∃ spelling, first.get? token = some spelling ∧
    second.get? (token.rename f) = some (spelling.rename f) ∧ Token.Shared shared spelling.tokens

/-- A child may be stored in both. -/
theorem Mirrors.insert {f : Nat → Nat} {low : Nat} {shared : List Nat} {first second : Subtrees}
    (h : first.Mirrors f shared second) (fixes : Fixes f low) {reference : Token}
    {spelling : Spelling} (known : Token.Shared shared spelling.tokens) :
    (first.insert reference spelling).Mirrors f (reference.id :: shared)
      (second.insert (reference.rename f) (spelling.rename f)) := by
  intro token hmem
  rw [get?_insert, get?_insert]
  by_cases hid : reference.id = token.id
  · have hid' : (reference.rename f).id = (token.rename f).id := congrArg f hid
    rw [if_pos hid, if_pos hid']
    exact ⟨spelling, rfl, rfl, known.mono (List.subset_cons_self _ _)⟩
  · have hid' : (reference.rename f).id ≠ (token.rename f).id := fun heq =>
      hid (fixes.injective heq)
    rw [if_neg hid, if_neg hid']
    rcases List.mem_cons.mp hmem with heq | hmem
    · exact absurd heq.symm hid
    · obtain ⟨found, hfirst, hsecond, hinside⟩ := h token hmem
      exact ⟨found, hfirst, hsecond, hinside.mono (List.subset_cons_self _ _)⟩

end Subtrees

/-- Behind both lists of tokens the cursor in the text is at the same place. -/
theorem Input.IsText.advance_rename {cursor : Input} (isText : cursor.IsText) {f : Nat → Nat}
    {shared : List Nat} {first second : Subtrees} (mirrors : first.Mirrors f shared second)
    {tokens : List Token} (known : Token.Shared shared tokens) :
    Cursor.advance (tokens.map (Token.rename f)) second cursor =
      Cursor.advance tokens first cursor := by
  obtain ⟨place, rfl⟩ := isText
  have hafter : ∀ token ∈ tokens, ∀ position,
      TextCursor.after second position (token.rename f) =
        TextCursor.after first position token := by
    intro token hmem position
    rw [TextCursor.after, TextCursor.after, Token.isReference_rename]
    split
    · next hreference =>
        obtain ⟨spelling, hfirst, hsecond, _⟩ := mirrors token (known token hmem hreference)
        rw [hfirst, hsecond]
        rfl
    · rfl
  have hfold : ∀ position, (tokens.map (Token.rename f)).foldl
      (fun position token => min (TextCursor.after second position token) place.stop) position =
        tokens.foldl (fun position token => min (TextCursor.after first position token) place.stop)
          position := by
    intro position
    rw [List.foldl_map]
    apply List.foldl_ext
    intro position token hmem
    rw [hafter token hmem]
  change Input.text { place with position := _ } = Input.text { place with position := _ }
  rw [hfold]

variable {τ σ ρ : Type}

/-- The separator tokens with other identities. -/
def Pending.rename (f : Nat → Nat) (pending : Pending τ) : Pending τ :=
  { pending with tokens := pending.tokens.map (Token.rename f) }

/-- The second state has what the first has for shared identities, renamed, and draws identities in
step with it. All shared identities were recorded since the state at the base. -/
structure Progress.Renames (first : Progress τ σ ρ) (f : Nat → Nat) (base : Progress τ σ ρ)
    (shared : List Nat) (second : Progress τ σ ρ) : Prop where
  tracks : ∀ k, f (first.supply + k) = second.supply + k
  pending : second.pending = first.pending.map (Pending.rename f)
  plain : Token.Plain first.pendingTokens
  store : first.subtrees.Mirrors f shared second.subtrees
  grown : base.supply ≤ second.supply
  recorded : ∃ new, second.recorded = new ++ base.recorded ∧
    ∀ id ∈ shared, f id ∈ new ∧ base.supply ≤ f id

namespace Progress.Renames

variable {f : Nat → Nat} {low : Nat} {base first second : Progress τ σ ρ} {shared : List Nat}

theorem note (h : first.Renames f base shared second) (frame frame' : Frame σ ρ)
    (act act' : Act τ) :
    (first.note frame act).Renames f base shared (second.note frame' act') := by
  obtain ⟨new, hnew, hshared⟩ := h.recorded
  refine ⟨h.tracks, h.pending, h.plain, h.store, h.grown, ?_⟩
  obtain ⟨more, hmore⟩ : second.recorded <:+ (second.note frame' act').recorded :=
    recorded_suffix (List.suffix_cons _ _)
  refine ⟨more ++ new, ?_, ?_⟩
  · rw [← hmore, hnew, List.append_assoc]
  · intro id hid
    exact ⟨List.mem_append_right _ (hshared id hid).1, (hshared id hid).2⟩

theorem pendingTokens (h : first.Renames f base shared second) :
    second.pendingTokens = first.pendingTokens.map (Token.rename f) := by
  rw [Progress.pendingTokens, Progress.pendingTokens, h.pending]
  cases first.pending with
  | none => rfl
  | some pending => rfl

theorem claimed (h : first.Renames f base shared second) :
    first.claimed.Renames f base shared second.claimed :=
  { h with pending := rfl, plain := Token.plain_nil }

theorem tokens (h : first.Renames f base shared second) (lexemes : List Lexeme) :
    (Found.spelled lexemes).tokens second.supply =
      ((Found.spelled lexemes).tokens first.supply).map (Token.rename f) :=
  (Token.map_rename_mint h.tracks lexemes).symm

theorem draw (h : first.Renames f base shared second) (lexemes : List Lexeme) :
    (first.draw (.spelled lexemes)).Renames f base shared (second.draw (.spelled lexemes)) := by
  refine { h with tracks := ?_, grown := ?_ }
  · intro k
    change f (first.supply + lexemes.length + k) = second.supply + lexemes.length + k
    rw [Nat.add_assoc, Nat.add_assoc]
    exact h.tracks (lexemes.length + k)
  · exact Nat.le_trans h.grown (Nat.le_add_right _ _)

theorem defer (h : first.Renames f base shared second) {tokens : List Token}
    (plain : Token.Plain tokens) (terminal : τ) :
    (first.defer tokens terminal).Renames f base shared
      (second.defer (tokens.map (Token.rename f)) terminal) :=
  { h with pending := rfl, plain := plain }

/-- A child that both have matched is stored by both, and its identity is shared from then on. -/
theorem record (h : first.Renames f base shared second) (fixes : Fixes f low) {reference : Token}
    {spelling : Spelling} (known : Token.Shared shared spelling.tokens)
    (drawn : base.supply ≤ f reference.id) (frame frame' : Frame σ ρ) :
    ((first.note frame (.record reference spelling)).record reference spelling).Renames f base
      (reference.id :: shared)
      ((second.note frame' (.record (reference.rename f) (spelling.rename f))).record
        (reference.rename f) (spelling.rename f)) := by
  obtain ⟨new, hnew, hshared⟩ := h.recorded
  refine ⟨h.tracks, h.pending, h.plain, h.store.insert fixes known, h.grown,
    f reference.id :: new, ?_, ?_⟩
  · exact congrArg (f reference.id :: ·) hnew
  · intro id hid
    rcases List.mem_cons.mp hid with rfl | hid
    · exact ⟨List.mem_cons_self .., drawn⟩
    · exact ⟨List.mem_cons_of_mem _ (hshared id hid).1, (hshared id hid).2⟩

end Progress.Renames

/-- The second frame is at the same place in the same text, and has collected the renamed tokens.
Both belong to one node, at the top or below it. -/
structure Frame.Renames (first : Frame Input ρ) (f : Nat → Nat) (like : ρ → ρ → Prop)
    (top : Ancestry) (shared : List Nat) (second : Frame Input ρ) : Prop where
  below : top.LeadsTo first.path
  path : second.path = first.path
  cursor : second.cursor = first.cursor
  isText : first.cursor.IsText
  resolver : like first.resolver second.resolver
  tokens : second.tokens = first.tokens.map (Token.rename f)
  known : Token.Shared shared first.tokens

namespace Frame.Renames

variable {f : Nat → Nat} {like : ρ → ρ → Prop} {top : Ancestry} {shared more : List Nat}
  {first second tried tried' : Frame Input ρ}

theorem mono (h : first.Renames f like top shared second) (subset : shared ⊆ more) :
    first.Renames f like top more second :=
  { h with known := h.known.mono subset }

theorem collect (h : first.Renames f like top shared second) {tokens : List Token}
    (known : Token.Shared shared tokens) :
    (first.collect tokens).Renames f like top shared
      (second.collect (tokens.map (Token.rename f))) := by
  refine { h with tokens := ?_, known := h.known.append known }
  change second.tokens ++ _ = (first.tokens ++ tokens).map _
  rw [h.tokens, List.map_append]

theorem move (h : first.Renames f like top shared second) {before after : Subtrees}
    (mirrors : before.Mirrors f shared after) {tokens : List Token}
    (known : Token.Shared shared tokens) :
    (first.move tokens before).Renames f like top shared
      (second.move (tokens.map (Token.rename f)) after) := by
  refine { h with cursor := ?_, isText := h.isText.advance _ _ }
  change Cursor.advance _ after second.cursor = Cursor.advance tokens before first.cursor
  rw [h.cursor]
  exact h.isText.advance_rename mirrors known

theorem emptied (h : first.Renames f like top shared second) :
    first.emptied.Renames f like top shared second.emptied :=
  { h with tokens := rfl, known := .of_plain Token.plain_nil }

/-- The frames after a sequence that both have matched. -/
theorem commit (h : first.Renames f like top shared second) (htried : tried.Renames f like top more tried')
    (subset : shared ⊆ more) :
    (first.commit tried).Renames f like top more (second.commit tried') :=
  { htried with tokens := h.tokens, known := h.known.mono subset }

/-- The frames after a sequence that failed for both. -/
theorem giveBack (h : first.Renames f like top shared second)
    (htried : tried.Renames f like top more tried') (subset : shared ⊆ more) :
    (first.giveBack tried).Renames f like top more (second.giveBack tried') :=
  { h with
    cursor := htried.cursor
    isText := htried.isText
    known := h.known.mono subset }

end Frame.Renames

end TreeAlign
