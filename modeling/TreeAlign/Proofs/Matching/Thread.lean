import TreeAlign.Proofs.Matching.Weave
import TreeAlign.Proofs.Tree.Attach

/-!
# References that lead to attached tokens

The tokens that a match has found are attached to the nodes of the tree. The
references in such a token list are resolved in the order in which they
stand, and each one then leads to a child that carries the tokens stored for
the reference. Identities grow along the list and inside it, so that every
reference is found in one place only.
-/

namespace TreeAlign

namespace TokenCursor

variable {cursor : TokenCursor} {tokens rest : List Token}

/-- A cursor that passes what is in front of it reads on behind it. -/
theorem remaining_advance (subtrees : Subtrees) (h : cursor.remaining = tokens ++ rest) :
    (cursor.advance tokens subtrees).remaining = rest := by
  have hmin : cursor.tokens.drop (min (cursor.index + tokens.length) cursor.tokens.length) =
      cursor.tokens.drop (cursor.index + tokens.length) := by
    rcases Nat.le_total (cursor.index + tokens.length) cursor.tokens.length with hle | hle
    · rw [Nat.min_eq_left hle]
    · rw [Nat.min_eq_right hle, List.drop_length, List.drop_eq_nil_of_le hle]
  have hdrop : (cursor.tokens.drop cursor.index).drop tokens.length = rest := by
    rw [remaining] at h
    rw [h, List.drop_left]
  rw [List.drop_drop] at hdrop
  exact hmin.trans hdrop

/-- A child with attached tokens is read from all of them. -/
theorem remaining_forChild {child : Node Token} (h : child.tokens = some tokens) :
    (cursor.forChild child).remaining = tokens := by
  simp [remaining, forChild, ofNode, h]

end TokenCursor

/-- What a terminal finds in attached tokens is in front of the cursor. -/
theorem Input.stored_of_probe {cursor : TokenCursor} {terminal : Stock} {found : Found}
    (probe : Reads.probe (Input.tokens cursor) terminal = some found) :
    ∃ tokens, found = .stored tokens ∧ terminal.matchTokens cursor.remaining = some tokens := by
  have hmap : (cursor.probe terminal).map Found.stored = some found := probe
  obtain ⟨tokens, hprobe, rfl⟩ := Option.map_eq_some_iff.mp hmap
  exact ⟨tokens, rfl, hprobe⟩

/-- The nodes below the root that were finished have the tokens of their spellings attached. -/
def Progress.Attached {τ σ ρ : Type} (progress : Progress τ σ ρ)
    (tokensAt : Route → Option (List Token)) : Prop :=
  ∀ path spelling slot, progress.Finished path spelling slot → path.address ≠ [] →
    tokensAt path.address = some spelling.tokens

/-- The references of a token list lead to children that carry the tokens of their stored
spellings. They are resolved from the first state of the resolver to the last, and the identities
of all of them are between the two bounds. -/
inductive Threaded (subtrees : Subtrees) (tokensAt : Route → Option (List Token)) :
    Ancestry → ByName → Nat → List Token → ByName → Nat → Prop where
  | nil {path : Ancestry} {resolver : ByName} {low high : Nat} (le : low ≤ high) :
      Threaded subtrees tokensAt path resolver low [] resolver high
  | leaf {path : Ancestry} {resolver last : ByName} {low high : Nat} {token : Token}
      {rest : List Token} (plain : token.isReference = false)
      (tail : Threaded subtrees tokensAt path resolver low rest last high) :
      Threaded subtrees tokensAt path resolver low (token :: rest) last high
  | child {path : Ancestry} {resolver inner last : ByName} {low middle high : Nat}
      {reference : Token} {rest : List Token} {route : Route} {node : Node Token}
      {spelling : Spelling} (isReference : reference.isReference = true)
      (fresh : low ≤ reference.id) (resolved : (resolver.resolve reference).1 = some route)
      (found : path.node.get? route = some node)
      (stored : subtrees.get? reference = some spelling)
      (attached : tokensAt (Ancestry.child path node route).address = some spelling.tokens)
      (inside : Threaded subtrees tokensAt (.child path node route) { node } (reference.id + 1)
        spelling.tokens inner middle)
      (tail : Threaded subtrees tokensAt path (resolver.resolve reference).2 middle rest last
        high) :
      Threaded subtrees tokensAt path resolver low (reference :: rest) last high

namespace Threaded

variable {subtrees : Subtrees} {tokensAt : Route → Option (List Token)} {path : Ancestry}
  {resolver middle last : ByName} {low bound high : Nat} {tokens left right : List Token}

theorem low_le_high (h : Threaded subtrees tokensAt path resolver low tokens last high) :
    low ≤ high := by
  induction h with
  | nil le => exact le
  | leaf _ _ ih => exact ih
  | child _ fresh _ _ _ _ _ _ ih ih' => omega

/-- The lower bound may be lower. -/
theorem since (h : Threaded subtrees tokensAt path resolver bound tokens last high)
    (le : low ≤ bound) : Threaded subtrees tokensAt path resolver low tokens last high := by
  induction h with
  | nil le' => exact .nil (Nat.le_trans le le')
  | leaf plain _ ih => exact .leaf plain (ih le)
  | child isReference fresh resolved found stored attached inside tail _ _ =>
      exact .child isReference (Nat.le_trans le fresh) resolved found stored attached inside tail

theorem append (hl : Threaded subtrees tokensAt path resolver low left middle bound)
    (hr : Threaded subtrees tokensAt path middle bound right last high) :
    Threaded subtrees tokensAt path resolver low (left ++ right) last high := by
  induction hl with
  | nil le => exact hr.since le
  | leaf plain _ ih => exact .leaf plain (ih hr)
  | child isReference fresh resolved found stored attached inside _ _ ih =>
      exact .child isReference fresh resolved found stored attached inside (ih hr)

/-- Tokens that are no references thread nothing. -/
theorem of_plain (plain : ∀ token ∈ tokens, token.isReference = false) (le : low ≤ high) :
    Threaded subtrees tokensAt path resolver low tokens resolver high := by
  induction tokens with
  | nil => exact .nil le
  | cons token rest ih =>
      exact .leaf (plain token (List.mem_cons_self ..))
        (ih fun t ht => plain t (List.mem_cons_of_mem _ ht))

/-- What stands behind tokens that are no references. -/
theorem behind (plain : ∀ token ∈ left, token.isReference = false)
    (h : Threaded subtrees tokensAt path resolver low (left ++ right) last high) :
    Threaded subtrees tokensAt path resolver low right last high := by
  induction left with
  | nil => exact h
  | cons token rest ih =>
      have hplain := plain token (List.mem_cons_self ..)
      cases h with
      | leaf _ tail => exact ih (fun t ht => plain t (List.mem_cons_of_mem _ ht)) tail
      | child isReference => exact absurd (hplain.symm.trans isReference) (by simp)

/-- The references of the list can be expanded to the end. -/
theorem exists_leaves (h : Threaded subtrees tokensAt path resolver low tokens last high) :
    ∃ leaves, subtrees.Expands tokens leaves := by
  induction h with
  | nil _ => exact ⟨[], .nil⟩
  | leaf plain _ ih =>
      obtain ⟨leaves, hleaves⟩ := ih
      exact ⟨_ :: leaves, .leaf plain hleaves⟩
  | child isReference _ _ _ stored _ _ _ ih ih' =>
      obtain ⟨inner, hinner⟩ := ih
      obtain ⟨leaves, hleaves⟩ := ih'
      exact ⟨inner ++ leaves, .child isReference stored hinner hleaves⟩

end Threaded

/-- The tokens that a grammar that takes only has laid over a text are threaded. -/
theorem Woven.threaded {aligner : Aligner Stock ByName} (byName : aligner.resolver = .byName)
    {text : List Char} {state : Progress Stock Input ByName}
    {tokensAt : Route → Option (List Token)} (attached : state.Attached tokensAt)
    {path : Ancestry} {first last : Mark} {tokens slot : List Token} {resolver : ByName}
    (h : Woven aligner text state path first tokens slot resolver last) :
    Threaded state.subtrees tokensAt path { node := path.node } first.supply tokens resolver
      last.supply := by
  induction h with
  | opened path mark =>
      rw [byName]
      exact .nil (Nat.le_refl _)
  | claimed earlier ih =>
      exact ih.append (.of_plain
        (fun token ht => (earlier.isBlank_slot token ht).isReference_eq_false) (Nat.le_refl _))
  | collected _ plain _ drawn ih => exact ih.append (.of_plain plain drawn)
  | deferred _ _ _ drawn ih =>
      have hwait := ih.append (.nil drawn)
      rw [List.append_nil] at hwait
      exact hwait
  | @child path _ last next _ _ _ inner reference route node spelling _ isReference fresh resolved
      found stored _ _ finished _ ih ih' =>
      rw [byName] at resolved ⊢
      have hattached := attached _ _ _ finished (ByName.address_ne_nil resolved path node)
      have hinside : Threaded state.subtrees tokensAt (.child path node route) { node }
          (reference.id + 1) spelling.tokens inner next.supply := by
        rw [fresh]
        exact ih'
      have hchild := Threaded.child isReference (Nat.le_of_eq fresh.symm) resolved found stored
        hattached hinside (.nil (Nat.le_refl _))
      exact ih.append hchild

end TreeAlign
