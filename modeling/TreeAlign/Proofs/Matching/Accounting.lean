import TreeAlign.Proofs.Matching.Fallback
import TreeAlign.Proofs.Spelling.LeafCount

/-!
# The leaves behind the positions of attached tokens

The position in attached tokens is the number of leaves in front of it. The
invariant here accounts for every leaf: the tokens that a node has collected,
and the slot, expand to the same leaves as the tokens of its list that were
read. In the list a reference stands for what its child was read from, which
includes the white space that the child has left in the slot.

A child that was read from the text after all is passed by the number of its
own leaves. What it has left in the slot is not among them. Such tokens are
called strays: they are leaves of the tree, but no position counts them.
-/

namespace TreeAlign

variable {τ ρ : Type}

namespace Progress

variable {before after progress : Progress τ Input ρ}

/-- What children that were read from the text after all left in the slot. They are met when the
references of the tokens are followed through children that were read from tokens. -/
inductive Strays (progress : Progress τ Input ρ) : List Token → List Token → Prop where
  | nil : Strays progress [] []
  | leaf {token : Token} {rest strays : List Token} (plain : token.isReference = false)
      (tail : Strays progress rest strays) : Strays progress (token :: rest) strays
  | read {reference : Token} {spelling : Spelling} {rest inner strays : List Token}
      (isReference : reference.isReference = true)
      (stored : progress.subtrees.get? reference = some spelling)
      (medium : spelling.extent.medium = .tokens)
      (inside : Strays progress spelling.tokens inner) (tail : Strays progress rest strays) :
      Strays progress (reference :: rest) (inner ++ strays)
  | fallen {reference : Token} {spelling : Spelling} {rest strays : List Token}
      (isReference : reference.isReference = true)
      (stored : progress.subtrees.get? reference = some spelling)
      (medium : spelling.extent.medium ≠ .tokens) (tail : Strays progress rest strays) :
      Strays progress (reference :: rest) ((progress.receipt reference.id).slot ++ strays)

namespace Strays

theorem of_plain {tokens : List Token} (h : Token.Plain tokens) : progress.Strays tokens [] := by
  induction tokens with
  | nil => exact .nil
  | cons token rest ih =>
      exact .leaf (h token (List.mem_cons_self ..)) (ih fun t ht => h t (List.mem_cons_of_mem _ ht))

theorem append {left right inner outer : List Token} (hl : progress.Strays left inner)
    (hr : progress.Strays right outer) : progress.Strays (left ++ right) (inner ++ outer) := by
  induction hl with
  | nil => exact hr
  | leaf plain _ ih => exact .leaf plain ih
  | read isReference stored medium inside _ _ ih =>
      rw [List.append_assoc]
      exact .read isReference stored medium inside ih
  | fallen isReference stored medium _ ih =>
      rw [List.append_assoc]
      exact .fallen isReference stored medium ih

theorem mono {tokens strays : List Token} (h : before.Strays tokens strays)
    (later : before.Later after) (booked : before.Booked) (once : after.RecordsOnce) :
    after.Strays tokens strays := by
  induction h with
  | nil => exact .nil
  | leaf plain _ ih => exact .leaf plain ih
  | read isReference stored medium _ _ ih ih' =>
      exact .read isReference (later.kept once _ _ stored) medium ih ih'
  | fallen isReference stored medium _ ih =>
      rw [← receipt_eq later.noted once (booked _ _ stored)]
      exact .fallen isReference (later.kept once _ _ stored) medium ih

/-- The tokens determine their strays. -/
theorem unique {tokens strays other : List Token} (h : progress.Strays tokens strays)
    (h' : progress.Strays tokens other) : strays = other := by
  induction h generalizing other with
  | nil =>
      cases h'
      rfl
  | leaf plain _ ih =>
      cases h' with
      | leaf _ tail => exact ih tail
      | read isReference _ _ _ _ => exact absurd (plain.symm.trans isReference) (by simp)
      | fallen isReference _ _ _ => exact absurd (plain.symm.trans isReference) (by simp)
  | read isReference stored medium _ _ ih ih' =>
      cases h' with
      | leaf plain _ => exact absurd (plain.symm.trans isReference) (by simp)
      | read _ stored' _ inside tail =>
          rw [stored, Option.some.injEq] at stored'
          subst stored'
          rw [ih inside, ih' tail]
      | fallen _ stored' other _ =>
          rw [stored, Option.some.injEq] at stored'
          subst stored'
          exact absurd medium other
  | fallen isReference stored medium _ ih =>
      cases h' with
      | leaf plain _ => exact absurd (plain.symm.trans isReference) (by simp)
      | read _ stored' other _ _ =>
          rw [stored, Option.some.injEq] at stored'
          subst stored'
          exact absurd other medium
      | fallen _ _ _ tail => rw [ih tail]

end Strays

/-- How the tokens of a node and the slot account for the tokens that were read of its list. The
counted leaves are those of what was read, and the others are strays. -/
structure Account (progress : Progress τ Input ρ)
    (read tokens slot leaves counted strays : List Token) : Prop where
  expands : progress.subtrees.Expands (tokens ++ slot) leaves
  source : progress.source.Expands read counted
  stray : progress.Strays tokens strays
  sublist : counted.Sublist leaves
  perm : leaves.Perm (counted ++ strays)

namespace Account

variable {read tokens slot more leaves counted strays : List Token}

theorem start (progress : Progress τ Input ρ) : progress.Account [] [] [] [] [] [] :=
  ⟨.nil, .nil, .nil, .slnil, .nil⟩

theorem mono (h : before.Account read tokens slot leaves counted strays)
    (later : before.Later after) (booked : before.Booked) (once : after.RecordsOnce) :
    after.Account read tokens slot leaves counted strays where
  expands := h.expands.mono (later.kept once)
  source := h.source.mono (later.source_extends booked once)
  stray := h.stray.mono later booked once
  sublist := h.sublist
  perm := h.perm

/-- The node collects what is in the slot. -/
theorem claimed (h : progress.Account read tokens slot leaves counted strays)
    (plain : Token.Plain slot) :
    progress.Account read (tokens ++ slot) [] leaves counted strays where
  expands := by
    rw [List.append_nil]
    exact h.expands
  source := h.source
  stray := by
    have hstrays := h.stray.append (.of_plain plain)
    rwa [List.append_nil] at hstrays
  sublist := h.sublist
  perm := h.perm

variable {reference : Token} {spelling : Spelling} {inner : List Token}

/-- What a node accounts for and what its next child accounts for, put together. -/
theorem join {innerCounted innerStrays innerTokens innerRead : List Token}
    (h : progress.Account read tokens [] leaves counted strays)
    (inside : progress.Account innerRead innerTokens slot inner innerCounted innerStrays) :
    progress.Account (read ++ innerRead) (tokens ++ innerTokens) slot (leaves ++ inner)
      (counted ++ innerCounted) (strays ++ innerStrays) where
  expands := by
    have hexpands := h.expands
    rw [List.append_nil] at hexpands
    rw [List.append_assoc]
    exact hexpands.append inside.expands
  source := h.source.append inside.source
  stray := h.stray.append inside.stray
  sublist := h.sublist.append inside.sublist
  perm := by
    have hperm := h.perm.append inside.perm
    rw [List.append_assoc] at hperm ⊢
    exact hperm.trans ((List.perm_append_comm_assoc strays innerCounted innerStrays).append_left
      counted)

/-- Plain tokens that have been put into the slot. -/
theorem waiting (plain : Token.Plain more) : progress.Account more [] more more more [] where
  expands := .of_plain plain
  source := .of_plain plain
  stray := .nil
  sublist := .refl more
  perm := by rw [List.append_nil]

/-- A reference to a child that was read from its own tokens. -/
theorem child {innerCounted innerStrays innerRead : List Token}
    (isReference : reference.isReference = true)
    (stored : progress.subtrees.get? reference = some spelling)
    (medium : spelling.extent.medium = .tokens)
    (source : (progress.receipt reference.id).source spelling = innerRead)
    (inside : progress.Account innerRead spelling.tokens slot inner innerCounted innerStrays) :
    progress.Account [reference] [reference] slot inner innerCounted innerStrays where
  expands := by
    obtain ⟨own, waiting, hown, hwaiting, rfl⟩ := inside.expands.split
    exact .child isReference stored hown hwaiting
  source := by
    have hinside := inside.source
    rw [← source] at hinside
    have hchild : progress.source.Expands [reference] (innerCounted ++ []) :=
      .child isReference (get?_source stored) hinside .nil
    rwa [List.append_nil] at hchild
  stray := by
    have hchild : progress.Strays [reference] (innerStrays ++ []) :=
      .read isReference stored medium inside.stray .nil
    rwa [List.append_nil] at hchild
  sublist := inside.sublist
  perm := inside.perm

/-- A reference to a child that was read from the text after all. What it left in the slot are
strays. -/
theorem fallen {progress : Progress Stock Input ρ} (isReference : reference.isReference = true)
    (stored : progress.subtrees.get? reference = some spelling)
    (medium : spelling.extent.medium = .text)
    (left : (progress.receipt reference.id).slot = slot) (plain : Token.Plain slot)
    (inside : progress.ExpandsAlike spelling.tokens inner) :
    progress.Account [reference] [reference] slot (inner ++ slot) inner slot where
  expands := .child isReference stored inside.expands (.of_plain plain)
  source := (ExpandsAlike.reference isReference stored medium inside).source
  stray := by
    have hchild : progress.Strays [reference] ((progress.receipt reference.id).slot ++ []) :=
      .fallen isReference stored (by simp [medium]) .nil
    rwa [List.append_nil, left] at hchild
  sublist := List.sublist_append_left inner slot
  perm := .refl _

end Account

end Progress

namespace TokenCursor

variable {cursor : TokenCursor} {tokens rest : List Token} {reference : Token}
  {spelling : Spelling}

/-- A cursor that passes what is in front of it has read so much more. -/
theorem index_advance (subtrees : Subtrees) (bound : cursor.index ≤ cursor.tokens.length)
    (h : cursor.remaining = tokens ++ rest) :
    (cursor.advance tokens subtrees).index = cursor.index + tokens.length := by
  have hlength := congrArg List.length h
  rw [remaining, List.length_drop, List.length_append] at hlength
  have hle : cursor.index + tokens.length ≤ cursor.tokens.length := by omega
  exact Nat.min_eq_left hle

theorem take_advance (h : cursor.remaining = tokens ++ rest) :
    cursor.tokens.take (cursor.index + tokens.length) =
      cursor.tokens.take cursor.index ++ tokens := by
  rw [remaining] at h
  rw [List.take_add, h, List.take_left]

/-- Plain tokens are leaves. -/
theorem total_leavesOf (subtrees : Subtrees) (plain : Token.Plain tokens) :
    total (leavesOf subtrees) tokens = tokens.length := by
  induction tokens with
  | nil => rfl
  | cons token rest ih =>
      have htoken : token.isReference = false := plain token (List.mem_cons_self ..)
      have hrest : Token.Plain rest := fun other hmem => plain other (List.mem_cons_of_mem _ hmem)
      have hone : leavesOf subtrees token = 1 := by simp [leavesOf, Subtrees.child?, htoken]
      rw [total_cons, ih hrest, hone, List.length_cons, Nat.add_comm]

/-- A child that was read from tokens is passed by its extent. -/
theorem leavesOf_child {subtrees : Subtrees} (isReference : reference.isReference = true)
    (stored : subtrees.get? reference = some spelling)
    (medium : spelling.extent.medium = .tokens) :
    leavesOf subtrees reference = spelling.extent.stop - spelling.extent.start := by
  simp [leavesOf, Subtrees.child?, isReference, stored, medium]

/-- A child that was read from a text is passed by its own leaves. -/
theorem leavesOf_fallen {subtrees : Subtrees} (isReference : reference.isReference = true)
    (stored : subtrees.get? reference = some spelling) (medium : spelling.extent.medium = .text)
    {leaves : List Token} (expands : subtrees.Expands spelling.tokens leaves) :
    leavesOf subtrees reference = leaves.length := by
  rw [leavesOf_eq_leafCount isReference stored (by simp [medium]), expands.leafCount_eq]

end TokenCursor

end TreeAlign
