import TreeAlign.Proofs.Matching.Probing
import TreeAlign.Proofs.Spelling.Ending

/-!
# Children that lie within their parent

The children of a spelling are what its references lead to, in the order of
the references. They lie within the spelling when each begins no earlier than
the one before has ended, the first no earlier than the spelling itself, and
the last ends no later. Gaps may be anywhere, so children may be left out at
the end, and plain tokens make no difference.
-/

namespace TreeAlign

/-- The spellings lie between two positions, one behind the other. -/
def Spelling.Nest : Nat → List Spelling → Nat → Prop
  | start, [], stop => start ≤ stop
  | start, child :: rest, stop =>
    start ≤ child.extent.start ∧ child.extent.start ≤ child.extent.stop ∧
      Nest child.extent.stop rest stop

namespace Spelling.Nest

variable {start stop later : Nat} {children kept dropped : List Spelling} {child : Spelling}

theorem le (h : Nest start children stop) : start ≤ stop := by
  induction children generalizing start with
  | nil => exact h
  | cons child rest ih => exact Nat.le_trans h.1 (Nat.le_trans h.2.1 (ih h.2.2))

/-- They may lie in something that ends later. -/
theorem mono (h : Nest start children stop) (le : stop ≤ later) : Nest start children later := by
  induction children generalizing start with
  | nil => exact Nat.le_trans h le
  | cons child rest ih => exact ⟨h.1, h.2.1, ih h.2.2⟩

/-- The last of them may be left out. -/
theorem left (h : Nest start (kept ++ dropped) stop) : Nest start kept stop := by
  induction kept generalizing start with
  | nil => exact h.le
  | cons child rest ih => exact ⟨h.1, h.2.1, ih h.2.2⟩

/-- One more may follow where the others end. -/
theorem push (h : Nest start children child.extent.start)
    (le : child.extent.start ≤ child.extent.stop) :
    Nest start (children ++ [child]) child.extent.stop := by
  induction children generalizing start with
  | nil => exact ⟨h, le, Nat.le_refl _⟩
  | cons first rest ih => exact ⟨h.1, h.2.1, ih h.2.2⟩

end Spelling.Nest

namespace Subtrees

variable {subtrees : Subtrees} {tokens more : List Token}

/-- What the references among the tokens lead to, in their order. -/
def children (subtrees : Subtrees) (tokens : List Token) : List Spelling :=
  tokens.filterMap subtrees.child?

theorem children_append (subtrees : Subtrees) (tokens more : List Token) :
    subtrees.children (tokens ++ more) = subtrees.children tokens ++ subtrees.children more :=
  List.filterMap_append

theorem children_append_plain (plain : Token.Plain more) :
    subtrees.children (tokens ++ more) = subtrees.children tokens := by
  have hmore : subtrees.children more = [] := by
    rw [children, List.filterMap_eq_nil_iff]
    intro token hmem
    simp [child?, plain token hmem]
  rw [children_append, hmore, List.append_nil]

theorem children_reference {reference : Token} {spelling : Spelling}
    (isReference : reference.isReference = true)
    (stored : subtrees.get? reference = some spelling) :
    subtrees.children [reference] = [spelling] := by
  have hchild : subtrees.child? reference = some spelling :=
    child?_eq_some_iff.mpr ⟨isReference, stored⟩
  simp [children, hchild]

/-- The children of the spelling lie within it. -/
def Nests (subtrees : Subtrees) (spelling : Spelling) : Prop :=
  Spelling.Nest spelling.extent.start (subtrees.children spelling.tokens) spelling.extent.stop

end Subtrees

end TreeAlign
