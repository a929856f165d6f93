import TreeAlign.Tree.Basic

/-!
# Spellings and subtrees

A spelling says which tokens belong to one node and where they were found.
A token that stands for a child is a reference, and the store `Subtrees`
leads from the identity of a reference to the child's spelling.

Expanding a spelling replaces its references by the spellings they lead to,
over and over. The store may lead back to where it came from, and then that
never ends. So expansion counts the levels it may still go down. A chain of
different references is no longer than the store, so as many levels as there
are entries reach the end of every expansion that has one, and whether there
is an end can be told: `leafCount?` is the number of leaves where counting
them ends, and nothing where it does not.
-/

namespace TreeAlign

/-- The sum of a count over a list. -/
def total {α : Type} (count : α → Nat) : List α → Nat
  | [] => 0
  | a :: rest => count a + total count rest

@[simp] theorem total_nil {α : Type} (count : α → Nat) : total count [] = 0 := rfl

@[simp] theorem total_cons {α : Type} (count : α → Nat) (a : α) (rest : List α) :
    total count (a :: rest) = count a + total count rest := rfl

@[simp] theorem total_append {α : Type} (count : α → Nat) (xs ys : List α) :
    total count (xs ++ ys) = total count xs + total count ys := by
  induction xs with
  | nil => simp
  | cons a rest ih => simp [ih, Nat.add_assoc]

/-- What kind of input a cursor reads. -/
inductive Medium where
  | text
  | tokens
  | synthetic
deriving DecidableEq, Repr

namespace Medium

/-- The name used in messages. -/
def name : Medium → String
  | .text => "text"
  | .tokens => "tokens"
  | .synthetic => "synthetic"

end Medium

/-- Where a spelling was found: the medium, and positions in its units. -/
structure Extent where
  medium : Medium
  start : Nat
  stop : Nat
deriving DecidableEq, Repr

/-- The tokens that belong to a node. -/
structure Spelling where
  node : Node Token
  tokens : List Token
  extent : Extent

/-- The spellings of children, found by the identity of the tokens that stand for them. -/
structure Subtrees where
  entries : List (Token × Spelling) := []

namespace Subtrees

/-- The store without entries. -/
def empty : Subtrees := ⟨[]⟩

/-- The number of entries. -/
def size (subtrees : Subtrees) : Nat := subtrees.entries.length

/-- The spelling stored for a token. -/
def get? (subtrees : Subtrees) (token : Token) : Option Spelling :=
  (subtrees.entries.find? fun entry => entry.1.same token).map (·.2)

/-- Replaces the entry of the token, or adds one behind all others. -/
def insertIn (token : Token) (spelling : Spelling) :
    List (Token × Spelling) → List (Token × Spelling)
  | [] => [(token, spelling)]
  | (key, old) :: rest =>
    if key.same token then (key, spelling) :: rest
    else (key, old) :: insertIn token spelling rest

/-- Stores a spelling for a token; an earlier one for the same token is replaced. -/
def insert (subtrees : Subtrees) (token : Token) (spelling : Spelling) : Subtrees :=
  ⟨insertIn token spelling subtrees.entries⟩

/-- After an insertion the token leads to the inserted spelling, and every other token leads to
what it led to before. -/
theorem get?_insert (subtrees : Subtrees) (token other : Token) (spelling : Spelling) :
    (subtrees.insert token spelling).get? other =
      if token.id = other.id then some spelling else subtrees.get? other := by
  obtain ⟨entries⟩ := subtrees
  simp only [insert, get?]
  induction entries with
  | nil => by_cases h : token.id = other.id <;> simp [insertIn, Token.same, h]
  | cons entry rest ih =>
      obtain ⟨key, old⟩ := entry
      by_cases hk : key.id = token.id
      · by_cases h : token.id = other.id
        · simp [insertIn, Token.same, hk, h]
        · simp [insertIn, Token.same, hk, h]
      · by_cases ho : key.id = other.id
        · have hne : token.id ≠ other.id := fun e => hk (ho.trans e.symm)
          simp [insertIn, Token.same, ho, hne, hne.symm]
        · simpa [insertIn, Token.same, hk, ho] using ih

/-- The spelling that a reference stands for; other tokens stand for themselves. -/
def child? (subtrees : Subtrees) (token : Token) : Option Spelling :=
  if token.isReference then subtrees.get? token else none

/-- The tokens of a spelling with references expanded up to `levels` deep. -/
def leavesWithin (subtrees : Subtrees) : Nat → Spelling → List Token
  | 0, spelling => spelling.tokens
  | levels + 1, spelling => spelling.tokens.flatMap fun token =>
    match subtrees.child? token with
    | some child => subtrees.leavesWithin levels child
    | none => [token]

/-- The tokens of a spelling with every reference replaced by what it stands for. -/
def leaves (subtrees : Subtrees) (spelling : Spelling) : List Token :=
  subtrees.leavesWithin subtrees.size spelling

/-- The number of tokens of a spelling with references expanded up to `levels` deep. -/
def leafCountWithin (subtrees : Subtrees) : Nat → Spelling → Nat
  | 0, spelling => spelling.tokens.length
  | levels + 1, spelling => total (fun token =>
    match subtrees.child? token with
    | some child => subtrees.leafCountWithin levels child
    | none => 1) spelling.tokens

/-- The number of tokens that a spelling expands to, where expanding it ends. -/
def leafCount (subtrees : Subtrees) (spelling : Spelling) : Nat :=
  subtrees.leafCountWithin subtrees.size spelling

/-- Whether no reference is left when references are expanded up to `levels` deep. -/
def expandsWithin (subtrees : Subtrees) : Nat → Spelling → Bool
  | 0, spelling => spelling.tokens.all fun token => (subtrees.child? token).isNone
  | levels + 1, spelling => spelling.tokens.all fun token =>
    match subtrees.child? token with
    | some child => subtrees.expandsWithin levels child
    | none => true

/-- The number of tokens that a spelling expands to. There is none where references lead back to
themselves: counting goes on for ever. -/
def leafCount? (subtrees : Subtrees) (spelling : Spelling) : Option Nat :=
  if subtrees.expandsWithin subtrees.size spelling then some (subtrees.leafCount spelling)
  else none

/-- The number of spellings met when references are followed up to `levels` deep. -/
def nodeCountWithin (subtrees : Subtrees) : Nat → Spelling → Nat
  | 0, _ => 1
  | levels + 1, spelling => 1 + total (fun token =>
    match subtrees.child? token with
    | some child => subtrees.nodeCountWithin levels child
    | none => 0) spelling.tokens

/-- The number of spellings reached from a spelling through references, itself included. -/
def nodeCount (subtrees : Subtrees) (spelling : Spelling) : Nat :=
  subtrees.nodeCountWithin subtrees.size spelling

end Subtrees

/-- The values of the tokens, one after the other. -/
def Token.textOf (tokens : List Token) : String :=
  String.join (tokens.map (·.value))

end TreeAlign
