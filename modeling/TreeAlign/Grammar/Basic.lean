import TreeAlign.Ancestry
import TreeAlign.Grammar.Procedure

/-!
# Grammars

A grammar has a rule for each node type that it knows. A rule starts the
procedure of a node from the node's ancestry and the subtrees found so far.
-/

namespace TreeAlign

/-- Starts the procedure for the node at the lower end of an ancestry. -/
abbrev Rule (τ : Type) := Ancestry → Subtrees → Procedure τ

/-- The rules by node type, in order of the types. -/
structure Grammar (τ : Type) where
  rules : List (String × Rule τ) := []

namespace Grammar

variable {τ : Type}

/-- Adds a rule; an earlier one for the same type is replaced. -/
def register (grammar : Grammar τ) (type : String) (rule : Rule τ) : Grammar τ :=
  ⟨Keyed.insert type rule grammar.rules⟩

/-- Drops the rule for a type. -/
def remove (grammar : Grammar τ) (type : String) : Grammar τ :=
  ⟨Keyed.erase type grammar.rules⟩

/-- The rule for a type. -/
def rule? (grammar : Grammar τ) (type : String) : Option (Rule τ) :=
  Keyed.get? type grammar.rules

/-- There is a rule for the type. -/
def has (grammar : Grammar τ) (type : String) : Bool :=
  (grammar.rule? type).isSome

/-- The number of rules. -/
def size (grammar : Grammar τ) : Nat := grammar.rules.length

/-- The types that have a rule, in order. -/
def types (grammar : Grammar τ) : List String := grammar.rules.map (·.1)

/-- Starts the procedure for the node at the lower end of an ancestry. -/
def start (grammar : Grammar τ) (path : Ancestry) (subtrees : Subtrees) :
    Except Failure (Procedure τ) :=
  match grammar.rule? path.node.type with
  | some rule => .ok (rule path subtrees)
  | none => .error (.unknownType path.node.type)

end Grammar

end TreeAlign
