import TreeAlign.Tree.Basic

/-!
# Ancestries

The node being matched together with every node above it, each with the
route that led to it from its parent.
-/

namespace TreeAlign

/-- A node and the chain of its ancestors up to the root. -/
inductive Ancestry where
  | root (node : Node Token)
  | child (parent : Ancestry) (node : Node Token) (route : Route)

namespace Ancestry

/-- The node at the lower end of the chain. -/
def node : Ancestry → Node Token
  | .root node => node
  | .child _ node _ => node

/-- The route from the parent; empty at the root. -/
def route : Ancestry → Route
  | .root _ => []
  | .child _ _ route => route

/-- The chain without its lower end. -/
def parent? : Ancestry → Option Ancestry
  | .root _ => none
  | .child parent _ _ => some parent

/-- The number of nodes above the lower end. -/
def depth : Ancestry → Nat
  | .root _ => 0
  | .child parent _ _ => parent.depth + 1

/-- The chain and the chains of all ancestors, the longest first. -/
def chains : Ancestry → List Ancestry
  | .root node => [.root node]
  | .child parent node route => .child parent node route :: parent.chains

/-- Every chain of an ancestry is one longer than its depth. -/
theorem length_chains (path : Ancestry) : path.chains.length = path.depth + 1 := by
  induction path with
  | root node => rfl
  | child parent node route ih => simp [chains, depth, ih]

end Ancestry

end TreeAlign
