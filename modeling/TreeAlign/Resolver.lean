import TreeAlign.Tree.Basic

/-!
# Resolvers

A grammar names a child without saying which one. A resolver turns each
reference token into the route of a child, and keeps the state that it needs
to tell the first child of a name from the second. Its state is a value, so
resolving for a sequence that fails later leaves the earlier state intact.

The stock resolver takes the name for a field. A field with one node gives
that node every time, and a list field gives its items in order.
-/

namespace TreeAlign

/-- How the references of a node are turned into routes. -/
structure Resolver (ρ : Type) where
  /-- The state before the first reference of a node. -/
  start : Node Token → ρ
  /-- The route for a reference, and the state after it. -/
  resolve : ρ → Token → Option Route × ρ

/-- The state of the stock resolver: how many items of each list have been given. -/
structure ByName where
  node : Node Token
  given : List (String × Nat) := []

namespace ByName

/-- The number of items that have been given for a name. -/
def count (state : ByName) (name : String) : Nat :=
  (Keyed.get? name state.given).getD 0

/-- The state after one more item of a list has been given. -/
def give (state : ByName) (name : String) : ByName :=
  { state with given := Keyed.insert name (state.count name + 1) state.given }

/-- The route for a reference, and the state after it. -/
def resolve (state : ByName) (reference : Token) : Option Route × ByName :=
  match state.node.field? reference.value with
  | some (.node _) => (some [.field reference.value], state)
  | some (.list children) =>
    if state.count reference.value < children.length then
      (some [.field reference.value, .index (state.count reference.value)],
        state.give reference.value)
    else (none, state)
  | _ => (none, state)

/-- Every route that is given leads to a child. -/
theorem get?_of_resolve {state after : ByName} {reference : Token} {route : Route}
    (h : state.resolve reference = (some route, after)) :
    ∃ child, state.node.get? route = some child := by
  unfold resolve at h
  split at h
  next child hf =>
    simp only [Prod.mk.injEq, Option.some.injEq] at h
    exact ⟨child, by simp [← h.1, Node.get?, hf, Field.follow]⟩
  next children hf =>
    split at h
    next hi =>
      simp only [Prod.mk.injEq, Option.some.injEq] at h
      exact ⟨children[state.count reference.value], by
        simp [← h.1, Node.get?, hf, Field.follow, hi]⟩
    next => simp at h
  next => simp at h

end ByName

/-- The resolver that takes the name of a reference for a field. -/
def Resolver.byName : Resolver ByName where
  start node := { node }
  resolve := ByName.resolve

end TreeAlign
