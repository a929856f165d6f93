import Mathlib.Data.List.Chain
import TreeAlign.Proofs.Tree.Attach
import TreeAlign.Proofs.Tree.Height

/-!
# Addresses of nodes

A route that leads to a node can be continued there by any other route, as
long as that one is not empty: the empty route leads nowhere, not even to
the node where it begins. So along a chain of nodes, each found from the one
above it, all routes together lead from the root to the last node. Only the
root itself has no route to it.
-/

namespace TreeAlign

variable {α : Type}

/-- A route that leads to a node goes on as a route from there. -/
theorem Node.get?_append {node child : Node α} {p q : Route} (h : node.get? p = some child)
    (more : q ≠ []) : node.get? (p ++ q) = child.get? q := by
  cases p with
  | nil => simp [get?] at h
  | cons segment rest =>
      cases segment with
      | index i => simp [get?] at h
      | field name =>
          simp only [get?, Option.bind_eq_some_iff] at h
          obtain ⟨field, hfield, h⟩ := h
          rw [List.cons_append, get?, hfield, Option.bind_some, Field.follow_append h]
          cases q with
          | nil => exact absurd rfl more
          | cons next after =>
              cases next with
              | field name' => rfl
              | index i => rfl

theorem Node.ne_nil_of_get? {node child : Node α} {route : Route}
    (h : node.get? route = some child) : route ≠ [] := by
  rintro rfl
  exact absurd h (by simp [get?])

/-- From a node with a single child that has no fields, all routes lead to that child. -/
theorem Node.eq_of_get?_single {type name : String} {range : Option Span} {tokens : Option (List α)}
    {leaf node : Node α} {route : Route} (bare : leaf.fields = [])
    (h : (⟨type, [(name, .node leaf)], range, tokens⟩ : Node α).get? route = some node) :
    node = leaf := by
  cases route with
  | nil => simp [get?] at h
  | cons segment rest =>
      cases segment with
      | index i => simp [get?] at h
      | field key =>
          simp only [get?, field?, Keyed.get?] at h
          split at h
          · cases rest with
            | nil => exact (Option.some.inj h).symm
            | cons next after =>
                cases next with
                | index i => simp [Field.follow] at h
                | field key' => simp [Field.follow, field?, bare, Keyed.get?] at h
          · cases h

namespace Ancestry

/-- The address of a node is made of all routes of its chain, from the root down. -/
theorem address_eq_flatten (path : Ancestry) :
    path.address = (path.chains.map route).reverse.flatten := by
  induction path with
  | root node => rfl
  | child parent node route ih => simp [address, chains, ih, Ancestry.route]

theorem head?_chains (path : Ancestry) : path.chains.head? = some path := by
  cases path <;> rfl

/-- The chain of a node says where it is: every link is found from the one above it, the last one
is the root, and all routes together lead from the root to the node. There are as many links above
the node as its depth says, and no more than the limit. The chain of the root has no routes in it,
and no routes lead nowhere. -/
structure Locates (root : Node Token) (limit : Nat) (path : Ancestry) : Prop where
  depth_eq : path.chains.tail.length = path.depth
  depth_le : path.depth ≤ limit
  links : path.chains.IsChain fun lower upper =>
    lower.parent? = some upper ∧ upper.node.get? lower.route = some lower.node
  top : path.chains.getLast? = some (.root root)
  atRoot : path.depth = 0 → path = .root root ∧
    (path.chains.map route).reverse.flatten = [] ∧ root.get? [] = none
  belowRoot : 0 < path.depth →
    root.get? (path.chains.map route).reverse.flatten = some path.node

namespace LeadsTo

variable {root : Node Token} {path : Ancestry}

/-- Below the root, the address of a node leads to it. -/
theorem get?_address (h : (Ancestry.root root).LeadsTo path) :
    path = .root root ∨ root.get? path.address = some path.node := by
  induction h with
  | here => exact Or.inl rfl
  | child _ found ih =>
      rcases ih with rfl | haddress
      · exact Or.inr found
      · refine Or.inr ?_
        rw [address, Node.get?_append haddress (Node.ne_nil_of_get? found)]
        exact found

theorem isChain_chains (h : (Ancestry.root root).LeadsTo path) :
    path.chains.IsChain fun lower upper =>
      lower.parent? = some upper ∧ upper.node.get? lower.route = some lower.node := by
  induction h with
  | here => exact .singleton _
  | @child parent node route _ found ih =>
      rw [chains, List.isChain_cons]
      refine ⟨?_, ih⟩
      intro upper hupper
      rw [head?_chains] at hupper
      cases hupper
      exact ⟨rfl, found⟩

theorem getLast?_chains (h : (Ancestry.root root).LeadsTo path) :
    path.chains.getLast? = some (.root root) := by
  induction h with
  | here => rfl
  | child _ _ ih => rw [chains, List.getLast?_cons, ih, Option.getD_some]

/-- A chain that is built step by step from the root locates its node. -/
theorem locates (h : (Ancestry.root root).LeadsTo path) {limit : Nat}
    (shallow : path.depth ≤ limit) : path.Locates root limit where
  depth_eq := by rw [List.length_tail, length_chains, Nat.add_sub_cancel]
  depth_le := shallow
  links := h.isChain_chains
  top := h.getLast?_chains
  atRoot hdepth := by
    cases h with
    | here => exact ⟨rfl, rfl, rfl⟩
    | child _ _ => exact absurd hdepth (Nat.succ_ne_zero _)
  belowRoot hdepth := by
    rcases h.get?_address with rfl | haddress
    · exact absurd hdepth (Nat.lt_irrefl 0)
    · rw [← address_eq_flatten]
      exact haddress

end LeadsTo

end Ancestry

end TreeAlign
