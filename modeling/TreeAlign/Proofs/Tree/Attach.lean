import TreeAlign.Ancestry
import TreeAlign.Resolver

/-!
# Attaching tokens to the nodes of a tree

The address of a node is the route to it from the root, and the empty route
at the root itself. `Node.attach` puts new tokens on the nodes at given
addresses and leaves all other nodes as they are. Attaching tokens changes
neither the shape of a tree nor what routes lead to, so references are
resolved as before.
-/

namespace TreeAlign

variable {α : Type}

mutual

/-- Attaches tokens to the nodes that have some at their address. -/
def Node.attach (tokensAt : Route → Option (List α)) : Node α → Node α
  | ⟨type, fields, range, tokens⟩ =>
    ⟨type, Field.attachIn tokensAt fields, range, (tokensAt []).or tokens⟩

/-- Attaches tokens to the nodes below the fields. -/
def Field.attachIn (tokensAt : Route → Option (List α)) :
    List (String × Field α) → List (String × Field α)
  | [] => []
  | (name, field) :: rest =>
    (name, Field.attach (fun route => tokensAt (.field name :: route)) field) ::
      Field.attachIn tokensAt rest

/-- Attaches tokens to the nodes below the field. -/
def Field.attach (tokensAt : Route → Option (List α)) : Field α → Field α
  | .node child => .node (Node.attach tokensAt child)
  | .list children => .list (Node.attachAll tokensAt 0 children)
  | .value value => .value value

/-- Attaches tokens to the nodes and below them, where the first has the index `i`. -/
def Node.attachAll (tokensAt : Route → Option (List α)) (i : Nat) :
    List (Node α) → List (Node α)
  | [] => []
  | node :: rest =>
    Node.attach (fun route => tokensAt (.index i :: route)) node ::
      Node.attachAll tokensAt (i + 1) rest

end

variable (tokensAt : Route → Option (List α))

namespace Node

@[simp] theorem type_attach (node : Node α) : (node.attach tokensAt).type = node.type := by
  obtain ⟨type, fields, range, tokens⟩ := node
  rw [attach]

theorem tokens_attach (node : Node α) :
    (node.attach tokensAt).tokens = (tokensAt []).or node.tokens := by
  obtain ⟨type, fields, range, tokens⟩ := node
  rw [attach]

theorem field?_attach (node : Node α) (name : String) :
    (node.attach tokensAt).field? name =
      (node.field? name).map (Field.attach fun route => tokensAt (.field name :: route)) := by
  obtain ⟨type, fields, range, tokens⟩ := node
  rw [attach]
  simp only [field?]
  induction fields with
  | nil => rfl
  | cons pair rest ih =>
      obtain ⟨key, field⟩ := pair
      simp only [Field.attachIn, Keyed.get?]
      by_cases h : key = name
      · subst h
        simp
      · simp only [if_neg h]
        exact ih

theorem getElem?_attachAll (i j : Nat) (children : List (Node α)) :
    (attachAll tokensAt i children)[j]? =
      children[j]?.map (attach fun route => tokensAt (.index (i + j) :: route)) := by
  induction children generalizing i j with
  | nil => simp [attachAll]
  | cons node rest ih =>
      cases j with
      | zero => simp [attachAll]
      | succ j =>
          simp only [attachAll, List.getElem?_cons_succ, ih, Nat.add_right_comm, Nat.add_assoc]

theorem length_attachAll (i : Nat) (children : List (Node α)) :
    (attachAll tokensAt i children).length = children.length := by
  induction children generalizing i with
  | nil => simp [attachAll]
  | cons node rest ih => simp [attachAll, ih]

end Node

theorem Field.follow_attach (field : Field α) (route : Route) :
    (field.attach tokensAt).follow route =
      (field.follow route).map (Node.attach fun rest => tokensAt (route ++ rest)) := by
  induction route generalizing field tokensAt with
  | nil =>
      cases field with
      | node child => simp [attach, follow]
      | list children => simp [attach, follow]
      | value value => simp [attach, follow]
  | cons segment rest ih =>
      cases field with
      | node child =>
          cases segment with
          | field name =>
              simp only [attach, follow, Node.field?_attach, Option.bind_map, Option.map_bind]
              congr 1
              funext inner
              exact ih _ inner
          | index i => simp [attach, follow]
      | list children =>
          cases segment with
          | field name => simp [attach, follow]
          | index i =>
              simp only [attach, follow, Node.getElem?_attachAll, Option.bind_map,
                Option.map_bind, Nat.zero_add]
              congr 1
              funext child
              exact ih (fun route => tokensAt (.index i :: route)) (.node child)
      | value value => simp [attach, follow]

/-- A route leads to the same node with tokens attached to it. -/
theorem Node.get?_attach (node : Node α) (route : Route) :
    (node.attach tokensAt).get? route =
      (node.get? route).map (Node.attach fun rest => tokensAt (route ++ rest)) := by
  cases route with
  | nil => rfl
  | cons segment rest =>
      cases segment with
      | field name =>
          simp only [get?, field?_attach, Option.bind_map, Option.map_bind]
          congr 1
          funext field
          exact Field.follow_attach _ field rest
      | index i => rfl

namespace Ancestry

/-- The route from the root to the node at the lower end. -/
def address : Ancestry → Route
  | .root _ => []
  | .child parent _ route => parent.address ++ route

/-- Attaches tokens to all nodes of the chain and below them. -/
def attach (tokensAt : Route → Option (List Token)) : Ancestry → Ancestry
  | .root node => .root (node.attach tokensAt)
  | .child parent node route =>
    .child (parent.attach tokensAt)
      (node.attach fun rest => tokensAt (parent.address ++ route ++ rest)) route

variable (tokensAt : Route → Option (List Token))

theorem node_attach (path : Ancestry) :
    (path.attach tokensAt).node = path.node.attach fun rest => tokensAt (path.address ++ rest) := by
  cases path <;> rfl

theorem tokens_node_attach (path : Ancestry) :
    (path.attach tokensAt).node.tokens = (tokensAt path.address).or path.node.tokens := by
  rw [node_attach, Node.tokens_attach, List.append_nil]

/-- A route leads to the same child, with tokens attached to it. -/
theorem get?_node_attach {path : Ancestry} {route : Route} {node : Node Token}
    (h : path.node.get? route = some node) :
    (path.attach tokensAt).node.get? route =
      some ((Ancestry.child path node route).attach tokensAt).node := by
  rw [node_attach, Node.get?_attach, h, node_attach]
  simp only [Option.map_some, Ancestry.node, address, List.append_assoc]

end Ancestry

namespace ByName

variable (tokensAt : Route → Option (List Token))

/-- The state of the resolver for the same node with tokens attached. -/
def attach (state : ByName) : ByName :=
  { state with node := state.node.attach tokensAt }

/-- Attached tokens do not change what a reference leads to. -/
theorem resolve_attach (state : ByName) (reference : Token) :
    (state.attach tokensAt).resolve reference =
      ((state.resolve reference).1, (state.resolve reference).2.attach tokensAt) := by
  simp only [resolve, attach, Node.field?_attach]
  cases state.node.field? reference.value with
  | none => rfl
  | some field =>
      cases field with
      | node child => rfl
      | value value => rfl
      | list children =>
          simp only [Option.map_some, Field.attach, Node.length_attachAll, count]
          by_cases h : (Keyed.get? reference.value state.given).getD 0 < children.length
          · simp [h, give, count]
          · simp [h]

/-- A route that is given begins with the name of a field. -/
theorem ne_nil_of_resolve {state : ByName} {reference : Token} {route : Route}
    (h : (state.resolve reference).1 = some route) : route ≠ [] := by
  intro hroute
  unfold resolve at h
  split at h
  · simp [hroute] at h
  · split at h
    · simp [hroute] at h
    · simp at h
  · simp at h

/-- A child that a reference leads to is not the root. -/
theorem address_ne_nil {state : ByName} {reference : Token} {route : Route}
    (h : (state.resolve reference).1 = some route) (path : Ancestry) (node : Node Token) :
    (Ancestry.child path node route).address ≠ [] :=
  List.append_ne_nil_of_right_ne_nil path.address (ne_nil_of_resolve h)

end ByName

end TreeAlign
