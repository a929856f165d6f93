import TreeAlign.Ancestry

/-!
# Heights of trees

The height of a node is the number of steps down to its deepest descendant.
Whatever a route leads to is lower than the node where the route begins,
because a route that leads anywhere goes down at least one step. So no route
leads from a node to itself, and a chain of routes is no longer than the
tree is high.
-/

namespace TreeAlign

variable {α : Type}

mutual

/-- The number of steps down to the deepest descendant. -/
def Node.height : Node α → Nat
  | ⟨_, fields, _, _⟩ => Field.heightIn fields

/-- The number of steps down from a node with these fields. -/
def Field.heightIn : List (String × Field α) → Nat
  | [] => 0
  | (_, field) :: rest => max (Field.height field) (Field.heightIn rest)

/-- The number of steps down from a node with this field. -/
def Field.height : Field α → Nat
  | .node child => Node.height child + 1
  | .list children => Node.heightOf children
  | .value _ => 0

/-- The number of steps down from a node with these children. -/
def Node.heightOf : List (Node α) → Nat
  | [] => 0
  | node :: rest => max (Node.height node + 1) (Node.heightOf rest)

end

namespace Node

theorem height_field?_le {node : Node α} {name : String} {field : Field α}
    (h : node.field? name = some field) : field.height ≤ node.height := by
  obtain ⟨type, fields, range, tokens⟩ := node
  rw [height]
  simp only [field?] at h
  induction fields with
  | nil => simp [Keyed.get?] at h
  | cons pair rest ih =>
      obtain ⟨key, value⟩ := pair
      simp only [Keyed.get?] at h
      rw [Field.heightIn]
      split at h
      · cases h
        exact Nat.le_max_left _ _
      · exact Nat.le_trans (ih h) (Nat.le_max_right _ _)

theorem height_lt_heightOf {children : List (Node α)} {child : Node α} (h : child ∈ children) :
    child.height < heightOf children := by
  induction children with
  | nil => exact absurd h (by simp)
  | cons node rest ih =>
      rw [heightOf]
      rcases List.mem_cons.mp h with rfl | h
      · exact Nat.lt_of_lt_of_le (Nat.lt_succ_self _) (Nat.le_max_left _ _)
      · exact Nat.lt_of_lt_of_le (ih h) (Nat.le_max_right _ _)

end Node

theorem Field.height_lt_of_follow {field : Field α} {route : Route} {node : Node α}
    (h : field.follow route = some node) : node.height < field.height := by
  induction route generalizing field with
  | nil =>
      cases field with
      | node child =>
          cases h
          rw [height]
          exact Nat.lt_succ_self _
      | list children => simp [follow] at h
      | value value => simp [follow] at h
  | cons segment rest ih =>
      cases field with
      | node child =>
          cases segment with
          | field name =>
              simp only [follow, Option.bind_eq_some_iff] at h
              obtain ⟨inner, hinner, h⟩ := h
              have hlower := ih h
              have hfield := Node.height_field?_le hinner
              rw [height]
              omega
          | index i => simp [follow] at h
      | list children =>
          cases segment with
          | field name => simp [follow] at h
          | index i =>
              simp only [follow, Option.bind_eq_some_iff] at h
              obtain ⟨child, hchild, h⟩ := h
              have hlower : node.height < (Field.node child).height := ih h
              have hlist := Node.height_lt_heightOf (List.mem_of_getElem? hchild)
              simp only [height] at hlower ⊢
              omega
      | value value => simp [follow] at h

namespace Node

/-- Whatever a route leads to is lower than the node where the route begins. -/
theorem height_lt_of_get? {node child : Node α} {route : Route}
    (h : node.get? route = some child) : child.height < node.height := by
  cases route with
  | nil => simp [get?] at h
  | cons segment rest =>
      cases segment with
      | field name =>
          simp only [get?, Option.bind_eq_some_iff] at h
          obtain ⟨field, hfield, h⟩ := h
          exact Nat.lt_of_lt_of_le (Field.height_lt_of_follow h) (height_field?_le hfield)
      | index i => simp [get?] at h

end Node

namespace Ancestry

/-- The second chain is the first, continued by routes that lead to their nodes. -/
inductive LeadsTo (top : Ancestry) : Ancestry → Prop where
  | here : LeadsTo top top
  | child {path : Ancestry} {node : Node Token} {route : Route} (above : LeadsTo top path)
      (found : path.node.get? route = some node) : LeadsTo top (.child path node route)

namespace LeadsTo

variable {top path : Ancestry}

/-- Every step down is paid for with height. -/
theorem depth_add_height_le (h : top.LeadsTo path) :
    path.depth + path.node.height ≤ top.depth + top.node.height := by
  induction h with
  | here => exact Nat.le_refl _
  | @child parent node route _ found ih =>
      have hlower := Node.height_lt_of_get? found
      change parent.depth + 1 + node.height ≤ _
      omega

end LeadsTo

end Ancestry

end TreeAlign
