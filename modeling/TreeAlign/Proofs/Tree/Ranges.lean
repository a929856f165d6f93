import TreeAlign.Tree.Basic

/-!
# Trees without ranges

A tree is without ranges when no node of it carries one. Whatever a route
leads to in such a tree is without ranges as well.
-/

namespace TreeAlign

variable {α : Type}

mutual

/-- The ranges that the nodes of a tree carry. -/
def Node.ranges : Node α → List Span
  | ⟨_, fields, range, _⟩ => range.toList ++ Field.rangesIn fields

/-- The ranges below the fields, field by field. -/
def Field.rangesIn : List (String × Field α) → List Span
  | [] => []
  | (_, field) :: rest => Field.ranges field ++ Field.rangesIn rest

/-- The ranges below the field. -/
def Field.ranges : Field α → List Span
  | .node child => Node.ranges child
  | .list children => Node.rangesOf children
  | .value _ => []

/-- The ranges of the nodes and below them. -/
def Node.rangesOf : List (Node α) → List Span
  | [] => []
  | node :: rest => Node.ranges node ++ Node.rangesOf rest

end

/-- No node of the tree carries a range. -/
def Node.Rangeless (node : Node α) : Prop :=
  node.ranges = []

namespace Node

theorem Rangeless.range_eq_none {node : Node α} (h : node.Rangeless) : node.range = none := by
  obtain ⟨type, fields, range, tokens⟩ := node
  simp only [Rangeless, ranges, List.append_eq_nil_iff, Option.toList_eq_nil_iff] at h
  exact h.1

theorem Rangeless.field? {node : Node α} (h : node.Rangeless) {name : String} {field : Field α}
    (hf : node.field? name = some field) : field.ranges = [] := by
  obtain ⟨type, fields, range, tokens⟩ := node
  simp only [Rangeless, ranges, List.append_eq_nil_iff] at h
  have hfields := h.2
  simp only [Node.field?] at hf
  clear h
  induction fields with
  | nil => simp [Keyed.get?] at hf
  | cons pair rest ih =>
      obtain ⟨key, value⟩ := pair
      simp only [Field.rangesIn, List.append_eq_nil_iff] at hfields
      simp only [Keyed.get?] at hf
      split at hf
      · cases hf
        exact hfields.1
      · exact ih hf hfields.2

theorem rangeless_of_mem {children : List (Node α)} (h : rangesOf children = [])
    {child : Node α} (hc : child ∈ children) : child.Rangeless := by
  induction children with
  | nil => exact absurd hc (by simp)
  | cons node rest ih =>
      simp only [rangesOf, List.append_eq_nil_iff] at h
      rcases List.mem_cons.mp hc with rfl | hc
      · exact h.1
      · exact ih h.2 hc

end Node

theorem Field.rangeless_of_follow {field : Field α} (h : field.ranges = []) {route : Route}
    {node : Node α} (hr : field.follow route = some node) : node.Rangeless := by
  induction route generalizing field with
  | nil =>
      cases field with
      | node child =>
          cases hr
          exact h
      | list children => simp [follow] at hr
      | value value => simp [follow] at hr
  | cons segment rest ih =>
      cases field with
      | node child =>
          cases segment with
          | field name =>
              simp only [follow, Option.bind_eq_some_iff] at hr
              obtain ⟨inner, hf, hr⟩ := hr
              have hchild : child.Rangeless := h
              exact ih (hchild.field? hf) hr
          | index i => simp [follow] at hr
      | list children =>
          cases segment with
          | field name => simp [follow] at hr
          | index i =>
              simp only [follow, Option.bind_eq_some_iff] at hr
              obtain ⟨child, hc, hr⟩ := hr
              have hchild : (Field.node child).ranges = [] :=
                Node.rangeless_of_mem h (List.mem_of_getElem? hc)
              exact ih hchild hr
      | value value => simp [follow] at hr

/-- What a route leads to in a tree without ranges is without ranges. -/
theorem Node.Rangeless.get? {node child : Node α} (h : node.Rangeless) {route : Route}
    (hr : node.get? route = some child) : child.Rangeless := by
  cases route with
  | nil => simp [Node.get?] at hr
  | cons segment rest =>
      cases segment with
      | field name =>
          simp only [Node.get?, Option.bind_eq_some_iff] at hr
          obtain ⟨field, hf, hr⟩ := hr
          exact Field.rangeless_of_follow (h.field? hf) hr
      | index i => simp [Node.get?] at hr

end TreeAlign
