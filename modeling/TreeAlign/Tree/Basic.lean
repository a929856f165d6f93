import TreeAlign.Json.Basic
import TreeAlign.Token

/-!
# Abstract trees

A node has a type, named fields, and possibly the byte range and the tokens
of an earlier reading. A field holds one node, a list of nodes, or a plain
value. The nodes are generic in what is attached to them: lexemes when a
tree has just been read, tokens once its pieces have identities.

A route leads from a node to a descendant. It starts with a field's name;
after a list field comes an index. A route that stops at a list or at a
value leads nowhere, and so does the empty one.

## Implementation notes

Fields are kept in key order without repetitions, so equal trees have equal
field lists. Following a route recurses on the route, not on the tree.
-/

namespace TreeAlign

/-- A range of byte positions. -/
structure Span where
  start : Nat
  stop : Nat
deriving DecidableEq, Repr, Inhabited

namespace Span

/-- The number of positions in the range; a reversed range has none. -/
def length (span : Span) : Nat := span.stop - span.start

/-- A range without positions. -/
def isEmpty (span : Span) : Bool := span.length = 0

end Span

mutual

/-- A node of an abstract tree. -/
structure Node (α : Type) where
  type : String
  fields : List (String × Field α) := []
  range : Option Span := none
  tokens : Option (List α) := none

/-- What a node holds under a name. -/
inductive Field (α : Type) where
  | node (child : Node α)
  | list (children : List (Node α))
  | value (value : Json)

end

variable {α β : Type}

instance : Inhabited (Node α) := ⟨⟨"", [], none, none⟩⟩

/-- One step of a route. -/
inductive Segment where
  | field (name : String)
  | index (i : Nat)
deriving DecidableEq, Repr

/-- The steps from a node to a descendant. -/
abbrev Route := List Segment

namespace Route

/-- The text of a step. -/
def segmentText : Segment → String
  | .field name => name
  | .index i => toString i

/-- The steps with points between them. -/
def toText (route : Route) : String :=
  ".".intercalate (route.map segmentText)

end Route

namespace Node

/-- The field of the given name. -/
def field? (node : Node α) (name : String) : Option (Field α) :=
  Keyed.get? name node.fields

/-- The single child of the given name. -/
def child? (node : Node α) (name : String) : Option (Node α) :=
  match node.field? name with
  | some (.node child) => some child
  | _ => none

/-- The list of children of the given name. -/
def list? (node : Node α) (name : String) : Option (List (Node α)) :=
  match node.field? name with
  | some (.list children) => some children
  | _ => none

/-- The text of the given name, if the field is a plain string. -/
def text? (node : Node α) (name : String) : Option String :=
  match node.field? name with
  | some (.value value) => value.string?
  | _ => none

end Node

/-- The node at the end of a route that has reached this field. -/
def Field.follow : Field α → Route → Option (Node α)
  | .node child, [] => some child
  | .node child, .field name :: rest => (child.field? name).bind fun field => field.follow rest
  | .list children, .index i :: rest => children[i]?.bind fun child => follow (.node child) rest
  | _, _ => none

/-- The descendant at the end of a route. -/
def Node.get? (node : Node α) : Route → Option (Node α)
  | .field name :: rest => (node.field? name).bind fun field => field.follow rest
  | _ => none

/-- A route that ends on a node goes on from there. -/
theorem Field.follow_append {field : Field α} {p q : Route} {node : Node α}
    (h : field.follow p = some node) : field.follow (p ++ q) = (Field.node node).follow q := by
  induction p generalizing field with
  | nil =>
      cases field with
      | node child =>
          simp only [follow, Option.some.injEq] at h
          simp [h]
      | list children => simp [follow] at h
      | value value => simp [follow] at h
  | cons segment rest ih =>
      cases field with
      | node child =>
          cases segment with
          | field name =>
              simp only [follow, Option.bind_eq_some_iff] at h
              obtain ⟨field, hf, h⟩ := h
              simp [follow, hf, ih h]
          | index i => simp [follow] at h
      | list children =>
          cases segment with
          | field name => simp [follow] at h
          | index i =>
              simp only [follow, Option.bind_eq_some_iff] at h
              obtain ⟨child, hc, h⟩ := h
              simp [follow, hc, ih h]
      | value value => simp [follow] at h

mutual

/-- Applies a function to every attached token. -/
def Node.mapTokens (f : α → β) : Node α → Node β
  | ⟨type, fields, range, tokens⟩ =>
    ⟨type, Field.mapTokensIn f fields, range, tokens.map (·.map f)⟩

/-- Applies a function to every token attached below one of the fields. -/
def Field.mapTokensIn (f : α → β) : List (String × Field α) → List (String × Field β)
  | [] => []
  | (name, field) :: rest => (name, Field.mapTokens f field) :: Field.mapTokensIn f rest

/-- Applies a function to every token attached below the field. -/
def Field.mapTokens (f : α → β) : Field α → Field β
  | .node child => .node (Node.mapTokens f child)
  | .list children => .list (Node.mapTokensAll f children)
  | .value value => .value value

/-- Applies a function to every token attached to the nodes or below them. -/
def Node.mapTokensAll (f : α → β) : List (Node α) → List (Node β)
  | [] => []
  | node :: rest => Node.mapTokens f node :: Node.mapTokensAll f rest

end

mutual

/-- The tokens attached anywhere in the tree, those of the children first. -/
def Node.allTokens : Node α → List α
  | ⟨_, fields, _, tokens⟩ => Field.allTokensIn fields ++ tokens.getD []

/-- The tokens attached below the fields, field by field. -/
def Field.allTokensIn : List (String × Field α) → List α
  | [] => []
  | (_, field) :: rest => Field.allTokens field ++ Field.allTokensIn rest

/-- The tokens attached below the field. -/
def Field.allTokens : Field α → List α
  | .node child => Node.allTokens child
  | .list children => Node.allTokensOf children
  | .value _ => []

/-- The tokens attached to the nodes or below them. -/
def Node.allTokensOf : List (Node α) → List α
  | [] => []
  | node :: rest => Node.allTokens node ++ Node.allTokensOf rest

end

mutual

/-- Gives every attached lexeme an identity of its own, and tells the supply that is left. -/
def Node.mint (supply : Nat) : Node Lexeme → Node Token × Nat
  | ⟨type, fields, range, none⟩ =>
    let (fields, supply) := Field.mintIn supply fields
    (⟨type, fields, range, none⟩, supply)
  | ⟨type, fields, range, some lexemes⟩ =>
    let (fields, supply) := Field.mintIn supply fields
    (⟨type, fields, range, some (Token.mint supply lexemes)⟩, supply + lexemes.length)

/-- Gives the lexemes below the fields their identities. -/
def Field.mintIn (supply : Nat) :
    List (String × Field Lexeme) → List (String × Field Token) × Nat
  | [] => ([], supply)
  | (name, field) :: rest =>
    let (field, supply) := Field.mint supply field
    let (rest, supply) := Field.mintIn supply rest
    ((name, field) :: rest, supply)

/-- Gives the lexemes below the field their identities. -/
def Field.mint (supply : Nat) : Field Lexeme → Field Token × Nat
  | .node child =>
    let (child, supply) := Node.mint supply child
    (.node child, supply)
  | .list children =>
    let (children, supply) := Node.mintAll supply children
    (.list children, supply)
  | .value value => (.value value, supply)

/-- Gives the lexemes of the nodes and below them their identities. -/
def Node.mintAll (supply : Nat) : List (Node Lexeme) → List (Node Token) × Nat
  | [] => ([], supply)
  | node :: rest =>
    let (node, supply) := Node.mint supply node
    let (rest, supply) := Node.mintAll supply rest
    (node :: rest, supply)

end

end TreeAlign
