import TreeAlign.Json.Reader
import TreeAlign.Tree.Basic

/-!
# Trees as JSON

A node is written as an object with its type, its fields and, where they
are known, its range and tokens. Reading also takes records as arrays of
their members in order. A field is read as the first of these that fits: a
node, a list of nodes, a plain value. A record that names one of its
members twice is none, so inside a field it becomes a plain value.

## Implementation notes

The reader recurses on the JSON value itself. `fieldsIn` walks over an
object's members to find the one that holds the fields, and the other
members are looked up.
-/

namespace TreeAlign

namespace Json

/-- The value of a member that is named exactly once. -/
def single? (key : String) (members : List (String × Json)) : Option Json :=
  match members.filter fun m => m.1 = key with
  | [(_, value)] => some value
  | _ => none

/-- The value of a member that is named at most once; fails if it is named more often. -/
def atMostOne? (key : String) (members : List (String × Json)) : Option (Option Json) :=
  match members.filter fun m => m.1 = key with
  | [] => some none
  | [(_, value)] => some (some value)
  | _ => none

/-- The two members of a record that has no others. -/
def pair? (first second : String) : Json → Option (Json × Json)
  | .array [a, b] => some (a, b)
  | .object members => do some (← single? first members, ← single? second members)
  | _ => none

end Json

namespace Span

/-- The range that a record of its two ends stands for. -/
def ofJson? (json : Json) : Option Span := do
  let (start, stop) ← json.pair? "start" "end"
  some ⟨← start.nat?, ← stop.nat?⟩

/-- A range as a record. -/
def toJson (span : Span) : Json :=
  .object [("start", .ofNat span.start), ("end", .ofNat span.stop)]

/-- A range that may be missing. -/
def optionOfJson? : Json → Option (Option Span)
  | .null => some none
  | json => (ofJson? json).map some

end Span

namespace Lexeme

/-- The lexeme that a record of kind and value stands for. -/
def ofJson? (json : Json) : Option Lexeme := do
  let (kind, value) ← json.pair? "kind" "value"
  some ⟨← kind.string?, ← value.string?⟩

/-- A lexeme as a record. -/
def toJson (lexeme : Lexeme) : Json :=
  .object [("kind", .string lexeme.kind), ("value", .string lexeme.value)]

/-- A list of lexemes that may be missing. -/
def listOfJson? : Json → Option (Option (List Lexeme))
  | .null => some none
  | .array items => (items.mapM ofJson?).map some
  | _ => none

end Lexeme

namespace Route

/-- A route as the list of its steps. -/
def toJson (route : Route) : Json :=
  .array (route.map fun
    | .field name => .object [("Field", .string name)]
    | .index i => .object [("Index", .ofNat i)])

end Route

namespace Node

mutual

/-- The node that a JSON value stands for. -/
def ofJson? : Json → Option (Node Lexeme)
  | .object members => do
    let type ← (← Json.single? "type" members).string?
    let fields ← fieldsIn members
    let range ← match ← Json.atMostOne? "range" members with
      | none => some none
      | some json => Span.optionOfJson? json
    let tokens ← match ← Json.atMostOne? "tokens" members with
      | none => some none
      | some json => Lexeme.listOfJson? json
    some ⟨type, fields.getD [], range, tokens⟩
  | .array [type] => do some ⟨← type.string?, [], none, none⟩
  | .array [type, .object fields] => do
    some ⟨← type.string?, Keyed.sort (fieldsOf fields), none, none⟩
  | .array [type, .object fields, range] => do
    some ⟨← type.string?, Keyed.sort (fieldsOf fields), ← Span.optionOfJson? range, none⟩
  | .array [type, .object fields, range, tokens] => do
    some ⟨← type.string?, Keyed.sort (fieldsOf fields), ← Span.optionOfJson? range,
      ← Lexeme.listOfJson? tokens⟩
  | _ => none

/-- The fields of a node's members, missing if no member holds them. -/
def fieldsIn : List (String × Json) → Option (Option (List (String × Field Lexeme)))
  | [] => some none
  | (key, .object fields) :: rest => do
    let others ← fieldsIn rest
    if key = "fields" then
      match others with
      | none => some (some (Keyed.sort (fieldsOf fields)))
      | some _ => none
    else some others
  | (key, _) :: rest => if key = "fields" then none else fieldsIn rest

/-- The fields in written order. -/
def fieldsOf : List (String × Json) → List (String × Field Lexeme)
  | [] => []
  | (name, .array items) :: rest =>
    let field := match ofJson? (.array items) with
      | some child => .node child
      | none =>
        match listOf items with
        | some children => .list children
        | none => .value (Json.tidy (.array items))
    (name, field) :: fieldsOf rest
  | (name, json) :: rest =>
    let field := match ofJson? json with
      | some child => .node child
      | none => .value json.tidy
    (name, field) :: fieldsOf rest

/-- The nodes of a list, if all its items are nodes. -/
def listOf : List Json → Option (List (Node Lexeme))
  | [] => some []
  | item :: rest => do
    let node ← ofJson? item
    let nodes ← listOf rest
    some (node :: nodes)

end

mutual

/-- A node as a record. -/
def toJson : Node Lexeme → Json
  | ⟨type, fields, range, tokens⟩ =>
    .object
      ([("type", .string type), ("fields", .object (fieldsJson fields))]
        ++ (range.map fun span => ("range", span.toJson)).toList
        ++ (tokens.map fun list => ("tokens", .array (list.map Lexeme.toJson))).toList)

/-- The fields of a node as members. -/
def fieldsJson : List (String × Field Lexeme) → List (String × Json)
  | [] => []
  | (name, field) :: rest => (name, fieldJson field) :: fieldsJson rest

/-- A field without a mark of its kind. -/
def fieldJson : Field Lexeme → Json
  | .node child => toJson child
  | .list children => .array (listJson children)
  | .value value => value

/-- The nodes of a list. -/
def listJson : List (Node Lexeme) → List Json
  | [] => []
  | node :: rest => toJson node :: listJson rest

end

/-- What reading a node looks at. The fields themselves are read whole. -/
def shape : Json.Shape :=
  .record
    [("type", .any), ("fields", .any),
     ("range", .record [("start", .any), ("end", .any)]),
     ("tokens", .list (.record [("kind", .any), ("value", .any)]))]

/-- The node that a JSON text stands for. -/
def ofText? (text : String) : Option (Node Lexeme) := do
  ofJson? (← Json.ofText? shape text)

end Node

end TreeAlign
