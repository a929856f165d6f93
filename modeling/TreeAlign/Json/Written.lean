import TreeAlign.Json.Basic

/-!
# JSON as written

A text that follows the JSON grammar gives a written tree first. Its
strings may hold escapes that pair up to no character, its numerals may be
beyond every double, and its nesting may be deep. `settle` turns the tree
into a value and refuses all three, except in members that the reader's
shape does not name: those are skipped unread.
-/

namespace TreeAlign.Json

/-- A JSON text's tree; a string is missing when its escapes form no text. -/
inductive Written where
  | null
  | bool (b : Bool)
  | numeral (n : Numeral)
  | string (text : Option String)
  | array (items : List Written)
  | object (members : List (Option String × Written))

/-- What a reader is going to look at. A record may be written as an object, whose members of
other names are skipped, or as an array of its members in order. -/
inductive Shape where
  | any
  | list (item : Shape)
  | record (members : List (String × Shape))

namespace Shape

/-- The shape of an array's first item. -/
def item : Shape → Shape
  | .any => .any
  | .list s => s
  | .record [] => .any
  | .record ((_, s) :: _) => s

/-- The shape of an array without its first item. -/
def rest : Shape → Shape
  | .any => .any
  | .list s => .list s
  | .record [] => .any
  | .record (_ :: more) => .record more

/-- The shape of the member under a key, missing if the member is skipped. -/
def member? (key : String) : Shape → Option Shape
  | .record members => Keyed.last? key members
  | _ => some .any

end Shape

namespace Written

/-- The deepest nesting of arrays and objects that a value may have. -/
def maxNesting : Nat := 127

mutual

/-- The value of a written tree that may nest `depth` levels. -/
def settle (shape : Shape) (depth : Nat) : Written → Option Json
  | .null => some .null
  | .bool b => some (.bool b)
  | .numeral n => (Number.ofNumeral? n).map .number
  | .string text => text.map .string
  | .array items =>
    if depth = 0 then none else (settleItems shape (depth - 1) items).map .array
  | .object members =>
    if depth = 0 then none else (settleMembers shape (depth - 1) members).map .object

/-- The values of an array's items. -/
def settleItems (shape : Shape) (depth : Nat) : List Written → Option (List Json)
  | [] => some []
  | item :: more => do
    let value ← settle shape.item depth item
    let values ← settleItems shape.rest depth more
    some (value :: values)

/-- The values of an object's members, without the skipped ones. -/
def settleMembers (shape : Shape) (depth : Nat) :
    List (Option String × Written) → Option (List (String × Json))
  | [] => some []
  | (key, value) :: more => do
    let key ← key
    let settled ← match shape.member? key with
      | none => some []
      | some s => (settle s depth value).map fun v => [(key, v)]
    let others ← settleMembers shape depth more
    some (settled ++ others)

end

end Written

end TreeAlign.Json
