import TreeAlign.Json.Numeral
import TreeAlign.Keyed

/-!
# JSON values

Objects keep their members in written order, repeated keys included, so
that a reader of records can tell a repeated key. `tidy` gives the value in
which the last member of a key stands alone and members are in key order.
-/

namespace TreeAlign

/-- A JSON value. -/
inductive Json where
  | null
  | bool (b : Bool)
  | number (n : Json.Number)
  | string (s : String)
  | array (items : List Json)
  | object (members : List (String × Json))

namespace Json

instance : Inhabited Json := ⟨.null⟩

/-- A natural number as a value. -/
def ofNat (n : Nat) : Json := .number (.natural n)

mutual

/-- The value with members in key order and without repeated keys, at every level. -/
def tidy : Json → Json
  | .array items => .array (tidyItems items)
  | .object members => .object (Keyed.sort (tidyMembers members))
  | .null => .null
  | .bool b => .bool b
  | .number n => .number n
  | .string s => .string s

/-- Every item of a list in tidy form. -/
def tidyItems : List Json → List Json
  | [] => []
  | item :: rest => tidy item :: tidyItems rest

/-- Every member's value in tidy form. -/
def tidyMembers : List (String × Json) → List (String × Json)
  | [] => []
  | (key, value) :: rest => (key, tidy value) :: tidyMembers rest

end

/-- The text of a string value. -/
def string? : Json → Option String
  | .string s => some s
  | _ => none

/-- The value of a natural number within a 64-bit word. -/
def nat? : Json → Option Nat
  | .number (.natural n) => some n
  | _ => none

/-- The items of an array. -/
def items? : Json → Option (List Json)
  | .array items => some items
  | _ => none

/-- The members of an object. -/
def members? : Json → Option (List (String × Json))
  | .object members => some members
  | _ => none

/-- The member of an object under a key, the last one if the key is repeated. -/
def member? (key : String) : Json → Option Json
  | .object members => Keyed.last? key members
  | _ => none

end Json

end TreeAlign
