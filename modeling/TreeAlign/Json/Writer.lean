import TreeAlign.Json.Basic

/-!
# Writing JSON texts

Values are written on one line without blanks. Quotes, backslashes and all
characters that end a line or control a terminal are escaped, so a written
value never spans lines.
-/

namespace TreeAlign.Json

namespace Writer

/-- A number of at most 16 bits in four hexadecimal digits. -/
def fourHex (n : Nat) : List Char :=
  let digits := Nat.toDigits 16 n
  List.replicate (4 - digits.length) '0' ++ digits

/-- A character of a string as it is written. -/
def char (c : Char) : List Char :=
  if c = '"' then ['\\', '"']
  else if c = '\\' then ['\\', '\\']
  else if c.toNat < 0x20 || (0x7f ≤ c.toNat && c.toNat < 0xa0)
      || c.toNat = 0x2028 || c.toNat = 0x2029 then
    ['\\', 'u'] ++ fourHex c.toNat
  else [c]

/-- A string between its quotes. -/
def string (s : String) : String :=
  String.ofList ('"' :: s.toList.flatMap char ++ ['"'])

end Writer

mutual

/-- The JSON text of a value. -/
def toText : Json → String
  | .null => "null"
  | .bool true => "true"
  | .bool false => "false"
  | .number n => n.toText
  | .string s => Writer.string s
  | .array items => "[" ++ ",".intercalate (itemTexts items) ++ "]"
  | .object members => "\x7b" ++ ",".intercalate (memberTexts members) ++ "\x7d"

/-- The texts of an array's items. -/
def itemTexts : List Json → List String
  | [] => []
  | item :: rest => item.toText :: itemTexts rest

/-- The texts of an object's members. -/
def memberTexts : List (String × Json) → List String
  | [] => []
  | (key, value) :: rest => (Writer.string key ++ ":" ++ value.toText) :: memberTexts rest

end

end TreeAlign.Json
