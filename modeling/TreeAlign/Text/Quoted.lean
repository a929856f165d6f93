import TreeAlign.Text.Hidden

/-!
# Texts shown in double quotes

Messages show a text between double quotes. The quote, the backslash, the
tab, the two line ends and the null character have two-character escapes.
Every other character without a shape of its own is written as `\u` and its
code point in hexadecimal between braces, and all else stands for itself.
-/

namespace TreeAlign.Text

/-- The two-character escape of a character, if it has one. -/
def shortEscape (c : Char) : Option Char :=
  if c = '\t' then some 't'
  else if c = '\r' then some 'r'
  else if c = '\n' then some 'n'
  else if c = '\\' then some '\\'
  else if c = '"' then some '"'
  else if c.toNat = 0 then some '0'
  else none

/-- A character as it stands between the quotes. -/
def showChar (c : Char) : List Char :=
  match shortEscape c with
  | some e => ['\\', e]
  | none =>
    if isHidden c then
      "\\u\x7b".toList ++ Nat.toDigits 16 c.toNat ++ "\x7d".toList
    else [c]

/-- A text between double quotes with its escapes. -/
def quoted (s : String) : String :=
  String.ofList ('"' :: s.toList.flatMap showChar ++ ['"'])

/-- A list shown between square brackets, its items set apart by commas. -/
def bracketed (items : List String) : String :=
  "[" ++ ", ".intercalate items ++ "]"

end TreeAlign.Text
