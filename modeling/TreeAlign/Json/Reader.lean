import TreeAlign.Json.Written

/-!
# Reading JSON texts

A recursive reader for the JSON grammar over a list of characters. There
are no comments, no trailing commas, no leading zeros and no raw control
characters in strings, and nothing but blanks may follow the value.

## Implementation notes

Strings and numerals recurse on the text itself. Values take an explicit
bound: each level uses at most two of it for every character it consumes,
so twice the length of the text is enough.
-/

namespace TreeAlign.Json

/-- One item of a string: a character, or a 16-bit unit given by its number. -/
inductive Piece where
  | char (c : Char)
  | unit (u : Nat)

namespace Reader

/-- The blanks between the signs of the grammar. -/
def isGap (c : Char) : Bool :=
  c = ' ' || c = '\n' || c = '\r' || c = '\t'

/-- The text after its leading blanks. -/
def skipGaps (text : List Char) : List Char :=
  text.dropWhile isGap

/-- The value of a decimal digit. -/
def digit? (c : Char) : Option Nat :=
  if '0' ≤ c ∧ c ≤ '9' then some (c.toNat - '0'.toNat) else none

/-- The value of a hexadecimal digit of either case. -/
def hexDigit? (c : Char) : Option Nat :=
  if '0' ≤ c ∧ c ≤ '9' then some (c.toNat - '0'.toNat)
  else if 'a' ≤ c ∧ c ≤ 'f' then some (c.toNat - 'a'.toNat + 10)
  else if 'A' ≤ c ∧ c ≤ 'F' then some (c.toNat - 'A'.toNat + 10)
  else none

/-- The unit that four hexadecimal digits name. -/
def unit? (a b c d : Char) : Option Nat := do
  let a ← hexDigit? a
  let b ← hexDigit? b
  let c ← hexDigit? c
  let d ← hexDigit? d
  some (((a * 16 + b) * 16 + c) * 16 + d)

/-- The character that a one-letter escape stands for. -/
def escape? (c : Char) : Option Char :=
  if c = '"' then some '"'
  else if c = '\\' then some '\\'
  else if c = '/' then some '/'
  else if c = 'b' then some (Char.ofNat 0x08)
  else if c = 'f' then some (Char.ofNat 0x0c)
  else if c = 'n' then some '\n'
  else if c = 'r' then some '\r'
  else if c = 't' then some '\t'
  else none

/-- The pieces of a string whose opening quote has been read, and the text after its end. -/
def pieces : List Char → Option (List Piece × List Char)
  | [] => none
  | '"' :: rest => some ([], rest)
  | '\\' :: 'u' :: a :: b :: c :: d :: rest => do
    let u ← unit? a b c d
    let (more, rest) ← pieces rest
    some (.unit u :: more, rest)
  | '\\' :: e :: rest => do
    let c ← escape? e
    let (more, rest) ← pieces rest
    some (.char c :: more, rest)
  | c :: rest =>
    if c.toNat < 0x20 || c = '\\' then none
    else do
      let (more, rest) ← pieces rest
      some (.char c :: more, rest)

/-- A unit from the first half of a pair. -/
def isLeading (u : Nat) : Bool := 0xd800 ≤ u && u < 0xdc00

/-- A unit from the second half of a pair. -/
def isTrailing (u : Nat) : Bool := 0xdc00 ≤ u && u < 0xe000

/-- The characters that the pieces spell; a half of a pair on its own spells none. -/
def spell? : List Piece → Option (List Char)
  | [] => some []
  | .char c :: rest => (spell? rest).map (c :: ·)
  | .unit u :: .unit v :: rest =>
    if isLeading u then
      if isTrailing v then
        (spell? rest).map (Char.ofNat (0x10000 + (u - 0xd800) * 0x400 + (v - 0xdc00)) :: ·)
      else none
    else if isTrailing u then none
    else (spell? (.unit v :: rest)).map (Char.ofNat u :: ·)
  | .unit u :: rest =>
    if isLeading u || isTrailing u then none else (spell? rest).map (Char.ofNat u :: ·)

/-- A string whose opening quote has been read. -/
def string (text : List Char) : Option (Option String × List Char) := do
  let (found, rest) ← pieces text
  some ((spell? found).map String.ofList, rest)

/-- The longest run of digits and the text after it. -/
def digits : List Char → List Nat × List Char
  | [] => ([], [])
  | c :: rest =>
    match digit? c with
    | none => ([], c :: rest)
    | some d => let (more, after) := digits rest; (d :: more, after)

/-- A run of at least one digit. -/
def someDigits (text : List Char) : Option (List Nat × List Char) :=
  match digits text with
  | ([], _) => none
  | (found, rest) => some (found, rest)

/-- The digits before the point: a single zero, or a run that does not start with one. -/
def whole (text : List Char) : Option (List Nat × List Char) :=
  match text with
  | '0' :: rest => some ([0], rest)
  | _ => someDigits text

/-- The point and the digits after it, if there is a point. -/
def fraction (text : List Char) : Option (Option (List Nat) × List Char) :=
  match text with
  | '.' :: rest => do
    let (found, rest) ← someDigits rest
    some (some found, rest)
  | _ => some (none, text)

/-- The mark of an exponent, its sign and its digits, if there is a mark. -/
def exponent (text : List Char) : Option (Option (Bool × List Nat) × List Char) :=
  match text with
  | [] => some (none, [])
  | c :: rest =>
    if c = 'e' || c = 'E' then
      match rest with
      | '-' :: rest => do
        let (found, rest) ← someDigits rest
        some (some (true, found), rest)
      | '+' :: rest => do
        let (found, rest) ← someDigits rest
        some (some (false, found), rest)
      | _ => do
        let (found, rest) ← someDigits rest
        some (some (false, found), rest)
    else some (none, text)

/-- A numeral at the head of the text. -/
def numeral (text : List Char) : Option (Numeral × List Char) := do
  let (negative, text) := match text with
    | '-' :: rest => (true, rest)
    | _ => (false, text)
  let (whole, text) ← whole text
  let (fraction, text) ← fraction text
  let (exponent, text) ← exponent text
  some (⟨negative, whole, fraction, exponent⟩, text)

/-- A word of the grammar at the head of the text. -/
def word (name : String) (tree : Written) (text : List Char) : Option (Written × List Char) :=
  if name.toList.isPrefixOf text then some (tree, text.drop name.length) else none

mutual

/-- A value at the head of the text, after blanks. -/
def value : Nat → List Char → Option (Written × List Char)
  | 0, _ => none
  | bound + 1, text =>
    match skipGaps text with
    | '[' :: rest =>
      match skipGaps rest with
      | ']' :: rest => some (.array [], rest)
      | rest => do
        let (found, rest) ← items bound rest
        some (.array found, rest)
    | '\x7b' :: rest =>
      match skipGaps rest with
      | '\x7d' :: rest => some (.object [], rest)
      | rest => do
        let (found, rest) ← members bound rest
        some (.object found, rest)
    | '"' :: rest => do
      let (found, rest) ← string rest
      some (.string found, rest)
    | 't' :: rest => word "rue" (.bool true) rest
    | 'f' :: rest => word "alse" (.bool false) rest
    | 'n' :: rest => word "ull" .null rest
    | text => do
      let (found, rest) ← numeral text
      some (.numeral found, rest)

/-- The items of an array up to its closing bracket, at least one. -/
def items : Nat → List Char → Option (List Written × List Char)
  | 0, _ => none
  | bound + 1, text => do
    let (found, rest) ← value bound text
    match skipGaps rest with
    | ']' :: rest => some ([found], rest)
    | ',' :: rest =>
      let (more, rest) ← items bound rest
      some (found :: more, rest)
    | _ => none

/-- The members of an object up to its closing brace, at least one. -/
def members : Nat → List Char → Option (List (Option String × Written) × List Char)
  | 0, _ => none
  | bound + 1, text =>
    match skipGaps text with
    | '"' :: rest => do
      let (key, rest) ← string rest
      match skipGaps rest with
      | ':' :: rest =>
        let (found, rest) ← value bound rest
        match skipGaps rest with
        | '\x7d' :: rest => some ([(key, found)], rest)
        | ',' :: rest =>
          let (more, rest) ← members bound rest
          some ((key, found) :: more, rest)
        | _ => none
      | _ => none
    | _ => none

end

end Reader

/-- The tree of a text that is one JSON value and blanks around it. -/
def Written.ofText? (text : String) : Option Written := do
  let chars := text.toList
  let (tree, rest) ← Reader.value (2 * chars.length + 2) chars
  if (Reader.skipGaps rest).isEmpty then some tree else none

/-- The value of a text of which a reader looks at the given shape. -/
def ofText? (shape : Shape) (text : String) : Option Json := do
  (← Written.ofText? text).settle shape Written.maxNesting

end TreeAlign.Json
