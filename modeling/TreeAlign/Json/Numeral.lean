import TreeAlign.Json.Shortest

/-!
# Numerals and numbers

A numeral keeps a number the way a JSON text writes it: a sign, the whole
digits, the digits after the point, and an exponent. It stands for an integer
of a machine word when it has neither point nor exponent and its value fits,
and for a double otherwise.

A double is read from the leading digits, as many as fit into a 64-bit word.
They are rounded to a double, which is then multiplied with a power of ten or
divided by one. Each of these steps rounds, so the result may be a neighbour
of the double nearest to what was written.
-/

namespace TreeAlign.Json

/-- A number as written; `whole` is never empty. -/
structure Numeral where
  negative : Bool
  whole : List Nat
  fraction : Option (List Nat)
  exponent : Option (Bool × List Nat)
deriving DecidableEq, Repr

/-- The greatest natural number of a 64-bit word. -/
def maxNatural : Nat := 18446744073709551615

/-- The greatest magnitude of a negative 64-bit integer. -/
def maxNegative : Nat := 9223372036854775808

namespace Numeral

/-- The value of a list of decimal digits, most significant first. -/
def valueOf (digits : List Nat) : Nat :=
  digits.foldl (fun n d => 10 * n + d) 0

/-- A numeral without point and exponent. -/
def isPlain (n : Numeral) : Bool :=
  n.fraction.isNone && n.exponent.isNone

/-- Takes digits into a word up to the first that makes it overflow. Gives the word and the number
of digits taken. -/
def fill (word : Nat) : List Nat → Nat × Nat
  | [] => (word, 0)
  | d :: rest =>
    if 10 * word + d ≤ maxNatural then
      let (filled, taken) := fill (10 * word + d) rest
      (filled, taken + 1)
    else (word, 0)

/-- The written exponent. -/
def shift (n : Numeral) : Int :=
  match n.exponent with
  | none => 0
  | some (true, digits) => -(valueOf digits : Int)
  | some (false, digits) => (valueOf digits : Int)

/-- The leading digits in a word, and the power of ten they are to be multiplied with. Digits after
the point go on filling the word also when whole digits were left out. -/
def parts (n : Numeral) : Nat × Int :=
  let fraction := n.fraction.getD []
  let (word, whole) := fill 0 n.whole
  let (word, after) := fill word fraction
  (word, n.shift + (n.whole.length - whole : Nat) - after)

/-- The double that the digits stand for, without the sign; none if it is beyond every double. -/
def double? (n : Numeral) : Option Double := do
  let (word, exponent) := n.parts
  (← Double.ofNat? word).scale? exponent

end Numeral

/-- A number of a JSON value: a machine integer or a double. -/
inductive Number where
  | natural (n : Nat)
  | negative (n : Nat)
  | double (negative : Bool) (size : Double)
deriving DecidableEq, Repr

namespace Number

/-- The number that a numeral stands for, if it is not beyond every double. -/
def ofNumeral? (n : Numeral) : Option Number :=
  let value := Numeral.valueOf n.whole
  if n.isPlain && !n.negative && value ≤ maxNatural then some (.natural value)
  else if n.isPlain && n.negative && 0 < value && value ≤ maxNegative then some (.negative value)
  else n.double?.map (.double n.negative)

/-- The number's text in JSON. -/
def toText : Number → String
  | .natural n => toString n
  | .negative n => "-" ++ toString n
  | .double true size => "-" ++ size.toText
  | .double false size => size.toText

end Number

end TreeAlign.Json
