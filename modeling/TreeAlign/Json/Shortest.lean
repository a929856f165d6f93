import TreeAlign.Json.Double

/-!
# The shortest text of a double

A double is written with the fewest digits from which it is read back as the
nearest double. Of two such numbers with equally many digits the nearer one is
taken. For each count of digits only the two neighbours of the double on the
decimal grid can qualify, so the search tries them for one digit, two digits
and so on up to seventeen.

The point is written where the digits have it for numbers from `0.00001` up to
sixteen whole digits, and all others get an exponent.
-/

namespace TreeAlign.Json

/-- The decimal `digits * 10 ^ exponent`. -/
structure Decimal where
  digits : Nat
  exponent : Int
deriving DecidableEq, Repr

namespace Decimal

/-- Moves trailing zeros of the digits into the exponent. -/
def strip : Nat → Decimal → Decimal
  | 0, d => d
  | bound + 1, d =>
    if d.digits % 10 = 0 then strip bound ⟨d.digits / 10, d.exponent + 1⟩ else d

/-- The dividend of the decimal as a quotient of natural numbers. -/
def numerator (d : Decimal) : Nat := d.digits * Nat.pow 10 d.exponent.toNat

/-- The divisor of the decimal as a quotient of natural numbers. -/
def denominator (d : Decimal) : Nat := Nat.pow 10 (-d.exponent).toNat

/-- The decimal's text, with a point or an exponent in it. -/
def toText (d : Decimal) : String :=
  let digits := Nat.toDigits 10 d.digits
  let point : Int := digits.length + d.exponent
  let zeros (n : Int) : List Char := List.replicate n.toNat '0'
  String.ofList <|
    if 0 ≤ d.exponent ∧ point ≤ 16 then digits ++ zeros d.exponent ++ ['.', '0']
    else if 0 < point ∧ point ≤ 16 then
      digits.take point.toNat ++ ['.'] ++ digits.drop point.toNat
    else if -5 < point ∧ point ≤ 0 then ['0', '.'] ++ zeros (-point) ++ digits
    else
      digits.take 1 ++ (if digits.length = 1 then [] else '.' :: digits.drop 1)
        ++ ['e'] ++ (if point ≤ 0 then ['-'] else []) ++ Nat.toDigits 10 (point - 1).natAbs

end Decimal

namespace Double

/-- The decimal is read back as this double. -/
def readsBack (x : Double) (d : Decimal) : Bool :=
  nearest d.numerator d.denominator = x.units

/-- The number of digits before the point, or minus the number of zeros right after it: the least
exponent of a power of ten above the double. -/
def pointPlace (x : Double) : Int :=
  (Nat.toDigits 10 (x.units * Nat.pow 10 324 / one)).length - 324

/-- The double counted in the power of ten with the given exponent, as a dividend and a divisor. -/
def counted (x : Double) (exponent : Int) : Nat × Nat :=
  (x.units * Nat.pow 10 (-exponent).toNat, one * Nat.pow 10 exponent.toNat)

/-- The neighbours of the double among the multiples of a power of ten, the nearest first. -/
def neighbours (x : Double) (exponent : Int) : List Decimal :=
  let (a, b) := x.counted exponent
  [roundQuotient a b, a / b, a / b + 1].map fun digits => ⟨digits, exponent⟩

/-- The exact value of the double as a decimal. -/
def exact (x : Double) : Decimal :=
  ⟨x.units * Nat.pow 5 1074, -1074⟩

/-- The decimal with the fewest digits that is read back as this double. -/
def shortest (x : Double) : Decimal :=
  let found := (List.range 17).findSome? fun (more : Nat) =>
    (x.neighbours (x.pointPlace - (more + 1))).find? x.readsBack
  let decimal := found.getD x.exact
  decimal.strip (Nat.toDigits 10 decimal.digits).length

/-- The double's text. -/
def toText (x : Double) : String :=
  if x = zero then "0.0" else x.shortest.toText

end Double

end TreeAlign.Json
