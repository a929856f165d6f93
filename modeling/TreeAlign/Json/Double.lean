/-!
# Doubles

The non-negative finite numbers of the 64-bit binary format. The least
positive one is `2 ^ -1074`, and every other is a whole multiple of it, so a
double is kept as the number of such units. Not every number of units is a
double: only the 53 leading bits may differ from zero.

`nearest` gives the double nearest to a quotient of two natural numbers, and
the one with an even last bit when two are equally near. Products and
quotients of doubles are exact quotients rounded in this way. What is rounded
to `2 ^ 1024` or more is no double.
-/

namespace TreeAlign.Json

/-- A quotient of natural numbers rounded to the nearest whole number, a half to the even one. -/
def roundQuotient (a b : Nat) : Nat :=
  if 2 * (a % b) < b then a / b
  else if b < 2 * (a % b) then a / b + 1
  else a / b + a / b % 2

/-- A non-negative finite double: so many times `2 ^ -1074`. -/
structure Double where
  units : Nat
deriving DecidableEq, Repr

namespace Double

/-- The number of units in one. -/
def one : Nat := Nat.pow 2 1074

/-- The number of units in `2 ^ 1024`, which is beyond every double. -/
def bound : Nat := Nat.pow 2 2098

/-- The distance between neighbouring doubles around a number of units: 53 bits are kept. -/
def step (units : Nat) : Nat :=
  Nat.pow 2 (units.log2 + 1 - 53)

/-- The units of the double nearest to a quotient, as if there were no greatest double. -/
def nearest (a b : Nat) : Nat :=
  let gap := step (a * one / b)
  roundQuotient (a * one) (b * gap) * gap

/-- The double of so many units, if it is finite. -/
def ofUnits? (units : Nat) : Option Double :=
  if units < bound then some ⟨units⟩ else none

/-- Zero. -/
def zero : Double := ⟨0⟩

/-- The double nearest to a natural number, if it is finite. -/
def ofNat? (n : Nat) : Option Double :=
  ofUnits? (nearest n 1)

/-- The product of two doubles, if it is finite. -/
def mul? (x y : Double) : Option Double :=
  ofUnits? (nearest (x.units * y.units) (one * one))

/-- The quotient of two doubles of which the second is at least one. -/
def div (x y : Double) : Double :=
  ⟨nearest x.units y.units⟩

/-- The greatest power of ten that is finite. -/
def maxPower : Nat := 308

/-- The double nearest to a power of ten up to the greatest one. -/
def powerOfTen (n : Nat) : Double :=
  ⟨nearest (Nat.pow 10 n) 1⟩

/-- Divides by the greatest power of ten so many times. -/
def divByMaxPower : Nat → Double → Double
  | 0, x => x
  | times + 1, x =>
    if x = zero then zero else divByMaxPower times (x.div (powerOfTen maxPower))

/-- Multiplies with a power of ten and rounds; none if the power or the product is beyond every
double. -/
def raise? (x : Double) (n : Nat) : Option Double :=
  if x = zero then some zero
  else if n ≤ maxPower then x.mul? (powerOfTen n)
  else none

/-- Divides by a power of ten, in as few steps as there are. Every step rounds. -/
def lower (x : Double) (n : Nat) : Double :=
  let times := (n - 1) / maxPower
  (divByMaxPower times x).div (powerOfTen (n - times * maxPower))

/-- Multiplies with a power of ten, or divides by one if the exponent is negative. -/
def scale? (x : Double) : Int → Option Double
  | .ofNat n => x.raise? n
  | .negSucc n => some (x.lower (n + 1))

end Double

end TreeAlign.Json
