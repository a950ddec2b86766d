import ScriptEngine.Numeral.Binary

/-!
# The number nearest to a quotient

The numbers between two powers of two are the multiples of a unit `2 ^ e`, and below the least
power they are the multiples of `2 ^ (-1074)`.  A quotient is rounded by finding the unit that
belongs to its leading bit and rounding the number of units.

* `roundDiv`      the nearest natural number, the even one on a tie;
* `unitExponent`  the unit of the numbers around a quotient;
* `encode`        the bits of a number of units;
* `ofRatio`       the number nearest to a quotient.
-/

namespace ScriptEngine.Numeral

/-- `a / b` rounded to the nearest natural number, to the even one on a tie. -/
def roundDiv (a b : Nat) : Nat :=
  let q := a / b
  let r := a % b
  if 2 * r < b then q else if b < 2 * r then q + 1 else q + q % 2

/-- The place of the leading bit: `p` with `2 ^ p ≤ a / b < 2 ^ (p + 1)`. -/
def leadingBit (a b : Nat) : Int :=
  let p : Int := (a.log2 : Int) - (b.log2 : Int)
  let r := Ratio.pow 2 p
  if a * r.den < b * r.num then p - 1 else p

/-- The exponent of the unit in which the numbers around `a / b` are counted. -/
def unitExponent (a b : Nat) : Int := max (-1074) (leadingBit a b - 52)

def infinityBits : Nat := 2047 * exponentWeight

/-- The bits of `mant · 2 ^ exp`.  A mantissa of the next binade carries into the exponent, and
what has no room there is infinite. -/
def encode (mant : Nat) (exp : Int) : Nat :=
  min ((exp + 1074).toNat * exponentWeight + mant) infinityBits

/-- The number nearest to `a / b`, for a positive `a`. -/
def ofRatio (a b : Nat) : Float :=
  let e := unitExponent a b
  let unit := Ratio.pow 2 e
  Float.ofBits (encode (roundDiv (a * unit.den) (b * unit.num)) e).toUInt64

end ScriptEngine.Numeral
