import ScriptEngine.Numeral.Binary

/-!
# The fewest digits that read back

`m · 2 ^ q` stands for every real between the midpoints to its neighbours, the midpoints included
when `m` is even.  `shortest` walks through the decimal grids with 1, 2, 3, … digits and takes the
first on which one of the two grid points around the number lies in that interval; of two such
points it takes the nearer, and the larger one on a tie.

* `Decimal`   `coeff · 10 ^ exp`;
* `shortest`  the decimal of a positive finite number;
* `written`   a decimal in positional notation, without an exponent.
-/

namespace ScriptEngine.Numeral

/-- The decimal `coeff · 10 ^ exp`. -/
structure Decimal where
  coeff : Nat
  exp : Int
  deriving Repr, DecidableEq

def digitCount (n : Nat) : Nat := (Nat.toDigits 10 n).length

/-- The reals that round to `mant · 2 ^ exp`, as multiples of `2 ^ exp / 4`. -/
structure Interval where
  lo : Nat
  mid : Nat
  hi : Nat
  closed : Bool

/-- The interval of a mantissa; below the least mantissa of a binade the neighbour is only half as
far away, except in the lowest binade. -/
def Interval.of (mant : Nat) (exp : Int) : Interval :=
  let near := mant == exponentWeight && exp != -1074
  { lo := 4 * mant - (if near then 1 else 2)
    mid := 4 * mant
    hi := 4 * mant + 2
    closed := mant % 2 == 0 }

/-- The place of the leading digit: `p` with `10 ^ (p - 1) ≤ a / b < 10 ^ p`. -/
def leadingPlace (a b : Nat) : Int :=
  if b ≤ a then (digitCount (a / b) : Int) else 1 - (digitCount ((b - 1) / a) : Int)

/-- Whether the grid point `c · b / a` lies in the interval. -/
def Interval.holds (i : Interval) (a b c : Nat) : Bool :=
  if i.closed then i.lo * a ≤ c * b && c * b ≤ i.hi * a
  else i.lo * a < c * b && c * b < i.hi * a

/-- The grid point of `10 ^ k` that stands for the number, if one of its two neighbours there
does. -/
def Interval.onGrid? (i : Interval) (unit : Ratio) (k : Int) : Option Nat :=
  let step := Ratio.pow 10 k
  let a := unit.num * step.den
  let b := unit.den * step.num
  let c := i.mid * a / b
  match i.holds a b c, i.holds a b (c + 1) with
  | true, true => if 2 * (i.mid * a - c * b) < b then some c else some (c + 1)
  | true, false => some c
  | false, true => some (c + 1)
  | false, false => none

/-- The first grid with a hit, trying `n`, `n + 1`, … digits; the first number bounds the
search. -/
def Interval.search? (i : Interval) (unit : Ratio) (place : Int) : Nat → Nat → Option Decimal
  | 0, _ => none
  | left + 1, n =>
    let k := place - n
    match i.onGrid? unit k with
    | some c => some ⟨c, k⟩
    | none => i.search? unit place left (n + 1)

/-- All digits of `mant · 2 ^ exp`. -/
def exactly (mant : Nat) (exp : Int) : Decimal :=
  if 0 ≤ exp then ⟨mant * Nat.pow 2 exp.toNat, 0⟩ else ⟨mant * Nat.pow 5 (-exp).toNat, exp⟩

def Decimal.strip : Nat → Decimal → Decimal
  | 0, d => d
  | n + 1, d => if d.coeff % 10 == 0 && d.coeff != 0 then strip n ⟨d.coeff / 10, d.exp + 1⟩ else d

/-- The shortest decimal of `mant · 2 ^ exp`, for positive `mant`. -/
def shortest (mant : Nat) (exp : Int) : Decimal :=
  let i := Interval.of mant exp
  let unit := Ratio.pow 2 (exp - 2)
  let place := leadingPlace (i.mid * unit.num) unit.den
  ((i.search? unit place 17 1).getD (exactly mant exp)).strip 20

/-- A decimal in positional notation. -/
def Decimal.written (d : Decimal) : String :=
  let ds := Nat.toDigits 10 d.coeff
  let point : Int := ds.length + d.exp
  String.ofList <|
    if 0 ≤ d.exp then ds ++ List.replicate d.exp.toNat '0'
    else if 0 < point then ds.take point.toNat ++ '.' :: ds.drop point.toNat
    else '0' :: '.' :: (List.replicate (-point).toNat '0' ++ ds)

/-- The text of a number: the fewest digits that read back, never an exponent, a sign also for
the negative zero. -/
def written (x : Float) : String :=
  match parts? x with
  | some p =>
    let body := if p.mant = 0 then "0" else (shortest p.mant p.exp).written
    if p.neg then "-" ++ body else body
  | none => if x.isNaN then "nan" else if isNegative x then "-inf" else "inf"

end ScriptEngine.Numeral
