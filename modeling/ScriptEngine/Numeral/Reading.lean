import ScriptEngine.Bytes
import ScriptEngine.Number
import ScriptEngine.Numeral.Rounded

/-!
# Reading numbers

Three grammars share one value: the digits `m` and the decimal exponent `e` of a mantissa with an
optional point and an optional exponent stand for the double nearest to `m · 10 ^ e`.

* `numeric?`  what a string means where a number is wanted: an optional sign, then `0x` and hex
  digits or a mantissa with an optional exponent, and nothing else;
* `real?`     the same without hex, and with the names of the infinities and of `NaN`: how
  numbers are given to the program from outside;
* `radix`     left-to-right reading of digits in a base.
-/

namespace ScriptEngine.Numeral

/-- The natural number of a string of decimal digits. -/
def digitsVal (ds : Bytes) : Nat := ds.foldl (fun n b => 10 * n + (b.toNat - 48)) 0

/-- The double nearest to `m · 10 ^ e`, where `m` is written by the digits, the first of which is
not zero.  Far outside the range of the format the answer is zero or infinity whatever the digits
are, so no huge power is ever formed. -/
def nearest (ds : Bytes) (e : Int) : Float :=
  let top : Int := ds.length + e
  if ds.isEmpty || top < -400 then 0.0
  else if 400 < top then Float.ofBits infinityBits.toUInt64
  else
    let step := Ratio.pow 10 e
    ofRatio (digitsVal ds * step.num) step.den

/-- A mantissa: whole digits, fraction digits, and the bytes after them. -/
structure Mantissa where
  whole : Bytes
  frac : Bytes
  rest : Bytes

/-- Digits with an optional point among them. -/
def mantissa (bs : Bytes) : Mantissa :=
  let (whole, rest) := bs.span Byte.isDigit
  match rest with
  | 46 :: after =>
    let (frac, rest) := after.span Byte.isDigit
    ⟨whole, frac, rest⟩
  | _ => ⟨whole, [], rest⟩

/-- Exponents are read up to here. -/
def exponentBound : Nat := 65536

/-- The value of the digits of an exponent.  They are read from the left until the bound is reached,
and the digits after that are passed over. -/
def exponentVal (ds : Bytes) : Nat :=
  ds.foldl (fun n b => if n < exponentBound then 10 * n + (b.toNat - 48) else n) 0

/-- The exponent after an exponent mark and the bytes after it; `none` when there is no digit. -/
def exponent? (bs : Bytes) : Option (Int × Bytes) :=
  let (neg, ds) :=
    match bs with
    | 45 :: r => (true, r)
    | 43 :: r => (false, r)
    | r => (false, r)
  let (ds, rest) := ds.span Byte.isDigit
  if ds.isEmpty then none
  else
    let n : Int := exponentVal ds
    some (if neg then -n else n, rest)

def dropZeros (ds : Bytes) : Bytes := ds.dropWhile (· == 48)

/-- The value of a mantissa with the exponent `e`.  Zeros at both ends of the digits only move the
point. -/
def Mantissa.value (m : Mantissa) (e : Int) : Float :=
  let ds := dropZeros (m.whole ++ m.frac)
  let kept := (dropZeros ds.reverse).reverse
  nearest kept (e - m.frac.length + (ds.length - kept.length : Nat))

/-- A whole decimal text without a sign. -/
def decimal? (bs : Bytes) : Option Float :=
  let m := mantissa bs
  if m.whole.isEmpty && m.frac.isEmpty then none
  else
    match m.rest with
    | [] => some (m.value 0)
    | c :: after =>
      if c == 101 || c == 69 then
        match exponent? after with
        | some (e, []) => some (m.value e)
        | _ => none
      else none

/-- Reads digits of `base` from the left: `v · base + digit` in the numbers themselves. -/
def radix (base : Nat) (ds : List Nat) : Float :=
  ds.foldl (fun v d => v * Float.ofNat base + Float.ofNat d) 0.0

/-- The digits of a text all of whose bytes are digits of `base`. -/
def digitsIn? (base : Nat) (bs : Bytes) : Option (List Nat) := bs.mapM (Byte.digitVal? base)

/-- Splits an optional sign off the front. -/
def sign (bs : Bytes) : Bool × Bytes :=
  match bs with
  | 45 :: r => (true, r)
  | 43 :: r => (false, r)
  | r => (false, r)

/-- The numeric value of a string. -/
def numeric? (bs : Bytes) : Option Float :=
  let (neg, body) := sign bs
  let value :=
    match body with
    | 48 :: x :: d :: ds =>
      if x == 120 || x == 88 then (digitsIn? 16 (d :: ds)).map (radix 16) else decimal? body
    | _ => decimal? body
  value.map fun v => if neg then -v else v

def lower (b : UInt8) : UInt8 := if 65 ≤ b && b ≤ 90 then b + 32 else b

/-- A number given from outside. -/
def real? (text : String) : Option Number :=
  let (neg, body) := sign (Bytes.ofString text)
  let name := body.map lower
  let value :=
    if name == Bytes.ofString "inf" || name == Bytes.ofString "infinity" then some .infinity
    else if name == Bytes.ofString "nan" then some .nan
    else (decimal? body).map .ofFloat
  value.map fun v => if neg then v.negated else v

end ScriptEngine.Numeral
