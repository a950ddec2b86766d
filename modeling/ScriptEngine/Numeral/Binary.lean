/-!
# Numbers taken apart

A finite number is `± m · 2 ^ e` with natural `m`; `parts?` reads sign, mantissa and exponent off
the 64 bits.  Truncation and the conversions to integers are exact arithmetic on these parts.

* `truncated`  the integer between zero and the number, towards zero;
* `clamped`    the same cut to a range, with `NaN` as zero;
* `trunc`      truncation as a number, which keeps the sign of zero.
-/

namespace ScriptEngine.Numeral

/-- A finite number `± mant · 2 ^ exp`. -/
structure Parts where
  neg : Bool
  mant : Nat
  exp : Int

/-- A factor `num / den`. -/
structure Ratio where
  num : Nat
  den : Nat

def Ratio.pow (base : Nat) (e : Int) : Ratio :=
  if 0 ≤ e then ⟨Nat.pow base e.toNat, 1⟩ else ⟨1, Nat.pow base (-e).toNat⟩

/-- The weight of the sign in the bits of a number. -/
def signWeight : Nat := 0x8000000000000000

/-- The weight of the exponent in the bits of a number: a mantissa below it lies in the lowest
binade. -/
def exponentWeight : Nat := 0x10000000000000

/-- Sign, mantissa and exponent of a finite number; `none` for the infinities and `NaN`. -/
def parts? (x : Float) : Option Parts :=
  let b : Nat := x.toBits.toNat
  let neg := decide (signWeight ≤ b)
  let field : Nat := b / exponentWeight % 2048
  let frac : Nat := b % exponentWeight
  if field = 2047 then none
  else if field = 0 then some ⟨neg, frac, -1074⟩
  else some ⟨neg, frac + exponentWeight, (field : Int) - 1075⟩

def isFinite (x : Float) : Bool := (parts? x).isSome

def isNegative (x : Float) : Bool := decide (signWeight ≤ x.toBits.toNat)

/-- The integer part of `mant · 2 ^ exp`. -/
def Parts.whole (p : Parts) : Nat :=
  if 0 ≤ p.exp then p.mant * Nat.pow 2 p.exp.toNat
  else p.mant / Nat.pow 2 (-p.exp).toNat

/-- The integer part with its sign. -/
def Parts.truncated (p : Parts) : Int := if p.neg then -(p.whole : Int) else p.whole

/-- Truncation towards zero into `lo .. hi`: larger numbers give the nearer end, `NaN` gives
zero. -/
def clamped (lo hi : Int) (x : Float) : Int :=
  match parts? x with
  | some p => max lo (min hi p.truncated)
  | none => if x.isNaN then 0 else if isNegative x then lo else hi

/-- As a signed 64-bit integer. -/
def toInt64 (x : Float) : Int := clamped (-0x8000000000000000) 0x7fffffffffffffff x

/-- As an unsigned 64-bit integer. -/
def toCount (x : Float) : Nat := (clamped 0 0xffffffffffffffff x).toNat

/-- The next number, if it is an unsigned 64-bit integer as well. -/
def next? (n : Nat) : Option Nat := if n < 0xffffffffffffffff then some (n + 1) else none

def toByte (x : Float) : UInt8 := (clamped 0 255 x).toNat.toUInt8

/-- Truncation towards zero as a number. -/
def trunc (x : Float) : Float :=
  match parts? x with
  | some p =>
    if 0 ≤ p.exp then x
    else
      let w := Float.ofNat p.whole
      if p.neg then -w else w
  | none => x

end ScriptEngine.Numeral
