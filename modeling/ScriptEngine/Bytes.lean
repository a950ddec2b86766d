/-!
# Byte strings and the byte classes of the language

Source text and script strings are byte strings; only the bytes below 128 have a class.
Everything here is about single bytes, so that each class is a decidable predicate on `UInt8`.

* `Bytes.ofString`  the UTF-8 bytes of a text;
* `Byte.digitVal?`  the value of a digit in a base up to sixteen.
-/

namespace ScriptEngine

abbrev Bytes := List UInt8

namespace Bytes

/-- The UTF-8 bytes of a text. -/
def ofString (s : String) : Bytes := s.toUTF8.toList

/-- The text whose code points are the given bytes, one by one. -/
def toLatin (bs : Bytes) : String := String.ofList (bs.map fun b => Char.ofNat b.toNat)

end Bytes

namespace Byte

/-- The byte of an ASCII character. -/
def ofChar (c : Char) : UInt8 := c.toNat.toUInt8

/-- `0` to `9`. -/
def isDigit (b : UInt8) : Bool := 48 ≤ b && b ≤ 57

/-- `A` to `Z` and `a` to `z`. -/
def isLetter (b : UInt8) : Bool := (65 ≤ b && b ≤ 90) || (97 ≤ b && b ≤ 122)

/-- A byte that may start a name. -/
def startsName (b : UInt8) : Bool := isLetter b || b == 95

/-- A byte that may stand inside a name. -/
def inName (b : UInt8) : Bool := isLetter b || isDigit b || b == 95

/-- The value of a digit in `base` (at most sixteen), letters in either case. -/
def digitVal? (base : Nat) (b : UInt8) : Option Nat :=
  let v :=
    if 48 ≤ b && b ≤ 57 then some (b.toNat - 48)
    else if 97 ≤ b && b ≤ 102 then some (b.toNat - 87)
    else if 65 ≤ b && b ≤ 70 then some (b.toNat - 55)
    else none
  v.filter (· < base)

theorem startsName_inName {b : UInt8} (h : startsName b = true) : inName b = true := by
  simp only [startsName, inName, Bool.or_eq_true] at h ⊢
  rcases h with h | h
  · exact .inl (.inl h)
  · exact .inr h

end Byte

end ScriptEngine
