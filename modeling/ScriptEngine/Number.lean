/-!
# Numbers

A number of the language is a double, kept as its 64 bits.  `Float` is the type in which numbers are
computed with and compared.  It has a single `NaN`; the bits also tell a negative `NaN` from a
positive one, and the hash of a number depends on that.
-/

namespace ScriptEngine

/-- A double by its bits. -/
structure Number where
  bits : UInt64
  deriving Repr, DecidableEq, Inhabited

namespace Number

/-- A number as it is computed with. -/
def toFloat (n : Number) : Float := Float.ofBits n.bits

def ofFloat (x : Float) : Number := ⟨x.toBits⟩

def infinity : Number := ⟨0x7ff0000000000000⟩

def nan : Number := ⟨0x7ff8000000000000⟩

/-- The number with the other sign, also for zero and `NaN`. -/
def negated (n : Number) : Number := ⟨n.bits ^^^ 0x8000000000000000⟩

/-- Numeric equality: the two zeros are equal, and no `NaN` is equal to anything. -/
def equals (a b : Number) : Bool := a.toFloat == b.toFloat

theorem negated_negated (n : Number) : n.negated.negated = n := by
  simp only [negated, UInt64.xor_assoc, UInt64.xor_self, UInt64.xor_zero]

end Number

end ScriptEngine
