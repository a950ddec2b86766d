import ScriptEngine.Bytes
import ScriptEngine.Code.Op

/-!
# Units of code

A unit is what one function literal, or a whole source text, compiles to.  The type of its
constants is a parameter: a unit fresh from the generator holds `Const`s, a loaded one holds the
values that were made from them.

* `Code.lineAt`  the source line of a word;
* `Const.key?`   constants with equal keys are stored once.
-/

namespace ScriptEngine

/-- A unit of code over constants of type `κ`. -/
structure Code (κ : Type) where
  words : Array UInt16
  consts : Array κ
  /-- Where each run of words with one source line starts, and that line. -/
  lines : Array (Nat × Nat)
  file : String
  /-- Constant indices of the required parameters' names. -/
  params : Array Nat
  /-- Constant indices of the optional parameters' names and defaults. -/
  optional : Array (Nat × Nat)
  /-- Constant index of the name that takes the arguments left over. -/
  rest : Option Nat
  /-- Whether that name is bound even when no argument is left over. -/
  needsRest : Bool

namespace Code

variable {κ : Type}

/-- The source line of the word at `ip`: that of the last run that starts at or before it. -/
def lineAt (c : Code κ) (ip : Nat) : Nat :=
  match c.lines.findRev? (fun run => run.1 ≤ ip) with
  | some run => run.2
  | none => (c.lines[0]?.map (·.2)).getD 0

end Code

/-- The constants of a unit before it is loaded. -/
inductive Const where
  | nil
  | number (x : Float)
  | text (s : Bytes)
  /-- A name, which is loaded as the one interned string of these bytes. -/
  | name (s : Bytes)
  | code (c : Code Const)

namespace Const

/-- What tells two constants apart; numbers by their bits. -/
inductive Key where
  | nil
  | number (bits : UInt64)
  | text (s : Bytes)
  | name (s : Bytes)
  deriving DecidableEq, Hashable

/-- The key of a constant; function literals are never shared. -/
def key? : Const → Option Key
  | nil => some .nil
  | number x => some (.number x.toBits)
  | text s => some (.text s)
  | name s => some (.name s)
  | code _ => none

end Const

end ScriptEngine
