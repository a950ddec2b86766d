import Std.Data.HashMap
import ScriptEngine.Code.Basic
import ScriptEngine.Fault

/-!
# A unit under construction

`Draft` collects words, constants and the line table of one unit, and the loops around the current
place.  `Gen` is the activity of writing it: it keeps the current source line and the drafts of the
units around a function literal, and its state survives a fault, so that one can see which
constants had been made by then.

* `emit`, `emitArg`, `emitJump`, `patch`  words;
* `constIndex`  constants, each stored once.
-/

namespace ScriptEngine

/-- A loop around the current place: its label and the jumps to be aimed at its end or at its
next round. -/
structure Loop where
  label : Option Bytes
  breaks : List Nat := []
  continues : List Nat := []

/-- A unit under construction. -/
structure Draft where
  words : Array UInt16 := #[]
  consts : Array Const := #[]
  /-- Where each constant with a key is stored. -/
  places : Std.HashMap Const.Key Nat := {}
  lines : Array (Nat × Nat) := #[]
  /-- The loops around the current place, innermost first. -/
  loops : List Loop := []

/-- The state of writing code. -/
structure Gen.State where
  file : String
  /-- The source line that the next word belongs to. -/
  line : Nat
  draft : Draft := {}
  /-- The units around the current one, innermost first. -/
  outer : List Draft := []

/-- Writing code; a fault leaves the state as it was then. -/
abbrev Gen := EStateM CompileError Gen.State

namespace Gen

def fail {α : Type} (fault : Fault) : Gen α := do
  throw { line := (← get).line, fault }

def line : Gen Nat := do return (← get).line

def atLine (line : Nat) : Gen Unit := modify fun s => { s with line }

def modifyDraft (f : Draft → Draft) : Gen Unit := modify fun s => { s with draft := f s.draft }

def maxWords : Nat := 65532

def maxConsts : Nat := 65535

/-- A jump operand that is still to be set. -/
def unset : UInt16 := 65535

/-- The offset of the next word. -/
def here : Gen Nat := do return (← get).draft.words.size

def Draft.addOp (d : Draft) (line : Nat) (op : Op) : Draft :=
  let lines :=
    match d.lines.back? with
    | some run => if run.2 == line then d.lines else d.lines.push (d.words.size, line)
    | none => d.lines.push (d.words.size, line)
  { d with lines, words := d.words.push op.word }

def emit (op : Op) : Gen Unit := do
  if maxWords < (← here) then fail .functionTooLarge
  modify fun s => { s with draft := Draft.addOp s.draft s.line op }

def emitArg (op : Op) (arg : Nat) : Gen Unit := do
  emit op
  modifyDraft fun d => { d with words := d.words.push arg.toUInt16 }

/-- Writes a jump and gives the offset of its operand, to be set later. -/
def emitJump (op : Op) : Gen Nat := do
  emitArg op unset.toNat
  return (← here) - 1

/-- Aims the jump whose operand is at `operand` at `target`. -/
def patchTo (operand target : Nat) : Gen Unit :=
  modifyDraft fun d => { d with words := d.words.setIfInBounds operand target.toUInt16 }

/-- Aims a jump at the next word. -/
def patch (operand : Nat) : Gen Unit := do patchTo operand (← here)

/-- Adds a constant, and remembers its place when it has a key. -/
def Draft.addConst (d : Draft) (c : Const) : Draft :=
  let i := d.consts.size
  { d with
    consts := d.consts.push c
    places := match c.key? with
      | some k => d.places.insert k i
      | none => d.places }

/-- Where a constant with this key is stored already. -/
def Draft.place? (d : Draft) (c : Const) : Option Nat := c.key?.bind fun k => d.places[k]?

def constIndex (c : Const) : Gen Nat := do
  match Draft.place? (← get).draft c with
  | some i => return i
  | none =>
    let i := (← get).draft.consts.size
    if maxConsts ≤ i then fail .tooManyConstants
    modifyDraft fun d => Draft.addConst d c
    return i

/-- Starts a unit inside the current one. -/
def enter : Gen Unit := modify fun s => { s with draft := {}, outer := s.draft :: s.outer }

/-- Fails unless the unit around the current one has room for another constant. -/
def needRoomOutside : Gen Unit := do
  if maxConsts ≤ ((← get).outer.headD {}).consts.size then fail .tooManyConstants

/-- Ends the current unit and goes back to the one around it. -/
def leave : Gen Draft := modifyGet fun s =>
  (s.draft, { s with draft := s.outer.headD {}, outer := s.outer.tail })

end Gen

end ScriptEngine
