import ScriptEngine.Natives.Containers

/-!
# Natives on single values

`typeof`, `int`, `num`, `streq`, `substr`, `chr` and `id`.
-/

namespace ScriptEngine.Natives

/-- The name of a value's type; ghosts have types of their own. -/
def typeOf (cx : CtxId) (_ : Value) (args : Array Value) : Act Value := do
  let v := argument args 0
  let h ← Act.heap
  match h.ghost? v with
  | some g => Act.newText cx g.type.name
  | none => Act.newText cx (h.typeName v)

/-- The integer part of a number; `nil` for what stands for none. -/
def int (_ : CtxId) (_ : Value) (args : Array Value) : Act Value := do
  match (← Act.heap).toNum? (argument args 0) with
  | some x => return .ofFloat (Numeral.trunc x)
  | none => return .nil

def num (_ : CtxId) (_ : Value) (args : Array Value) : Act Value := do
  match (← Act.heap).toNum? (argument args 0) with
  | some x => return .ofFloat x
  | none => return .nil

/-- Whether two values have the same text. -/
def streq (_ : CtxId) (_ : Value) (args : Array Value) : Act Value := do
  let h ← Act.heap
  match h.toBytes? (argument args 0), h.toBytes? (argument args 1) with
  | some a, some b => return .ofBool (a == b)
  | _, _ => return .ofBool false

def substr (cx : CtxId) (_ : Value) (args : Array Value) : Act Value := do
  let h ← Act.heap
  match h.toBytes? (argument args 0) with
  | none => Act.fail (.notA "substr" "string")
  | some bs =>
    let start ← Act.ofExcept (startIn h "substr" (argument args 1) bs.length)
    let n ← Act.ofExcept (countIn h (argument args 2) (bs.length - start))
    Act.newStr cx ((bs.drop start).take n)

def chr (cx : CtxId) (_ : Value) (args : Array Value) : Act Value := do
  let x ← Act.read fun h => h.numOf (argument args 0)
  if Heap.inByteRange x then Act.newStr cx [Numeral.toByte x]
  else Act.fail (.characterOutOfRange x)

/-- A text that tells objects apart: the type and the address. -/
def identity (h : Heap) : Value → Option String
  | .obj a => some (h.typeName (.obj a) ++ ":0x" ++ Text.hex a)
  | .num n => some ("scalar:" ++ Numeral.written n.toFloat)
  | _ => none

/-- The identity of an object as a string. -/
def id (cx : CtxId) (_ : Value) (args : Array Value) : Act Value := do
  match identity (← Act.heap) (argument args 0) with
  | some text => Act.newText cx text
  | none => Act.fail .noIdentity

end ScriptEngine.Natives
