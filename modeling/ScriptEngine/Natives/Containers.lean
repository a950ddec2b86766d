import ScriptEngine.Machine.Library

/-!
# Natives on containers

`size`, `append`, `setsize`, `subvec`, `keys`, `delete` and `contains`.
-/

namespace ScriptEngine

/-- An argument; missing ones are `nil`. -/
def argument (args : Array Value) (i : Nat) : Value := args[i]?.getD .nil

namespace Natives

/-- The largest size a vector can be set to. -/
def maxVecSize : Float := 4294967295.0

/-- A possibly negative start in `len` elements; the end itself is a start. -/
def startIn (h : Heap) (who : String) (v : Value) (len : Nat) : Except Cause Nat := do
  let a := Numeral.toInt64 (← h.indexOf v)
  let a := if a < 0 then a + len else a
  if a < 0 || (len : Int) < a then .error (.startOutOfBounds who a len) else .ok a.toNat

/-- How many of `most` elements are wanted: all of them for `nil`, none for less than one. -/
def countIn (h : Heap) (v : Value) (most : Nat) : Except Cause Nat :=
  if v.isNil then .ok most else do return min (Numeral.toCount (← h.numOf v)) most

/-- The number of elements or bytes; `nil` has none. -/
def size (_ : CtxId) (_ : Value) (args : Array Value) : Act Value := do
  let v := argument args 0
  match (← Act.heap).bodyOf v with
  | .vec items => return .ofNat items.size
  | .hash t => return .ofNat t.size
  | .str s => return .ofNat s.bytes.length
  | _ => if v.isNil then return .ofNat 0 else Act.fail .noSize

def append (_ : CtxId) (_ : Value) (args : Array Value) : Act Value := do
  let v := argument args 0
  if ← Act.modifyVec v (· ++ args.extract 1 args.size) then return v
  else Act.fail (.notA "append" "vector")

/-- A vector cut or filled up with `nil` to a size. -/
def resized (n : Nat) (items : Array Value) : Array Value :=
  items.shrink n ++ Array.replicate (n - items.size) .nil

def setsize (_ : CtxId) (_ : Value) (args : Array Value) : Act Value := do
  let v := argument args 0
  let x ← Act.read fun h => h.indexOf (argument args 1)
  if x < 0.0 then Act.fail .negativeSize
  if x > maxVecSize then Act.fail (.sizeOutOfRange x)
  if ← Act.modifyVec v (resized (Numeral.toCount x)) then return v
  else Act.fail (.notA "setsize" "vector")

/-- Part of a vector, from a start on. -/
def subvec (cx : CtxId) (_ : Value) (args : Array Value) : Act Value := do
  let h ← Act.heap
  match h.vec? (argument args 0) with
  | none => Act.fail (.notA "subvec" "vector")
  | some items =>
    let start ← Act.ofExcept (startIn h "subvec" (argument args 1) items.size)
    let n ← Act.ofExcept (countIn h (argument args 2) (items.size - start))
    Act.newVec cx (items.extract start (start + n))

def keys (cx : CtxId) (_ : Value) (args : Array Value) : Act Value := do
  match (← Act.heap).table? (argument args 0) with
  | some t => Act.newVec cx (t.entries.map (·.key)).toArray
  | none => Act.fail (.notA "keys" "hash")

def delete (_ : CtxId) (_ : Value) (args : Array Value) : Act Value := do
  let v := argument args 0
  discard <| Act.hashDelete v (argument args 1)
  return v

def contains (_ : CtxId) (_ : Value) (args : Array Value) : Act Value := do
  let v := argument args 0
  if (← Act.heap).isKind v .hash then
    return .ofBool (← Act.hashGet v (argument args 1)).isSome
  else Act.fail (.notA "contains" "hash")

end Natives

end ScriptEngine
