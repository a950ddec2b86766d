import ScriptEngine.Code.Basic
import ScriptEngine.Table
import ScriptEngine.Hash32

/-!
# Values and objects

A value is `nil`, a number or the address of an object.  Objects live in cells; a cell that holds
no object is free, and an address of a free cell is a *stale* value.

* `Value`  what scripts compute with;
* `Str`    strings, which can be changed until their hash has been taken;
* `Body`   what a cell holds, and `Body.children` the values an object refers to.
-/

namespace ScriptEngine

abbrev Addr := Nat

inductive Value where
  | nil
  | num (n : Number)
  | obj (a : Addr)
  /-- The end of an iteration; never seen by scripts. -/
  | done
  deriving Repr, DecidableEq, Inhabited

namespace Value

def isNil : Value → Bool
  | nil => true
  | _ => false

def ofFloat (x : Float) : Value := num (.ofFloat x)

def ofNat (n : Nat) : Value := ofFloat (Float.ofNat n)

/-- One or zero. -/
def ofBool (b : Bool) : Value := ofFloat (if b then 1.0 else 0.0)

def num? : Value → Option Float
  | num n => some n.toFloat
  | _ => none

def addr? : Value → Option Addr
  | obj a => some a
  | _ => none

/-- The same number or the same object. -/
def identical : Value → Value → Bool
  | nil, nil => true
  | done, done => true
  | num m, num n => m.equals n
  | obj a, obj b => a == b
  | _, _ => false

end Value

/-- The types of object, each with a pool of cells of its own. -/
inductive Kind where
  | str | vec | hash | code | closure | func | native | ghost
  deriving Repr, DecidableEq, Inhabited

namespace Kind

/-- The types in the order of their pools. -/
def all : List Kind := [str, vec, hash, code, closure, func, native, ghost]

def idx : Kind → Fin 8
  | str => 0
  | vec => 1
  | hash => 2
  | code => 3
  | closure => 4
  | func => 5
  | native => 6
  | ghost => 7

theorem idx_injective {k j : Kind} (h : k.idx = j.idx) : k = j := by
  cases k <;> cases j <;> trivial

/-- The name of a type in scripts. -/
def name : Kind → String
  | str => "scalar"
  | vec => "vector"
  | hash => "hash"
  | code => "code"
  | closure => "closure"
  | func => "func"
  | native => "func"
  | ghost => "ghost"

end Kind

/-- A string object.  Once its hash has been taken it may be a key somewhere and is frozen. -/
structure Str where
  bytes : Bytes
  hash : Option UInt32
  interned : Bool
  deriving Repr, DecidableEq

namespace Str

def ofBytes (bytes : Bytes) : Str := ⟨bytes, none, false⟩

def ofName (bytes : Bytes) : Str := ⟨bytes, some (hashBytes bytes), true⟩

def hashCode (s : Str) : UInt32 := s.hash.getD (hashBytes s.bytes)

/-- The string with its hash taken. -/
def freeze (s : Str) : Str := { s with hash := some s.hashCode }

/-- Why a byte cannot be changed. -/
inductive Refusal where
  | frozen
  | outOfBounds
  deriving Repr, DecidableEq

def Refusal.message : Refusal → String
  | frozen => "cannot change immutable string"
  | outOfBounds => "string index out of bounds"

def setByte (s : Str) (i : Nat) (b : UInt8) : Except Refusal Str :=
  if s.hash.isSome then .error .frozen
  else if i < s.bytes.length then .ok { s with bytes := s.bytes.set i b }
  else .error .outOfBounds

end Str

/-- A loaded unit of code, with the hash of each string constant (zero for other constants). -/
structure Loaded extends Code Value where
  hashes : Array UInt32

/-- A function of the host.  `data` is what it was created with; with `cleanup` the host is told
when the function has been collected. -/
structure Native where
  name : String
  data : Option Nat
  cleanup : Bool
  deriving Repr, DecidableEq

/-- A family of host objects. -/
structure GhostType where
  name : String
  /-- Whether the host is told when one has been collected. -/
  cleanup : Bool
  deriving Repr, DecidableEq

structure Ghost where
  type : GhostType
  payload : Float
  deriving Repr, DecidableEq

/-- What a cell holds. -/
inductive Body where
  | free
  | str (s : Str)
  | vec (items : Array Value)
  | hash (t : Table Value Value)
  | code (c : Loaded)
  | closure (ns next : Value)
  /-- A code or native object and the closure it is bound to. -/
  | func (target closure : Value)
  | native (n : Native)
  | ghost (g : Ghost)

instance : Inhabited Body := ⟨.free⟩

namespace Body

/-- The type of the object in a cell; `none` for a free cell. -/
def kind? : Body → Option Kind
  | free => none
  | str _ => some .str
  | vec _ => some .vec
  | hash _ => some .hash
  | code _ => some .code
  | closure _ _ => some .closure
  | func _ _ => some .func
  | native _ => some .native
  | ghost _ => some .ghost

def isFree : Body → Bool
  | free => true
  | _ => false

/-- The values an object refers to. -/
def children : Body → List Value
  | vec items => items.toList
  | hash t => t.entries.flatMap fun e => [e.key, e.val]
  | code c => c.consts.toList
  | closure ns next => [ns, next]
  | func target scope => [target, scope]
  | _ => []

end Body

end ScriptEngine
