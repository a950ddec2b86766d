import ScriptEngine.Failure
import ScriptEngine.Heap.Pool
import ScriptEngine.Numeral.Reading

/-!
# What values stand for

Reading a value means looking at its cell: strings stand for numbers when their bytes are numeric,
numbers for their text, and everything else only for itself.

* `numOf`, `truth`, `textOf`, `indexOf`, `byteOf`  a value where a number, a condition, a text, an
  index or a byte is wanted, or why it is none;
* `keysEqual`, `valuesEqual`  equality of keys and of values;
* `hashKey`  the hash under which a key is stored, which freezes a string;
* `lookup`   the value under a key.
-/

namespace ScriptEngine.Heap

def str? (h : Heap) (v : Value) : Option Str :=
  match h.bodyOf v with
  | .str s => some s
  | _ => none

def bytes? (h : Heap) (v : Value) : Option Bytes := (h.str? v).map (·.bytes)

def vec? (h : Heap) (v : Value) : Option (Array Value) :=
  match h.bodyOf v with
  | .vec items => some items
  | _ => none

def table? (h : Heap) (v : Value) : Option (Table Value Value) :=
  match h.bodyOf v with
  | .hash t => some t
  | _ => none

def ghost? (h : Heap) (v : Value) : Option Ghost :=
  match h.bodyOf v with
  | .ghost g => some g
  | _ => none

def func? (h : Heap) (v : Value) : Option (Value × Value) :=
  match h.bodyOf v with
  | .func target scope => some (target, scope)
  | _ => none

/-- The namespace and the next closure of a closure. -/
def closure? (h : Heap) (v : Value) : Option (Value × Value) :=
  match h.bodyOf v with
  | .closure ns next => some (ns, next)
  | _ => none

def code? (h : Heap) (v : Value) : Option Loaded :=
  match h.bodyOf v with
  | .code c => some c
  | _ => none

def native? (h : Heap) (v : Value) : Option Native :=
  match h.bodyOf v with
  | .native n => some n
  | _ => none

def kindOf? (h : Heap) (v : Value) : Option Kind := (h.bodyOf v).kind?

def isKind (h : Heap) (v : Value) (k : Kind) : Bool := h.kindOf? v == some k

/-- Whether a value is a number or a string. -/
def isScalar (h : Heap) : Value → Bool
  | .num _ => true
  | v => h.isKind v .str

def typeName (h : Heap) : Value → String
  | .nil => "nil"
  | .num _ => "scalar"
  | .done => "end"
  | .obj a =>
    match (h.body a).kind? with
    | some k => k.name
    | none => "freed"

/-- The number of a number or of a numeric string. -/
def toNum? (h : Heap) : Value → Option Float
  | .num n => some n.toFloat
  | v => (h.bytes? v).bind Numeral.numeric?

/-- The bytes of a number or a string. -/
def toBytes? (h : Heap) : Value → Option Bytes
  | .num n => some (Bytes.ofString (Numeral.written n.toFloat))
  | v => h.bytes? v

def numOf (h : Heap) : Value → Except Cause Float
  | .num n => .ok n.toFloat
  | .nil => .error .nilAsNumber
  | v =>
    match h.bytes? v with
    | some bs =>
      match Numeral.numeric? bs with
      | some x => .ok x
      | none => .error .textAsNumber
    | none => .error .objectAsNumber

/-- A value where a condition is wanted: strings are false when empty or numerically zero. -/
def truth (h : Heap) : Value → Except Cause Bool
  | .num n => .ok (n.toFloat != 0.0)
  | .nil => .ok false
  | v =>
    match h.bytes? v with
    | some bs =>
      .ok (!bs.isEmpty && (match Numeral.numeric? bs with
        | some x => x != 0.0
        | none => true))
    | none => .error .objectAsTruth

/-- A value where an index or a count is wanted. -/
def indexOf (h : Heap) (v : Value) : Except Cause Float := do
  let x ← h.numOf v
  if Numeral.isFinite x then .ok x else .error (.notFinite x)

def inByteRange (x : Float) : Bool := 0.0 ≤ x && x ≤ 255.0

def byteOf (h : Heap) (v : Value) : Except Cause UInt8 := do
  let x ← h.numOf v
  if inByteRange x then .ok (Numeral.toByte x) else .error (.notByte x)

def textOf (h : Heap) (v : Value) : Except Cause Bytes :=
  match h.toBytes? v with
  | some bs => .ok bs
  | none => if v.isNil then .error .nilAsText else .error .objectAsText

/-- Equality of keys: numbers by value, strings by content, all else by identity. -/
def keysEqual (h : Heap) : Value → Value → Bool
  | .num m, .num n => m.equals n
  | .nil, .nil => true
  | .obj a, .obj b =>
    a == b ||
      (match h.body a, h.body b with
      | .str s, .str t => s.bytes == t.bytes
      | _, _ => false)
  | _, _ => false

/-- Equality of values: as for keys, and a number equals a string that stands for it. -/
def valuesEqual (h : Heap) (a b : Value) : Bool :=
  match a, b with
  | .num n, .obj _ =>
    match h.bytes? b with
    | some bs =>
      match Numeral.numeric? bs with
      | some x => x == n.toFloat
      | none => false
    | none => false
  | .obj _, .num n =>
    match h.bytes? a with
    | some bs =>
      match Numeral.numeric? bs with
      | some x => x == n.toFloat
      | none => false
    | none => false
  | _, _ => h.keysEqual a b

/-! ## Keys -/

/-- The hash of a key and whether it is an interned name. -/
def keyHash (h : Heap) : Value → UInt32 × Bool
  | .num n => (hashNumber n, false)
  | .obj a =>
    match h.body a with
    | .str s => (s.hashCode, s.interned)
    | _ => (hashBytes (leBytes a.toUInt64), false)
  | .nil => (0, false)
  | .done => (0, false)

/-- Freezes the string of a key. -/
def freeze (h : Heap) : Value → Heap
  | .obj a =>
    match h.body a with
    | .str s => if s.hash.isSome then h else h.modify a fun _ => .str s.freeze
    | _ => h
  | _ => h

def hashKey (h : Heap) (v : Value) : (UInt32 × Bool) × Heap := (h.keyHash v, h.freeze v)

/-- Whether an entry is the one of a key: interned names are the same only as objects. -/
def sameKey (h : Heap) (key : Value) (interned : Bool) (e : Entry Value Value) : Bool :=
  match e.key, key with
  | .obj a, .obj b => a == b || (!(e.interned && interned) && h.keysEqual e.key key)
  | k, key => h.keysEqual k key

/-- The value under a key with the given hash. -/
def lookup (h : Heap) (t : Table Value Value) (key : Value) (hash : UInt32) (interned : Bool) :
    Option Value :=
  t.find? hash (h.sameKey key interned)

def putEntry (found : Option (Nat × Nat)) (ent : Entry Value Value) : Body → Body
  | .hash t => .hash (t.put found ent)
  | b => b

/-- Stores a value under a key with the given hash in the hash `box`, if it is one; tells whether
storage was retired. -/
def store (h : Heap) (box key : Value) (hash : UInt32) (interned : Bool) (v : Value) :
    Bool × Heap :=
  match box, h.bodyOf box with
  | .obj a, .hash t =>
    let found := t.locate hash (h.sameKey key interned)
    let retired := found.isNone && t.isFull
    (retired, h.modify a (putEntry found ⟨hash, interned, key, v⟩))
  | _, _ => (false, h)

def dropEntry (found : Option (Nat × Nat)) : Body → Body
  | .hash t => .hash (t.drop found)
  | b => b

/-- Removes the key with the given hash from the hash `box`, if it is one: the value it had, and
whether storage was retired. -/
def remove (h : Heap) (box key : Value) (hash : UInt32) (interned : Bool) :
    (Option Value × Bool) × Heap :=
  match box, h.bodyOf box with
  | .obj a, .hash t =>
    let found := t.locate hash (h.sameKey key interned)
    let old := found.bind fun (_, e) => t.valueAt e
    let retired := found.isSome && t.isSparse
    ((old, retired), h.modify a (dropEntry found))
  | _, _ => ((none, false), h)

end ScriptEngine.Heap
