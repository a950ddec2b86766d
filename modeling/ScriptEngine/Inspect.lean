import Std.Data.HashMap
import ScriptEngine.Listing

/-!
# Pictures of values

A picture of a value is a finite tree, although values may contain themselves: vectors and hashes
are numbered as they are met, a container met again is shown by its number, and containers below a
limited depth are left out.

* `Picture.ofValue`  the picture of a value, after the containers met before.
-/

namespace ScriptEngine

/-- A picture of a value. -/
inductive Picture where
  | nil
  | number (x : Float)
  | text (bs : Bytes)
  | vector (items : List Picture)
  | hash (entries : List (Picture × Picture))
  /-- A container met before, by its number. -/
  | again (i : Nat)
  /-- A container that lies too deep. -/
  | deep
  | native (name : String)
  | script
  | ghost (type : String)
  | code
  | closure
  | freed
  deriving Inhabited

/-- The containers met so far and their numbers. -/
abbrev Met := Std.HashMap Addr Nat

namespace Picture

/-- How deep containers are shown. -/
def depth : Nat := 40

/-- The picture of a value that is not opened. -/
def flat (h : Heap) : Value → Picture
  | .nil => nil
  | .done => nil
  | .num n => number n.toFloat
  | .obj a =>
    match h.body a with
    | .free => freed
    | .str s => text s.bytes
    | .vec _ => deep
    | .hash _ => deep
    | .code _ => code
    | .closure _ _ => closure
    | .func _ _ =>
      match h.nativeOf? (.obj a) with
      | some n => native n.name
      | none => script
    | .native n => native n.name
    | .ghost g => ghost g.type.name

/-- The value under a key of a table, read by looking the key up again. -/
def reread (h : Heap) (t : Table Value Value) (key : Value) : Value :=
  let (found, interned) := h.keyHash key
  (h.lookup t key found interned).getD .nil

def meet (a : Addr) : StateM Met Unit := modify fun met => met.insert a met.size

/-- The picture of a value, opening containers down to the given depth. -/
def within (h : Heap) : Nat → Value → StateM Met Picture
  | n, .obj a => do
    match (← get)[a]?, n, h.body a with
    | some i, _, _ => return again i
    | none, n + 1, .vec items =>
      meet a
      return vector (← items.toList.mapM (within h n))
    | none, n + 1, .hash t =>
      meet a
      return hash (← t.entries.mapM fun e => do
        let key ← within h n e.key
        let val ← within h n (reread h t e.key)
        return (key, val))
    | none, _, _ => return flat h (.obj a)
  | _, v => return flat h v

/-- The picture of a value. -/
def ofValue (h : Heap) (v : Value) : StateM Met Picture := within h depth v

end Picture

end ScriptEngine
