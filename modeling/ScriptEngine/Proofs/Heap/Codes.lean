import ScriptEngine.Proofs.Code.Shapes
import ScriptEngine.Proofs.Heap.Objects

/-!
# The code objects of a heap

Code gets into a heap only when an object is made: nothing that changes the heap afterwards makes a
code object or changes one.  So what holds of every unit that is loaded holds of all code there is.

* `Loaded.Typed`   loaded code that fits shapes, with a hash for each constant;
* `Heap.Typed`     a heap with no other code;
* `Heap.Typed.modify`, `Heap.Typed.store`, `Heap.Typed.sweep`, ...   what keeps it so.
-/

namespace ScriptEngine

/-- Code that fits shapes, and has as many hashes as constants. -/
structure Loaded.Typed (c : Loaded) : Prop where
  shapes : ∃ K, Typing (· ≤ ·) c.words c.consts.size K
  hashes : c.hashes.size = c.consts.size

def Body.Typed : Body → Prop
  | .code c => c.Typed
  | _ => True

theorem Body.typed_free : Body.free.Typed := trivial

namespace Heap

def Typed (h : Heap) : Prop := ∀ b ∈ h.cells, b.Typed

variable {h : Heap}

theorem Typed.all (ht : h.Typed) : h.All Body.Typed := ht

theorem Typed.bodyOf (ht : h.Typed) (v : Value) : (h.bodyOf v).Typed := ht.all.bodyOf Body.typed_free v

theorem typed_new (poolBlock : Nat) : (new poolBlock).Typed := all_new Body.typed_free poolBlock

theorem Typed.take (ht : h.Typed) (k : Kind) (n : Nat) : (h.take k n).2.Typed := ht

theorem Typed.takeOrGrow (ht : h.Typed) (k : Kind) : (h.takeOrGrow k).2.Typed :=
  ht.all.takeOrGrow Body.typed_free k

theorem Typed.install (ht : h.Typed) (a : Addr) {b : Body} (hb : b.Typed) : (h.install a b).Typed :=
  ht.all.install a hb

theorem Typed.modify (ht : h.Typed) (a : Addr) {f : Body → Body} (hf : ∀ b, b.Typed → (f b).Typed) :
    (h.modify a f).Typed := ht.all.modify a hf

theorem Typed.intern (ht : h.Typed) (name : Bytes) : (h.intern name).2.Typed :=
  ht.all.intern Body.typed_free trivial

theorem Typed.freeze (ht : h.Typed) (v : Value) : (h.freeze v).Typed := ht.all.freeze (fun _ => trivial) v

theorem Typed.store (ht : h.Typed) (box key : Value) (hash : UInt32) (interned : Bool) (v : Value) :
    (h.store box key hash interned v).2.Typed := ht.all.store box hash interned fun _ _ _ => trivial

theorem Typed.remove (ht : h.Typed) (box key : Value) (hash : UInt32) (interned : Bool) :
    (h.remove box key hash interned).2.Typed := ht.all.remove box key hash interned fun _ _ _ => trivial

/-! ## collecting -/

theorem Typed.mark (ht : h.Typed) (roots : List Value) : (h.mark roots).1.Typed := ht

theorem Typed.sweep (ht : h.Typed) : h.sweep.1.Typed := ht.all.sweep Body.typed_free

end Heap

end ScriptEngine
