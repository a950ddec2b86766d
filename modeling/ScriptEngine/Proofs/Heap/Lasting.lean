import ScriptEngine.Proofs.Code.Decoding
import ScriptEngine.Proofs.Heap.Housing

/-!
# What lasts in a heap

Two things are never undone.  A cell stays in its pool, and code that is there has lines that start where
its instructions begin, as all compiled code has.

* `Heap.Lined`   all code has such lines;
* `Heap.Lasts`   one heap after another one, with nothing undone;
* `Heap.lasts_install`, `Heap.lasts_store`, `Heap.lasts_sweep`, ...   every change of a heap.
-/

namespace ScriptEngine

def Body.Lined : Body → Prop
  | .code c => c.toCode.Lined
  | _ => True

theorem Body.lined_free : Body.free.Lined := trivial

theorem Code.Assembled.lined_body {c : Code Const} (h : c.Assembled) (consts : Array Value)
    (hashes : Array UInt32) : (Body.code { toCode := { c with consts }, hashes }).Lined :=
  ⟨h.lined.decoded, h.lined.begins⟩

namespace Heap

def Lined (h : Heap) : Prop := h.All Body.Lined

/-- A later heap: the cells of each pool are still its own, and code has the lines it had. -/
structure Lasts (h h' : Heap) : Prop where
  owned : h.Grows h'
  lined : h.Lined → h'.Lined

variable {h h' h'' : Heap}

theorem lined_new (poolBlock : Nat) : (new poolBlock).Lined := all_new Body.lined_free poolBlock

theorem Lined.bodyOf (hl : h.Lined) (v : Value) : (h.bodyOf v).Lined := All.bodyOf Body.lined_free hl v

theorem Lasts.refl (h : Heap) : h.Lasts h := ⟨.refl h, id⟩

theorem Lasts.trans (h₁ : h.Lasts h') (h₂ : h'.Lasts h'') : h.Lasts h'' :=
  ⟨h₁.owned.trans h₂.owned, fun hl => h₂.lined (h₁.lined hl)⟩

theorem lasts_of_pools (hp : h'.pools = h.pools) (hl : h.Lined → h'.Lined) : h.Lasts h' :=
  ⟨.of_eq fun k => by rw [pool, hp, pool], hl⟩

theorem lasts_install (h : Heap) (a : Addr) {b : Body} (hb : b.Lined) : h.Lasts (h.install a b) :=
  lasts_of_pools rfl fun hl => All.install hl a hb

theorem lasts_modify (h : Heap) (a : Addr) {f : Body → Body} (hf : ∀ b : Body, b.Lined → (f b).Lined) :
    h.Lasts (h.modify a f) := lasts_of_pools rfl fun hl => All.modify hl a hf

theorem lasts_freeze (h : Heap) (v : Value) : h.Lasts (h.freeze v) := by
  refine lasts_of_pools ?_ fun hl => All.freeze hl (fun _ => trivial) v
  unfold Heap.freeze
  split
  · split
    · split <;> rfl
    · rfl
  · rfl

theorem lasts_store (h : Heap) (box key : Value) (hash : UInt32) (interned : Bool) (v : Value) :
    h.Lasts (h.store box key hash interned v).2 := by
  refine lasts_of_pools ?_ fun hl => All.store hl box hash interned fun _ _ _ => trivial
  unfold Heap.store
  split <;> rfl

theorem lasts_remove (h : Heap) (box key : Value) (hash : UInt32) (interned : Bool) :
    h.Lasts (h.remove box key hash interned).2 := by
  refine lasts_of_pools ?_ fun hl => All.remove hl box key hash interned fun _ _ _ => trivial
  unfold Heap.remove
  split <;> rfl

theorem lasts_take (h : Heap) (k : Kind) (n : Nat) : h.Lasts (h.take k n).2 :=
  ⟨.of_eq (owned_modifyPool h k rfl), fun hl => All.take hl k n⟩

theorem lasts_takeOrGrow (h : Heap) (k : Kind) : h.Lasts (h.takeOrGrow k).2 := by
  refine ⟨?_, fun hl => All.takeOrGrow Body.lined_free hl k⟩
  unfold Heap.takeOrGrow
  dsimp only
  split
  · exact (grows_addBlock h k _).trans (.of_eq (owned_modifyPool _ k rfl))
  · exact .of_eq (owned_modifyPool h k rfl)

theorem lasts_intern (h : Heap) (name : Bytes) : h.Lasts (h.intern name).2 := by
  unfold Heap.intern
  split
  · exact .refl h
  · have hname := (lasts_takeOrGrow h .str).trans (lasts_install _ (h.takeOrGrow .str).1 (b := .str (.ofName name)) trivial)
    exact ⟨hname.owned, hname.lined⟩

theorem lasts_mark (h : Heap) (roots : List Value) : h.Lasts (h.mark roots).1 :=
  lasts_of_pools rfl fun hl => All.mark hl roots

theorem lasts_sweep (h : Heap) : h.Lasts h.sweep.1 := ⟨grows_sweep h, fun hl => All.sweep Body.lined_free hl⟩

end Heap

end ScriptEngine
