import ScriptEngine.Proofs.Code.Iterating
import ScriptEngine.Proofs.Heap.Objects
import ScriptEngine.Proofs.Heap.Reading

/-!
# Values other than the end of an iteration

The end of an iteration is a value like any other for the machine: nothing but the test for it knows it.
A heap is clean when no object refers to it, and when the test for it stands behind each instruction that
may leave it.

* `Value.Clean`    a value other than the end;
* `Loaded.Clean`   code that tests for the end where it may come up;
* `Heap.Clean`     objects that do not refer to the end;
* `Heap.Clean.store`, `Heap.Clean.remove`   what changes tables keeps a heap clean;
* `Heap.Clean.inherited`   what is read off a clean heap is clean.
-/

namespace ScriptEngine

/-- A value other than the end of an iteration. -/
def Value.Clean (v : Value) : Prop := v ≠ .done

namespace Value

@[simp] theorem clean_nil : Value.nil.Clean := Value.noConfusion

@[simp] theorem clean_num (n : Number) : (Value.num n).Clean := Value.noConfusion

@[simp] theorem clean_obj (a : Addr) : (Value.obj a).Clean := Value.noConfusion

theorem clean_getD {o : Option Value} (ho : ∀ v, o = some v → v.Clean) : (o.getD .nil).Clean := by
  cases o with
  | none => exact clean_nil
  | some v => exact ho v rfl

theorem clean_item {items : Array Value} (hi : ∀ v ∈ items, v.Clean) (i : Nat) :
    (items[i]?.getD .nil).Clean := clean_getD fun _ hv => hi _ (Array.mem_of_getElem? hv)

end Value

/-- Code without the end among its constants, and with the test for the end behind each instruction that
iterates. -/
structure Loaded.Clean (c : Loaded) : Prop where
  consts : ∀ v ∈ c.consts, v.Clean
  guarded : ∃ l, Decoded c.words l ∧ Item.Guarded l

theorem Loaded.Clean.const {c : Loaded} (hc : c.Clean) (i : Nat) : (c.const i).Clean :=
  Value.clean_item hc.consts i

def Body.Clean : Body → Prop
  | .vec items => ∀ v ∈ items, v.Clean
  | .hash t => ∀ e ∈ t.entries, e.key.Clean ∧ e.val.Clean
  | .code c => c.Clean
  | .closure ns next => ns.Clean ∧ next.Clean
  | .func target scope => target.Clean ∧ scope.Clean
  | _ => True

namespace Body

theorem clean_free : Body.free.Clean := trivial

theorem Clean.children {b : Body} (hb : b.Clean) : ∀ c ∈ b.children, c.Clean := by
  intro c hc
  cases b with
  | vec items => exact hb c (Array.mem_toList_iff.mp hc)
  | hash t =>
    obtain ⟨e, he, rfl | rfl⟩ := Heap.mem_children_hash.mp hc
    · exact (hb e he).1
    · exact (hb e he).2
  | code c => exact Loaded.Clean.consts hb _ (Array.mem_toList_iff.mp hc)
  | closure ns next | func target scope =>
    rcases List.mem_pair.mp hc with rfl | rfl
    · exact hb.1
    · exact hb.2
  | _ => exact nomatch hc

end Body

namespace Heap

def Clean (h : Heap) : Prop := h.All Body.Clean

variable {h : Heap}

theorem clean_new (poolBlock : Nat) : (new poolBlock).Clean := all_new Body.clean_free poolBlock

theorem Clean.bodyOf (hc : h.Clean) (v : Value) : (h.bodyOf v).Clean := All.bodyOf Body.clean_free hc v

theorem Clean.inherited (hc : h.Clean) : h.Inherited Value.Clean :=
  fun v c _ hm => (hc.bodyOf v).children c hm

/-- An entry with a clean key and a clean value. -/
theorem Clean.store (hc : h.Clean) (box : Value) {key v : Value} (hash : UInt32) (interned : Bool)
    (hkey : key.Clean) (hv : v.Clean) : (h.store box key hash interned v).2.Clean := by
  refine All.store hc box hash interned fun t found ht e he => ?_
  rcases Table.mem_entries_put he with rfl | ⟨y, hy, hk, hval⟩
  · exact ⟨hkey, hv⟩
  · rw [hk]
    refine ⟨(ht y hy).1, ?_⟩
    rcases hval with hval | hval
    · exact hval ▸ (ht y hy).2
    · exact hval ▸ hv

theorem Clean.remove (hc : h.Clean) (box key : Value) (hash : UInt32) (interned : Bool) :
    (h.remove box key hash interned).2.Clean :=
  All.remove hc box key hash interned fun _ _ ht e he => ht e (Table.mem_entries_drop he)

theorem Clean.removed (hc : h.Clean) {box key v : Value} {hash : UInt32} {interned : Bool}
    (hv : (h.remove box key hash interned).1.1 = some v) : v.Clean := by
  unfold Heap.remove at hv
  split at hv
  · rename_i a t hb
    obtain ⟨e, he, rfl⟩ := Table.find?_mem hv
    have hclean : (Body.hash t).Clean := hb ▸ hc.bodyOf (.obj a)
    exact (hclean e he).2
  · exact nomatch hv

theorem Clean.items (hc : h.Clean) {v : Value} {items : Array Value} (hi : h.vec? v = some items) :
    ∀ x ∈ items, x.Clean := by
  have hb := hc.bodyOf v
  rw [bodyOf_of_vec? hi] at hb
  exact hb

theorem Clean.entries (hc : h.Clean) {v : Value} {t : Table Value Value} (ht : h.table? v = some t) :
    ∀ e ∈ t.entries, e.key.Clean ∧ e.val.Clean := by
  have hb := hc.bodyOf v
  rw [bodyOf_of_table? ht] at hb
  exact hb

/-- The code and the scope of a function that is called. -/
theorem Clean.callee (hc : h.Clean) {func scope : Value} {code : Loaded}
    (hf : h.callee func = .script code scope) : code.Clean ∧ scope.Clean := by
  obtain ⟨target, hfunc, htarget⟩ := Act.bodyOf_of_callee hf
  have hbound := hc.bodyOf func
  have hcode := hc.bodyOf target
  rw [hfunc] at hbound
  rw [htarget] at hcode
  exact ⟨hcode, hbound.2⟩

theorem Clean.callee_bare (hc : h.Clean) {func : Value} {code : Loaded} (hf : h.callee func = .bare code) :
    code.Clean := by
  have hcode := hc.bodyOf func
  rw [Act.bodyOf_of_callee_bare hf] at hcode
  exact hcode

end Heap

end ScriptEngine
