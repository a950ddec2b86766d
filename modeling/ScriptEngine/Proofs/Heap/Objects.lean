import ScriptEngine.Heap.Coerce
import ScriptEngine.Heap.Mark

/-!
# What holds of all objects

A property that free cells have stays with all cells of a heap, if every object that is made has it and
every change of an object keeps it.

* `Heap.All`   a property of all cells;
* `Heap.All.modify`, `Heap.All.install`, `Heap.All.store`, ...   what keeps it;
* `Heap.All.sweep`   so does a collection.
-/

namespace ScriptEngine

/-! ## parts of arrays -/

theorem mem_of_mem_extract {α : Type} {xs : Array α} {x : α} {i j : Nat} (hx : x ∈ xs.extract i j) :
    x ∈ xs := by
  obtain ⟨m, _, rfl⟩ := Array.mem_extract_iff_getElem.mp hx
  exact Array.getElem_mem _

theorem mem_of_mem_take {α : Type} {xs : Array α} {x : α} {n : Nat} (hx : x ∈ xs.take n) : x ∈ xs := by
  rw [Array.take_eq_extract] at hx
  exact mem_of_mem_extract hx

theorem mem_of_mem_shrink {α : Type} {xs : Array α} {x : α} {n : Nat} (hx : x ∈ xs.shrink n) :
    x ∈ xs := by
  rw [Array.shrink_eq_take] at hx
  exact mem_of_mem_take hx

theorem mem_of_mem_pop {α : Type} {xs : Array α} {x : α} (hx : x ∈ xs.pop) : x ∈ xs := by
  rw [← Array.mem_toList_iff, Array.toList_pop] at hx
  exact Array.mem_toList_iff.mp (List.dropLast_subset _ hx)

theorem mem_of_mem_modify {α : Type} {xs : Array α} {i : Nat} {f : α → α} {x : α}
    (h : x ∈ xs.modify i f) : x ∈ xs ∨ ∃ y ∈ xs, x = f y := by
  obtain ⟨j, hj⟩ := Array.mem_iff_getElem?.mp h
  rw [Array.getElem?_modify] at hj
  split at hj
  · obtain ⟨y, hy, rfl⟩ := Option.map_eq_some_iff.mp hj
    exact .inr ⟨y, Array.mem_of_getElem? hy, rfl⟩
  · exact .inl (Array.mem_of_getElem? hj)

/-! ## cells -/

namespace Heap

/-- All cells have a property. -/
def All (P : Body → Prop) (h : Heap) : Prop := ∀ b ∈ h.cells, P b

variable {P : Body → Prop} {h : Heap}

theorem All.take (hP : h.All P) (k : Kind) (n : Nat) : (h.take k n).2.All P := hP

theorem All.mark (hP : h.All P) (roots : List Value) : (h.mark roots).1.All P := hP

theorem All.install (hP : h.All P) (a : Addr) {b : Body} (hb : P b) : (h.install a b).All P := by
  intro x hx
  rcases Array.mem_or_eq_of_mem_setIfInBounds hx with hx | rfl
  · exact hP x hx
  · exact hb

theorem All.modify (hP : h.All P) (a : Addr) {f : Body → Body} (hf : ∀ b, P b → P (f b)) :
    (h.modify a f).All P := by
  intro x hx
  rcases mem_of_mem_modify hx with hx | ⟨b, hb, rfl⟩
  · exact hP x hx
  · exact hf b (hP b hb)

theorem All.freeze (hP : h.All P) (hstr : ∀ s, P (.str s)) (v : Value) : (h.freeze v).All P := by
  unfold Heap.freeze
  split
  · split
    · split
      · exact hP
      · exact hP.modify _ fun _ _ => hstr _
    · exact hP
  · exact hP

theorem All.store (hP : h.All P) (box : Value) {key v : Value} (hash : UInt32) (interned : Bool)
    (hput : ∀ t found, P (.hash t) → P (.hash (t.put found ⟨hash, interned, key, v⟩))) :
    (h.store box key hash interned v).2.All P := by
  unfold Heap.store
  split
  · refine hP.modify _ fun b hb => ?_
    unfold putEntry
    split
    · exact hput _ _ hb
    · exact hb
  · exact hP

theorem All.remove (hP : h.All P) (box key : Value) (hash : UInt32) (interned : Bool)
    (hdrop : ∀ t found, P (.hash t) → P (.hash (t.drop found))) :
    (h.remove box key hash interned).2.All P := by
  unfold Heap.remove
  split
  · refine hP.modify _ fun b hb => ?_
    unfold dropEntry
    split
    · exact hdrop _ _ hb
    · exact hb
  · exact hP

/-! ## free cells -/

section

variable (hfree : P .free)
include hfree

theorem All.body (hP : h.All P) (a : Addr) : P (h.body a) := by
  unfold Heap.body
  cases ha : h.cells[a]? with
  | none => exact hfree
  | some b => exact hP b (Array.mem_of_getElem? ha)

theorem All.bodyOf (hP : h.All P) (v : Value) : P (h.bodyOf v) := by
  cases v with
  | obj a => exact hP.body hfree a
  | _ => exact hfree

theorem All.addBlock (hP : h.All P) (k : Kind) (n : Nat) : (h.addBlock k n).All P := by
  intro b hb
  rcases Array.mem_append.mp hb with hb | hb
  · exact hP b hb
  · rw [(Array.mem_replicate.mp hb).2]
    exact hfree

theorem all_new (poolBlock : Nat) : (new poolBlock).All P := by
  have hfold (ks : List Kind) (h : Heap) (hP : h.All P) :
      (ks.foldl (fun h k => h.addBlock k (max poolBlock 1)) h).All P := by
    induction ks generalizing h with
    | nil => exact hP
    | cons k ks ih => exact ih _ (hP.addBlock hfree k _)
  exact hfold _ _ fun _ hb => nomatch hb

theorem All.takeOrGrow (hP : h.All P) (k : Kind) : (h.takeOrGrow k).2.All P := by
  unfold Heap.takeOrGrow
  dsimp only
  split
  · exact hP.addBlock hfree k _
  · exact hP

theorem All.intern (hP : h.All P) {name : Bytes} (hname : P (.str (.ofName name))) :
    (h.intern name).2.All P := by
  unfold Heap.intern
  split
  · exact hP
  · exact All.install (hP.takeOrGrow hfree .str) _ hname

theorem Sweep.all_visit {s : Sweep} (hs : ∀ b ∈ s.cells, P b) (a : Addr) :
    ∀ b ∈ (s.visit a).cells, P b := by
  unfold Sweep.visit
  dsimp only
  split
  · exact hs
  · split
    · exact hs
    · intro b hb
      rcases Array.mem_or_eq_of_mem_setIfInBounds hb with hb | rfl
      · exact hs b hb
      · exact hfree

theorem All.reap (hP : h.All P) (k : Kind) : (h.reap k).1.All P := by
  have hfold (l : List Addr) (s : Sweep) (hs : ∀ b ∈ s.cells, P b) :
      ∀ b ∈ (l.foldl Sweep.visit s).cells, P b := by
    induction l generalizing s with
    | nil => exact hs
    | cons a l ih => exact ih _ (Sweep.all_visit hfree hs a)
  have hswept := hfold (h.pool k).owned.toList
    { cells := h.cells, marks := h.marks, released := h.released } hP
  rw [Array.foldl_toList] at hswept
  unfold Heap.reap
  dsimp only
  split
  · refine All.addBlock hfree ?_ k _
    exact hswept
  · exact hswept

theorem All.sweep (hP : h.All P) : h.sweep.1.All P := by
  exact List.foldlRecOn (motive := fun r : Heap × Nat × Nat => r.1.All P) Kind.all _ hP
    fun _ hr k _ => All.reap hfree hr k

end

end Heap

end ScriptEngine
