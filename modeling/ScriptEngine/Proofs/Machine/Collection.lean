import ScriptEngine.Machine.World
import ScriptEngine.Proofs.Heap.Marking
import ScriptEngine.Proofs.Heap.Sweeping

/-!
# A collection keeps what can be reached and frees the rest

* `World.liveRoots_dropCache`    dropping the cached cells unroots nothing;
* `World.collectGarbage_spec`    what a collection does to the cells, to their marks, to the free
  lists and to the host, for every object graph.
-/

namespace ScriptEngine

open Heap (Marked Reaches release?)

/-- The marked cells, counted over all addresses. -/
theorem count_true_eq (marks : Array Bool) :
    (List.range marks.size).countP (fun a => marks[a]?.getD false) = marks.count true := by
  have hlist : marks.toList = (List.range marks.size).map fun a => marks[a]?.getD false := by
    refine List.ext_getElem (by simp) fun i h₁ h₂ => ?_
    have hi : i < marks.size := by simpa using h₁
    simp [hi]
  rw [← Array.count_toList, hlist, List.count_eq_countP, List.countP_map]
  refine List.countP_congr fun a _ => ?_
  simp

namespace World

theorem liveRoots_dropCache (w : World) :
    { w with contexts := w.contexts.map Context.dropCache }.liveRoots = w.liveRoots := by
  have : (w.contexts.map Context.dropCache).toList.flatMap Context.roots
      = w.contexts.toList.flatMap Context.roots := by
    rw [Array.toList_map, List.flatMap_map]
    rfl
  rw [liveRoots, liveRoots, this]

/-- What a collection has made of the state `w`. -/
structure Collected (w w' : World) : Prop where
  kept : ∀ a, w.heap.Reaches w.liveRoots a → w'.heap.body a = w.heap.body a
  freed : ∀ a, ¬w.heap.Reaches w.liveRoots a → w'.heap.body a = .free
  clear : ∀ a, ¬Marked w'.heap.marks a
  /-- The host has been told about each object that is gone. -/
  told : ∃ dead : List Addr, dead.Nodup ∧
    (∀ a, a ∈ dead ↔ w.heap.body a ≠ .free ∧ ¬w.heap.Reaches w.liveRoots a) ∧
    w'.heap.released.toList
      = w.heap.released.toList ++ dead.filterMap fun a => release? (w.heap.body a)
  counted : (w.heap.mark w.liveRoots).2 = w'.stats.live
  listed : ∀ k, (w'.heap.pool k).free.toList
    = (w'.heap.pool k).owned.toList.filter fun a => (w'.heap.body a).isFree
  laid : w'.heap.Laid
  blockSize : ∀ k, (w'.heap.pool k).blockSize = (w.heap.pool k).blockSize
  symbols : w'.heap.symbols = w.heap.symbols

theorem collected {w : World} (hl : w.heap.Laid) (hclear : ∀ a, ¬Marked w.heap.marks a) :
    Collected w w.collectGarbage := by
  obtain ⟨hmarked, hsize, hcount⟩ := Heap.mark_spec hl.marks_size hclear w.liveRoots
  have hheap : w.collectGarbage.heap = (w.heap.mark w.liveRoots).1.sweep.1 := by
    rw [← liveRoots_dropCache]
    rfl
  have hstats : w.collectGarbage.stats.live = (w.heap.mark w.liveRoots).1.sweep.2.2 := by
    rw [← liveRoots_dropCache]
    rfl
  -- marking changes nothing but the marks
  generalize hh : (w.heap.mark w.liveRoots).1 = h at *
  have hbody : h.body = w.heap.body := by rw [← hh]; rfl
  have hpool : h.pool = w.heap.pool := by rw [← hh]; rfl
  have hcells : h.cells = w.heap.cells := by rw [← hh]; rfl
  have hrel : h.released = w.heap.released := by rw [← hh]; rfl
  have hlaid : h.Laid :=
    hl.of_owned (by rw [hcells]) (by rw [hsize, hl.marks_size]) fun k => by rw [hpool]
  have hr := Heap.sweep_spec hlaid
  have howned (a : Addr) (ha : w.heap.body a ≠ .free) : a ∈ h.ownedBy Kind.all :=
    hlaid.mem_owned.mpr (hcells ▸ Heap.lt_size_of_body ha)
  have hsyms : h.symbols = w.heap.symbols := by rw [← hh]; rfl
  constructor
  all_goals simp only [hheap, hstats]
  case kept =>
    intro a ha
    rw [hr.body, hbody]
    by_cases hf : w.heap.body a = .free
    · rw [hf, ite_self]
    · have : h.isMarked a = true := Heap.isMarked_iff.mpr ((hmarked a).mpr ⟨ha, hf⟩)
      rw [this, if_neg fun e => Bool.noConfusion e.2]
  case freed =>
    intro a ha
    rw [hr.body, hbody]
    by_cases hf : w.heap.body a = .free
    · rw [hf, ite_self]
    · have : h.isMarked a = false :=
        Bool.eq_false_iff.mpr fun e => ha ((hmarked a).mp (Heap.isMarked_iff.mp e)).1
      rw [if_pos ⟨howned a hf, this⟩]
  case clear =>
    intro a ha
    have hm := Heap.isMarked_iff.mpr ha
    rw [hr.isMarked] at hm
    split at hm
    · cases hm
    · rename_i hno
      have hf := ((hmarked a).mp (Heap.isMarked_iff.mp hm)).2
      refine hno ⟨howned a hf, Bool.eq_false_iff.mpr fun e => hf ?_⟩
      rw [hbody] at e
      exact Heap.isFree_iff.mp e
  case told =>
    refine ⟨(h.ownedBy Kind.all).filter fun a => !(h.body a).isFree && !h.isMarked a,
      hlaid.nodup.filter _, fun a => ?_, ?_⟩
    · rw [List.mem_filter, Bool.and_eq_true, Bool.not_eq_true', Bool.not_eq_true', hbody,
        Bool.eq_false_iff, ne_eq, Heap.isFree_iff, Bool.eq_false_iff, ne_eq, Heap.isMarked_iff,
        hmarked a]
      constructor
      · rintro ⟨-, hf, hm⟩
        exact ⟨hf, fun ha => hm ⟨ha, hf⟩⟩
      · rintro ⟨hf, ha⟩
        exact ⟨howned a hf, hf, fun e => ha e.1⟩
    · rw [hr.released, hrel, List.filterMap_filter, hbody]
      refine congrArg _ (List.filterMap_congr fun a _ => ?_)
      cases h.isMarked a with
      | true => rw [Bool.not_true, Bool.and_false]; rfl
      | false =>
        cases hb : w.heap.body a <;> rfl
  case counted =>
    rw [hcount, hr.live, hlaid.owned.countP_eq, hcells, ← hsize, ← count_true_eq]
    refine List.countP_congr fun a _ => ?_
    rw [Bool.and_eq_true]
    refine ⟨fun hm => ⟨?_, hm⟩, fun e => e.2⟩
    rw [Bool.not_eq_true', hbody, Bool.eq_false_iff, ne_eq, Heap.isFree_iff]
    exact ((hmarked a).mp (Heap.isMarked_iff.mp hm)).2
  case listed => exact fun k => hr.free k (Kind.mem_all k)
  case laid => exact hr.laid
  case blockSize =>
    intro k
    rw [hr.blockSize, hpool]
  case symbols => rw [hr.symbols, hsyms]

theorem Collected.mem_free {w w' : World} (hc : Collected w w') {k : Kind} {a : Addr} :
    a ∈ (w'.heap.pool k).free ↔ a ∈ (w'.heap.pool k).owned ∧ w'.heap.body a = .free := by
  rw [← Array.mem_toList_iff, hc.listed k, List.mem_filter, Heap.isFree_iff, Array.mem_toList_iff]

/-- **A collection.**  What can be reached from the roots stays as it is and all other cells are
free; no mark is left; the host has been told once about each object that is gone, and about no
other; as many objects have been marked as kept; and each pool has its free cells on its list, each
once. -/
theorem collectGarbage_spec {w : World} (hl : w.heap.Laid) (hclear : ∀ a, ¬Marked w.heap.marks a) :
    (∀ a, w.heap.Reaches w.liveRoots a → w.collectGarbage.heap.body a = w.heap.body a) ∧
    (∀ a, ¬w.heap.Reaches w.liveRoots a → w.collectGarbage.heap.body a = .free) ∧
    (∀ a, ¬Marked w.collectGarbage.heap.marks a) ∧
    (∃ dead : List Addr, dead.Nodup ∧
      (∀ a, a ∈ dead ↔ w.heap.body a ≠ .free ∧ ¬w.heap.Reaches w.liveRoots a) ∧
      w.collectGarbage.heap.released.toList
        = w.heap.released.toList ++ dead.filterMap fun a => release? (w.heap.body a)) ∧
    (w.heap.mark w.liveRoots).2 = w.collectGarbage.stats.live ∧
    (∀ k, (w.collectGarbage.heap.pool k).free.toList.Nodup ∧
      ∀ a, a ∈ (w.collectGarbage.heap.pool k).free ↔
        a ∈ (w.collectGarbage.heap.pool k).owned ∧ w.collectGarbage.heap.body a = .free) ∧
    w.collectGarbage.heap.Laid := by
  have hc := collected hl hclear
  refine ⟨hc.kept, hc.freed, hc.clear, hc.told, hc.counted, fun k => ?_, hc.laid⟩
  exact ⟨hc.listed k ▸ (hc.laid.owned_nodup k).filter _, fun a => hc.mem_free⟩

/-- Two vectors that contain themselves, the first of them pinned, and a name. -/
def twoLoops : World where
  options := {}
  heap :=
    { cells := #[.vec #[.obj 0], .vec #[.obj 1], .str (.ofName [])]
      marks := #[false, false, false]
      pools := #v[⟨1, #[2], #[]⟩, ⟨1, #[0, 1], #[]⟩, ⟨1, #[], #[]⟩, ⟨1, #[], #[]⟩, ⟨1, #[], #[]⟩,
        ⟨1, #[], #[]⟩, ⟨1, #[], #[]⟩, ⟨1, #[], #[]⟩] }
  roots := #[.obj 0]
  symMe := 2
  symArg := 2
  symParents := 2

theorem twoLoops_reaches {a : Addr} (h : twoLoops.heap.Reaches twoLoops.liveRoots a) :
    a = 0 ∨ a = 2 := by
  induction h with
  | root ha =>
    have : twoLoops.liveRoots = [.obj 0, .obj 2, .obj 2, .obj 2] := by
      simp [liveRoots, twoLoops]
    rw [this] at ha
    simpa using ha
  | child _ ha ih =>
    rcases ih with rfl | rfl
    · exact .inl (by simpa [Heap.body, twoLoops, Body.children] using ha)
    · cases ha

/-- A cycle stays when it is pinned and goes when it is not. -/
theorem collectGarbage_twoLoops :
    twoLoops.collectGarbage.heap.body 0 = .vec #[.obj 0] ∧
      twoLoops.collectGarbage.heap.body 1 = .free := by
  have spec := @collectGarbage_spec twoLoops ⟨rfl, by decide⟩ fun a ha => by
    have hlt : a < 3 := ha.lt
    match a with
    | 0 | 1 | 2 => cases ha
  refine ⟨spec.1 0 (.root (by simp [liveRoots, twoLoops])), spec.2.1 1 fun h => ?_⟩
  rcases twoLoops_reaches h with e | e <;> cases e

end World

end ScriptEngine
