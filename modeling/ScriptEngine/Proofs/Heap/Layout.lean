import ScriptEngine.Proofs.Heap.Cells

/-!
# The layout of the pools

Every cell belongs to one pool and is there once (`Heap.Laid`).  All that changes a heap keeps it
that way.

* `Heap.ownedBy`      the cells of some pools, pool after pool;
* `Heap.Laid`         the layout;
* `Heap.Laid.owner_unique`   no cell belongs to two pools;
* `Heap.Laid.addBlock`   growing pools.
-/

namespace ScriptEngine

theorem Kind.mem_all (k : Kind) : k ∈ all := by
  cases k <;> decide

theorem Kind.nodup_all : all.Nodup := by decide

namespace Heap

/-! ## pools -/

@[simp] theorem pool_modifyPool_self (h : Heap) (k : Kind) (f : Pool → Pool) :
    (h.modifyPool k f).pool k = f (h.pool k) :=
  PerKind.of_modify_self _ _ _

theorem pool_modifyPool_of_ne (h : Heap) {k j : Kind} (f : Pool → Pool) (hkj : k ≠ j) :
    (h.modifyPool k f).pool j = h.pool j :=
  PerKind.of_modify_of_ne _ _ hkj

/-- The cells of a block that is added now. -/
def block (h : Heap) (n : Nat) : Array Addr := (Array.range n).map (h.cells.size + ·)

theorem toList_block (h : Heap) (n : Nat) :
    (h.block n).toList = (List.range n).map (h.cells.size + ·) := by
  rw [block, Array.toList_map, Array.toList_range]

@[simp] theorem pool_addBlock_self (h : Heap) (k : Kind) (n : Nat) :
    (h.addBlock k n).pool k = { h.pool k with
      owned := (h.pool k).owned ++ h.block n, free := (h.pool k).free ++ h.block n } :=
  PerKind.of_modify_self _ _ _

theorem pool_addBlock_of_ne (h : Heap) {k j : Kind} (n : Nat) (hkj : k ≠ j) :
    (h.addBlock k n).pool j = h.pool j :=
  PerKind.of_modify_of_ne _ _ hkj

/-- The cells of a new block are free, as cells that are not there are. -/
@[simp] theorem body_addBlock (h : Heap) (k : Kind) (n : Nat) (a : Addr) :
    (h.addBlock k n).body a = h.body a := by
  rw [body, body]
  show (h.cells ++ Array.replicate n .free)[a]?.getD .free = _
  rw [Array.getElem?_append]
  split
  · rfl
  · rename_i hge
    rw [Array.getElem?_eq_none (Nat.le_of_not_lt hge), Array.getElem?_replicate]
    split <;> rfl

@[simp] theorem isMarked_addBlock (h : Heap) (k : Kind) (n : Nat) (a : Addr) :
    (h.addBlock k n).isMarked a = h.isMarked a := by
  rw [isMarked, isMarked]
  show (h.marks ++ Array.replicate n false)[a]?.getD false = _
  rw [Array.getElem?_append]
  split
  · rfl
  · rename_i hge
    rw [Array.getElem?_eq_none (Nat.le_of_not_lt hge), Array.getElem?_replicate]
    split <;> rfl

/-! ## the cells of all pools -/

/-- The cells of some pools, pool after pool. -/
def ownedBy (h : Heap) (ks : List Kind) : List Addr :=
  ks.flatMap fun k => (h.pool k).owned.toList

theorem mem_ownedBy {h : Heap} {ks : List Kind} {a : Addr} :
    a ∈ h.ownedBy ks ↔ ∃ k ∈ ks, a ∈ (h.pool k).owned := by
  simp only [ownedBy, List.mem_flatMap, Array.mem_toList_iff]

theorem ownedBy_append (h : Heap) (ks : List Kind) (k : Kind) :
    h.ownedBy (ks ++ [k]) = h.ownedBy ks ++ (h.pool k).owned.toList := by
  rw [ownedBy, List.flatMap_append, List.flatMap_singleton]
  rfl

theorem ownedBy_congr {h h' : Heap} {ks : List Kind}
    (e : ∀ k ∈ ks, (h'.pool k).owned = (h.pool k).owned) : h'.ownedBy ks = h.ownedBy ks :=
  List.flatMap_congr fun k hk => congrArg Array.toList (e k hk)

/-- Every cell belongs to one pool and is there once. -/
structure Laid (h : Heap) : Prop where
  marks_size : h.marks.size = h.cells.size
  owned : (h.ownedBy Kind.all).Perm (List.range h.cells.size)

namespace Laid

variable {h : Heap}

theorem mem_owned (hl : h.Laid) {a : Addr} : a ∈ h.ownedBy Kind.all ↔ a < h.cells.size := by
  rw [hl.owned.mem_iff, List.mem_range]

theorem nodup (hl : h.Laid) : (h.ownedBy Kind.all).Nodup :=
  hl.owned.nodup_iff.mpr List.nodup_range

theorem owned_lt (hl : h.Laid) {k : Kind} {a : Addr} (ha : a ∈ (h.pool k).owned) :
    a < h.cells.size :=
  hl.mem_owned.mp (mem_ownedBy.mpr ⟨k, Kind.mem_all k, ha⟩)

theorem owned_nodup (hl : h.Laid) (k : Kind) : (h.pool k).owned.toList.Nodup :=
  (List.nodup_flatMap.mp hl.nodup).1 k (Kind.mem_all k)

theorem owner_unique (hl : h.Laid) {k j : Kind} {a : Addr} (hk : a ∈ (h.pool k).owned)
    (hj : a ∈ (h.pool j).owned) : k = j := by
  by_contra hne
  have hd := (List.nodup_flatMap.mp hl.nodup).2
  have : Std.Symm (Function.onFun List.Disjoint fun k => (h.pool k).owned.toList) :=
    ⟨fun _ _ hs => hs.symm⟩
  exact hd.forall (Kind.mem_all k) (Kind.mem_all j) hne (Array.mem_toList_iff.mpr hk)
    (Array.mem_toList_iff.mpr hj)

theorem of_owned {h' : Heap} (hl : h.Laid) (hc : h'.cells.size = h.cells.size)
    (hm : h'.marks.size = h.marks.size)
    (ho : ∀ k, (h'.pool k).owned = (h.pool k).owned) : h'.Laid where
  marks_size := by rw [hm, hl.marks_size, hc]
  owned := by
    rw [ownedBy_congr fun k _ => ho k, hc]
    exact hl.owned

theorem modifyPool (hl : h.Laid) (k : Kind) {f : Pool → Pool}
    (hf : (f (h.pool k)).owned = (h.pool k).owned) : (h.modifyPool k f).Laid := by
  refine hl.of_owned rfl rfl fun j => ?_
  by_cases hkj : k = j
  · subst hkj
    rw [pool_modifyPool_self]
    exact hf
  · rw [pool_modifyPool_of_ne _ _ hkj]

end Laid

/-- Lists of all types, in one of which some cells come first. -/
theorem perm_flatMap {f g : Kind → List Addr} {k : Kind} {l : List Addr}
    (hk : (f k).Perm (l ++ g k)) (hne : ∀ j, k ≠ j → f j = g j) {ks : List Kind} (hmem : k ∈ ks)
    (hks : ks.Nodup) : (ks.flatMap f).Perm (l ++ ks.flatMap g) := by
  induction ks with
  | nil => exact nomatch hmem
  | cons j ks ih =>
    obtain ⟨hj, hks⟩ := List.nodup_cons.mp hks
    rw [List.flatMap_cons, List.flatMap_cons, ← List.append_assoc]
    by_cases hkj : k = j
    · subst hkj
      have hrest : ks.flatMap f = ks.flatMap g :=
        List.flatMap_congr fun i hi => hne i fun e => hj (e ▸ hi)
      rw [hrest]
      exact hk.append_right _
    · rw [hne j hkj]
      refine ((ih ((List.mem_cons.mp hmem).resolve_left hkj) hks).append_left _).trans ?_
      rw [← List.append_assoc]
      exact List.perm_append_comm.append_right _

theorem ownedBy_addBlock (h : Heap) (k : Kind) (n : Nat) :
    ((h.addBlock k n).ownedBy Kind.all).Perm ((h.block n).toList ++ h.ownedBy Kind.all) := by
  refine perm_flatMap ?_ (fun j hj => by rw [pool_addBlock_of_ne h n hj]) (Kind.mem_all k)
    Kind.nodup_all
  rw [pool_addBlock_self, Array.toList_append]
  exact List.perm_append_comm

theorem size_addBlock (h : Heap) (k : Kind) (n : Nat) :
    (h.addBlock k n).cells.size = h.cells.size + n := by
  show (h.cells ++ Array.replicate n Body.free).size = _
  rw [Array.size_append, Array.size_replicate]

theorem Laid.addBlock {h : Heap} (hl : h.Laid) (k : Kind) (n : Nat) : (h.addBlock k n).Laid where
  marks_size := by
    show (h.marks ++ Array.replicate n false).size = _
    rw [Array.size_append, hl.marks_size, Array.size_replicate, size_addBlock]
  owned := by
    refine (ownedBy_addBlock h k n).trans (List.perm_append_comm.trans ?_)
    rw [size_addBlock, List.range_add, toList_block]
    exact hl.owned.append_right _

theorem laid_bare (blockSize : Nat) :
    Laid { pools := Vector.replicate 8 { blockSize } } := by
  refine ⟨rfl, ?_⟩
  have hnone : ownedBy { pools := Vector.replicate 8 { blockSize } } Kind.all = [] := by
    refine List.flatMap_eq_nil_iff.mpr fun k _ => ?_
    dsimp only [pool, PerKind.of]
    rw [Fin.getElem_fin, Vector.getElem_replicate]
  rw [hnone]
  exact List.Perm.refl _

end Heap

end ScriptEngine
