import ScriptEngine.Proofs.Heap.Objects
import ScriptEngine.Proofs.Heap.Stock

/-!
# Which pool a cell belongs to

A cell stays in its pool for good.  It is on the free list of no other pool, and the objects that are
put into it are of the type of the pool.

* `Heap.Grows`      the cells of each pool are still its own;
* `Heap.Housed`     free cells and objects are where they belong;
* `Heap.Housed.take`, `Heap.Housed.takeOrGrow`, ...   what keeps them there.
-/

namespace ScriptEngine

namespace Heap

/-- The cells of each pool are still its own. -/
def Grows (h h' : Heap) : Prop := ∀ k, ∀ a ∈ (h.pool k).owned, a ∈ (h'.pool k).owned

/-- The free cells of a pool are its own, and an object is of the type of the pool it is in. -/
structure Housed (h : Heap) : Prop where
  free : ∀ k, ∀ a ∈ (h.pool k).free, a ∈ (h.pool k).owned
  typed : ∀ k, ∀ a ∈ (h.pool k).owned, h.body a ≠ .free → (h.body a).kind? = some k

variable {h h' h'' : Heap} {a : Addr} {k : Kind}

theorem Grows.refl (h : Heap) : h.Grows h := fun _ _ ha => ha

theorem Grows.trans (h₁ : h.Grows h') (h₂ : h'.Grows h'') : h.Grows h'' :=
  fun k a ha => h₂ k a (h₁ k a ha)

theorem Grows.of_eq (ho : ∀ k, (h'.pool k).owned = (h.pool k).owned) : h.Grows h' :=
  fun k _ ha => ho k ▸ ha

theorem kind?_eq_none_iff {b : Body} : b.kind? = none ↔ b = .free := by
  cases b <;> simp [Body.kind?]

theorem body_of_ge (ha : h.cells.size ≤ a) : h.body a = .free := by
  rw [body, Array.getElem?_eq_none ha]
  rfl

theorem owned_modifyPool (h : Heap) (k : Kind) {f : Pool → Pool}
    (hf : (f (h.pool k)).owned = (h.pool k).owned) (j : Kind) :
    ((h.modifyPool k f).pool j).owned = (h.pool j).owned := by
  by_cases hkj : k = j
  · subst hkj
    rw [pool_modifyPool_self]
    exact hf
  · rw [pool_modifyPool_of_ne _ _ hkj]

/-! ## growing -/

theorem not_mem_block (hb : h.body a ≠ .free) (n : Nat) : a ∉ h.block n := by
  intro ha
  rw [← Array.mem_toList_iff, toList_block] at ha
  obtain ⟨i, -, rfl⟩ := List.mem_map.mp ha
  exact absurd (lt_size_of_body hb) (Nat.not_lt.mpr (Nat.le_add_right _ _))

theorem grows_addBlock (h : Heap) (k : Kind) (n : Nat) : h.Grows (h.addBlock k n) := by
  intro j a ha
  by_cases hkj : k = j
  · subst hkj
    rw [pool_addBlock_self]
    exact Array.mem_append_left _ ha
  · rwa [pool_addBlock_of_ne h n hkj]

theorem Housed.addBlock (hh : h.Housed) (k : Kind) (n : Nat) : (h.addBlock k n).Housed where
  free j a ha := by
    by_cases hkj : k = j
    · subst hkj
      rw [pool_addBlock_self] at ha ⊢
      rcases Array.mem_append.mp ha with ha | ha
      · exact Array.mem_append_left _ (hh.free k a ha)
      · exact Array.mem_append_right _ ha
    · rw [pool_addBlock_of_ne h n hkj] at ha ⊢
      exact hh.free j a ha
  typed j a ha hb := by
    rw [body_addBlock] at hb ⊢
    by_cases hkj : k = j
    · subst hkj
      rw [pool_addBlock_self] at ha
      exact hh.typed k a ((Array.mem_append.mp ha).resolve_right (not_mem_block hb n)) hb
    · rw [pool_addBlock_of_ne h n hkj] at ha
      exact hh.typed j a ha hb

theorem housed_new (poolBlock : Nat) : (new poolBlock).Housed := by
  have hpool (k : Kind) : pool { pools := Vector.replicate 8 { blockSize := max poolBlock 1 } } k
      = { blockSize := max poolBlock 1 } := by
    rw [pool, PerKind.of, Fin.getElem_fin, Vector.getElem_replicate]
  have hfold (ks : List Kind) (h : Heap) (hh : h.Housed) :
      (ks.foldl (fun h k => h.addBlock k (max poolBlock 1)) h).Housed := by
    induction ks generalizing h with
    | nil => exact hh
    | cons k ks ih => exact ih _ (hh.addBlock k _)
  refine hfold _ _ ⟨fun k a ha => ?_, fun k a ha => ?_⟩
  · rw [hpool] at ha
    exact absurd ha (Array.not_mem_empty a)
  · rw [hpool] at ha
    exact absurd ha (Array.not_mem_empty a)

/-! ## handing cells out -/

/-- A change of a free list that lists no other cells. -/
theorem Housed.modifyPool (hh : h.Housed) (k : Kind) {f : Pool → Pool}
    (ho : (f (h.pool k)).owned = (h.pool k).owned)
    (hf : ∀ a ∈ (f (h.pool k)).free, a ∈ (h.pool k).owned) : (h.modifyPool k f).Housed where
  free j a ha := by
    rw [owned_modifyPool h k ho]
    by_cases hkj : k = j
    · subst hkj
      rw [pool_modifyPool_self] at ha
      exact hf a ha
    · rw [pool_modifyPool_of_ne _ _ hkj] at ha
      exact hh.free j a ha
  typed j a ha := hh.typed j a (owned_modifyPool h k ho j ▸ ha)

/-- Cells of a free list belong to the pool. -/
theorem Housed.take (hh : h.Housed) (k : Kind) (n : Nat) :
    (h.take k n).2.Housed ∧ h.Grows (h.take k n).2 ∧
      ∀ a ∈ (h.take k n).1, a ∈ ((h.take k n).2.pool k).owned := by
  have howned := owned_modifyPool h k
    (f := fun p => { p with free := p.free.take ((h.pool k).free.size - n) }) rfl
  refine ⟨hh.modifyPool k rfl fun a ha => ?_, .of_eq howned, fun a ha => ?_⟩
  · exact hh.free k a (mem_of_mem_take ha)
  · exact (howned k).symm ▸ hh.free k a (mem_of_mem_extract ha)

theorem Housed.takeLast (hh : h.Housed) (k : Kind) (hne : (h.pool k).free ≠ #[]) :
    (h.modifyPool k fun p => { p with free := p.free.pop }).Housed ∧
      h.Grows (h.modifyPool k fun p => { p with free := p.free.pop }) ∧
      (h.pool k).free.back?.getD 0 ∈
        ((h.modifyPool k fun p => { p with free := p.free.pop }).pool k).owned := by
  have howned := owned_modifyPool h k (f := fun p => { p with free := p.free.pop }) rfl
  refine ⟨hh.modifyPool k rfl fun a ha => hh.free k a (mem_of_mem_pop ha), .of_eq howned, ?_⟩
  obtain ⟨a, ha⟩ := Option.isSome_iff_exists.mp (Array.back?_isSome.mpr hne)
  rw [ha, howned]
  exact hh.free k a (Array.mem_of_back? ha)

/-- The last free cell, of a new block if need be, belongs to the pool. -/
theorem Housed.takeOrGrow (hh : h.Housed) (hg : ∀ k, 0 < (h.pool k).blockSize) (k : Kind) :
    (h.takeOrGrow k).2.Housed ∧ h.Grows (h.takeOrGrow k).2 ∧
      (h.takeOrGrow k).1 ∈ ((h.takeOrGrow k).2.pool k).owned := by
  rw [Heap.takeOrGrow]
  dsimp only
  split
  · obtain ⟨h1, h2, h3⟩ := (hh.addBlock k _).takeLast k (free_addBlock_ne h k (lt_max_of_lt_left (hg k)))
    exact ⟨h1, (grows_addBlock h k _).trans h2, h3⟩
  · rename_i hne
    exact hh.takeLast k fun e => hne (by rw [e]; rfl)

/-! ## objects -/

/-- Putting an object of the type of its pool into a cell. -/
theorem Housed.install (hh : h.Housed) (hl : h.Laid) {b : Body} (ha : a ∈ (h.pool k).owned)
    (hb : b.kind? = some k) : (h.install a b).Housed where
  free := hh.free
  typed j x hx hne := by
    rw [body_install h (hl.owned_lt ha)] at hne ⊢
    by_cases e : x = a
    · subst e
      rw [if_pos rfl, hb, hl.owner_unique ha hx]
    · rw [if_neg e] at hne ⊢
      exact hh.typed j x hx hne

/-- Changing an object to one of the same type. -/
theorem Stocked.edit {l : List Addr} (hs : h.Stocked l) (a : Addr) {f : Body → Body}
    (hf : (f (h.body a)).kind? = (h.body a).kind?) : (h.modify a f).Stocked l where
  laid := hs.laid.of_owned Array.size_modify rfl fun _ => rfl
  growing := hs.growing
  clear := hs.clear
  nodup := hs.nodup
  idle x hx := by
    obtain ⟨hlt, hfree⟩ := hs.idle x hx
    refine ⟨hlt.trans_eq Array.size_modify.symm, ?_⟩
    by_cases hax : a = x
    · subst hax
      rw [body_modify_self hlt]
      rw [hfree] at hf ⊢
      exact kind?_eq_none_iff.mp hf
    · rw [body_modify_of_ne h hax, hfree]

theorem Housed.modify (hh : h.Housed) (a : Addr) {f : Body → Body}
    (hf : (f (h.body a)).kind? = (h.body a).kind?) : (h.modify a f).Housed where
  free := hh.free
  typed k x hx hne := by
    by_cases hax : a = x
    · subst hax
      by_cases ha : a < h.cells.size
      · rw [body_modify_self ha] at hne ⊢
        rw [hf]
        refine hh.typed k a hx fun e => hne ?_
        rw [← kind?_eq_none_iff, hf, e]
        rfl
      · rw [body_of_ge (by rw [show (h.modify a f).cells.size = h.cells.size from Array.size_modify]; exact Nat.le_of_not_lt ha)] at hne
        exact absurd rfl hne
    · rw [body_modify_of_ne h hax] at hne ⊢
      exact hh.typed k x hx hne

theorem Housed.congr (hh : h.Housed) (hp : h'.pools = h.pools) (hb : ∀ a, h'.body a = h.body a) :
    h'.Housed where
  free k a ha := by
    rw [pool, hp] at ha ⊢
    exact hh.free k a ha
  typed k a ha hne := by
    rw [pool, hp] at ha
    rw [hb] at hne ⊢
    exact hh.typed k a ha hne

/-- What becomes of a name: its string is there, or is put into a cell of the pool of strings. -/
theorem Housed.intern (hh : h.Housed) {l : List Addr} (hs : h.Stocked l) (name : Bytes) :
    (h.intern name).2.Housed ∧ h.Grows (h.intern name).2 := by
  unfold Heap.intern
  cases h.symbols[name]? with
  | some a => exact ⟨hh, .refl h⟩
  | none =>
    obtain ⟨h1, h2, h3⟩ := hh.takeOrGrow hs.growing .str
    have hlaid := (hs.takeOrGrow .str).laid
    exact ⟨(h1.install hlaid h3 rfl).congr rfl fun _ => rfl, h2⟩

/-! ## sweeping -/

theorem grows_reap (h : Heap) (k : Kind) : h.Grows (h.reap k).1 := by
  have hreclaim : h.Grows (h.reclaim k) := .of_eq (owned_modifyPool _ k rfl)
  rcases (reap_cases h k).1 with e | ⟨n, e⟩
  · rw [e]
    exact hreclaim
  · rw [e]
    exact hreclaim.trans (grows_addBlock _ k n)

theorem grows_sweep (h : Heap) : h.Grows h.sweep.1 := by
  exact List.foldlRecOn (motive := fun r : Heap × Nat × Nat => h.Grows r.1) Kind.all _ (.refl h)
    fun r hr k _ => hr.trans (grows_reap r.1 k)

end Heap

end ScriptEngine
