import ScriptEngine.Proofs.Heap.Keys
import ScriptEngine.Proofs.Heap.Live
import ScriptEngine.Proofs.Heap.Sweeping

/-!
# The stock of free cells

A cell that is on a free list, or has been handed out and holds no object yet, is free, and no cell
is so twice.  Therefore an object is never put into a cell that holds another one.

* `Heap.spares`      the cells on the free lists;
* `Heap.Stocked`     the invariant, with the cells that have been handed out;
* `Heap.Stocked.take`, `Heap.Stocked.takeOrGrow`   handing cells out;
* `Heap.Stocked.install`                           putting an object into one of them;
* `Heap.Stocked.intern`                            the string of a name;
* `Heap.Named`                                     the strings of all names are live.
-/

namespace ScriptEngine.Heap

/-- The cells on the free lists. -/
def spares (h : Heap) : List Addr := Kind.all.flatMap fun k => (h.pool k).free.toList

/-- The cells on the free lists and the cells `l` that have been handed out are free, and all of
them are different. -/
structure Stocked (h : Heap) (l : List Addr) : Prop where
  laid : h.Laid
  growing : ∀ k, 0 < (h.pool k).blockSize
  clear : ∀ a, ¬Marked h.marks a
  nodup : (l ++ h.spares).Nodup
  idle : ∀ a ∈ l ++ h.spares, a < h.cells.size ∧ h.body a = .free

theorem free_addBlock_ne (h : Heap) (k : Kind) {n : Nat} (hn : 0 < n) :
    ((h.addBlock k n).pool k).free ≠ #[] := by
  intro e
  rw [pool_addBlock_self] at e
  have hsize := congrArg Array.size e
  rw [Array.size_append, block, Array.size_map, Array.size_range] at hsize
  simp at hsize
  omega

namespace Stocked

variable {h : Heap} {l l' : List Addr}

/-- Handed out cells may be forgotten, and their order does not matter. -/
theorem subperm (hs : h.Stocked l) (hl : l'.Subperm l) : h.Stocked l' := by
  have hsub : (l' ++ h.spares).Subperm (l ++ h.spares) := hl.append (List.Subperm.refl _)
  obtain ⟨m, hm, hsm⟩ := hsub
  refine { hs with
    nodup := hm.nodup_iff.mp (hs.nodup.sublist hsm)
    idle := fun a ha => hs.idle a (hsm.subset (hm.mem_iff.mpr ha)) }

/-- A change of the free lists that only hands out cells. -/
theorem of_perm {h' : Heap} (hs : h.Stocked l) (hlaid : h'.Laid)
    (hgrow : ∀ k, (h'.pool k).blockSize = (h.pool k).blockSize) (hmarks : h'.marks = h.marks)
    (hcells : h'.cells = h.cells) (hp : (l' ++ h'.spares).Perm (l ++ h.spares)) :
    h'.Stocked l' where
  laid := hlaid
  growing k := hgrow k ▸ hs.growing k
  clear a := hmarks ▸ hs.clear a
  nodup := hp.nodup_iff.mpr hs.nodup
  idle a ha := by
    obtain ⟨hlt, hf⟩ := hs.idle a (hp.mem_iff.mp ha)
    exact ⟨hcells ▸ hlt, by rwa [body, hcells]⟩

theorem handOut (hs : h.Stocked l) (k : Kind) (f : Pool → Pool) {free : Array Addr}
    (taken : List Addr) (hf : f (h.pool k) = { h.pool k with free })
    (hp : (h.pool k).free.toList.Perm (taken ++ free.toList)) :
    (h.modifyPool k f).Stocked (taken ++ l) := by
  have hpool : (h.modifyPool k f).pool k = { h.pool k with free } :=
    (pool_modifyPool_self h k f).trans hf
  have howned : (f (h.pool k)).owned = (h.pool k).owned := by rw [hf]
  refine hs.of_perm (hs.laid.modifyPool k howned) (fun j => ?_) rfl rfl ?_
  · by_cases hkj : k = j
    · subst hkj
      rw [hpool]
    · rw [pool_modifyPool_of_ne h f hkj]
  · have hspares : h.spares.Perm (taken ++ (h.modifyPool k f).spares) := by
      refine perm_flatMap ?_ (fun j hj => by rw [pool_modifyPool_of_ne h f hj]) (Kind.mem_all k)
        Kind.nodup_all
      rw [hpool]
      exact hp
    rw [List.append_assoc]
    exact (List.perm_append_comm_assoc _ _ _).trans (hspares.symm.append_left l)

theorem take (hs : h.Stocked l) (k : Kind) (n : Nat) :
    (h.take k n).2.Stocked ((h.take k n).1.toList ++ l) := by
  refine hs.handOut k _ _ rfl ?_
  refine List.Perm.trans ?_ List.perm_append_comm
  rw [← Array.toList_append, Array.take_eq_extract, Heap.take, Array.extract_append_extract,
    Nat.min_eq_left (Nat.zero_le _), Nat.max_eq_right (Nat.sub_le _ _), Array.extract_size]

theorem addBlock (hs : h.Stocked l) (k : Kind) (n : Nat) : (h.addBlock k n).Stocked l := by
  have hspares : (h.addBlock k n).spares.Perm ((h.block n).toList ++ h.spares) := by
    refine perm_flatMap ?_ (fun j hj => by rw [pool_addBlock_of_ne h n hj]) (Kind.mem_all k)
      Kind.nodup_all
    rw [pool_addBlock_self, Array.toList_append]
    exact List.perm_append_comm
  have hall : (l ++ (h.addBlock k n).spares).Perm ((h.block n).toList ++ (l ++ h.spares)) :=
    (hspares.append_left l).trans (List.perm_append_comm_assoc _ _ _)
  -- the cells of the block were not there before
  have hblock (a : Addr) (ha : a ∈ (h.block n).toList) : h.cells.size ≤ a ∧ a < h.cells.size + n := by
    rw [toList_block] at ha
    obtain ⟨i, hi, rfl⟩ := List.mem_map.mp ha
    exact ⟨Nat.le_add_right _ _, Nat.add_lt_add_left (List.mem_range.mp hi) _⟩
  refine ⟨hs.laid.addBlock k n, fun j => ?_, fun a => ?_, hall.nodup_iff.mpr ?_, fun a ha => ?_⟩
  · by_cases hkj : k = j
    · subst hkj
      rw [pool_addBlock_self]
      exact hs.growing k
    · rw [pool_addBlock_of_ne h n hkj]
      exact hs.growing j
  · rw [← isMarked_iff, isMarked_addBlock, isMarked_iff]
    exact hs.clear a
  · refine List.nodup_append.mpr ⟨?_, hs.nodup, ?_⟩
    · rw [toList_block]
      exact List.nodup_range.map fun i j e => Nat.add_left_cancel e
    · rintro a ha _ hb rfl
      exact absurd (hs.idle a hb).1 (Nat.not_lt.mpr (hblock a ha).1)
  · rw [size_addBlock, body_addBlock]
    rcases List.mem_append.mp (hall.mem_iff.mp ha) with ha | ha
    · refine ⟨(hblock a ha).2, ?_⟩
      by_contra hne
      exact absurd (lt_size_of_body hne) (Nat.not_lt.mpr (hblock a ha).1)
    · obtain ⟨hlt, hf⟩ := hs.idle a ha
      exact ⟨Nat.lt_add_right n hlt, hf⟩

/-- Handing out the last free cell of a pool that has one. -/
theorem takeLast (hs : h.Stocked l) (k : Kind) (hne : (h.pool k).free ≠ #[]) :
    (h.modifyPool k fun p => { p with free := p.free.pop }).Stocked
      ((h.pool k).free.back?.getD 0 :: l) := by
  obtain ⟨a, ha⟩ := Option.isSome_iff_exists.mp (Array.back?_isSome.mpr hne)
  obtain ⟨free, hfree⟩ := Array.back?_eq_some_iff.mp ha
  rw [ha]
  refine hs.handOut k _ [a] rfl ?_
  rw [hfree, Array.pop_push, Array.toList_push]
  exact List.perm_append_comm

theorem takeOrGrow (hs : h.Stocked l) (k : Kind) :
    (h.takeOrGrow k).2.Stocked ((h.takeOrGrow k).1 :: l) := by
  rw [Heap.takeOrGrow]
  dsimp only
  split
  · exact (hs.addBlock k _).takeLast k (free_addBlock_ne h k (lt_max_of_lt_left (hs.growing k)))
  · rename_i hne
    exact hs.takeLast k fun e => hne (by rw [e]; rfl)

/-- Putting an object into a cell that has been handed out. -/
theorem install {a : Addr} (hs : h.Stocked (a :: l)) (b : Body) : (h.install a b).Stocked l := by
  obtain ⟨ha, -⟩ := hs.idle a (List.mem_append_left _ List.mem_cons_self)
  obtain ⟨hnew, hnodup⟩ := List.nodup_cons.mp hs.nodup
  refine ⟨hs.laid.of_owned Array.size_setIfInBounds Array.size_setIfInBounds fun _ => rfl,
    hs.growing, fun x hx => ?_, hnodup, fun x hx => ?_⟩
  · have hx' : (h.marks.setIfInBounds a false)[x]? = some true := hx
    rw [Array.getElem?_setIfInBounds] at hx'
    split at hx'
    · split at hx' <;> simp at hx'
    · exact hs.clear x hx'
  · obtain ⟨hlt, hf⟩ := hs.idle x (List.mem_cons_of_mem _ hx)
    refine ⟨hlt.trans_eq Array.size_setIfInBounds.symm, ?_⟩
    have hne : x ≠ a := fun e => hnew (e ▸ hx)
    rw [body_install h ha, if_neg hne]
    exact hf

theorem modify (hs : h.Stocked l) {a : Addr} (ha : h.body a ≠ .free) (f : Body → Body) :
    (h.modify a f).Stocked l where
  laid := hs.laid.of_owned Array.size_modify rfl fun _ => rfl
  growing := hs.growing
  clear := hs.clear
  nodup := hs.nodup
  idle x hx := by
    obtain ⟨hlt, hf⟩ := hs.idle x hx
    refine ⟨hlt.trans_eq Array.size_modify.symm, ?_⟩
    have hne : a ≠ x := fun e => ha (e ▸ hf)
    rw [body_modify_of_ne h hne]
    exact hf

end Stocked

/-! ## names -/

theorem body_takeOrGrow (h : Heap) (k : Kind) (a : Addr) :
    (h.takeOrGrow k).2.body a = h.body a ∧ (h.takeOrGrow k).2.symbols = h.symbols := by
  rw [takeOrGrow]
  dsimp only
  split
  · exact ⟨body_addBlock h k _ a, rfl⟩
  · exact ⟨rfl, rfl⟩

/-- The heap `h'` is `h` with a string for a name, which is in the cell `a`. -/
structure Interned (h : Heap) (l : List Addr) (name : Bytes) (a : Addr) (h' : Heap) : Prop where
  stocked : h'.Stocked l
  live : ∀ v, h.Live v → h'.Live v
  kept : ∀ x, h.Live (.obj x) → h'.body x = h.body x
  symbol : h'.symbols[name]? = some a
  old : ∀ (other : Bytes) x, h.symbols[other]? = some x → h'.symbols[other]? = some x
  new : ∀ (other : Bytes) x, h'.symbols[other]? = some x →
    h.symbols[other]? = some x ∨ h'.Live (.obj x)

/-- The string of a name is there at once or made now. -/
theorem Stocked.intern {h : Heap} {l : List Addr} (hs : h.Stocked l) (name : Bytes) :
    Interned h l name (h.intern name).1 (h.intern name).2 := by
  unfold Heap.intern
  cases hname : h.symbols[name]? with
  | some a => exact ⟨hs, fun _ hv => hv, fun _ _ => rfl, hname, fun _ _ hx => hx, fun _ _ hx => .inl hx⟩
  | none =>
    dsimp only
    have hstock := hs.takeOrGrow .str
    have hbody (x : Addr) := body_takeOrGrow h .str x
    generalize h.takeOrGrow .str = r at hstock hbody ⊢
    obtain ⟨a, g⟩ := r
    dsimp only at hstock hbody ⊢
    obtain ⟨ha, hfree⟩ := hstock.idle a (List.mem_append_left _ List.mem_cons_self)
    have hst := hstock.install (.str (.ofName name))
    have hself := live_install_self (b := .str (.ofName name)) ha hfree Body.noConfusion
      fun c hc => nomatch hc
    have hget (other : Bytes) : (g.symbols.insert name a)[other]?
        = if name == other then some a else h.symbols[other]? := by
      rw [Std.HashMap.getElem?_insert, (hbody 0).2]
    refine ⟨⟨hst.laid.of_owned rfl rfl fun _ => rfl, hst.growing, hst.clear, hst.nodup, hst.idle⟩,
      fun v hv => ?_, fun x hx => ?_, ?_, fun other x hx => ?_, fun other x hx => ?_⟩
    · have hg : (g.install a (.str (.ofName name))).Live v :=
        (hv.congr fun x => (hbody x).1).install ha hfree
      refine Live.congr (fun x => ?_) hg
      rfl
    · have hxa : x ≠ a := fun e => hx.body_ne ((hbody x).1.symm.trans (e ▸ hfree))
      exact (body_install g ha _ x).trans ((if_neg hxa).trans (hbody x).1)
    · exact (hget name).trans (if_pos (beq_self_eq_true name))
    · have hne : name ≠ other := by
        rintro rfl
        rw [hname] at hx
        exact nomatch hx
      exact (hget other).trans ((if_neg (by simpa using hne)).trans hx)
    · have hx' := (hget other).symm.trans hx
      split at hx'
      · obtain rfl := Option.some.inj hx'
        refine .inr (Live.congr (fun x => ?_) hself)
        rfl
      · exact .inl hx'

def Named (h : Heap) : Prop := ∀ (name : Bytes) a, h.symbols[name]? = some a → h.Live (.obj a)

theorem Interned.named {h h' : Heap} {l : List Addr} {name : Bytes} {a : Addr}
    (hi : Interned h l name a h') (hn : h.Named) : h'.Named := fun other x hx =>
  (hi.new other x hx).elim (fun hx => hi.live _ (hn other x hx)) fun h => h

theorem Stocked.foldl_addBlock {h : Heap} {l : List Addr} (hs : h.Stocked l) (n : Nat)
    (ks : List Kind) : (ks.foldl (fun h k => h.addBlock k n) h).Stocked l ∧
      (ks.foldl (fun h k => h.addBlock k n) h).symbols = h.symbols := by
  induction ks generalizing h with
  | nil => exact ⟨hs, rfl⟩
  | cons k ks ih => exact ih (hs.addBlock k n)

theorem stocked_new (poolBlock : Nat) : (new poolBlock).Stocked [] ∧ (new poolBlock).Named := by
  have hpool (k : Kind) : pool { pools := Vector.replicate 8 { blockSize := max poolBlock 1 } } k
      = { blockSize := max poolBlock 1 } := by
    rw [pool, PerKind.of, Fin.getElem_fin, Vector.getElem_replicate]
  have hspares : spares { pools := Vector.replicate 8 { blockSize := max poolBlock 1 } } = [] := by
    refine List.flatMap_eq_nil_iff.mpr fun k _ => ?_
    rw [hpool]
  have hbare : Stocked { pools := Vector.replicate 8 { blockSize := max poolBlock 1 } } [] := by
    refine ⟨laid_bare _, fun k => ?_, fun a ha => (by cases ha), ?_, fun a ha => ?_⟩
    · rw [hpool]
      exact Nat.lt_of_lt_of_le Nat.one_pos (Nat.le_max_right _ _)
    · rw [hspares]
      exact List.nodup_nil
    · rw [hspares] at ha
      cases ha
  obtain ⟨hs, hsym⟩ := hbare.foldl_addBlock (max poolBlock 1) Kind.all
  refine ⟨hs, fun name a ha => ?_⟩
  rw [show (new poolBlock).symbols = {} from hsym, Std.HashMap.getElem?_empty] at ha
  cases ha

end ScriptEngine.Heap
