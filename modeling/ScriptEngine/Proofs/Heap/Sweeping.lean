import ScriptEngine.Proofs.Heap.Layout

/-!
# Sweeping frees what is not marked

* `Heap.Sweep.Swept`     what has become of a heap when some cells have been visited;
* `Heap.reap_spec`       sweeping one pool;
* `Heap.sweep_spec`      sweeping all of them: marked objects stay and lose their marks, all other
  cells are free and on the free list of their pool.
-/

namespace ScriptEngine.Heap

namespace Sweep

def body (s : Sweep) (a : Addr) : Body := s.cells[a]?.getD .free

def isMarked (s : Sweep) (a : Addr) : Bool := s.marks[a]?.getD false

/-- Writing the value that cells have where there are none. -/
theorem getD_set_default {α : Type} (xs : Array α) (d : α) (a b : Nat) :
    (xs.setIfInBounds a d)[b]?.getD d = if b = a then d else xs[b]?.getD d := by
  rw [Array.getElem?_setIfInBounds]
  by_cases hab : a = b
  · subst hab
    rw [if_pos rfl, if_pos rfl]
    split <;> rfl
  · rw [if_neg hab, if_neg (Ne.symm hab)]

/-- A sweep that began as `s` has visited the cells `l`. -/
structure Swept (s : Sweep) (l : List Addr) (r : Sweep) : Prop where
  cells_size : r.cells.size = s.cells.size
  marks_size : r.marks.size = s.marks.size
  body : ∀ a, r.body a = if a ∈ l ∧ s.isMarked a = false then .free else s.body a
  isMarked : ∀ a, r.isMarked a = if a ∈ l ∧ (s.body a).isFree = false then false
    else s.isMarked a
  free : r.free.toList = s.free.toList ++ l.filter fun a => (s.body a).isFree || !s.isMarked a
  released : r.released.toList = s.released.toList
    ++ l.filterMap fun a => if s.isMarked a then none else release? (s.body a)
  live : r.live = s.live + l.countP fun a => !(s.body a).isFree && s.isMarked a

theorem swept_nil (s : Sweep) : Swept s [] s where
  cells_size := rfl
  marks_size := rfl
  body a := by rw [if_neg (by simp)]
  isMarked a := by rw [if_neg (by simp)]
  free := (List.append_nil _).symm
  released := (List.append_nil _).symm
  live := rfl

theorem mem_snoc {l : List Addr} {x a : Addr} : a ∈ l ++ [x] ↔ a ∈ l ∨ a = x := by
  rw [List.mem_append, List.mem_singleton]

namespace Swept

variable {s r : Sweep} {l : List Addr} (hr : Swept s l r) {x : Addr} (hx : x ∉ l)

include hr hx in
theorem body_of_notMem : r.cells[x]?.getD .free = s.body x := (hr.body x).trans (if_neg fun e => hx e.1)

include hr hx in
theorem isMarked_of_notMem : r.marks[x]?.getD false = s.isMarked x :=
  (hr.isMarked x).trans (if_neg fun e => hx e.1)

include hr hx in
/-- A free cell stays free. -/
theorem visit_free (hfree : (s.body x).isFree = true) : Swept s (l ++ [x]) (r.visit x) := by
  have he : s.body x = .free := isFree_iff.mp hfree
  rw [Sweep.visit, hr.body_of_notMem hx, if_pos hfree]
  exact {
    cells_size := hr.cells_size
    marks_size := hr.marks_size
    body := fun a => by
      refine (hr.body a).trans ?_
      by_cases hax : a = x
      · subst hax
        rw [he, ite_self, ite_self]
      · simp only [mem_snoc, hax, or_false]
    isMarked := fun a => by
      refine (hr.isMarked a).trans ?_
      by_cases hax : a = x
      · subst hax
        rw [hfree, if_neg fun e => Bool.noConfusion e.2, if_neg fun e => Bool.noConfusion e.2]
      · simp only [mem_snoc, hax, or_false]
    free := by
      show (r.free.push x).toList = _
      rw [Array.toList_push, hr.free, List.filter_append, List.filter_singleton, hfree,
        Bool.true_or, List.append_assoc]
      rfl
    released := by
      show r.released.toList = _
      rw [hr.released, List.filterMap_append]
      simp [he, release?]
    live := by
      show r.live = _
      rw [hr.live, List.countP_append, List.countP_singleton, hfree]
      rfl }

include hr hx in
/-- A marked object loses its mark. -/
theorem visit_marked (hfree : (s.body x).isFree = false) (hmark : s.isMarked x = true) :
    Swept s (l ++ [x]) (r.visit x) := by
  rw [Sweep.visit, hr.body_of_notMem hx, hr.isMarked_of_notMem hx, if_neg (Bool.eq_false_iff.mp hfree), if_pos hmark]
  exact {
    cells_size := hr.cells_size
    marks_size := (Array.size_setIfInBounds).trans hr.marks_size
    body := fun a => by
      refine (hr.body a).trans ?_
      by_cases hax : a = x
      · subst hax
        rw [hmark, if_neg fun e => Bool.noConfusion e.2, if_neg fun e => Bool.noConfusion e.2]
      · simp only [mem_snoc, hax, or_false]
    isMarked := fun a => by
      refine (getD_set_default r.marks false x a).trans ?_
      by_cases hax : a = x
      · subst hax
        rw [if_pos rfl, if_pos ⟨mem_snoc.mpr (.inr rfl), hfree⟩]
      · rw [if_neg hax]
        simp only [mem_snoc, hax, or_false]
        exact hr.isMarked a
    free := by
      show r.free.toList = _
      rw [hr.free, List.filter_append, List.filter_singleton, hfree, hmark]
      exact congrArg _ (List.append_nil _).symm
    released := by
      show r.released.toList = _
      rw [hr.released, List.filterMap_append]
      simp [hmark]
    live := by
      show r.live + 1 = _
      rw [hr.live, List.countP_append, List.countP_singleton, hfree, hmark, Nat.add_assoc]
      rfl }

include hr hx in
/-- An object without a mark is reclaimed. -/
theorem visit_dead (hfree : (s.body x).isFree = false) (hmark : s.isMarked x = false) :
    Swept s (l ++ [x]) (r.visit x) := by
  rw [Sweep.visit, hr.body_of_notMem hx, hr.isMarked_of_notMem hx, if_neg (Bool.eq_false_iff.mp hfree),
    if_neg (Bool.eq_false_iff.mp hmark)]
  exact {
    cells_size := (Array.size_setIfInBounds).trans hr.cells_size
    marks_size := hr.marks_size
    body := fun a => by
      refine (getD_set_default r.cells .free x a).trans ?_
      by_cases hax : a = x
      · subst hax
        rw [if_pos rfl, if_pos ⟨mem_snoc.mpr (.inr rfl), hmark⟩]
      · rw [if_neg hax]
        simp only [mem_snoc, hax, or_false]
        exact hr.body a
    isMarked := fun a => by
      refine (hr.isMarked a).trans ?_
      by_cases hax : a = x
      · subst hax
        rw [hmark, ite_self, ite_self]
      · simp only [mem_snoc, hax, or_false]
    free := by
      show (r.free.push x).toList = _
      rw [Array.toList_push, hr.free, List.filter_append, List.filter_singleton, hmark,
        Bool.not_false, Bool.or_true, List.append_assoc]
      rfl
    released := by
      dsimp only
      rw [List.filterMap_append, ← List.append_assoc, ← hr.released]
      cases hrel : release? (s.body x) with
      | none => simp [hmark, hrel]
      | some d => simp [hmark, hrel]
    live := by
      show r.live = _
      rw [hr.live, List.countP_append, List.countP_singleton, hmark, Bool.and_false]
      rfl }

include hr hx in
theorem visit : Swept s (l ++ [x]) (r.visit x) := by
  cases hfree : (s.body x).isFree with
  | true => exact hr.visit_free hx hfree
  | false =>
    cases hmark : s.isMarked x with
    | true => exact hr.visit_marked hx hfree hmark
    | false => exact hr.visit_dead hx hfree hmark

end Swept

/-- Visiting cells one after the other, none of them twice. -/
theorem swept_foldl (s : Sweep) {l : List Addr} (hl : l.Nodup) :
    Swept s l (l.foldl Sweep.visit s) := by
  induction l using List.reverseRecOn with
  | nil => exact swept_nil s
  | append_singleton l x ih =>
    rw [List.foldl_append, List.foldl_cons, List.foldl_nil]
    obtain ⟨hl, -, hx⟩ := List.nodup_append.mp hl
    exact (ih hl).visit fun hmem => hx x hmem x List.mem_cons_self rfl

end Sweep

/-! ## pools -/

/-- A pool swept: all its cells visited in order. -/
def visited (h : Heap) (k : Kind) : Sweep :=
  (h.pool k).owned.foldl Sweep.visit { cells := h.cells, marks := h.marks, released := h.released }

/-- The heap with a pool swept, before the pool grows. -/
def reclaim (h : Heap) (k : Kind) : Heap :=
  let s := h.visited k
  { h with cells := s.cells, marks := s.marks, released := s.released }.modifyPool k fun p =>
    { p with free := s.free }

theorem reap_cases (h : Heap) (k : Kind) :
    ((h.reap k).1 = h.reclaim k ∨ ∃ n, (h.reap k).1 = (h.reclaim k).addBlock k n) ∧
      (h.reap k).2.2 = (h.visited k).live := by
  refine ⟨?_, rfl⟩
  by_cases hfull : (h.visited k).free.size < (h.pool k).owned.size / 4
  · exact .inr ⟨_, if_pos hfull⟩
  · exact .inl (if_neg hfull)

theorem visited_swept {h : Heap} (hl : h.Laid) (k : Kind) :
    Sweep.Swept { cells := h.cells, marks := h.marks, released := h.released }
      (h.pool k).owned.toList (h.visited k) := by
  rw [visited, ← Array.foldl_toList]
  exact Sweep.swept_foldl _ (hl.owned_nodup k)

/-- What has become of the heap `h` when the pools `ks` have been swept, with `live` objects kept
in them. -/
structure Reaped (h : Heap) (ks : List Kind) (h' : Heap) (live : Nat) : Prop where
  laid : h'.Laid
  body : ∀ a, h'.body a = if a ∈ h.ownedBy ks ∧ h.isMarked a = false then .free else h.body a
  isMarked : ∀ a, h'.isMarked a = if a ∈ h.ownedBy ks ∧ (h.body a).isFree = false then false
    else h.isMarked a
  free : ∀ k ∈ ks, (h'.pool k).free.toList
    = (h'.pool k).owned.toList.filter fun a => (h'.body a).isFree
  rest : ∀ k, k ∉ ks → h'.pool k = h.pool k
  blockSize : ∀ k, (h'.pool k).blockSize = (h.pool k).blockSize
  symbols : h'.symbols = h.symbols
  released : h'.released.toList = h.released.toList
    ++ (h.ownedBy ks).filterMap fun a => if h.isMarked a then none else release? (h.body a)
  live : live = (h.ownedBy ks).countP fun a => !(h.body a).isFree && h.isMarked a

namespace Reaped

variable {h h' : Heap} {ks : List Kind} {live : Nat}

theorem nil (hl : h.Laid) : Reaped h [] h 0 where
  laid := hl
  body _ := rfl
  isMarked _ := rfl
  free _ hk := nomatch hk
  rest _ _ := rfl
  blockSize _ := rfl
  symbols := rfl
  released := (List.append_nil _).symm
  live := rfl

/-- The cells of a new block are free and on the free list. -/
theorem addBlock (hr : Reaped h ks h' live) {k : Kind} (hk : k ∈ ks) (n : Nat) :
    Reaped h ks (h'.addBlock k n) live where
  laid := hr.laid.addBlock k n
  body a := (body_addBlock h' k n a).trans (hr.body a)
  isMarked a := (isMarked_addBlock h' k n a).trans (hr.isMarked a)
  free j hj := by
    have hsame : (fun a => ((h'.addBlock k n).body a).isFree) = fun a => (h'.body a).isFree :=
      funext fun a => by rw [body_addBlock]
    rw [hsame]
    by_cases hkj : k = j
    · subst hkj
      rw [pool_addBlock_self]
      show ((h'.pool k).free ++ h'.block n).toList
        = ((h'.pool k).owned ++ h'.block n).toList.filter _
      rw [Array.toList_append, Array.toList_append, List.filter_append, ← hr.free k hj]
      refine congrArg _ (List.filter_eq_self.mpr fun a ha => ?_).symm
      rw [toList_block] at ha
      obtain ⟨i, -, rfl⟩ := List.mem_map.mp ha
      rw [isFree_iff]
      by_contra hne
      exact absurd (lt_size_of_body hne) (Nat.not_lt.mpr (Nat.le_add_right _ _))
    · rw [pool_addBlock_of_ne h' n hkj]
      exact hr.free j hj
  rest j hj := by
    have hkj : k ≠ j := fun e => hj (e ▸ hk)
    exact (pool_addBlock_of_ne h' n hkj).trans (hr.rest j hj)
  blockSize j := by
    by_cases hkj : k = j
    · subst hkj
      rw [pool_addBlock_self]
      exact hr.blockSize k
    · rw [pool_addBlock_of_ne h' n hkj]
      exact hr.blockSize j
  symbols := hr.symbols
  released := hr.released
  live := hr.live

section

variable (hr : Reaped h ks h' live) (hl : h.Laid) {k : Kind} (hk : k ∉ ks)

include hr hl hk in
/-- No cell of a pool that is still to be swept has been visited before. -/
theorem untouched {a : Addr} (ha : a ∈ (h.pool k).owned) : h'.body a = h.body a ∧ h'.isMarked a = h.isMarked a := by
  have hnew : a ∉ h.ownedBy ks := by
    intro hmem
    obtain ⟨j, hj, haj⟩ := mem_ownedBy.mp hmem
    exact hk (hl.owner_unique ha haj ▸ hj)
  exact ⟨(hr.body a).trans (if_neg fun e => hnew e.1), (hr.isMarked a).trans (if_neg fun e => hnew e.1)⟩

include hr hk in
theorem swept : Sweep.Swept { cells := h'.cells, marks := h'.marks, released := h'.released }
    (h.pool k).owned.toList (h'.visited k) :=
  hr.rest k hk ▸ visited_swept hr.laid k

include hr hk in
theorem body_reclaim (a : Addr) : (h'.reclaim k).body a =
    if a ∈ (h.pool k).owned.toList ∧ h'.isMarked a = false then .free else h'.body a :=
  (hr.swept hk).body a

include hr hk in
/-- The free list of a pool that has been swept, this one or one before it. -/
theorem free_reclaim {j : Kind} (hj : j ∈ ks ++ [k]) : ((h'.reclaim k).pool j).free.toList =
    ((h'.reclaim k).pool j).owned.toList.filter fun a => ((h'.reclaim k).body a).isFree := by
  by_cases hkj : k = j
  · subst hkj
    rw [Heap.reclaim, pool_modifyPool_self]
    show (h'.visited k).free.toList = (h'.pool k).owned.toList.filter _
    rw [hr.rest k hk]
    refine (hr.swept hk).free.trans ((List.nil_append _).trans (List.filter_congr fun a ha => ?_))
    show ((h'.body a).isFree || !h'.isMarked a) = ((h'.reclaim k).body a).isFree
    rw [hr.body_reclaim hk]
    cases hm : h'.isMarked a with
    | false => rw [if_pos ⟨ha, rfl⟩, Bool.not_false, Bool.or_true]; rfl
    | true => rw [if_neg fun e => Bool.noConfusion e.2, Bool.not_true, Bool.or_false]
  · have hjks : j ∈ ks :=
      (List.mem_append.mp hj).resolve_right fun e => hkj (List.mem_singleton.mp e).symm
    have hpool : (h'.reclaim k).pool j = h'.pool j := pool_modifyPool_of_ne _ _ hkj
    rw [hpool, hr.free j hjks]
    refine List.filter_congr fun a ha => ?_
    rw [hr.body_reclaim hk, if_neg]
    rintro ⟨hak, -⟩
    rw [Array.mem_toList_iff, ← hr.rest k hk] at hak
    exact hkj (hr.laid.owner_unique hak (Array.mem_toList_iff.mp ha))

include hr hl hk in
theorem reclaim : Reaped h (ks ++ [k]) (h'.reclaim k) (live + (h'.visited k).live) := by
  have hs := hr.swept hk
  have hsame (a : Addr) := hr.untouched hl hk (a := a)
  have hmem (a : Addr) : a ∈ h.ownedBy (ks ++ [k]) ↔ a ∈ h.ownedBy ks ∨ a ∈ (h.pool k).owned := by
    rw [ownedBy_append, List.mem_append]
    exact or_congr Iff.rfl Array.mem_toList_iff
  exact {
    laid := by
      rw [Heap.reclaim]
      refine Laid.modifyPool ?_ k rfl
      exact hr.laid.of_owned hs.cells_size hs.marks_size fun _ => rfl
    body := fun a => by
      rw [hr.body_reclaim hk]
      by_cases ha : a ∈ (h.pool k).owned
      · rw [(hsame a ha).1, (hsame a ha).2]
        simp only [hmem, ha, Array.mem_toList_iff, or_true]
      · rw [if_neg fun e => ha (Array.mem_toList_iff.mp e.1), hr.body]
        simp only [hmem, ha, or_false]
    isMarked := fun a => by
      refine (hs.isMarked a).trans ?_
      show (if a ∈ (h.pool k).owned.toList ∧ (h'.body a).isFree = false then false
        else h'.isMarked a) = _
      by_cases ha : a ∈ (h.pool k).owned
      · rw [(hsame a ha).1, (hsame a ha).2]
        simp only [hmem, ha, Array.mem_toList_iff, or_true]
      · rw [if_neg fun e => ha (Array.mem_toList_iff.mp e.1), hr.isMarked]
        simp only [hmem, ha, or_false]
    free := fun _ hj => hr.free_reclaim hk hj
    rest := fun j hj => by
      rw [List.mem_append, List.mem_singleton, not_or] at hj
      exact (pool_modifyPool_of_ne _ _ (Ne.symm hj.2)).trans (hr.rest j hj.1)
    blockSize := fun j => by
      rw [← hr.blockSize j, Heap.reclaim]
      by_cases hkj : k = j
      · subst hkj
        rw [pool_modifyPool_self]
        rfl
      · rw [pool_modifyPool_of_ne _ _ hkj]
        rfl
    symbols := hr.symbols
    released := by
      refine hs.released.trans ?_
      rw [ownedBy_append, List.filterMap_append, ← List.append_assoc, ← hr.released]
      refine congrArg _ (List.filterMap_congr fun a ha => ?_)
      show (if h'.isMarked a then none else release? (h'.body a)) = _
      rw [(hsame a (Array.mem_toList_iff.mp ha)).1, (hsame a (Array.mem_toList_iff.mp ha)).2]
    live := by
      rw [ownedBy_append, List.countP_append, ← hr.live]
      refine congrArg _ (hs.live.trans ((Nat.zero_add _).trans (List.countP_congr fun a ha => ?_)))
      show (!(h'.body a).isFree && h'.isMarked a) = true ↔ _
      rw [(hsame a (Array.mem_toList_iff.mp ha)).1, (hsame a (Array.mem_toList_iff.mp ha)).2] }

end

theorem reap (hr : Reaped h ks h' live) (hl : h.Laid) {k : Kind} (hk : k ∉ ks) :
    Reaped h (ks ++ [k]) (h'.reap k).1 (live + (h'.reap k).2.2) := by
  obtain ⟨hcases, hlive⟩ := reap_cases h' k
  rw [hlive]
  rcases hcases with e | ⟨n, e⟩
  · rw [e]
    exact hr.reclaim hl hk
  · rw [e]
    exact (hr.reclaim hl hk).addBlock (List.mem_append_right _ List.mem_cons_self) n

end Reaped

theorem reaped_foldl {h : Heap} (hl : h.Laid) {ks : List Kind} (hks : ks.Nodup) :
    let r := ks.foldl
      (fun (h, reclaimed, live) k =>
        let (h, r, l) := h.reap k
        (h, reclaimed + r, live + l))
      (h, 0, 0)
    Reaped h ks r.1 r.2.2 := by
  induction ks using List.reverseRecOn with
  | nil => exact Reaped.nil hl
  | append_singleton ks k ih =>
    obtain ⟨hks, -, hk⟩ := List.nodup_append.mp hks
    rw [List.foldl_append]
    exact (ih hks).reap hl fun hmem => hk k hmem k List.mem_cons_self rfl

/-- **Sweeping all pools.** -/
theorem sweep_spec {h : Heap} (hl : h.Laid) : Reaped h Kind.all h.sweep.1 h.sweep.2.2 :=
  reaped_foldl hl Kind.nodup_all

end ScriptEngine.Heap
