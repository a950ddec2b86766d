import ScriptEngine.Machine.Act
import ScriptEngine.Proofs.Heap.Housing
import ScriptEngine.Proofs.Machine.Allocation
import ScriptEngine.Proofs.Machine.Passages
import ScriptEngine.Proofs.Runs

/-!
# Where the cells of the pools are

A cell of a pool is on the free list of the pool, in the cache of one context, holds an object of the
type of the pool, or is idle until the next sweep.  Nothing that hands cells out, collects, or makes and
frees contexts puts a cell into two of these places, whatever the objects and the roots are.

* `World.Dealt`      cells of one type have been handed out and are in no other place;
* `World.Placed`     all cells are where they belong;
* `World.Placed.cellsOf`, `World.Placed.obtain`, ...   what keeps them there;
* `World.Spot`       the places of a cell;
* `World.Placed.spot_unique`    each cell is in one of them.
-/

namespace ScriptEngine.World

open Heap (Grows Housed)

/-- The cells `cells` of type `k` have been handed out and are in no list, and all others are where they
belong. -/
structure Dealt (w : World) (k : Kind) (cells : List Addr) : Prop where
  stocked : w.heap.Stocked (cells ++ w.cached)
  housed : w.heap.Housed
  cached : ∀ cx j, ∀ a ∈ (w.ctx cx).cache.of j, a ∈ (w.heap.pool j).owned
  owned : ∀ a ∈ cells, a ∈ (w.heap.pool k).owned

/-- The free cells and the objects of all pools are where they belong. -/
structure Placed (w : World) : Prop where
  stocked : w.heap.Stocked w.cached
  housed : w.heap.Housed
  cached : ∀ cx j, ∀ a ∈ (w.ctx cx).cache.of j, a ∈ (w.heap.pool j).owned

variable {w w' : World} {cx : CtxId} {k : Kind} {a : Addr} {cells : List Addr}

/-- Cells that have been handed out may be forgotten. -/
theorem Dealt.placed (h : w.Dealt k cells) : w.Placed :=
  ⟨h.stocked.subperm (List.sublist_append_right _ _).subperm, h.housed, h.cached⟩

theorem Placed.dealt (h : w.Placed) (k : Kind) : w.Dealt k [] :=
  ⟨h.stocked, h.housed, h.cached, fun _ ha => absurd ha List.not_mem_nil⟩

theorem lt_of_cached (ha : a ∈ (w.ctx cx).cache.of k) : cx < w.contexts.size := by
  by_contra hge
  rw [ctx_of_ge (Nat.le_of_not_lt hge), PerKind.of, Fin.getElem_fin, Vector.getElem_replicate] at ha
  exact absurd ha (Array.not_mem_empty a)

theorem mem_cached (ha : a ∈ (w.ctx cx).cache.of k) : a ∈ w.cached := by
  have hcx := lt_of_cached ha
  refine List.mem_flatMap.mpr ⟨w.ctx cx, ?_, ?_⟩
  · rw [ctx_of_lt hcx]
    exact Array.mem_toList_iff.mpr (Array.getElem_mem hcx)
  · exact List.mem_flatMap.mpr ⟨k, Kind.mem_all k, Array.mem_toList_iff.mpr ha⟩

/-! ## contexts and roots -/

/-- Only the pools, the objects and the contexts matter. -/
theorem Placed.same (h : w.Placed) (hh : w'.heap = w.heap) (hc : w'.contexts = w.contexts) :
    w'.Placed := by
  have hctx (cx : CtxId) : w'.ctx cx = w.ctx cx := by rw [ctx, ctx, hc]
  have hcached : w'.cached = w.cached := by rw [World.cached, World.cached, hc]
  exact ⟨by rw [hh, hcached]; exact h.stocked, hh ▸ h.housed,
    fun cx j a ha => hh ▸ h.cached cx j a (hctx cx ▸ ha)⟩

theorem modifyCtx_of_ge (hcx : w.contexts.size ≤ cx) (f : Context → Context) :
    w.modifyCtx cx f = w := by
  have hs := (same_modifyCtx hcx f).contexts
  rw [modifyCtx] at hs ⊢
  exact congrArg (fun contexts => { w with contexts }) hs

theorem Dealt.modifyCtx (h : w.Dealt k cells) (cx : CtxId) {f : Context → Context}
    (hf : (f (w.ctx cx)).cache = (w.ctx cx).cache ∨
      (f (w.ctx cx)).cache = (Vector.replicate 8 #[] : PerKind (Array Addr))) :
    (w.modifyCtx cx f).Dealt k cells := by
  by_cases hcx : cx < w.contexts.size
  · obtain ⟨p, q, h1, h2⟩ := cached_modifyCtx hcx f
    have hsub : (f (w.ctx cx)).cached.Sublist (w.ctx cx).cached := by
      rcases hf with e | e
      · rw [Context.cached, e]
        exact .refl _
      · have hnone : (f (w.ctx cx)).cached = [] := by
          refine List.flatMap_eq_nil_iff.mpr fun j _ => ?_
          rw [e, PerKind.of, Fin.getElem_fin, Vector.getElem_replicate]
        rw [hnone]
        exact List.nil_sublist _
    refine ⟨h.stocked.subperm ?_, h.housed, fun other j a ha => ?_, h.owned⟩
    · rw [h1, h2]
      exact ((hsub.append_right q).append_left p |>.append_left cells).subperm
    · by_cases ho : cx = other
      · subst ho
        rw [ctx_modifyCtx_self hcx] at ha
        rcases hf with e | e
        · exact h.cached cx j a (e ▸ ha)
        · rw [e, PerKind.of, Fin.getElem_fin, Vector.getElem_replicate] at ha
          exact absurd ha (Array.not_mem_empty a)
      · rw [ctx_modifyCtx_of_ne ho] at ha
        exact h.cached other j a ha
  · rw [modifyCtx_of_ge (Nat.le_of_not_lt hcx)]
    exact h

theorem Placed.modifyCtx (h : w.Placed) (cx : CtxId) {f : Context → Context}
    (hf : (f (w.ctx cx)).cache = (w.ctx cx).cache ∨
      (f (w.ctx cx)).cache = (Vector.replicate 8 #[] : PerKind (Array Addr))) :
    (w.modifyCtx cx f).Placed :=
  ((h.dealt .str).modifyCtx cx hf).placed

theorem Placed.newContext (h : w.Placed) : w.newContext.2.Placed := by
  unfold World.newContext
  split
  · exact h.same rfl rfl
  · have hcached : World.cached { w with contexts := w.contexts.push {} } = w.cached := by
      show (w.contexts.push {}).toList.flatMap Context.cached = _
      rw [Array.toList_push, List.flatMap_append, List.flatMap_singleton,
        show Context.cached {} = [] from cached_dropCache {}, List.append_nil]
      rfl
    refine ⟨hcached.symm ▸ h.stocked, h.housed, fun cx j a ha => h.cached cx j a ?_⟩
    rwa [ctx_push_empty] at ha

theorem Placed.freeChain (n : Nat) (x : Option CtxId) (h : w.Placed) :
    (World.freeChain n x w).Placed := by
  induction n generalizing x w with
  | zero => exact h
  | succ n ih =>
    cases x with
    | none => exact h
    | some cx =>
      refine ih _ ?_
      have hreset := h.modifyCtx cx (f := fun _ => {}) (.inr rfl)
      split
      · exact hreset
      · exact hreset.same rfl rfl

/-! ## collecting -/

theorem Placed.collectGarbage (h : w.Placed) : w.collectGarbage.Placed := by
  have hc := collected h.stocked.laid h.stocked.clear
  have hgrows : w.heap.Grows w.collectGarbage.heap := fun k a ha =>
    Heap.grows_sweep (w.heap.mark _).1 k a ha
  have hnone : w.collectGarbage.cached = [] := by
    refine List.flatMap_eq_nil_iff.mpr fun c hc => ?_
    obtain ⟨d, -, rfl⟩ := Array.mem_map.mp (Array.mem_toList_iff.mp hc)
    exact cached_dropCache d
  refine ⟨hnone ▸ hc.stocked h.stocked.growing, ⟨fun k a ha => (hc.mem_free.mp ha).1, ?_⟩, ?_⟩
  · intro k a ha hne
    -- what is there now was there before, in the same pool
    have hbody : w.collectGarbage.heap.body a = w.heap.body a := by
      by_contra e
      exact hne (hc.freed a fun hr => e (hc.kept a hr))
    rw [hbody] at hne ⊢
    obtain ⟨j, -, hj⟩ :=
      Heap.mem_ownedBy.mp (h.stocked.laid.mem_owned.mpr (Heap.lt_size_of_body hne))
    rw [hc.laid.owner_unique ha (hgrows j a hj)]
    exact h.housed.typed j a hj hne
  · intro cx j a ha
    rw [ctx_dropCache, Context.dropCache, PerKind.of, Fin.getElem_fin, Vector.getElem_replicate] at ha
    exact absurd ha (Array.not_mem_empty a)

theorem Placed.serve (h : w.Placed) : w.serve.Placed := by
  have hd : w.freeDead.Placed := h.same rfl rfl
  rw [World.serve]
  dsimp only
  split
  · exact hd.collectGarbage.same rfl rfl
  · exact hd.same rfl rfl

theorem Placed.enter (h : w.Placed) : w.enter.Placed := by
  rw [World.enter]
  dsimp only
  split
  · exact h.same rfl rfl
  · split
    · exact .serve (h.same rfl rfl)
    · exact h.same rfl rfl

theorem Placed.leave (h : w.Placed) : w.leave.Placed := by
  rw [World.leave]
  dsimp only
  split
  · exact h.same rfl rfl
  · split
    · have hserve := Placed.serve (w := { w with gate := { w.gate with depth := w.gate.depth - 1 } })
        (h.same rfl rfl)
      exact hserve.same rfl rfl
    · exact h.same rfl rfl

theorem Placed.poll (h : w.Placed) : w.poll.Placed := by
  rw [World.poll]
  split
  · exact h.serve
  · exact h

theorem Placed.collectNow (h : w.Placed) : w.collectNow.Placed := by
  rw [World.collectNow]
  split
  · exact .serve (h.same rfl rfl)
  · exact h.same rfl rfl

theorem Placed.collect (h : w.Placed) : w.collect.Placed := by
  rw [World.collect]
  split
  · exact h.same rfl rfl
  · exact h.enter.collectNow.leave

theorem Placed.retire (h : w.Placed) : w.retire.Placed := by
  rw [World.retire]
  dsimp only
  split
  · split
    · exact .serve (h.same rfl rfl)
    · exact h.same rfl rfl
  · exact h.same rfl rfl

/-! ## handing cells out -/

theorem Placed.take (h : w.Placed) (k : Kind) (n : Nat) :
    Dealt { w with heap := (w.heap.take k n).2 } k (w.heap.take k n).1.toList := by
  obtain ⟨h1, h2, h3⟩ := h.housed.take k n
  exact ⟨h.stocked.take k n, h1, fun cx j a ha => h2 j a (h.cached cx j a ha),
    fun a ha => h3 a (Array.mem_toList_iff.mp ha)⟩

theorem Placed.growCells (h : w.Placed) (k : Kind) (n : Nat) :
    (w.growCells k n).2.Dealt k (w.growCells k n).1.toList := by
  obtain ⟨h1, h2, h3⟩ := h.housed.takeOrGrow h.stocked.growing k
  obtain ⟨h4, h5, h6⟩ := h1.take k (n - 1)
  refine ⟨?_, h4, fun cx j a ha => h5 j a (h2 j a (h.cached cx j a ha)), fun a ha => ?_⟩
  · show ((w.heap.takeOrGrow k).2.take k (n - 1)).2.Stocked
      ((((w.heap.takeOrGrow k).2.take k (n - 1)).1.push (w.heap.takeOrGrow k).1).toList ++ w.cached)
    rw [Array.toList_push, List.append_assoc]
    exact (h.stocked.takeOrGrow k).take k (n - 1)
  · rcases Array.mem_push.mp (Array.mem_toList_iff.mp ha) with ha | rfl
    · exact h6 a ha
    · exact h5 k _ h3

/-- **Cells of a type can always be had**: each is a free cell of the pool that is in no list any more. -/
theorem Placed.cellsOf (h : w.Placed) (k : Kind) (n : Nat) :
    (w.cellsOf k n).2.Dealt k (w.cellsOf k n).1.toList ∧ (w.cellsOf k n).1 ≠ #[] := by
  unfold World.cellsOf
  extract_lets serves u
  have hu : u.Placed := by
    unfold u
    split
    · exact h.serve
    · exact h
  dsimp only
  split
  · rename_i hne
    exact ⟨hu.take k n, by simpa using hne⟩
  · split
    · have hs : Placed { u with gate := { u.gate with needGc := true } }.serve :=
        .serve (hu.same rfl rfl)
      split
      · rename_i hne
        exact ⟨hs.take k n, by simpa using hne⟩
      · exact ⟨hs.growCells k n, Array.push_ne_empty⟩
    · have hs : Placed { u with gate := { u.gate with needGc := true } } := hu.same rfl rfl
      exact ⟨hs.growCells k n, Array.push_ne_empty⟩

/-- One collection at most runs for a refill itself, besides what was asked for before. -/
theorem collections_cellsOf_le (w : World) (k : Kind) (n : Nat) :
    (w.cellsOf k n).2.stats.collections ≤
      (if w.gate.raised && w.mayServe then w.serve else w).stats.collections + 1 := by
  have hserve (u : World) : u.serve.stats.collections ≤ u.stats.collections + 1 := by
    rw [collections_serve]
    split <;> omega
  unfold World.cellsOf
  extract_lets serves u
  dsimp only
  split
  · exact Nat.le_succ _
  · split
    · split
      · exact hserve { u with gate := { u.gate with needGc := true } }
      · exact hserve { u with gate := { u.gate with needGc := true } }
    · exact Nat.le_succ u.stats.collections

/-! ## making objects -/

/-- A cell that went into the cache, or out of it, belongs to its pool. -/
theorem Dealt.modifyCache (h : w.Dealt k cells) (hcx : cx < w.contexts.size)
    {f : Context → Context} {g : Array Addr → Array Addr} {out : List Addr}
    (hf : (f (w.ctx cx)).cache = (w.ctx cx).cache.modify k g)
    (hstock : w.heap.Stocked (out ++ (w.modifyCtx cx f).cached))
    (hg : ∀ a ∈ g ((w.ctx cx).cache.of k), a ∈ (w.ctx cx).cache.of k ∨ a ∈ cells)
    (hout : ∀ a ∈ out, a ∈ (w.ctx cx).cache.of k ∨ a ∈ cells) : (w.modifyCtx cx f).Dealt k out := by
  have howned {a : Addr} (ha : a ∈ (w.ctx cx).cache.of k ∨ a ∈ cells) : a ∈ (w.heap.pool k).owned :=
    ha.elim (h.cached cx k a) (h.owned a)
  refine ⟨hstock, h.housed, fun other j a ha => ?_, fun a ha => howned (hout a ha)⟩
  by_cases ho : cx = other
  · subst ho
    rw [ctx_modifyCtx_self hcx, hf] at ha
    by_cases hkj : k = j
    · subst hkj
      rw [PerKind.of_modify_self] at ha
      exact howned (hg a ha)
    · rw [PerKind.of_modify_of_ne _ _ hkj] at ha
      exact h.cached cx j a ha
  · rw [ctx_modifyCtx_of_ne ho] at ha
    exact h.cached other j a ha

/-- All but the last of some cells go into the cache of a context. -/
theorem Dealt.stow {cells : Array Addr} (h : w.Dealt k cells.toList) (cx : CtxId) (n : Nat)
    (ha : cells.back? = some a) : (w.stow cx k n cells).Dealt k [a] := by
  by_cases hcx : cx < w.contexts.size
  · refine h.modifyCache hcx rfl (h.stocked.subperm (cached_stow hcx k n ha).subperm)
      (fun x hx => ?_) fun x hx => ?_
    · exact (Array.mem_append.mp hx).imp_right fun hx => Array.mem_toList_iff.mpr (mem_of_mem_pop hx)
    · rw [List.mem_singleton.mp hx]
      exact .inr (Array.mem_toList_iff.mpr (Array.mem_of_back? ha))
  · rw [World.stow, modifyCtx_of_ge (Nat.le_of_not_lt hcx)]
    have hmem : a ∈ cells.toList := Array.mem_toList_iff.mpr (Array.mem_of_back? ha)
    refine ⟨h.stocked.subperm ?_, h.housed, h.cached, fun x hx => ?_⟩
    · exact ((List.singleton_sublist.mpr hmem).append_right _).subperm
    · rw [List.mem_singleton.mp hx]
      exact h.owned a hmem

theorem Placed.refill (h : w.Placed) (cx : CtxId) (k : Kind) (b : Body) :
    (w.refill cx k b).2.Dealt k [(w.refill cx k b).1] := by
  have hh : (w.hold cx b).Placed := h.modifyCtx cx (.inl rfl)
  obtain ⟨hd, hne⟩ := hh.cellsOf k (w.hold cx b).options.allocBatch
  rw [refill_eq]
  dsimp only
  generalize (w.hold cx b).cellsOf k (w.hold cx b).options.allocBatch = r at hd hne ⊢
  obtain ⟨a, ha⟩ := Option.isSome_iff_exists.mp (Array.back?_isSome.mpr hne)
  rw [ha]
  exact hd.stow cx _ ha

/-- The cell that an object is put into: one of the cache, or of a refill. -/
def obtain (w : World) (cx : CtxId) (k : Kind) (b : Body) : Addr × World :=
  match ((w.ctx cx).cache.of k).back? with
  | some a => (a, w.modifyCtx cx fun c => { c with cache := c.cache.modify k Array.pop })
  | none => w.refill cx k b

/-- Making an object is putting it into that cell. -/
theorem alloc_eq (w : World) (cx : CtxId) (k : Kind) (b : Body) : w.alloc cx k b =
    let r := w.obtain cx k b
    (.obj r.1, World.modifyCtx { r.2 with heap := r.2.heap.install r.1 b } cx fun c =>
      { c with temps := c.temps.push (.obj r.1) }) :=
  rfl

theorem Sound.obtain {used : CtxId → Prop} (hs : w.Sound used) (hcx : cx < w.contexts.size) (k : Kind) {b : Body}
    (hb : ∀ c ∈ b.children, w.heap.Live c) : Ready used w (w.obtain cx k b).2 (w.obtain cx k b).1 b := by
  unfold World.obtain
  split
  · rename_i hback
    exact hs.takeCached hcx hback hb
  · exact hs.refill hcx k hb

theorem Placed.obtain (h : w.Placed) (cx : CtxId) (k : Kind) (b : Body) :
    (w.obtain cx k b).2.Dealt k [(w.obtain cx k b).1] := by
  unfold World.obtain
  cases ha : ((w.ctx cx).cache.of k).back? with
  | none => exact h.refill cx k b
  | some a =>
    have hcx := lt_of_cached (Array.mem_of_back? ha)
    refine (h.dealt k).modifyCache hcx rfl (h.stocked.subperm (cached_pop hcx ha).subperm)
      (fun x hx => .inl (mem_of_mem_pop hx)) fun x hx => ?_
    rw [List.mem_singleton.mp hx]
    exact .inl (Array.mem_of_back? ha)

/-- A cell that has been handed out is free and in no list. -/
theorem Dealt.unlisted (h : w.Dealt k [a]) : a < w.heap.cells.size ∧ w.heap.body a = .free ∧
    (∀ j, a ∉ (w.heap.pool j).free) ∧ ∀ cx j, a ∉ (w.ctx cx).cache.of j := by
  obtain ⟨hlt, hf⟩ := h.stocked.idle a (List.mem_append_left _ (List.mem_append_left _ List.mem_cons_self))
  have hnot : a ∉ w.cached ++ w.heap.spares := (List.nodup_cons.mp h.stocked.nodup).1
  refine ⟨hlt, hf, fun j hj => hnot (List.mem_append_right _ ?_),
    fun cx j hj => hnot (List.mem_append_left _ ?_)⟩
  · exact List.mem_flatMap.mpr ⟨j, Kind.mem_all j, Array.mem_toList_iff.mpr hj⟩
  · exact mem_cached hj

/-- Putting an object of its type into a cell that has been handed out. -/
theorem Dealt.install (h : w.Dealt k [a]) {b : Body} (hb : b.kind? = some k) :
    Placed { w with heap := w.heap.install a b } :=
  ⟨h.stocked.install b, h.housed.install h.stocked.laid (h.owned a List.mem_cons_self) hb, h.cached⟩

theorem Placed.alloc (h : w.Placed) (cx : CtxId) {k : Kind} {b : Body} (hb : b.kind? = some k) :
    (w.alloc cx k b).2.Placed := by
  rw [alloc_eq]
  exact ((h.obtain cx k b).install hb).modifyCtx cx (.inl rfl)

theorem Placed.intern (h : w.Placed) (name : Bytes) :
    Placed { w with heap := (w.heap.intern name).2 } := by
  obtain ⟨h1, h2⟩ := h.housed.intern h.stocked name
  exact ⟨(h.stocked.intern name).stocked, h1, fun cx j a ha => h2 j a (h.cached cx j a ha)⟩

/-- Changing an object to another one of its type. -/
theorem Placed.edit (h : w.Placed) (a : Addr) {f : Body → Body}
    (hf : (f (w.heap.body a)).kind? = (w.heap.body a).kind?) :
    Placed { w with heap := w.heap.modify a f } :=
  ⟨h.stocked.edit a hf, h.housed.modify a hf, h.cached⟩

/-! ## places -/

/-- Where a cell of a pool can be. -/
inductive Spot where
  /-- On the free list of the pool. -/
  | listed
  | cached (cx : CtxId)
  | object
  /-- Free and in no list, until the next sweep. -/
  | idle

/-- A cell is on no free list and in no cache. -/
def Unlisted (w : World) (a : Addr) : Prop :=
  (∀ j, a ∉ (w.heap.pool j).free) ∧ ∀ cx j, a ∉ (w.ctx cx).cache.of j

/-- A cell of the pool of type `k` is at a place. -/
def Occupies (w : World) (k : Kind) (a : Addr) : Spot → Prop
  | .listed => a ∈ (w.heap.pool k).free
  | .cached cx => a ∈ (w.ctx cx).cache.of k
  | .object => (w.heap.body a).kind? = some k
  | .idle => w.heap.body a = .free ∧ w.Unlisted a

namespace Placed

theorem free_listed (h : w.Placed) (ha : a ∈ (w.heap.pool k).free) :
    w.heap.body a = .free ∧ ∀ cx j, a ∉ (w.ctx cx).cache.of j := by
  have hspare : a ∈ w.heap.spares :=
    List.mem_flatMap.mpr ⟨k, Kind.mem_all k, Array.mem_toList_iff.mpr ha⟩
  refine ⟨(h.stocked.idle a (List.mem_append_right _ hspare)).2, fun cx j hj => ?_⟩
  exact (List.nodup_append.mp h.stocked.nodup).2.2 a (mem_cached hj) a hspare rfl

theorem free_cached (h : w.Placed) (ha : a ∈ (w.ctx cx).cache.of k) : w.heap.body a = .free :=
  (h.stocked.idle a (List.mem_append_left _ (mem_cached ha))).2

/-- No two contexts have a cell in their caches. -/
theorem cache_unique (h : w.Placed) {cy : CtxId} (hx : a ∈ (w.ctx cx).cache.of k)
    (hy : a ∈ (w.ctx cy).cache.of k) : cx = cy := by
  have hpair := (List.nodup_flatMap.mp (List.nodup_append.mp h.stocked.nodup).1).2
  have hmem {c : CtxId} (hc : a ∈ (w.ctx c).cache.of k) : ∃ hlt : c < w.contexts.toList.length,
      a ∈ (w.contexts.toList[c]).cached := by
    have hlt := lt_of_cached hc
    rw [ctx_of_lt hlt] at hc
    exact ⟨by simpa using hlt,
      List.mem_flatMap.mpr ⟨k, Kind.mem_all k, Array.mem_toList_iff.mpr (by simpa using hc)⟩⟩
  obtain ⟨hltx, hax⟩ := hmem hx
  obtain ⟨hlty, hay⟩ := hmem hy
  rw [List.pairwise_iff_getElem] at hpair
  rcases Nat.lt_trichotomy cx cy with hlt | e | hlt
  · exact absurd hay (hpair cx cy hltx hlty hlt hax)
  · exact e
  · exact absurd hax (hpair cy cx hlty hltx hlt hay)

theorem nodup_cache (h : w.Placed) (cx : CtxId) (k : Kind) :
    ((w.ctx cx).cache.of k).toList.Nodup := by
  by_cases hcx : cx < w.contexts.size
  · have hall := (List.nodup_flatMap.mp (List.nodup_append.mp h.stocked.nodup).1).1 (w.ctx cx)
      (by rw [ctx_of_lt hcx]; exact Array.mem_toList_iff.mpr (Array.getElem_mem hcx))
    exact (List.nodup_flatMap.mp hall).1 k (Kind.mem_all k)
  · rw [ctx_of_ge (Nat.le_of_not_lt hcx), PerKind.of, Fin.getElem_fin, Vector.getElem_replicate]
    exact List.nodup_nil

theorem nodup_free (h : w.Placed) (k : Kind) : (w.heap.pool k).free.toList.Nodup :=
  (List.nodup_flatMap.mp (List.nodup_append.mp h.stocked.nodup).2.1).1 k (Kind.mem_all k)

theorem spot_eq (h : w.Placed) {s t : Spot} (hs : w.Occupies k a s) (ht : w.Occupies k a t) :
    s = t := by
  have hobject {b : Body} (hb : b.kind? = some k) : b ≠ .free := by
    rintro rfl
    exact nomatch hb
  cases s with
  | listed =>
    obtain ⟨hf, hc⟩ := h.free_listed hs
    cases t with
    | listed => rfl
    | cached cx => exact absurd ht (hc cx k)
    | object => exact absurd hf (hobject ht)
    | idle => exact absurd hs (ht.2.1 k)
  | cached cx =>
    have hf := h.free_cached hs
    cases t with
    | listed => exact absurd hs ((h.free_listed ht).2 cx k)
    | cached cy => rw [h.cache_unique hs ht]
    | object => exact absurd hf (hobject ht)
    | idle => exact absurd hs (ht.2.2 cx k)
  | object =>
    have hne := hobject hs
    cases t with
    | listed => exact absurd (h.free_listed ht).1 hne
    | cached cx => exact absurd (h.free_cached ht) hne
    | object => rfl
    | idle => exact absurd ht.1 hne
  | idle =>
    cases t with
    | listed => exact absurd ht (hs.2.1 k)
    | cached cx => exact absurd ht (hs.2.2 cx k)
    | object => exact absurd hs.1 (hobject ht)
    | idle => rfl

/-- **Each cell of a pool is in one place.** -/
theorem spot_unique (h : w.Placed) (ha : a ∈ (w.heap.pool k).owned) : ∃! s, w.Occupies k a s := by
  refine existsUnique_of_exists_of_unique ?_ fun s t => h.spot_eq
  by_cases hf : w.heap.body a = .free
  · by_cases hl : a ∈ (w.heap.pool k).free
    · exact ⟨.listed, hl⟩
    · by_cases hc : ∃ cx, a ∈ (w.ctx cx).cache.of k
      · exact hc.elim fun cx hcx => ⟨.cached cx, hcx⟩
      · -- it is in no list of another type either, since it belongs to this pool
        refine ⟨.idle, hf, fun j hj => ?_, fun cx j hj => ?_⟩
        · rw [h.stocked.laid.owner_unique (h.housed.free j a hj) ha] at hj
          exact hl hj
        · rw [h.stocked.laid.owner_unique (h.cached cx j a hj) ha] at hj
          exact hc ⟨cx, hj⟩
  · exact ⟨.object, h.housed.typed k a ha hf⟩

end Placed

/-! ## any sequence -/

/-- What can happen to the cells of an engine. -/
inductive Supply where
  | alloc (cx : CtxId) (k : Kind) (b : Body) (hb : b.kind? = some k)
  | intern (name : Bytes)
  /-- A place where a collection may run, or one that is asked for. -/
  | pass (p : Passage) (hp : ∀ next, p ≠ .work next)
  | newContext
  | subContext (cx : CtxId)
  | freeChild (cx : CtxId)
  | freeContext (cx : CtxId)
  /-- Another object of the same type in a cell. -/
  | edit (a : Addr) (f : Body → Body) (hf : ∀ b, (f b).kind? = b.kind?)
  /-- A change of a context other than of its cache. -/
  | touch (cx : CtxId) (f : Context → Context) (hf : ∀ c, (f c).cache = c.cache)
  | pins (roots : Array Value) (saved : Array (Option Value))

def Supply.act : Supply → World → World
  | alloc cx k b _, w => (w.alloc cx k b).2
  | intern name, w => { w with heap := (w.heap.intern name).2 }
  | pass p _, w => p.act w
  | newContext, w => w.newContext.2
  | subContext cx, w => after ((Act.subContext cx).run w)
  | freeChild cx, w => after ((Act.freeChild cx).run w)
  | freeContext cx, w => w.freeContext cx
  | edit a f _, w => { w with heap := w.heap.modify a f }
  | touch cx f _, w => w.modifyCtx cx f
  | pins roots saved, w => { w with roots, saved }

def supply (w : World) (ops : List Supply) : World := ops.foldl (fun w op => op.act w) w

theorem Placed.freeChild (h : w.Placed) (cx : CtxId) :
    ∃ w', (Act.freeChild cx).run w = .ok () w' ∧ w'.Placed := by
  cases hd : (w.ctx cx).child with
  | none =>
    refine ⟨w, ?_, h⟩
    rw [Act.freeChild, Act.run_ctx_bind]
    rw [hd]
    rfl
  | some d =>
    have hun : (w.modifyCtx cx fun c => { c with child := none }).Placed := h.modifyCtx cx (.inl rfl)
    refine ⟨World.freeContext (w.modifyCtx cx fun c => { c with child := none }) d, ?_,
      hun.freeChain _ (some d)⟩
    rw [Act.freeChild, Act.run_ctx_bind]
    rw [hd]
    rfl

theorem Placed.subContext (h : w.Placed) (cx : CtxId) : (after ((Act.subContext cx).run w)).Placed := by
  unfold Act.subContext
  show (after (EStateM.run (ite _ _ _) w)).Placed
  split
  · exact h
  · obtain ⟨w', hrun, h'⟩ := h.freeChild cx
    rw [run_bind_of_ok hrun]
    exact (h'.newContext.modifyCtx _ (.inl rfl)).modifyCtx cx (.inl rfl)

/-- A step: whatever happens, all cells are where they belong. -/
theorem Placed.act (h : w.Placed) (op : Supply) : (op.act w).Placed := by
  cases op with
  | alloc cx k b hb => exact h.alloc cx hb
  | intern name => exact h.intern name
  | pass p hp =>
    cases p with
    | enter => exact h.enter
    | leave => exact h.leave
    | poll => exact h.poll
    | refill cx k b => exact (h.refill cx k b).placed
    | retire => exact h.retire
    | collectNow => exact h.collectNow
    | collect => exact h.collect
    | work next => exact absurd rfl (hp next)
  | newContext => exact h.newContext
  | subContext cx => exact h.subContext cx
  | freeChild cx =>
    obtain ⟨w', hrun, h'⟩ := h.freeChild cx
    show (after ((Act.freeChild cx).run w)).Placed
    rw [hrun]
    exact h'
  | freeContext cx => exact h.freeChain _ (some cx)
  | edit a f hf => exact h.edit a (hf _)
  | touch cx f hf => exact h.modifyCtx cx (.inl (hf _))
  | pins roots saved => exact h.same rfl rfl

theorem Placed.supply (h : w.Placed) (ops : List Supply) : (w.supply ops).Placed := by
  induction ops generalizing w with
  | nil => exact h
  | cons op ops ih => exact ih (h.act op)

theorem placed_new (options : Options) : (World.new options).Placed := by
  have hbare : Placed
      { options, heap := .new options.poolBlock, symMe := 0, symArg := 0, symParents := 0 } := by
    refine ⟨(Heap.stocked_new _).1, Heap.housed_new _, fun cx j a ha => ?_⟩
    exact absurd (lt_of_cached ha) (Nat.not_lt_zero cx)
  have hnames := ((hbare.intern (Bytes.ofString "me")).intern (Bytes.ofString "arg")).intern
    (Bytes.ofString "parents")
  exact hnames.same rfl rfl

/-- A pool hands out a cell for a name that has no string yet. -/
theorem Placed.takeOrGrow (h : w.Placed) (k : Kind) :
    Dealt { w with heap := (w.heap.takeOrGrow k).2 } k [(w.heap.takeOrGrow k).1] := by
  obtain ⟨h1, h2, h3⟩ := h.housed.takeOrGrow h.stocked.growing k
  refine ⟨h.stocked.takeOrGrow k, h1, fun cx j a ha => h2 j a (h.cached cx j a ha), fun a ha => ?_⟩
  rw [List.mem_singleton.mp ha]
  exact h3

/-- The order among the cells of an engine. -/
structure Orderly (w : World) : Prop where
  /-- Each cell belongs to one pool and is in one place there. -/
  owner : ∀ j k, ∀ a ∈ (w.heap.pool j).owned, a ∈ (w.heap.pool k).owned → j = k
  place : ∀ k, ∀ a ∈ (w.heap.pool k).owned, ∃! s, w.Occupies k a s
  nodup_free : ∀ k, (w.heap.pool k).free.toList.Nodup
  nodup_cache : ∀ cx k, ((w.ctx cx).cache.of k).toList.Nodup
  /-- The next sweep lists the idle cells. -/
  swept : ∀ k, ∀ a ∈ (w.collectGarbage.heap.pool k).owned, ¬w.collectGarbage.Occupies k a .idle
  /-- An object is put into a free cell of its type, which is in no list afterwards. -/
  alloc : ∀ cx k b, b.kind? = some k →
    let (a, u) := w.obtain cx k b
    a ∈ (u.heap.pool k).owned ∧ u.heap.body a = .free ∧
    w.alloc cx k b = (.obj a, World.modifyCtx { u with heap := u.heap.install a b } cx fun c =>
      { c with temps := c.temps.push (.obj a) }) ∧
    (w.alloc cx k b).2.Unlisted a ∧ (w.alloc cx k b).2.heap.body a = b
  intern : ∀ name, w.heap.symbols[name]? = none →
    let (a, h) := w.heap.takeOrGrow .str
    a ∈ (h.pool .str).owned ∧ h.body a = .free ∧
    w.heap.intern name = (a, { h.install a (.str (.ofName name)) with
      symbols := h.symbols.insert name a }) ∧
    Unlisted { w with heap := (w.heap.intern name).2 } a ∧
    (w.heap.intern name).2.body a = .str (.ofName name)
  /-- A refill gives at least one cell, and collects once at most for that. -/
  refill : ∀ k n,
    let (cells, u) := w.cellsOf k n
    cells ≠ #[] ∧ cells.toList.Nodup ∧
    (∀ a ∈ cells, a ∈ (u.heap.pool k).owned ∧ u.heap.body a = .free ∧ u.Unlisted a) ∧
    u.stats.collections
      ≤ (if w.gate.raised && w.mayServe then w.serve else w).stats.collections + 1

theorem cache_modifyCtx (w : World) (cx : CtxId) {f : Context → Context}
    (hf : ∀ c, (f c).cache = c.cache) (other : CtxId) :
    ((w.modifyCtx cx f).ctx other).cache = (w.ctx other).cache := by
  by_cases hcx : cx < w.contexts.size
  · by_cases ho : cx = other
    · subst ho
      rw [ctx_modifyCtx_self hcx, hf]
    · rw [ctx_modifyCtx_of_ne ho]
  · rw [modifyCtx_of_ge (Nat.le_of_not_lt hcx)]

theorem Placed.orderly (h : w.Placed) : w.Orderly where
  owner j k a hj hk := h.stocked.laid.owner_unique hj hk
  place k a ha := h.spot_unique ha
  nodup_free := h.nodup_free
  nodup_cache := h.nodup_cache
  swept k a ha hidle := by
    have hc := collected h.stocked.laid h.stocked.clear
    exact hidle.2.1 k (hc.mem_free.mpr ⟨ha, hidle.1⟩)
  alloc cx k b hb := by
    have hd := h.obtain cx k b
    have heq := alloc_eq w cx k b
    generalize w.obtain cx k b = r at hd heq ⊢
    obtain ⟨a, u⟩ := r
    obtain ⟨hlt, hf, hfree, hcache⟩ := hd.unlisted
    refine ⟨hd.owned a List.mem_cons_self, hf, heq, ?_, ?_⟩
    · rw [heq]
      refine ⟨hfree, fun cy j ha => hcache cy j ?_⟩
      have hcy := cache_modifyCtx { u with heap := u.heap.install a b } cx
        (f := fun c => { c with temps := c.temps.push (.obj a) }) (fun _ => rfl) cy
      exact hcy ▸ ha
    · rw [heq]
      exact (Heap.body_install u.heap hlt b a).trans (if_pos rfl)
  intern name hn := by
    have hd := h.takeOrGrow .str
    have heq : w.heap.intern name = ((w.heap.takeOrGrow .str).1,
        { (w.heap.takeOrGrow .str).2.install (w.heap.takeOrGrow .str).1 (.str (.ofName name)) with
          symbols := (w.heap.takeOrGrow .str).2.symbols.insert name (w.heap.takeOrGrow .str).1 }) := by
      rw [Heap.intern, hn]
      rfl
    generalize w.heap.takeOrGrow .str = r at hd heq ⊢
    obtain ⟨a, g⟩ := r
    obtain ⟨hlt, hf, hfree, hcache⟩ := hd.unlisted
    refine ⟨hd.owned a List.mem_cons_self, hf, heq, ?_, ?_⟩
    · rw [heq]
      exact ⟨hfree, hcache⟩
    · rw [heq]
      exact (Heap.body_install g hlt _ a).trans (if_pos rfl)
  refill k n := by
    obtain ⟨hd, hne⟩ := h.cellsOf k n
    have hle := collections_cellsOf_le w k n
    generalize w.cellsOf k n = r at hd hne hle ⊢
    obtain ⟨cells, u⟩ := r
    have hnodup := List.nodup_append.mp (List.nodup_append.mp hd.stocked.nodup).1
    refine ⟨hne, hnodup.1, fun a ha => ?_, hle⟩
    have ha : a ∈ cells.toList := Array.mem_toList_iff.mpr ha
    have hone : u.Dealt k [a] :=
      ⟨hd.stocked.subperm ((List.singleton_sublist.mpr ha).append_right _).subperm, hd.housed,
        hd.cached, fun x hx => List.mem_singleton.mp hx ▸ hd.owned a ha⟩
    obtain ⟨-, hf, hun⟩ := hone.unlisted
    exact ⟨hd.owned a ha, hf, hun⟩

/-- **The cells of an engine stay in order.**  Whatever is allocated in whichever contexts, interned,
collected, made, freed and changed, and however large blocks and refills are: each cell is in one place,
lists hold no cell twice, and what is handed out is free and in no list any more. -/
theorem orderly_of_supply (options : Options) (ops : List Supply) :
    ((World.new options).supply ops).Orderly :=
  ((placed_new options).supply ops).orderly

end ScriptEngine.World
