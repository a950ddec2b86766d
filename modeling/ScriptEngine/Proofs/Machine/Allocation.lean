import ScriptEngine.Proofs.Machine.Keeping

/-!
# Making objects

A context makes an object in a cell of its cache and refills the cache from the pools, which may
collect.  What the object refers to need only be live for that: while the cache is refilled it is a
root.

* `World.Sound.cellsOf`   free cells of a pool;
* `World.Sound.alloc`     a fresh object, which its context keeps;
* `World.Sound.intern`    the string of a name, which is always kept.
-/

namespace ScriptEngine.World

variable {used : CtxId → Prop} {w : World}

/-! ## cells -/

/-- Cells have been handed out on the way from `w` to `w'`, and nothing but caches was dropped. -/
structure Handed (used : CtxId → Prop) (w w' : World) (cells : Array Addr) : Prop where
  sound : w'.Sound used
  later : w.Extends w'
  intact : w.Intact w'
  temps : ∀ cx, (w'.ctx cx).temps = (w.ctx cx).temps
  some : cells ≠ #[]
  stocked : w'.heap.Stocked (cells.toList ++ w'.cached)

theorem Sound.handOut (hs : w.Sound used) {h : Heap} {cells : Array Addr}
    (hstock : h.Stocked (cells.toList ++ w.cached)) (hbody : ∀ a, h.body a = w.heap.body a)
    (hsym : h.symbols = w.heap.symbols) (hne : cells ≠ #[]) :
    Handed used w { w with heap := h } cells := by
  obtain ⟨h1, h2⟩ := hs.withHeap
    (hstock.subperm (List.sublist_append_right _ _).subperm)
    (fun _ hv => hv.congr hbody) (fun b _ _ => hbody b) hsym
  exact ⟨h1, h2, ⟨hsym, fun b _ => hbody b⟩, fun _ => rfl, hne, hstock⟩

theorem Sound.take (hs : w.Sound used) (k : Kind) (n : Nat) (hne : (w.heap.take k n).1 ≠ #[]) :
    Handed used w { w with heap := (w.heap.take k n).2 } (w.heap.take k n).1 :=
  hs.handOut (hs.stocked.take k n) (fun _ => rfl) rfl hne

theorem Sound.growCells (hs : w.Sound used) (k : Kind) (n : Nat) :
    Handed used w (w.growCells k n).2 (w.growCells k n).1 := by
  refine hs.handOut ?_ (fun a => (Heap.body_takeOrGrow w.heap k a).1) (Heap.body_takeOrGrow w.heap k 0).2
    Array.push_ne_empty
  show ((w.heap.takeOrGrow k).2.take k (n - 1)).2.Stocked
    ((((w.heap.takeOrGrow k).2.take k (n - 1)).1.push (w.heap.takeOrGrow k).1).toList ++ w.cached)
  rw [Array.toList_push, List.append_assoc]
  exact (hs.stocked.takeOrGrow k).take k (n - 1)

theorem temps_serve (w : World) (cx : CtxId) : (w.serve.ctx cx).temps = (w.ctx cx).temps := by
  rw [World.serve]
  dsimp only
  split
  · show (w.freeDead.collectGarbage.ctx cx).temps = _
    rw [ctx_dropCache]
    rfl
  · rfl

theorem Handed.after {w' w'' : World} {cells : Array Addr} (hh : Handed used w' w'' cells)
    (he : w.Extends w') (hi : w.Intact w')
    (ht : ∀ cx, (w'.ctx cx).temps = (w.ctx cx).temps) : Handed used w w'' cells where
  sound := hh.sound
  later := he.trans hh.later
  intact := hi.trans he hh.intact
  temps cx := (hh.temps cx).trans (ht cx)
  some := hh.some
  stocked := hh.stocked

/-- Free cells of a type; at least one, since pools grow. -/
theorem Sound.cellsOf (hs : w.Sound used) (k : Kind) (n : Nat) :
    Handed used w (w.cellsOf k n).2 (w.cellsOf k n).1 := by
  have hwanted (u : World) : u.Same { u with gate := { u.gate with needGc := true } } := by
    constructor <;> rfl
  -- what was asked for before is served first
  obtain ⟨w₁, hw₁, h1, h2, hi, h3⟩ : ∃ w₁, w₁ = (if w.gate.raised && w.mayServe then w.serve else w) ∧
      w₁.Sound used ∧ w.Extends w₁ ∧ w.Intact w₁ ∧ ∀ cx, (w₁.ctx cx).temps = (w.ctx cx).temps := by
    refine ⟨_, rfl, ?_⟩
    split
    · exact ⟨hs.serve.1, hs.serve.2, hs.intact_serve, temps_serve w⟩
    · exact ⟨hs, .refl w, .refl w, fun _ => rfl⟩
  rw [World.cellsOf]
  dsimp only
  rw [← hw₁]
  split
  · rename_i hne
    exact (h1.take k n (by simpa using hne)).after h2 hi h3
  · have hi₁ : w.Intact { w₁ with gate := { w₁.gate with needGc := true } } := ⟨hi.symbols, hi.body⟩
    split
    · obtain ⟨h4, h5⟩ := h1.alike_serve (hwanted w₁)
      have hi₂ := hi₁.trans (h2.trans (hwanted w₁).extends) (h1.same (hwanted w₁)).intact_serve
      have h6 (cx : CtxId) : (({ w₁ with gate := { w₁.gate with needGc := true } }.serve).ctx
          cx).temps = (w.ctx cx).temps := (temps_serve _ cx).trans (h3 cx)
      split
      · rename_i hne
        exact (h4.take k n (by simpa using hne)).after (h2.trans h5) hi₂ h6
      · exact (h4.growCells k n).after (h2.trans h5) hi₂ h6
    · have h4 := h1.same (hwanted w₁)
      exact (h4.growCells k n).after (h2.trans (hwanted w₁).extends) hi₁ h3

/-! ## objects -/

theorem cached_modify (c : Context) (k : Kind) (f : Array Addr → Array Addr) {l : List Addr}
    (h : (c.cache.of k).toList.Perm (l ++ (f (c.cache.of k)).toList)) :
    c.cached.Perm (l ++ Context.cached { c with cache := c.cache.modify k f }) := by
  refine Heap.perm_flatMap ?_ (fun j hj => ?_) (Kind.mem_all k) Kind.nodup_all
  · rwa [PerKind.of_modify_self]
  · rw [PerKind.of_modify_of_ne _ _ hj]

/-- A cell for an object: it is free and nowhere else, and what the object refers to is live. -/
structure Ready (used : CtxId → Prop) (w w' : World) (a : Addr) (b : Body) : Prop where
  sound : w'.Sound used
  later : w.Extends w'
  intact : w.Intact w'
  stocked : w'.heap.Stocked (a :: w'.cached)
  live : ∀ c ∈ b.children, w'.heap.Live c

/-- A cell that is taken from the cache of a context was in no other place. -/
theorem cached_pop {cx : CtxId} (hcx : cx < w.contexts.size) {k : Kind} {a : Addr}
    (ha : ((w.ctx cx).cache.of k).back? = some a) :
    (a :: (w.modifyCtx cx fun c => { c with cache := c.cache.modify k Array.pop }).cached).Perm
      w.cached := by
  obtain ⟨cells, hcells⟩ := Array.back?_eq_some_iff.mp ha
  have hperm : (w.ctx cx).cached.Perm
      ([a] ++ Context.cached { w.ctx cx with cache := (w.ctx cx).cache.modify k Array.pop }) := by
    refine cached_modify _ k _ ?_
    rw [hcells, Array.pop_push, Array.toList_push]
    exact List.perm_append_comm
  obtain ⟨p, q, h1, h2⟩ :=
    cached_modifyCtx hcx fun c => { c with cache := c.cache.modify k Array.pop }
  rw [h1, h2]
  refine List.Perm.trans ?_ ((hperm.symm.append_right q).append_left p)
  exact List.perm_middle.symm

/-- Taking a cell from the cache of a context. -/
theorem Sound.takeCached (hs : w.Sound used) {cx : CtxId} (hcx : cx < w.contexts.size) {k : Kind}
    {a : Addr} (ha : ((w.ctx cx).cache.of k).back? = some a) {b : Body}
    (hb : ∀ c ∈ b.children, w.heap.Live c) :
    Ready used w (w.modifyCtx cx fun c => { c with cache := c.cache.modify k Array.pop }) a b := by
  have hstock : w.heap.Stocked
      (a :: (w.modifyCtx cx fun c => { c with cache := c.cache.modify k Array.pop }).cached) :=
    hs.stocked.subperm (cached_pop hcx ha).subperm
  have hlike : (w.ctx cx).Like { w.ctx cx with cache := (w.ctx cx).cache.modify k Array.pop } :=
    ⟨rfl, fun _ hv => hv⟩
  refine ⟨hs.modifyCtx hcx ?_ ?_ (hs.linked cx) (hs.framed cx), extends_modifyCtx hcx hlike,
    ⟨rfl, fun _ _ => rfl⟩, hstock, hb⟩
  · exact fun v hv => hs.live v (mem_liveRoots.mpr (.inl ⟨cx, hv⟩))
  · exact hstock.subperm (List.sublist_cons_self _ _).subperm

/-- A context with what an object refers to among its roots. -/
def hold (w : World) (cx : CtxId) (b : Body) : World :=
  w.modifyCtx cx fun c => { c with temps := c.temps ++ b.children.toArray }

/-- A context with all but the last of some cells in its cache, and with its first `n` temporary
roots only. -/
def stow (w : World) (cx : CtxId) (k : Kind) (n : Nat) (cells : Array Addr) : World :=
  w.modifyCtx cx fun c =>
    { c with temps := c.temps.take n, cache := c.cache.modify k (· ++ cells.pop) }

theorem refill_eq (w : World) (cx : CtxId) (k : Kind) (b : Body) :
    w.refill cx k b =
      let r := (w.hold cx b).cellsOf k (w.hold cx b).options.allocBatch
      (r.1.back?.getD 0, r.2.stow cx k (w.ctx cx).temps.size r.1) := by
  unfold refill hold stow
  dsimp only

theorem Sound.hold (hs : w.Sound used) {cx : CtxId} (hcx : cx < w.contexts.size) {b : Body}
    (hb : ∀ c ∈ b.children, w.heap.Live c) :
    (w.hold cx b).Sound used ∧ w.Extends (w.hold cx b) := by
  refine ⟨hs.changeCtx hcx rfl rfl (fun v hv => ?_) fun _ g hg => .inl hg,
    extends_modifyCtx hcx ⟨rfl, fun v hv => Array.mem_append_left _ hv⟩⟩
  rw [Context.mem_roots] at hv ⊢
  rcases hv with hv | hv | hv
  · exact .inl (.inl hv)
  · rcases Array.mem_append.mp hv with hv | hv
    · exact .inl (.inr (.inl hv))
    · exact .inr (hb v (List.mem_toArray.mp hv))
  · exact .inl (.inr (.inr hv))

theorem cached_stow {cx : CtxId} (hcx : cx < w.contexts.size) (k : Kind) (n : Nat)
    {cells : Array Addr} {a : Addr} (ha : cells.back? = some a) :
    (a :: (w.stow cx k n cells).cached).Perm (cells.toList ++ w.cached) := by
  obtain ⟨rest, rfl⟩ := Array.back?_eq_some_iff.mp ha
  obtain ⟨p, q, h1, h2⟩ := cached_modifyCtx hcx fun c =>
    { c with temps := c.temps.take n, cache := c.cache.modify k (· ++ (rest.push a).pop) }
  have hperm : (Context.cached { w.ctx cx with
      temps := (w.ctx cx).temps.take n
      cache := (w.ctx cx).cache.modify k (· ++ (rest.push a).pop) }).Perm
      (rest.toList ++ (w.ctx cx).cached) := by
    refine Heap.perm_flatMap ?_ (fun j hj => ?_) (Kind.mem_all k) Kind.nodup_all
    · rw [PerKind.of_modify_self, Array.pop_push, Array.toList_append]
      exact List.perm_append_comm
    · rw [PerKind.of_modify_of_ne _ _ hj]
  rw [stow, h1, h2, Array.toList_push, List.append_assoc]
  refine List.Perm.trans ?_ List.perm_middle.symm
  refine List.Perm.cons a ?_
  refine ((hperm.append_right q).append_left p).trans ?_
  rw [List.append_assoc]
  exact List.perm_append_comm_assoc _ _ _

theorem Sound.refill (hs : w.Sound used) {cx : CtxId} (hcx : cx < w.contexts.size) (k : Kind)
    {b : Body} (hb : ∀ c ∈ b.children, w.heap.Live c) :
    Ready used w (w.refill cx k b).2 (w.refill cx k b).1 b := by
  obtain ⟨hs₁, he₁⟩ := hs.hold hcx hb
  have hh := hs₁.cellsOf k (w.hold cx b).options.allocBatch
  rw [refill_eq]
  dsimp only
  generalize (w.hold cx b).cellsOf k (w.hold cx b).options.allocBatch = r at hh ⊢
  obtain ⟨cells, w₂⟩ := r
  dsimp only at hh ⊢
  have he₂ := he₁.trans hh.later
  have hcx₂ : cx < w₂.contexts.size := he₂.size ▸ hcx
  obtain ⟨a, ha⟩ := Option.isSome_iff_exists.mp (Array.back?_isSome.mpr hh.some)
  have hstock : w₂.heap.Stocked (a :: (w₂.stow cx k (w.ctx cx).temps.size cells).cached) :=
    hh.stocked.subperm (cached_stow hcx₂ k _ ha).subperm
  have hold : (w.hold cx b).ctx cx = { w.ctx cx with
      temps := (w.ctx cx).temps ++ b.children.toArray } := ctx_modifyCtx_self hcx _
  -- the temporary roots are again those of before
  have htemps : (w₂.ctx cx).temps.take (w.ctx cx).temps.size = (w.ctx cx).temps := by
    rw [hh.temps cx, hold]
    simp
  rw [ha]
  refine ⟨?_, ?_, ⟨hh.intact.symbols, fun x hx => hh.intact.body x (he₁.kept hx)⟩, hstock, ?_⟩
  · refine hh.sound.modifyCtx hcx₂ (fun v hv => ?_)
      (hstock.subperm (List.sublist_cons_self _ _).subperm) (hh.sound.linked cx)
      (hh.sound.framed cx)
    rcases Context.mem_roots.mp hv with hv | hv | hv
    · exact hh.sound.live_kept (kept_of_stack hv)
    · have hv' : v ∈ (w.ctx cx).temps := htemps ▸ hv
      exact hh.sound.live_kept (he₂.kept (kept_of_temps hv'))
    · exact hh.sound.live_kept (kept_of_ctx cx (Context.mem_roots.mpr (.inr (.inr hv))))
  · refine ⟨(size_modifyCtx _ _ _).trans he₂.size, fun other => ?_, he₂.pinned, he₂.fixed,
      he₂.symMe, he₂.symParents, he₂.options⟩
    by_cases h : cx = other
    · subst h
      rw [stow, ctx_modifyCtx_self hcx₂, htemps, (he₂.like cx).rest]
      exact ⟨rfl, fun _ hv => hv⟩
    · rw [stow, ctx_modifyCtx_of_ne h]
      exact he₂.like other
  · intro c hc
    refine hh.sound.live_kept (hh.later.kept (kept_of_ctx cx ?_))
    rw [Context.mem_roots, hold]
    exact .inr (.inl (Array.mem_append_right _ (List.mem_toArray.mpr hc)))

/-- A fresh object with the contents `b`, which the context keeps. -/
structure Made (used : CtxId → Prop) (w w' : World) (cx : CtxId) (a : Addr) (b : Body) : Prop where
  sound : w'.Sound used
  later : w.Extends w'
  intact : w.Intact w'
  body : w'.heap.body a = b
  temps : .obj a ∈ (w'.ctx cx).temps

/-- Putting an object into a cell that is ready for it. -/
theorem Ready.made {w₁ : World} {cx : CtxId} {a : Addr} {b : Body} (hr : Ready used w w₁ a b)
    (hcx : cx < w.contexts.size) (hne : b ≠ .free) :
    Made used w ({ w₁ with heap := w₁.heap.install a b }.modifyCtx cx fun c =>
      { c with temps := c.temps.push (.obj a) }) cx a b := by
  obtain ⟨ha, hfree⟩ := hr.stocked.idle a (List.mem_append_left _ List.mem_cons_self)
  have hother (x : Addr) (hx : w₁.heap.Live (.obj x)) :
      (w₁.heap.install a b).body x = w₁.heap.body x := by
    have hxa : x ≠ a := fun e => hx.body_ne (e ▸ hfree)
    rw [Heap.body_install _ ha, if_neg hxa]
  obtain ⟨hs₂, he₂⟩ := hr.sound.withHeap (hr.stocked.install b) (fun v hv => hv.install ha hfree)
    (fun x hx _ => hother x hx) rfl
  have hlive := Heap.live_install_self ha hfree hne hr.live
  have hcx₂ : cx < { w₁ with heap := w₁.heap.install a b }.contexts.size := hr.later.size ▸ hcx
  refine ⟨?_, (hr.later.trans he₂).trans (extends_modifyCtx hcx₂ ⟨rfl, fun v hv => ?_⟩),
    ⟨hr.intact.symbols, fun x hx => ?_⟩, ?_, ?_⟩
  · refine hs₂.changeCtx hcx₂ rfl rfl (fun v hv => ?_) fun _ g hg => .inl hg
    rw [Context.mem_roots] at hv ⊢
    rcases hv with hv | hv | hv
    · exact .inl (.inl hv)
    · rcases Array.mem_push.mp hv with hv | rfl
      · exact .inl (.inr (.inl hv))
      · exact .inr hlive
    · exact .inl (.inr (.inr hv))
  · exact Array.mem_push.mpr (.inl hv)
  · exact (hother x (hr.sound.live_kept (hr.later.kept hx))).trans (hr.intact.body x hx)
  · show (w₁.heap.install a b).body a = b
    rw [Heap.body_install _ ha, if_pos rfl]
  · rw [ctx_modifyCtx_self hcx₂]
    exact Array.mem_push_self

/-- **Making an object** whose contents are live. -/
theorem Sound.alloc (hs : w.Sound used) {cx : CtxId} (hcx : cx < w.contexts.size) (k : Kind)
    {b : Body} (hne : b ≠ .free) (hb : ∀ c ∈ b.children, w.heap.Live c) :
    ∃ a, (w.alloc cx k b).1 = .obj a ∧ Made used w (w.alloc cx k b).2 cx a b := by
  unfold World.alloc
  cases hback : ((w.ctx cx).cache.of k).back? with
  | some a => exact ⟨a, rfl, (hs.takeCached hcx hback hb).made hcx hne⟩
  | none =>
    have hr := hs.refill hcx k hb
    generalize w.refill cx k b = r at hr ⊢
    exact ⟨r.1, rfl, hr.made hcx hne⟩

/-! ## names -/

theorem mem_pinned_symbol {name : Bytes} {a : Addr} (h : w.heap.symbols[name]? = some a) :
    .obj a ∈ w.pinned := by
  refine List.mem_append_left _ (List.mem_append_right _ (List.mem_map.mpr ⟨(name, a), ?_, rfl⟩))
  exact Std.HashMap.mem_toList_iff_getElem?_eq_some.mpr h

theorem mem_pinned_symbols {h : Heap} {v : Value} (hv : v ∈ { w with heap := h }.pinned) :
    v ∈ w.pinned ∨ ∃ (name : Bytes) (a : Addr), h.symbols[name]? = some a ∧ v = .obj a := by
  simp only [pinned, List.mem_append, List.mem_map] at hv ⊢
  rcases hv with ((hv | hv) | ⟨⟨name, a⟩, hm, rfl⟩) | hv
  · exact .inl (.inl (.inl (.inl hv)))
  · exact .inl (.inl (.inl (.inr hv)))
  · exact .inr ⟨name, a, Std.HashMap.mem_toList_iff_getElem?_eq_some.mp hm, rfl⟩
  · exact .inl (.inr hv)

theorem mem_pinned_mono {h : Heap}
    (hsym : ∀ (name : Bytes) (a : Addr), w.heap.symbols[name]? = some a →
      h.symbols[name]? = some a)
    {v : Value} (hv : v ∈ w.pinned) : v ∈ { w with heap := h }.pinned := by
  rcases @mem_pinned_symbols { w with heap := h } w.heap v hv with hv | ⟨name, a, hm, rfl⟩
  · exact hv
  · exact @mem_pinned_symbol { w with heap := h } name a (hsym name a hm)

/-- **The string of a name** is there at once or made now; no collection runs. -/
theorem Sound.intern (hs : w.Sound used) (name : Bytes) :
    { w with heap := (w.heap.intern name).2 }.Sound used ∧
      w.Extends { w with heap := (w.heap.intern name).2 } ∧
      .obj (w.heap.intern name).1 ∈ { w with heap := (w.heap.intern name).2 }.pinned ∧
      ∀ v, w.heap.Live v → (w.heap.intern name).2.Live v := by
  have hi := hs.stocked.intern name
  obtain ⟨h1, h2⟩ := hs.withNames hi.stocked hi.live (fun x hx _ => hi.kept x hx)
    (fun v hv => mem_pinned_mono hi.old hv) fun v hv => by
      rcases mem_pinned_symbols hv with hv | ⟨other, x, hx, rfl⟩
      · exact .inl hv
      · exact (hi.new other x hx).imp_left mem_pinned_symbol
  exact ⟨h1, h2, @mem_pinned_symbol { w with heap := (w.heap.intern name).2 } name _ hi.symbol,
    hi.live⟩

theorem sound_bare {options : Options} {h : Heap} {me arg parents : Addr} (hs : h.Stocked [])
    (hn : h.Named) (hme : h.Live (.obj me)) (harg : h.Live (.obj arg))
    (hparents : h.Live (.obj parents)) :
    World.Sound (fun _ => False)
      { options, heap := h, symMe := me, symArg := arg, symParents := parents } := by
  refine ⟨hs, fun v hv => ?_, fun _ h => h.elim, fun cx h => absurd h (by simp), fun cx child h => ?_,
    fun _ h => h.elim⟩
  · rcases mem_liveRoots.mp hv with ⟨cx, hv⟩ | hv
    · rw [ctx_of_ge (Nat.zero_le cx)] at hv
      cases hv
    · simp only [pinned, List.mem_append, List.mem_map, List.mem_cons, List.not_mem_nil,
        or_false] at hv
      rcases hv with ((hv | hv) | ⟨⟨name, a⟩, hm, rfl⟩) | rfl | rfl | rfl
      · cases hv
      · cases hv
      · exact hn name a (Std.HashMap.mem_toList_iff_getElem?_eq_some.mp hm)
      · exact hme
      · exact harg
      · exact hparents
  · rw [ctx_of_ge (Nat.zero_le cx)] at h
    cases h

/-- **A fresh engine is sound.** -/
theorem sound_new (options : Options) : (new options).Sound fun _ => False := by
  obtain ⟨hs, hn⟩ := Heap.stocked_new options.poolBlock
  have h₁ := hs.intern (Bytes.ofString "me")
  unfold new
  dsimp only
  generalize (Heap.new options.poolBlock).intern (Bytes.ofString "me") = r₁ at h₁ ⊢
  have h₂ := h₁.stocked.intern (Bytes.ofString "arg")
  generalize r₁.2.intern (Bytes.ofString "arg") = r₂ at h₂ ⊢
  have h₃ := h₂.stocked.intern (Bytes.ofString "parents")
  generalize r₂.2.intern (Bytes.ofString "parents") = r₃ at h₃ ⊢
  have hnamed := h₃.named (h₂.named (h₁.named hn))
  exact sound_bare h₃.stocked hnamed (hnamed _ _ (h₃.old _ _ (h₂.old _ _ h₁.symbol)))
    (hnamed _ _ (h₃.old _ _ h₂.symbol)) (hnamed _ _ h₃.symbol)

end ScriptEngine.World
