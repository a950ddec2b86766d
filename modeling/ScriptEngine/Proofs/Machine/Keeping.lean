import ScriptEngine.Proofs.Heap.Stock
import ScriptEngine.Proofs.Machine.Collection

/-!
# What an engine keeps while it works

An engine is sound when no root reaches a free cell and the stock of free cells is in order.
Collecting keeps it sound, and it keeps every value that a root refers to through objects that
never change; what is referred to through vectors and hashes only lives as long as it stays there.

* `World.Sound`      the invariant of an engine at work;
* `World.Kept`       the values no collection can reclaim while the roots stay;
* `World.Extends`    a later state in which all roots are still there;
* `World.Intact`     one in which kept objects are as they were;
* `World.Sound.collectGarbage`   a collection keeps an engine sound;
* `World.Sound.serve`, `World.Sound.poll`, `World.Sound.retire`   the places where one may run.
-/

namespace ScriptEngine

/-- The objects that never change: functions, closures and code. -/
def Body.Fixed : Body → Prop
  | func _ _ | closure _ _ | code _ => True
  | _ => False

/-- The function of a frame is bound to the code that the frame runs. -/
def Heap.Framed (h : Heap) (f : Frame) : Prop :=
  ∃ target scope, h.bodyOf f.func = .func target scope ∧ h.bodyOf target = .code f.code

namespace Context

/-- The free cells a context has taken. -/
def cached (c : Context) : List Addr := Kind.all.flatMap fun k => (c.cache.of k).toList

/-- A later state of a context: new objects may have been made, all else is as it was. -/
structure Like (c c' : Context) : Prop where
  rest : c' = { c with temps := c'.temps, cache := c'.cache }
  temps : ∀ v ∈ c.temps, v ∈ c'.temps

theorem Like.refl (c : Context) : c.Like c := ⟨rfl, fun _ hv => hv⟩

theorem Like.trans {c c' c'' : Context} (h : c.Like c') (h' : c'.Like c'') : c.Like c'' where
  rest := by
    rw [h'.rest, h.rest]
  temps v hv := h'.temps v (h.temps v hv)

theorem Like.stack {c c' : Context} (h : c.Like c') : c'.stack = c.stack := by rw [h.rest]

theorem Like.frames {c c' : Context} (h : c.Like c') : c'.frames = c.frames := by rw [h.rest]

theorem mem_roots {c : Context} {v : Value} :
    v ∈ c.roots ↔ v ∈ c.stack ∨ v ∈ c.temps ∨
      (∃ f ∈ c.frames, v = f.func ∨ v = f.locals ∨ v = f.closure) ∨
      ∃ e, c.error = some e ∧ v = e.value := by
  simp only [roots, List.mem_append, List.mem_flatMap, Array.mem_toList_iff, List.mem_cons,
    List.not_mem_nil, or_false, Option.mem_toList, Option.map_eq_some_iff, or_assoc,
    eq_comm (a := v)]

theorem Like.roots {c c' : Context} (h : c.Like c') {v : Value} (hv : v ∈ c.roots) :
    v ∈ c'.roots := by
  rw [mem_roots] at hv ⊢
  rw [h.stack, h.frames, show c'.error = c.error by rw [h.rest]]
  rcases hv with hv | hv | hv | hv
  · exact .inl hv
  · exact .inr (.inl (h.temps v hv))
  · exact .inr (.inr (.inl hv))
  · exact .inr (.inr (.inr hv))

end Context

namespace World

def cached (w : World) : List Addr := w.contexts.toList.flatMap Context.cached

def pinned (w : World) : List Value :=
  w.roots.toList ++ w.saved.toList.filterMap id ++ w.heap.symbols.toList.map (fun p => .obj p.2)
    ++ [.obj w.symMe, .obj w.symArg, .obj w.symParents]

theorem ctx_of_lt {w : World} {cx : CtxId} (h : cx < w.contexts.size) :
    w.ctx cx = w.contexts[cx] := by
  rw [ctx, Array.getElem?_eq_getElem h]
  rfl

theorem ctx_of_ge {w : World} {cx : CtxId} (h : w.contexts.size ≤ cx) : w.ctx cx = {} := by
  rw [ctx, Array.getElem?_eq_none h]
  rfl

/-- A new context is as one that is not there. -/
theorem ctx_push_empty (w : World) (cx : CtxId) :
    { w with contexts := w.contexts.push {} }.ctx cx = w.ctx cx := by
  rw [World.ctx, World.ctx, Array.getElem?_push]
  split
  · rename_i h
    rw [h, Array.getElem?_eq_none (Nat.le_refl _)]
    rfl
  · rfl

theorem mem_liveRoots {w : World} {v : Value} :
    v ∈ w.liveRoots ↔ (∃ cx, v ∈ (w.ctx cx).roots) ∨ v ∈ w.pinned := by
  have hctx : v ∈ w.contexts.toList.flatMap Context.roots ↔ ∃ cx, v ∈ (w.ctx cx).roots := by
    rw [List.mem_flatMap]
    constructor
    · rintro ⟨c, hc, hv⟩
      obtain ⟨cx, hcx, rfl⟩ := Array.mem_iff_getElem.mp (Array.mem_toList_iff.mp hc)
      exact ⟨cx, by rwa [ctx_of_lt hcx]⟩
    · rintro ⟨cx, hv⟩
      by_cases hcx : cx < w.contexts.size
      · rw [ctx_of_lt hcx] at hv
        exact ⟨_, Array.mem_toList_iff.mpr (Array.getElem_mem hcx), hv⟩
      · rw [ctx_of_ge (Nat.le_of_not_lt hcx)] at hv
        exact nomatch hv
  rw [liveRoots, pinned, ← hctx]
  simp only [List.mem_append, or_assoc]

/-- A value that a root refers to through objects that never change, or one that is no object. -/
inductive Kept (w : World) : Value → Prop
  | plain {v} (hv : ∀ a, v ≠ .obj a) : Kept w v
  | root {v} (hv : v ∈ w.liveRoots) : Kept w v
  | child {v b} (hb : Kept w (.obj b)) (hf : (w.heap.body b).Fixed)
    (hv : v ∈ (w.heap.body b).children) : Kept w v

/-- The stock of cells is in order, no root reaches a free cell, and the frames of the contexts
`used` run the code of their functions. -/
structure Sound (used : CtxId → Prop) (w : World) : Prop where
  stocked : w.heap.Stocked w.cached
  live : ∀ v ∈ w.liveRoots, w.heap.Live v
  known : ∀ cx, used cx → cx < w.contexts.size
  spare : ∀ cx ∈ w.freeContexts, cx < w.contexts.size
  linked : ∀ cx child, (w.ctx cx).child = some child → child < w.contexts.size
  framed : ∀ cx, used cx → ∀ f ∈ (w.ctx cx).frames, w.heap.Framed f

/-- A later state of an engine in which all roots are still there, and with them what they keep. -/
structure Extends (w w' : World) : Prop where
  size : w'.contexts.size = w.contexts.size
  like : ∀ cx, (w.ctx cx).Like (w'.ctx cx)
  pinned : ∀ v ∈ w.pinned, v ∈ w'.pinned
  fixed : ∀ b, w.Kept (.obj b) → (w.heap.body b).Fixed → w'.heap.body b = w.heap.body b
  symMe : w'.symMe = w.symMe
  symParents : w'.symParents = w.symParents
  options : w'.options = w.options

theorem Extends.refl (w : World) : w.Extends w :=
  ⟨rfl, fun _ => .refl _, fun _ hv => hv, fun _ _ _ => rfl, rfl, rfl, rfl⟩

theorem Extends.roots {w w' : World} (h : w.Extends w') {v : Value} (hv : v ∈ w.liveRoots) :
    v ∈ w'.liveRoots := by
  rcases mem_liveRoots.mp hv with ⟨cx, hv⟩ | hv
  · exact mem_liveRoots.mpr (.inl ⟨cx, (h.like cx).roots hv⟩)
  · exact mem_liveRoots.mpr (.inr (h.pinned v hv))

theorem Extends.kept {w w' : World} (h : w.Extends w') {v : Value} (hv : w.Kept v) : w'.Kept v := by
  induction hv with
  | plain hv => exact .plain hv
  | root hv => exact .root (h.roots hv)
  | child hb hf hv ih =>
    have := h.fixed _ hb hf
    exact .child ih (this ▸ hf) (this ▸ hv)

theorem Extends.trans {w w' w'' : World} (h : w.Extends w') (h' : w'.Extends w'') :
    w.Extends w'' where
  size := h'.size.trans h.size
  like cx := (h.like cx).trans (h'.like cx)
  pinned v hv := h'.pinned v (h.pinned v hv)
  fixed b hb hf := by
    have := h.fixed b hb hf
    rw [h'.fixed b (h.kept hb) (this ▸ hf), this]
  symMe := h'.symMe.trans h.symMe
  symParents := h'.symParents.trans h.symParents
  options := h'.options.trans h.options

/-- The names are those of before, and the objects that are kept are as they were. -/
structure Intact (w w' : World) : Prop where
  symbols : w'.heap.symbols = w.heap.symbols
  body : ∀ b, w.Kept (.obj b) → w'.heap.body b = w.heap.body b

theorem Intact.refl (w : World) : w.Intact w := ⟨rfl, fun _ _ => rfl⟩

theorem Intact.trans {w w' w'' : World} (h : w.Intact w') (he : w.Extends w')
    (h' : w'.Intact w'') : w.Intact w'' where
  symbols := h'.symbols.trans h.symbols
  body b hb := (h'.body b (he.kept hb)).trans (h.body b hb)

theorem ctx_modifyCtx_self {w : World} {cx : CtxId} (h : cx < w.contexts.size)
    (f : Context → Context) : (w.modifyCtx cx f).ctx cx = f (w.ctx cx) := by
  rw [ctx, modifyCtx]
  dsimp only
  rw [Array.getElem?_modify, if_pos rfl, ctx, Array.getElem?_eq_getElem h]
  rfl

theorem ctx_modifyCtx_of_ne {w : World} {cx other : CtxId} (h : cx ≠ other)
    (f : Context → Context) : (w.modifyCtx cx f).ctx other = w.ctx other := by
  rw [ctx, modifyCtx]
  dsimp only
  rw [Array.getElem?_modify, if_neg h, ctx]

theorem size_modifyCtx (w : World) (cx : CtxId) (f : Context → Context) :
    (w.modifyCtx cx f).contexts.size = w.contexts.size := Array.size_modify

/-- A field of the contexts that a change of one of them keeps. -/
theorem field_modifyCtx {w : World} {cx : CtxId} {α : Type} (g : Context → α) {f : Context → Context}
    (hf : ∀ c, g (f c) = g c) (c : CtxId) : g ((w.modifyCtx cx f).ctx c) = g (w.ctx c) := by
  by_cases hc : cx = c
  · subst hc
    by_cases hlt : cx < w.contexts.size
    · rw [ctx_modifyCtx_self hlt, hf]
    · have hge : w.contexts.size ≤ cx := Nat.le_of_not_lt hlt
      rw [ctx_of_ge (by rw [size_modifyCtx]; exact hge), ctx_of_ge hge]
  · rw [ctx_modifyCtx_of_ne hc]

/-- Changing one context moves the cached cells of no other. -/
theorem cached_modifyCtx {w : World} {cx : CtxId} (h : cx < w.contexts.size)
    (f : Context → Context) : ∃ p q, w.cached = p ++ ((w.ctx cx).cached ++ q) ∧
      (w.modifyCtx cx f).cached = p ++ ((f (w.ctx cx)).cached ++ q) := by
  refine ⟨(w.contexts.toList.take cx).flatMap Context.cached,
    (w.contexts.toList.drop (cx + 1)).flatMap Context.cached, ?_, ?_⟩
  · rw [ctx_of_lt h, cached, ← List.flatMap_cons, ← List.flatMap_append, ← Array.getElem_toList,
      ← List.drop_eq_getElem_cons, List.take_append_drop]
  · show (w.contexts.modify cx f).toList.flatMap Context.cached = _
    rw [Array.toList_modify, List.modify_eq_take_cons_drop (by simpa using h), ctx_of_lt h,
      List.flatMap_append, List.flatMap_cons, Array.getElem_toList]

theorem Kept.reaches {w : World} {v : Value} (hv : w.Kept v) {a : Addr} (ha : v = .obj a) :
    w.heap.Reaches w.liveRoots a := by
  induction hv generalizing a with
  | plain hv => exact absurd ha (hv a)
  | root hv => exact .root (ha ▸ hv)
  | child _ _ hv ih => exact .child (ih rfl) (ha ▸ hv)

theorem Sound.live_kept {used : CtxId → Prop} {w : World} (hs : w.Sound used) {v : Value}
    (hv : w.Kept v) : w.heap.Live v := by
  induction hv with
  | plain hv => exact Heap.live_of_not_obj hv
  | root hv => exact hs.live _ hv
  | child _ _ hv ih => exact ih.child hv

/-! ## states with the same heap and contexts -/

/-- Nothing but the gate, the counters and the output has changed. -/
structure Same (w w' : World) : Prop where
  heap : w'.heap = w.heap
  contexts : w'.contexts = w.contexts
  freeContexts : w'.freeContexts = w.freeContexts
  roots : w'.roots = w.roots
  saved : w'.saved = w.saved
  symMe : w'.symMe = w.symMe
  symArg : w'.symArg = w.symArg
  symParents : w'.symParents = w.symParents
  options : w'.options = w.options

section

variable {used : CtxId → Prop} {w w' : World}

theorem Same.ctx (h : w.Same w') (cx : CtxId) : w'.ctx cx = w.ctx cx := by
  rw [World.ctx, World.ctx, h.contexts]

theorem Same.pinned (h : w.Same w') : w'.pinned = w.pinned := by
  rw [World.pinned, World.pinned, h.heap, h.roots, h.saved, h.symMe, h.symArg, h.symParents]

theorem Same.liveRoots (h : w.Same w') : w'.liveRoots = w.liveRoots := by
  rw [World.liveRoots, World.liveRoots, h.heap, h.contexts, h.roots, h.saved, h.symMe, h.symArg,
    h.symParents]

theorem Sound.same (hs : w.Sound used) (h : w.Same w') : w'.Sound used where
  stocked := by
    rw [cached, h.heap, h.contexts]
    exact hs.stocked
  live v hv := by
    rw [h.heap]
    exact hs.live v (h.liveRoots ▸ hv)
  known cx hcx := h.contexts ▸ hs.known cx hcx
  spare cx hcx := h.contexts ▸ hs.spare cx (h.freeContexts ▸ hcx)
  linked cx child hc := h.contexts ▸ hs.linked cx child (h.ctx cx ▸ hc)
  framed cx hcx f hf := by
    rw [h.heap]
    exact hs.framed cx hcx f (h.ctx cx ▸ hf)

theorem same_modifyCtx {cx : CtxId} (hcx : w.contexts.size ≤ cx) (f : Context → Context) :
    w.Same (w.modifyCtx cx f) := by
  have : w.contexts.modify cx f = w.contexts := by
    refine Array.ext Array.size_modify fun i _ hi => ?_
    rw [Array.getElem_modify, if_neg]
    rintro rfl
    exact Nat.not_lt_of_le hcx hi
  exact ⟨rfl, this, rfl, rfl, rfl, rfl, rfl, rfl, rfl⟩

theorem Same.extends (h : w.Same w') : w.Extends w' where
  size := by rw [h.contexts]
  like cx := h.ctx cx ▸ .refl _
  pinned v hv := h.pinned ▸ hv
  fixed b _ _ := by rw [h.heap]
  symMe := h.symMe
  symParents := h.symParents
  options := h.options

/-! ## collecting -/

theorem ctx_dropCache (w : World) (cx : CtxId) :
    w.collectGarbage.ctx cx = (w.ctx cx).dropCache := by
  show (w.contexts.map Context.dropCache)[cx]?.getD {} = _
  rw [Array.getElem?_map, World.ctx]
  cases w.contexts[cx]? <;> rfl

theorem cached_dropCache (c : Context) : c.dropCache.cached = [] := by
  refine List.flatMap_eq_nil_iff.mpr fun k _ => ?_
  rw [Context.dropCache, PerKind.of, Fin.getElem_fin, Vector.getElem_replicate]

theorem Collected.live (hc : Collected w w') {v : Value}
    (hv : ∀ a, v = .obj a → w.heap.Reaches w.liveRoots a) (hl : w.heap.Live v) :
    w'.heap.Live v := by
  intro a ha
  have hsame : w.heap.Reaches [v] a ∧ w.heap.Reaches w.liveRoots a := by
    induction ha with
    | root ha =>
      exact ⟨.root ha, hv _ (List.mem_singleton.mp ha).symm⟩
    | child _ hx ih =>
      rw [hc.kept _ ih.2] at hx
      exact ⟨.child ih.1 hx, .child ih.2 hx⟩
  rw [hc.kept a hsame.2]
  exact hl a hsame.1

theorem Collected.stocked (hc : Collected w w') (hg : ∀ k, 0 < (w.heap.pool k).blockSize) :
    w'.heap.Stocked [] where
  laid := hc.laid
  growing k := hc.blockSize k ▸ hg k
  clear := hc.clear
  nodup := by
    refine List.nodup_flatMap.mpr ⟨fun k _ => ?_, ?_⟩
    · rw [hc.listed k]
      exact (hc.laid.owned_nodup k).filter _
    · refine Kind.nodup_all.imp fun {k j} hkj a hk hj => hkj ?_
      exact hc.laid.owner_unique (hc.mem_free.mp (Array.mem_toList_iff.mp hk)).1
        (hc.mem_free.mp (Array.mem_toList_iff.mp hj)).1
  idle a ha := by
    obtain ⟨k, -, ha⟩ := List.mem_flatMap.mp ha
    obtain ⟨howned, hf⟩ := hc.mem_free.mp (Array.mem_toList_iff.mp ha)
    exact ⟨hc.laid.owned_lt howned, hf⟩

/-- Objects that never change are found again as long as they are kept. -/
theorem Extends.bodyOf (h : w.Extends w') {v : Value} {b : Body} (hv : w.Kept v)
    (hb : w.heap.bodyOf v = b) (hf : b.Fixed) : w'.heap.bodyOf v = b := by
  cases v with
  | obj a =>
    have hb' : w.heap.body a = b := hb
    exact (h.fixed a hv (hb' ▸ hf)).trans hb
  | _ => exact hb

theorem Kept.of_bodyOf {v c : Value} {b : Body} (hv : w.Kept v) (hb : w.heap.bodyOf v = b)
    (hf : b.Fixed) (hc : c ∈ b.children) : w.Kept c := by
  cases v with
  | obj a =>
    have hb' : w.heap.body a = b := hb
    exact .child hv (hb' ▸ hf) (hb' ▸ hc)
  | _ =>
    have hb' : b = .free := hb.symm
    rw [hb'] at hf
    exact hf.elim

/-- The code of a frame is kept with the function of the frame. -/
theorem Extends.framed (h : w.Extends w') {f : Frame} (hk : w.Kept f.func)
    (hf : w.heap.Framed f) : w'.heap.Framed f := by
  obtain ⟨target, scope, h1, h2⟩ := hf
  have htarget : w.Kept target := hk.of_bodyOf h1 trivial List.mem_cons_self
  exact ⟨target, scope, h.bodyOf hk h1 trivial, h.bodyOf htarget h2 trivial⟩

theorem kept_nil : w.Kept .nil := .plain fun _ => Value.noConfusion

theorem kept_of_ctx (cx : CtxId) {v : Value} (hv : v ∈ (w.ctx cx).roots) : w.Kept v :=
  .root (mem_liveRoots.mpr (.inl ⟨cx, hv⟩))

theorem kept_of_stack {cx : CtxId} {v : Value} (hv : v ∈ (w.ctx cx).stack) : w.Kept v :=
  kept_of_ctx cx (Context.mem_roots.mpr (.inl hv))

theorem kept_of_temps {cx : CtxId} {v : Value} (hv : v ∈ (w.ctx cx).temps) : w.Kept v :=
  kept_of_ctx cx (Context.mem_roots.mpr (.inr (.inl hv)))

theorem kept_of_frame {cx : CtxId} {f : Frame} (hf : f ∈ (w.ctx cx).frames) :
    w.Kept f.func ∧ w.Kept f.locals ∧ w.Kept f.closure := by
  refine ⟨?_, ?_, ?_⟩ <;>
    refine kept_of_ctx cx (Context.mem_roots.mpr (.inr (.inr (.inl ⟨f, hf, ?_⟩))))
  · exact .inl rfl
  · exact .inr (.inl rfl)
  · exact .inr (.inr rfl)

/-- What is left to show of a later state. -/
theorem Sound.extend (hs : w.Sound used) (h : w.Extends w') (hstock : w'.heap.Stocked w'.cached)
    (hlive : ∀ v ∈ w'.liveRoots, w'.heap.Live v) (hfree : w'.freeContexts = w.freeContexts) :
    w'.Sound used where
  stocked := hstock
  live := hlive
  known cx hcx := h.size ▸ hs.known cx hcx
  spare cx hcx := h.size ▸ hs.spare cx (hfree ▸ hcx)
  linked cx child hc := by
    rw [(h.like cx).rest] at hc
    exact h.size ▸ hs.linked cx child hc
  framed cx hcx f hf := by
    rw [(h.like cx).frames] at hf
    exact h.framed (kept_of_frame hf).1 (hs.framed cx hcx f hf)

theorem liveRoots_collectGarbage (hc : Collected w w.collectGarbage) :
    w.collectGarbage.liveRoots = w.liveRoots := by
  rw [← liveRoots_dropCache w, liveRoots, liveRoots, hc.symbols]
  rfl

theorem Collected.extends (hc : Collected w w.collectGarbage) : w.Extends w.collectGarbage where
  size := Array.size_map
  like cx := by
    rw [ctx_dropCache]
    exact ⟨rfl, fun _ hv => hv⟩
  pinned v hv := by
    rw [World.pinned, hc.symbols]
    exact hv
  fixed b hb _ := hc.kept b (hb.reaches rfl)
  symMe := rfl
  symParents := rfl
  options := rfl

/-- **A collection keeps the engine sound**, and all roots with what they keep. -/
theorem Sound.collectGarbage (hs : w.Sound used) :
    w.collectGarbage.Sound used ∧ w.Extends w.collectGarbage := by
  have hc := collected hs.stocked.laid hs.stocked.clear
  refine ⟨hs.extend hc.extends ?_ ?_ rfl, hc.extends⟩
  · have hnone : w.collectGarbage.cached = [] := by
      refine List.flatMap_eq_nil_iff.mpr fun c hc => ?_
      obtain ⟨d, -, rfl⟩ := Array.mem_map.mp (Array.mem_toList_iff.mp hc)
      exact cached_dropCache d
    rw [hnone]
    exact hc.stocked hs.stocked.growing
  · intro v hv
    rw [liveRoots_collectGarbage hc] at hv
    exact hc.live (fun a e => .root (e ▸ hv)) (hs.live v hv)

/-! ## the gate -/

theorem Sound.serve (hs : w.Sound used) : w.serve.Sound used ∧ w.Extends w.serve := by
  have h1 : w.Same w.freeDead := by constructor <;> rfl
  have lower (u : World) :
      u.Same { u with gate := { u.gate with raised := false, pending := false } } := by
    constructor <;> rfl
  rw [World.serve]
  dsimp only
  split
  · obtain ⟨h2, h3⟩ := (hs.same h1).collectGarbage
    exact ⟨h2.same (lower _), h1.extends.trans (h3.trans (lower _).extends)⟩
  · exact ⟨(hs.same h1).same (lower _), h1.extends.trans (lower _).extends⟩

theorem Sound.alike (hs : w.Sound used) (h : w.Same w') : w'.Sound used ∧ w.Extends w' :=
  ⟨hs.same h, h.extends⟩

theorem Sound.alike_serve (hs : w.Sound used) (h : w.Same w') :
    w'.serve.Sound used ∧ w.Extends w'.serve := by
  obtain ⟨h2, h3⟩ := (hs.same h).serve
  exact ⟨h2, h.extends.trans h3⟩

theorem Sound.poll (hs : w.Sound used) : w.poll.Sound used ∧ w.Extends w.poll := by
  rw [World.poll]
  split
  · exact hs.serve
  · exact ⟨hs, .refl w⟩

theorem Sound.enter (hs : w.Sound used) : w.enter.Sound used ∧ w.Extends w.enter := by
  rw [World.enter]
  dsimp only
  split
  · exact hs.alike (by constructor <;> rfl)
  · split
    · exact hs.alike_serve (by constructor <;> rfl)
    · exact hs.alike (by constructor <;> rfl)

theorem Sound.leave (hs : w.Sound used) : w.leave.Sound used ∧ w.Extends w.leave := by
  have leaving (u : World) :
      u.Same { u with gate := { u.gate with threads := u.gate.threads - 1 } } := by
    constructor <;> rfl
  rw [World.leave]
  dsimp only
  split
  · exact hs.alike (by constructor <;> rfl)
  · split
    · obtain ⟨h1, h2⟩ := hs.alike_serve
        (show w.Same { w with gate := { w.gate with depth := w.gate.depth - 1 } } by
          constructor <;> rfl)
      exact ⟨h1.same (leaving _), h2.trans (leaving _).extends⟩
    · exact hs.alike (by constructor <;> rfl)

theorem Sound.retire (hs : w.Sound used) : w.retire.Sound used ∧ w.Extends w.retire := by
  rw [World.retire]
  dsimp only
  split
  · split
    · exact hs.alike_serve (by constructor <;> rfl)
    · exact hs.alike (by constructor <;> rfl)
  · exact hs.alike (by constructor <;> rfl)

/-- Serving the gate changes no object that is kept. -/
theorem Sound.intact_serve (hs : w.Sound used) : w.Intact w.serve := by
  have hd : w.Same w.freeDead := by constructor <;> rfl
  have hs' := hs.same hd
  have hc := collected hs'.stocked.laid hs'.stocked.clear
  rw [World.serve]
  dsimp only
  split
  · exact ⟨hc.symbols, fun b hb => hc.kept b ((hd.extends.kept hb).reaches rfl)⟩
  · exact ⟨rfl, fun _ _ => rfl⟩

theorem Sound.body_retire (hs : w.Sound used) {b : Addr} (hb : w.Kept (.obj b)) :
    w.retire.heap.body b = w.heap.body b := by
  have hd : w.Same { w with dead := w.dead + 1 } := by constructor <;> rfl
  rw [World.retire]
  dsimp only
  split
  · split
    · exact (hs.same hd).intact_serve.body b (hd.extends.kept hb)
    · rfl
  · rfl

/-! ## changing a context -/

theorem Sound.modifyCtx (hs : w.Sound used) {cx : CtxId} (hcx : cx < w.contexts.size)
    {f : Context → Context} (hroots : ∀ v ∈ (f (w.ctx cx)).roots, w.heap.Live v)
    (hstock : w.heap.Stocked (w.modifyCtx cx f).cached)
    (hlink : ∀ child, (f (w.ctx cx)).child = some child → child < w.contexts.size)
    (hframes : used cx → ∀ g ∈ (f (w.ctx cx)).frames, w.heap.Framed g) :
    (w.modifyCtx cx f).Sound used where
  stocked := hstock
  live v hv := by
    rcases mem_liveRoots.mp hv with ⟨other, hv⟩ | hv
    · by_cases h : cx = other
      · subst h
        rw [ctx_modifyCtx_self hcx] at hv
        exact hroots v hv
      · rw [ctx_modifyCtx_of_ne h] at hv
        exact hs.live v (mem_liveRoots.mpr (.inl ⟨other, hv⟩))
    · exact hs.live v (mem_liveRoots.mpr (.inr hv))
  known other h := size_modifyCtx w cx f ▸ hs.known other h
  spare other h := size_modifyCtx w cx f ▸ hs.spare other h
  linked other child hc := by
    rw [size_modifyCtx]
    by_cases h : cx = other
    · subst h
      rw [ctx_modifyCtx_self hcx] at hc
      exact hlink child hc
    · rw [ctx_modifyCtx_of_ne h] at hc
      exact hs.linked other child hc
  framed other hu g hg := by
    by_cases h : cx = other
    · subst h
      rw [ctx_modifyCtx_self hcx] at hg
      exact hframes hu g hg
    · rw [ctx_modifyCtx_of_ne h] at hg
      exact hs.framed other hu g hg

theorem cached_modifyCtx_of_cache {cx : CtxId} (hcx : cx < w.contexts.size)
    {f : Context → Context} (hc : (f (w.ctx cx)).cache = (w.ctx cx).cache) :
    (w.modifyCtx cx f).cached = w.cached := by
  obtain ⟨p, q, h1, h2⟩ := cached_modifyCtx hcx f
  rw [h1, h2, Context.cached, hc]
  rfl

/-- A change of a context other than of its cache and its child. -/
theorem Sound.changeCtx (hs : w.Sound used) {cx : CtxId} (hcx : cx < w.contexts.size)
    {f : Context → Context} (hcache : (f (w.ctx cx)).cache = (w.ctx cx).cache)
    (hchild : (f (w.ctx cx)).child = (w.ctx cx).child)
    (hroots : ∀ v ∈ (f (w.ctx cx)).roots, v ∈ (w.ctx cx).roots ∨ w.heap.Live v)
    (hframes : used cx → ∀ g ∈ (f (w.ctx cx)).frames, g ∈ (w.ctx cx).frames ∨ w.heap.Framed g) :
    (w.modifyCtx cx f).Sound used := by
  refine hs.modifyCtx hcx (fun v hv => ?_) ?_ (fun child hc => ?_) fun hu g hg => ?_
  · exact (hroots v hv).elim (fun h => hs.live_kept (kept_of_ctx cx h)) fun h => h
  · rw [cached_modifyCtx_of_cache hcx hcache]
    exact hs.stocked
  · exact hs.linked cx child (hchild ▸ hc)
  · exact (hframes hu g hg).elim (hs.framed cx hu g) fun h => h

theorem extends_modifyCtx {cx : CtxId} (hcx : cx < w.contexts.size) {f : Context → Context}
    (hlike : (w.ctx cx).Like (f (w.ctx cx))) : w.Extends (w.modifyCtx cx f) where
  size := size_modifyCtx w cx f
  like other := by
    by_cases h : cx = other
    · subst h
      rw [ctx_modifyCtx_self hcx]
      exact hlike
    · rw [ctx_modifyCtx_of_ne h]
      exact .refl _
  pinned _ hv := hv
  fixed _ _ _ := rfl
  symMe := rfl
  symParents := rfl
  options := rfl

/-! ## changing the heap -/

/-- Another heap with all the names, in which live values are live and kept objects that never
change are as they were. -/
theorem Sound.withNames (hs : w.Sound used) {h : Heap} (hstock : h.Stocked w.cached)
    (hlive : ∀ v, w.heap.Live v → h.Live v)
    (hfixed : ∀ b, w.heap.Live (.obj b) → (w.heap.body b).Fixed → h.body b = w.heap.body b)
    (hold : ∀ v ∈ w.pinned, v ∈ { w with heap := h }.pinned)
    (hnew : ∀ v ∈ { w with heap := h }.pinned, v ∈ w.pinned ∨ h.Live v) :
    { w with heap := h }.Sound used ∧ w.Extends { w with heap := h } := by
  have hext : w.Extends { w with heap := h } :=
    ⟨rfl, fun _ => .refl _, hold, fun b hb hf => hfixed b (hs.live_kept hb) hf, rfl, rfl, rfl⟩
  refine ⟨hs.extend hext hstock (fun v hv => ?_) rfl, hext⟩
  rcases mem_liveRoots.mp hv with hv | hv
  · exact hlive v (hs.live v (mem_liveRoots.mpr (.inl hv)))
  · rcases hnew v hv with hv | hv
    · exact hlive v (hs.live v (mem_liveRoots.mpr (.inr hv)))
    · exact hv

theorem Sound.withHeap (hs : w.Sound used) {h : Heap} (hstock : h.Stocked w.cached)
    (hlive : ∀ v, w.heap.Live v → h.Live v)
    (hfixed : ∀ b, w.heap.Live (.obj b) → (w.heap.body b).Fixed → h.body b = w.heap.body b)
    (hsym : h.symbols = w.heap.symbols) :
    { w with heap := h }.Sound used ∧ w.Extends { w with heap := h } := by
  have hpinned : { w with heap := h }.pinned = w.pinned := by
    rw [pinned, pinned, hsym]
  exact hs.withNames hstock hlive hfixed (fun v hv => hpinned ▸ hv)
    fun v hv => .inl (hpinned ▸ hv)

end

end World

end ScriptEngine
