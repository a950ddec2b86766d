import ScriptEngine.Machine.Call
import ScriptEngine.Proofs.Heap.Spreading
import ScriptEngine.Proofs.Machine.Footing
import ScriptEngine.Proofs.Runs

/-!
# What does not look at the stacks

Work on objects leaves the operands, the frames and the marks of all contexts alone, and it does the same
whatever they are, as long as they keep the same objects alive: a collection follows what the stacks
refer to and not where it stands.

* `Stacks`, `World.put`   the same engine with other stacks of a context;
* `World.Covers`          the values kept alive are the same with them;
* `World.Parallel`        a change that leaves the stacks alone and does the same with other ones;
* `Act.Neat`              an activity of that kind;
* `Act.neat_alloc`, `Act.neat_extract`, `Act.neat_setHashed`, ...   the activities on objects.
-/

namespace ScriptEngine

open World (ctx_modifyCtx_self ctx_modifyCtx_of_ne size_modifyCtx ctx_of_lt ctx_of_ge)

/-! ## other stacks -/

/-- The stacks of a context. -/
structure Stacks where
  stack : Array Value
  frames : Array Frame
  marks : Array Nat

def Stacks.roots (s : Stacks) : List Value :=
  s.stack.toList ++ s.frames.toList.flatMap fun f => [f.func, f.locals, f.closure]

namespace Context

def allStacks (c : Context) : Stacks := ⟨c.stack, c.frames, c.marks⟩

def put (c : Context) (s : Stacks) : Context :=
  { c with stack := s.stack, frames := s.frames, marks := s.marks }

theorem SameStacks.allStacks {c c' : Context} (h : c.SameStacks c') : c'.allStacks = c.allStacks := by
  rw [Context.allStacks, Context.allStacks, h.stack, h.frames, h.marks]

theorem mem_roots_put {c : Context} {s : Stacks} {v : Value} :
    v ∈ (c.put s).roots ↔ v ∈ s.roots ∨ v ∈ c.temps ∨ v ∈ (c.error.map (·.value)).toList := by
  simp only [roots, Stacks.roots, put, List.mem_append, Array.mem_toList_iff]
  tauto

theorem mem_roots_allStacks {c : Context} {v : Value} :
    v ∈ c.roots ↔ v ∈ c.allStacks.roots ∨ v ∈ c.temps ∨ v ∈ (c.error.map (·.value)).toList :=
  mem_roots_put (c := c) (s := c.allStacks)

end Context

namespace World

variable {w w' w'' : World} {cx cx' : CtxId} {s : Stacks}

def put (w : World) (cx : CtxId) (s : Stacks) : World := w.modifyCtx cx (·.put s)

theorem modifyCtx_congr {f g : Context → Context} (h : f (w.ctx cx) = g (w.ctx cx)) :
    w.modifyCtx cx f = w.modifyCtx cx g := by
  have hcontexts : w.contexts.modify cx f = w.contexts.modify cx g := by
    apply Array.ext_getElem?
    intro i
    rw [Array.getElem?_modify, Array.getElem?_modify]
    split
    · rename_i he
      subst he
      by_cases hlt : cx < w.contexts.size
      · rw [ctx_of_lt hlt] at h
        rw [Array.getElem?_eq_getElem hlt, Option.map_some, Option.map_some, h]
      · rw [Array.getElem?_eq_none (Nat.le_of_not_lt hlt)]
        rfl
    · rfl
  rw [modifyCtx, modifyCtx, hcontexts]

theorem modifyCtx_of_eq {f : Context → Context} (h : f (w.ctx cx) = w.ctx cx) : w.modifyCtx cx f = w := by
  have hcontexts : w.contexts.modify cx (fun c => c) = w.contexts := by
    apply Array.ext_getElem?
    intro i
    rw [Array.getElem?_modify]
    split
    · exact Option.map_id'
    · rfl
  rw [modifyCtx_congr (g := fun c => c) h, modifyCtx, hcontexts]

theorem modifyCtx_modifyCtx (f g : Context → Context) :
    (w.modifyCtx cx f).modifyCtx cx g = w.modifyCtx cx fun c => g (f c) := by
  have hcontexts : (w.contexts.modify cx f).modify cx g = w.contexts.modify cx fun c => g (f c) := by
    apply Array.ext_getElem?
    intro i
    simp only [Array.getElem?_modify]
    split
    · rw [Option.map_map]
      rfl
    · rfl
  rw [modifyCtx, modifyCtx, modifyCtx]
  dsimp only
  rw [hcontexts]

theorem modifyCtx_comm (h : cx ≠ cx') (f g : Context → Context) :
    (w.modifyCtx cx f).modifyCtx cx' g = (w.modifyCtx cx' g).modifyCtx cx f := by
  have hcontexts : (w.contexts.modify cx f).modify cx' g = (w.contexts.modify cx' g).modify cx f := by
    apply Array.ext_getElem?
    intro i
    simp only [Array.getElem?_modify]
    by_cases hi : cx' = i
    · have hne : cx ≠ i := hi ▸ h
      simp only [hi, hne, if_true, if_false]
    · simp only [hi, if_false]
  rw [modifyCtx, modifyCtx, modifyCtx, modifyCtx]
  dsimp only
  rw [hcontexts]

theorem newContext_modifyCtx (h : cx < w.contexts.size) (f : Context → Context) :
    (w.modifyCtx cx f).newContext = (w.newContext.1, w.newContext.2.modifyCtx cx f) := by
  have hfree : (w.modifyCtx cx f).freeContexts = w.freeContexts := rfl
  have hsize : (w.modifyCtx cx f).contexts.size = w.contexts.size := size_modifyCtx ..
  have hpush : (w.contexts.modify cx f).push {} = (w.contexts.push {}).modify cx f := by
    apply Array.ext_getElem?
    intro i
    rw [Array.getElem?_push, Array.getElem?_modify, Array.getElem?_modify, Array.size_modify,
      Array.getElem?_push]
    by_cases hi : i = w.contexts.size
    · have hne : cx ≠ i := hi ▸ Nat.ne_of_lt h
      rw [if_pos hi, if_neg hne, if_pos hi]
    · rw [if_neg hi, if_neg hi]
  unfold newContext
  rw [hfree]
  cases w.freeContexts.back? with
  | some d => rfl
  | none =>
    dsimp only
    rw [hsize]
    show (_, ({ w with contexts := (w.contexts.modify cx f).push {} } : World)) = _
    rw [hpush]
    rfl

/-- A change of a context that is not about its stacks. -/
theorem modifyCtx_put {f : Context → Context} (hf : ∀ c : Context, f (c.put s) = (f c).put s) :
    (w.put cx s).modifyCtx cx' f = (w.modifyCtx cx' f).put cx s := by
  by_cases h : cx = cx'
  · subst h
    rw [put, put, modifyCtx_modifyCtx, modifyCtx_modifyCtx]
    exact modifyCtx_congr (hf _)
  · exact modifyCtx_comm h _ _

theorem ctx_put_self (h : cx < w.contexts.size) : (w.put cx s).ctx cx = (w.ctx cx).put s :=
  ctx_modifyCtx_self h _

/-- Whatever is read of a context besides its stacks is the same. -/
theorem ctx_put {α : Type} (g : Context → α) (hg : ∀ c s, g (Context.put c s) = g c) :
    g ((w.put cx s).ctx cx') = g (w.ctx cx') := by
  by_cases h : cx = cx'
  · subst h
    by_cases hlt : cx < w.contexts.size
    · rw [ctx_put_self hlt, hg]
    · have hge : w.contexts.size ≤ cx := Nat.le_of_not_lt hlt
      rw [ctx_of_ge (by rw [put, size_modifyCtx]; exact hge), ctx_of_ge hge]
  · rw [put, ctx_modifyCtx_of_ne h]

/-- With the stacks `s` the context keeps the same objects alive, but for those that are pinned. -/
def Covers (w : World) (cx : CtxId) (s : Stacks) : Prop :=
  ∀ a, .obj a ∈ s.roots ∨ .obj a ∈ w.roots ↔ .obj a ∈ (w.ctx cx).allStacks.roots ∨ .obj a ∈ w.roots

theorem mem_liveRoots_put (h : w.Covers cx s) (a : Addr) :
    .obj a ∈ (w.put cx s).liveRoots ↔ .obj a ∈ w.liveRoots := by
  generalize hobj : Value.obj a = v
  have hpinned : v ∈ w.roots → v ∈ w.pinned := by
    intro hv
    simp only [pinned, List.mem_append, Array.mem_toList_iff]
    exact .inl (.inl (.inl hv))
  have hsame : (w.put cx s).pinned = w.pinned := rfl
  rw [mem_liveRoots, mem_liveRoots, hsame]
  by_cases hp : v ∈ w.pinned
  · simp only [hp, or_true]
  have hctx (c : CtxId) : v ∈ ((w.put cx s).ctx c).roots ↔ v ∈ (w.ctx c).roots := by
    by_cases hc : cx = c
    · subst hc
      by_cases hlt : cx < w.contexts.size
      · have hv := h a
        rw [hobj, or_iff_left fun hr => hp (hpinned hr), or_iff_left fun hr => hp (hpinned hr)] at hv
        rw [ctx_put_self hlt, Context.mem_roots_put, Context.mem_roots_allStacks, hv]
      · have hge : w.contexts.size ≤ cx := Nat.le_of_not_lt hlt
        rw [ctx_of_ge (by rw [put, size_modifyCtx]; exact hge), ctx_of_ge hge]
    · rw [put, ctx_modifyCtx_of_ne hc]
  simp only [hctx]

/-! ## changes that do not look at the stacks -/

/-- The stacks of all contexts are as they were, and so are the pins and the options. -/
structure Firm (w w' : World) : Prop where
  size : w'.contexts.size = w.contexts.size
  kept : ∀ cx, (w.ctx cx).SameStacks (w'.ctx cx)
  roots : w'.roots = w.roots
  options : w'.options = w.options

theorem Firm.refl (w : World) : w.Firm w := ⟨rfl, fun _ => .refl _, rfl, rfl⟩

theorem Firm.trans (h : w.Firm w') (h' : w'.Firm w'') : w.Firm w'' :=
  ⟨h'.size.trans h.size, fun cx => (h.kept cx).trans (h'.kept cx), h'.roots.trans h.roots,
    h'.options.trans h.options⟩

theorem Firm.covers (h : w.Firm w') (hc : w.Covers cx s) : w'.Covers cx s := by
  intro v
  rw [(h.kept cx).allStacks, h.roots]
  exact hc v

theorem Still.firm (h : w.Still w') (hr : w'.roots = w.roots) (ho : w'.options = w.options) :
    w.Firm w' := ⟨h.size, fun cx => .of_bare (h.bare cx), hr, ho⟩

/-- A change that leaves the stacks alone and does the same with other ones. -/
structure Parallel (f : World → World) : Prop where
  firm : ∀ w : World, w.Firm (f w)
  put : ∀ {w : World} {cx s}, w.Covers cx s → f (w.put cx s) = (f w).put cx s

theorem Parallel.comp {f g : World → World} (hf : Parallel f) (hg : Parallel g) :
    Parallel fun w => g (f w) := by
  refine ⟨fun w => (hf.firm w).trans (hg.firm _), ?_⟩
  intro w cx s h
  rw [hf.put h, hg.put ((hf.firm w).covers h)]

theorem Parallel.ite {f g : World → World} (hf : Parallel f) (hg : Parallel g) {p : World → Bool}
    (hp : ∀ w cx s, p (World.put w cx s) = p w) : Parallel fun w => if p w then f w else g w := by
  refine ⟨fun w => ?_, ?_⟩
  · split
    · exact hf.firm w
    · exact hg.firm w
  · intro w cx s h
    rw [hp]
    split
    · exact hf.put h
    · exact hg.put h

theorem parallel_id : Parallel fun w => w := ⟨Firm.refl, fun _ => rfl⟩

/-- A change that is about neither contexts nor pins nor options. -/
theorem parallel_of {f : World → World} (hc : ∀ w, (f w).contexts = w.contexts)
    (hr : ∀ w, (f w).roots = w.roots) (ho : ∀ w, (f w).options = w.options)
    (hf : ∀ w cx s, f (World.put w cx s) = (f w).put cx s) : Parallel f :=
  ⟨fun w => ⟨by rw [hc], fun cx => by rw [ctx, ctx, hc]; exact .refl _, hr w, ho w⟩,
    fun _ => hf _ _ _⟩

theorem parallel_modifyCtx (cx : CtxId) {f : Context → Context}
    (hf : ∀ c s, f (Context.put c s) = (f c).put s) (hs : ∀ c : Context, c.SameStacks (f c)) :
    Parallel fun w => w.modifyCtx cx f := by
  refine ⟨fun w => ⟨size_modifyCtx w cx f, fun other => ?_, rfl, rfl⟩, fun _ => modifyCtx_put fun c => hf c _⟩
  by_cases ho : cx = other
  · subst ho
    by_cases hlt : cx < w.contexts.size
    · rw [ctx_modifyCtx_self hlt]
      exact hs _
    · have hge : w.contexts.size ≤ cx := Nat.le_of_not_lt hlt
      rw [ctx_of_ge hge, ctx_of_ge (by rw [size_modifyCtx]; exact hge)]
      exact .refl _
  · rw [ctx_modifyCtx_of_ne ho]
    exact .refl _

/-! ### collecting -/

def uncached (w : World) : World := { w with contexts := w.contexts.map Context.dropCache }

theorem uncached_put : (w.put cx s).uncached = w.uncached.put cx s := by
  have hcontexts : (w.contexts.modify cx (·.put s)).map Context.dropCache =
      (w.contexts.map Context.dropCache).modify cx (·.put s) := by
    apply Array.ext_getElem?
    intro i
    simp only [Array.getElem?_map, Array.getElem?_modify]
    split
    · rw [Option.map_map, Option.map_map]
      rfl
    · rfl
  show ({ w with contexts := (w.contexts.modify cx (·.put s)).map Context.dropCache } : World) = _
  rw [hcontexts]
  rfl

theorem collectGarbage_eq (w : World) : w.collectGarbage =
    let swept := (w.heap.mark w.uncached.liveRoots).1.sweep
    { w.uncached with
      heap := swept.1
      gate := { w.gate with needGc := false }
      stats := { w.stats with
        collections := w.stats.collections + 1
        reclaimed := w.stats.reclaimed + swept.2.1
        live := swept.2.2 } } := rfl

theorem parallel_collectGarbage : Parallel collectGarbage := by
  refine ⟨fun w => (still_collectGarbage w).firm rfl rfl, ?_⟩
  intro w cx s h
  have hfirm : w.Firm w.uncached := by
    refine ⟨Array.size_map, fun c => ?_, rfl, rfl⟩
    have hctx : w.uncached.ctx c = (w.ctx c).dropCache := ctx_dropCache w c
    rw [hctx]
    exact ⟨rfl, rfl, rfl, rfl⟩
  have hmark : (w.heap.mark (w.uncached.put cx s).liveRoots).1 = (w.heap.mark w.uncached.liveRoots).1 :=
    Heap.mark_congr _ (mem_liveRoots_put (hfirm.covers h))
  rw [collectGarbage_eq, collectGarbage_eq]
  dsimp only
  rw [uncached_put, show (w.put cx s).heap = w.heap from rfl, hmark]
  rfl

theorem parallel_gate (f : Gate → Gate) : Parallel fun w => { w with gate := f w.gate } :=
  parallel_of (fun _ => rfl) (fun _ => rfl) (fun _ => rfl) fun _ _ _ => rfl

theorem parallel_serve : Parallel serve := by
  have hdead : Parallel freeDead := parallel_of (fun _ => rfl) (fun _ => rfl) (fun _ => rfl) fun _ _ _ => rfl
  have hcollect : Parallel fun w => if w.gate.needGc then w.collectGarbage else w :=
    parallel_collectGarbage.ite parallel_id fun _ _ _ => rfl
  exact (hdead.comp hcollect).comp (parallel_gate fun g => { g with raised := false, pending := false })

theorem parallel_request (gc : Bool) : Parallel (request · gc) :=
  parallel_of (fun _ => rfl) (fun _ => rfl) (fun _ => rfl) fun _ _ _ => rfl

theorem parallel_poll : Parallel poll :=
  parallel_serve.ite parallel_id fun _ _ _ => rfl

theorem parallel_retire : Parallel retire := by
  have hdead : Parallel fun w => { w with dead := w.dead + 1 } :=
    parallel_of (fun _ => rfl) (fun _ => rfl) (fun _ => rfl) fun _ _ _ => rfl
  have hserve : Parallel fun w => if w.mayServe then w.serve else w.request false :=
    parallel_serve.ite (parallel_request false) fun _ _ _ => rfl
  have hrest : Parallel fun w => if w.options.deadBlocks ≤ w.dead then
      if w.mayServe then w.serve else w.request false else w := by
    have h := hserve.ite parallel_id (p := fun w => decide (w.options.deadBlocks ≤ w.dead))
      fun _ _ _ => rfl
    simpa using h
  exact hdead.comp hrest

theorem parallel_enter : Parallel enter := by
  have hdepth := parallel_gate fun g => { g with depth := g.depth + 1 }
  have hthreads := parallel_gate fun g => { g with threads := g.threads + 1 }
  have hraised : Parallel fun w => if w.gate.raised then w.serve else w :=
    parallel_serve.ite parallel_id fun _ _ _ => rfl
  have hrest : Parallel fun w => if 1 < w.gate.depth then w else
      let w := { w with gate := { w.gate with threads := w.gate.threads + 1 } }
      if w.gate.raised then w.serve else w := by
    have h := parallel_id.ite (hthreads.comp hraised) (p := fun w => decide (1 < w.gate.depth))
      fun _ _ _ => rfl
    simpa using h
  exact hdepth.comp hrest

theorem parallel_leave : Parallel leave := by
  have hdepth := parallel_gate fun g => { g with depth := g.depth - 1 }
  have hthreads := parallel_gate fun g => { g with threads := g.threads - 1 }
  have hraised : Parallel fun w => if w.gate.raised then w.serve else w :=
    parallel_serve.ite parallel_id fun _ _ _ => rfl
  have hrest : Parallel fun w => if 0 < w.gate.depth then w else
      let w := if w.gate.raised then w.serve else w
      { w with gate := { w.gate with threads := w.gate.threads - 1 } } := by
    have h := parallel_id.ite (hraised.comp hthreads) (p := fun w => decide (0 < w.gate.depth))
      fun _ _ _ => rfl
    simpa using h
  exact hdepth.comp hrest

/-! ### making objects -/

/-- The same for a change that gives a result. -/
structure ParallelGet {α : Type} (f : World → α × World) : Prop where
  firm : ∀ w : World, w.Firm (f w).2
  put : ∀ {w : World} {cx s}, w.Covers cx s → f (w.put cx s) = ((f w).1, (f w).2.put cx s)

section

variable {α : Type} {f g : World → α × World}

theorem Parallel.get {e : World → World} (he : Parallel e) (hf : ParallelGet f) :
    ParallelGet fun w => f (e w) := by
  refine ⟨fun w => (he.firm w).trans (hf.firm _), ?_⟩
  intro w cx s h
  rw [he.put h, hf.put ((he.firm w).covers h)]

theorem ParallelGet.after {β : Type} {g : α → World → β × World} (hf : ParallelGet f)
    (hg : ∀ a, ParallelGet (g a)) : ParallelGet fun w => g (f w).1 (f w).2 := by
  refine ⟨fun w => (hf.firm w).trans ((hg _).firm _), ?_⟩
  intro w cx s h
  rw [hf.put h, (hg _).put ((hf.firm w).covers h)]

theorem ParallelGet.ite (hf : ParallelGet f) (hg : ParallelGet g) {p : World → Bool}
    (hp : ∀ w cx s, p (World.put w cx s) = p w) : ParallelGet fun w => if p w then f w else g w := by
  refine ⟨fun w => ?_, ?_⟩
  · split
    · exact hf.firm w
    · exact hg.firm w
  · intro w cx s h
    rw [hp]
    split
    · exact hf.put h
    · exact hg.put h

theorem ParallelGet.congr (hf : ParallelGet f) (h : ∀ w, g w = f w) : ParallelGet g := by
  rwa [funext h]

theorem parallelGet_heap (f : Heap → α × Heap) :
    ParallelGet fun w => ((f w.heap).1, { w with heap := (f w.heap).2 }) :=
  ⟨fun _ => ⟨rfl, fun _ => .refl _, rfl, rfl⟩, fun _ => rfl⟩

end

theorem mayServe_serve (w : World) : w.serve.mayServe = w.mayServe := by
  unfold serve
  dsimp only
  split <;> rfl

theorem parallelGet_cellsOf (k : Kind) (n : Nat) : ParallelGet fun w => w.cellsOf k n := by
  have hserve : Parallel fun w => if w.gate.raised && w.mayServe then w.serve else w :=
    parallel_serve.ite parallel_id fun _ _ _ => rfl
  have hwant := parallel_gate fun g => { g with needGc := true }
  have htake : ParallelGet fun w => ((w.heap.take k n).1, { w with heap := (w.heap.take k n).2 }) :=
    parallelGet_heap fun h => h.take k n
  have hgrow : ParallelGet fun w => w.growCells k n :=
    parallelGet_heap fun h => ((((h.takeOrGrow k).2.take k (n - 1)).1.push (h.takeOrGrow k).1),
      ((h.takeOrGrow k).2.take k (n - 1)).2)
  have htry : ParallelGet fun w => if !(w.heap.take k n).1.isEmpty then
      ((w.heap.take k n).1, { w with heap := (w.heap.take k n).2 }) else w.growCells k n :=
    htake.ite hgrow fun _ _ _ => rfl
  have hdry := (hwant.comp parallel_serve).get htry |>.ite (hwant.get hgrow)
    (p := fun w => w.mayServe) fun _ _ _ => rfl
  have hall := hserve.get (htake.ite hdry (p := fun w => !(w.heap.take k n).1.isEmpty) fun _ _ _ => rfl)
  refine hall.congr fun w => ?_
  have hmay : (if w.gate.raised && w.mayServe then w.serve else w).mayServe = w.mayServe := by
    split
    · exact mayServe_serve w
    · rfl
  unfold cellsOf
  extract_lets serves w₁
  rw [show serves = w₁.mayServe from hmay.symm]

theorem parallel_hold (cx : CtxId) (b : Body) : Parallel fun w => w.hold cx b :=
  parallel_modifyCtx cx (fun _ _ => rfl) fun _ => ⟨rfl, rfl, rfl, rfl⟩

theorem parallel_stow (cx : CtxId) (k : Kind) (n : Nat) (cells : Array Addr) :
    Parallel fun w => w.stow cx k n cells :=
  parallel_modifyCtx cx (fun _ _ => rfl) fun _ => ⟨rfl, rfl, rfl, rfl⟩

theorem parallelGet_refill (cx : CtxId) (k : Kind) (b : Body) :
    ParallelGet fun w => w.refill cx k b := by
  have hsize : ParallelGet fun w => ((w.ctx cx).temps.size, w) := by
    refine ⟨Firm.refl, ?_⟩
    intro w cx' s _
    rw [ctx_put (fun c => c.temps.size) fun _ _ => rfl]
  have hbatch : ParallelGet fun w => w.cellsOf k w.options.allocBatch := by
    refine ⟨fun w => (parallelGet_cellsOf k _).firm w, ?_⟩
    intro w cx s h
    exact (parallelGet_cellsOf k _).put h
  have hstow (n : Nat) (cells : Array Addr) :
      ParallelGet fun w => (cells.back?.getD 0, w.stow cx k n cells) :=
    ⟨(parallel_stow cx k n cells).firm, fun h => by rw [(parallel_stow cx k n cells).put h]⟩
  have hall := hsize.after fun n => (parallel_hold cx b).get (hbatch.after fun cells => hstow n cells)
  exact hall.congr fun w => refill_eq w cx k b

theorem parallelGet_alloc (cx : CtxId) (k : Kind) (b : Body) : ParallelGet fun w => w.alloc cx k b := by
  have hcell : ParallelGet fun w => ((w.ctx cx).cache.of k).back?.elim (w.refill cx k b) fun a =>
      (a, w.modifyCtx cx fun c => { c with cache := c.cache.modify k Array.pop }) := by
    have hpop : Parallel fun w => w.modifyCtx cx fun c => { c with cache := c.cache.modify k Array.pop } :=
      parallel_modifyCtx cx (fun _ _ => rfl) fun _ => ⟨rfl, rfl, rfl, rfl⟩
    refine ⟨fun w => ?_, ?_⟩
    · cases ((w.ctx cx).cache.of k).back? with
      | some a => exact hpop.firm w
      | none => exact (parallelGet_refill cx k b).firm w
    · intro w cx' s h
      rw [ctx_put (fun c => (c.cache.of k).back?) fun _ _ => rfl]
      cases ((w.ctx cx).cache.of k).back? with
      | some a =>
        rw [Option.elim_some, hpop.put h]
        rfl
      | none => exact (parallelGet_refill cx k b).put h
  have hmade (a : Addr) : ParallelGet fun w => (Value.obj a, { w with heap := w.heap.install a b }.modifyCtx cx
      fun c => { c with temps := c.temps.push (.obj a) }) := by
    have hinstall : Parallel fun w => { w with heap := w.heap.install a b } :=
      parallel_of (fun _ => rfl) (fun _ => rfl) (fun _ => rfl) fun _ _ _ => rfl
    have htemps : Parallel fun w => w.modifyCtx cx fun c => { c with temps := c.temps.push (.obj a) } :=
      parallel_modifyCtx cx (fun _ _ => rfl) fun _ => ⟨rfl, rfl, rfl, rfl⟩
    have hboth := hinstall.comp htemps
    exact ⟨hboth.firm, fun h => by rw [hboth.put h]⟩
  refine (hcell.after hmade).congr fun w => ?_
  unfold alloc
  cases ((w.ctx cx).cache.of k).back? <;> rfl

end World

/-! ## activities -/

namespace Act

section

variable {α β : Type}

/-- The result of a run with a change of the engine it has come to. -/
def after (f : World → World) : EStateM.Result Failure World α → EStateM.Result Failure World α
  | .ok a w => .ok a (f w)
  | .error e w => .error e (f w)

/-- An activity that leaves the stacks alone and does the same with other ones. -/
structure Neat (x : Act α) : Prop where
  firm : ∀ w : World, w.Firm (World.after (x.run w))
  put : ∀ {w : World} {cx s}, w.Covers cx s → x.run (w.put cx s) = after (·.put cx s) (x.run w)

variable {x : Act α}

theorem Neat.bind {f : α → Act β} (hx : Neat x) (hf : ∀ a, Neat (f a)) : Neat (x >>= f) := by
  refine ⟨fun w => ?_, ?_⟩
  · have hfirm := hx.firm w
    cases hr : x.run w with
    | ok a w₁ =>
      rw [hr] at hfirm
      rw [run_bind_of_ok hr]
      exact World.Firm.trans hfirm ((hf a).firm w₁)
    | error e w₁ =>
      rw [hr] at hfirm
      rw [run_bind_of_error hr]
      exact hfirm
  · intro w cx s h
    have hfirm := hx.firm w
    have hput := hx.put h
    cases hr : x.run w with
    | ok a w₁ =>
      rw [hr] at hfirm hput
      rw [run_bind_of_ok hr, run_bind_of_ok hput]
      exact (hf a).put (World.Firm.covers hfirm h)
    | error e w₁ =>
      rw [hr] at hput
      rw [run_bind_of_error hr, run_bind_of_error hput]
      rfl

theorem neat_pure (a : α) : Neat (pure a : Act α) := ⟨fun w => .refl w, fun _ => rfl⟩

theorem neat_throw (e : Failure) : Neat (throw e : Act α) := ⟨fun w => .refl w, fun _ => rfl⟩

theorem neat_fail (c : Cause) : Neat (fail c : Act α) := neat_throw _

theorem neat_ofExcept (r : Except Cause α) : Neat (ofExcept r) := by
  cases r with
  | ok a => exact neat_pure a
  | error c => exact neat_fail c

/-- What is done with the state depends on no stacks. -/
theorem neat_get {f : World → Act α} (hf : ∀ w, Neat (f w))
    (hput : ∀ w cx s, f (World.put w cx s) = f w) : Neat (get >>= f) := by
  refine ⟨fun w => (hf w).firm w, ?_⟩
  intro w cx s h
  show (f (w.put cx s)).run (w.put cx s) = _
  rw [hput, (hf w).put h]
  rfl

theorem neat_heap : Neat heap := neat_get (fun _ => neat_pure _) fun _ _ _ => rfl

theorem neat_options : Neat options := neat_get (fun _ => neat_pure _) fun _ _ _ => rfl

theorem neat_read (f : Heap → Except Cause α) : Neat (read f) :=
  neat_heap.bind fun _ => neat_ofExcept _

theorem neat_modify {f : World → World} (hf : World.Parallel f) : Neat (modify f : Act Unit) :=
  ⟨hf.firm, fun h => congrArg (EStateM.Result.ok ()) (hf.put h)⟩

theorem neat_modifyGet {f : World → α × World} (hf : World.ParallelGet f) :
    Neat (modifyGet f : Act α) := by
  refine ⟨hf.firm, ?_⟩
  intro w cx s h
  show EStateM.Result.ok (f (w.put cx s)).1 (f (w.put cx s)).2 = _
  rw [hf.put h]
  rfl

theorem Neat.discard (hx : Neat x) : Neat (discard x : Act PUnit) := hx.bind fun _ => neat_pure _

theorem neat_forM {f : α → Act Unit} (hf : ∀ a, Neat (f a)) (as : List α) : Neat (as.forM f) := by
  induction as with
  | nil => exact neat_pure ()
  | cons a as ih => exact (hf a).bind fun _ => ih

theorem neat_ite {p : Prop} [Decidable p] {x y : Act α} (hx : Neat x) (hy : Neat y) :
    Neat (if p then x else y) := by
  split
  · exact hx
  · exact hy

end

/-! ### objects -/

variable {cx : CtxId}

theorem neat_modifyHeap (f : Heap → Heap) : Neat (modifyHeap f) :=
  neat_modify (World.parallel_of (fun _ => rfl) (fun _ => rfl) (fun _ => rfl) fun _ _ _ => rfl)

theorem neat_alloc (k : Kind) (b : Body) : Neat (alloc cx k b) :=
  neat_modifyGet (World.parallelGet_alloc cx k b)

theorem neat_newStr (bs : Bytes) : Neat (newStr cx bs) := neat_alloc ..

theorem neat_newVec (items : Array Value) : Neat (newVec cx items) := neat_alloc ..

theorem neat_newHash : Neat (newHash cx) := neat_alloc ..

theorem neat_hashKey (key : Value) : Neat (hashKey key) :=
  neat_modifyGet (World.parallelGet_heap fun h => h.hashKey key)

theorem neat_retire : Neat retire := neat_modify World.parallel_retire

theorem neat_setHashed (box key : Value) (hash : UInt32) (interned : Bool) (v : Value) :
    Neat (setHashed box key hash interned v) := by
  unfold setHashed
  refine neat_heap.bind fun h => ?_
  apply neat_ite
  · refine (neat_modifyGet (World.parallelGet_heap fun h => h.store box key hash interned v)).bind ?_
    intro retired
    exact neat_ite neat_retire (neat_pure _)
  · exact neat_fail _

theorem neat_hashSet (box key v : Value) : Neat (hashSet box key v) :=
  (neat_hashKey key).bind fun _ => neat_setHashed ..

theorem neat_modifyVec (v : Value) (f : Array Value → Array Value) : Neat (modifyVec v f) := by
  unfold modifyVec
  refine neat_heap.bind fun h => ?_
  split
  · exact (neat_modifyHeap _).bind fun _ => neat_pure _
  · exact neat_pure _

theorem neat_vecSet (v : Value) (i : Nat) (item : Value) : Neat (vecSet v i item) := by
  unfold vecSet
  refine neat_heap.bind fun h => ?_
  split
  · exact neat_ite (neat_modifyVec _ _) (neat_pure _)
  · exact neat_pure _

/-! ### members and elements -/

theorem neat_hashMember (obj sym : Value) (hash : UInt32) (interned : Bool) :
    Neat (hashMember obj sym hash interned) := by
  unfold hashMember
  refine neat_get (fun w => ?_) fun _ _ _ => rfl
  dsimp only
  split
  · exact neat_pure _
  · exact neat_fail _

theorem neat_extract (box key : Value) : Neat (extract box key) := by
  unfold extract
  refine neat_heap.bind fun h => ?_
  exact neat_ite ((neat_hashKey key).discard.bind fun _ => neat_read _) (neat_read _)

theorem neat_insert (box key v : Value) : Neat (insert box key v) := by
  unfold insert
  refine neat_heap.bind fun h => ?_
  split
  · exact neat_ite (neat_hashSet ..) (neat_fail _)
  · exact (neat_ofExcept _).bind fun i => (neat_vecSet ..).discard
  · refine (neat_ofExcept _).bind fun b => (neat_ofExcept _).bind fun i => ?_
    split
    · exact neat_modifyHeap _
    · exact neat_fail _
  · exact neat_fail _

theorem neat_slice (box start stop : Value) : Neat (slice cx box start stop) := by
  unfold slice
  refine neat_heap.bind fun h => ?_
  split
  · refine (neat_ofExcept _).bind fun b => ?_
    split
    · exact neat_newVec _
    · exact neat_newVec _
  · refine (neat_ofExcept _).bind fun b => ?_
    split
    · exact neat_newStr _
    · exact neat_newStr _
  · exact neat_fail _

theorem neat_concat (a b : Value) : Neat (concat cx a b) := by
  unfold concat
  refine neat_heap.bind fun h => ?_
  split
  · exact neat_newVec _
  · refine (neat_ofExcept _).bind fun s => ?_
    exact (neat_ofExcept _).bind fun t => neat_newStr _

/-! ### functions and arguments -/

theorem neat_newClosure (ns next : Value) : Neat (newClosure cx ns next) := neat_alloc ..

theorem neat_newFunc (target scope : Value) : Neat (newFunc cx target scope) := neat_alloc ..

theorem neat_bindMe (locals me : Value) : Neat (bindMe locals me) := by
  unfold bindMe
  apply neat_ite
  · exact neat_get (fun _ => neat_hashSet ..) fun _ _ _ => rfl
  · exact neat_pure _

theorem neat_bindArgs (code : Loaded) (locals : Value) (args : Array Value) (me : Value) :
    Neat (bindArgs cx code locals args me) := by
  have hconst (i : Nat) (v : Value) : Neat (bindConst code locals i v) := neat_setHashed ..
  unfold bindArgs
  refine (neat_bindMe locals me).bind fun _ => ?_
  extract_lets need extra rest
  have hrest : Neat (rest ()) := by
    refine (neat_forM (fun _ => hconst _ _) _).bind fun _ => ?_
    refine (neat_forM (fun _ => hconst _ _) _).bind fun _ => ?_
    split
    · exact neat_ite ((neat_newVec _).bind fun _ => hconst _ _) (neat_pure _)
    · exact neat_pure _
  apply neat_ite
  · exact (neat_fail _).bind fun _ => hrest
  · exact hrest

theorem neat_isBound (code : Loaded) (locals : Value) (i : Nat) : Neat (isBound code locals i) :=
  neat_heap.bind fun _ => neat_pure _

theorem neat_bindNamed (code : Loaded) (locals named me : Value) :
    Neat (bindNamed cx code locals named me) := by
  have hconst (i : Nat) (v : Value) : Neat (bindConst code locals i v) := neat_setHashed ..
  unfold bindNamed
  refine neat_heap.bind fun _ => (neat_bindMe locals me).bind fun _ => ?_
  refine (neat_forM (fun _ => neat_hashSet ..) _).bind fun _ => ?_
  refine (neat_forM (fun i => ?_) _).bind fun _ => ?_
  · refine (neat_isBound code locals i).bind fun _ => ?_
    exact neat_ite (neat_heap.bind fun _ => neat_fail _) (neat_pure _)
  refine (neat_forM (fun i => ?_) _).bind fun _ => ?_
  · refine (neat_isBound code locals i.1).bind fun _ => ?_
    exact neat_ite (hconst _ _) (neat_pure _)
  split
  · exact neat_ite ((neat_newVec _).bind fun _ => hconst _ _) (neat_pure _)
  · exact neat_pure _

end Act

end ScriptEngine
