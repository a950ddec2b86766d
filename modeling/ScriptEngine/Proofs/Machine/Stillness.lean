import ScriptEngine.Machine.World
import ScriptEngine.Proofs.Heap.Codes
import ScriptEngine.Proofs.Machine.Allocation

/-!
# What leaves the stacks alone

Making objects, collecting, and entering and leaving the engine change of a context only its cached
cells, the values made since the last instruction and the error it keeps.

* `Context.bare`   the rest of a context: its stacks and its place among the contexts;
* `World.Still`    no context changes in this, nor do the options, and all code stays typed;
* `World.still_alloc`, `World.still_leave`, ...   what is still.
-/

namespace ScriptEngine

/-- A context without its cache, its fresh values and its error. -/
def Context.bare (c : Context) : Context :=
  { c with temps := #[], cache := Vector.replicate 8 #[], error := none }

namespace World

/-- The contexts are as they were, up to what `Context.bare` leaves out. -/
structure Still (w w' : World) : Prop where
  size : w'.contexts.size = w.contexts.size
  free : w'.freeContexts = w.freeContexts
  bare : ∀ cx, (w'.ctx cx).bare = (w.ctx cx).bare
  typed : w.heap.Typed → w'.heap.Typed
  options : w'.options = w.options

variable {w w' w'' : World}

theorem Still.refl (w : World) : w.Still w := ⟨rfl, rfl, fun _ => rfl, fun h => h, rfl⟩

theorem Still.trans (h : w.Still w') (h' : w'.Still w'') : w.Still w'' :=
  ⟨h'.size.trans h.size, h'.free.trans h.free, fun cx => (h'.bare cx).trans (h.bare cx),
    fun ht => h'.typed (h.typed ht), h'.options.trans h.options⟩

theorem Still.of_eq (hc : w'.contexts = w.contexts) (hf : w'.freeContexts = w.freeContexts)
    (ho : w'.options = w.options) (ht : w.heap.Typed → w'.heap.Typed) : w.Still w' :=
  ⟨by rw [hc], hf, fun cx => by rw [ctx, ctx, hc], ht, ho⟩

theorem still_gate (w : World) (gate : Gate) : w.Still { w with gate } := .of_eq rfl rfl rfl fun h => h

theorem still_modifyCtx (cx : CtxId) {f : Context → Context} (hf : ∀ c, (f c).bare = c.bare) :
    w.Still (w.modifyCtx cx f) := by
  refine ⟨size_modifyCtx w cx f, rfl, fun other => ?_, fun h => h, rfl⟩
  by_cases ho : cx = other
  · subst ho
    by_cases hlt : cx < w.contexts.size
    · rw [ctx_modifyCtx_self hlt]
      exact hf _
    · have hge : w.contexts.size ≤ cx := Nat.le_of_not_lt hlt
      rw [ctx_of_ge (by rw [size_modifyCtx]; exact hge), ctx_of_ge hge]
  · rw [ctx_modifyCtx_of_ne ho]

/-! ## collecting -/

theorem still_collectGarbage (w : World) : w.Still w.collectGarbage := by
  refine ⟨Array.size_map, rfl, fun cx => ?_, fun ht => Heap.Typed.sweep (ht.mark _), rfl⟩
  rw [ctx_dropCache]
  rfl

theorem still_serve (w : World) : w.Still w.serve := by
  have hdead : w.Still w.freeDead := .of_eq rfl rfl rfl fun h => h
  unfold serve
  dsimp only
  split
  · exact (hdead.trans (still_collectGarbage _)).trans (.of_eq rfl rfl rfl fun h => h)
  · exact hdead.trans (.of_eq rfl rfl rfl fun h => h)

theorem still_request (w : World) (gc : Bool) : w.Still (w.request gc) :=
  .of_eq rfl rfl rfl fun h => h

theorem still_enter (w : World) : w.Still w.enter := by
  unfold enter
  dsimp only
  split
  · exact .of_eq rfl rfl rfl fun h => h
  · split
    · exact (still_gate w _).trans (still_serve _)
    · exact .of_eq rfl rfl rfl fun h => h

theorem still_leave (w : World) : w.Still w.leave := by
  unfold leave
  dsimp only
  split
  · exact .of_eq rfl rfl rfl fun h => h
  · split
    · exact ((still_gate w _).trans (still_serve _)).trans (still_gate _ _)
    · exact .of_eq rfl rfl rfl fun h => h

theorem still_poll (w : World) : w.Still w.poll := by
  unfold poll
  split
  · exact still_serve w
  · exact .refl w

theorem still_collectNow (w : World) : w.Still w.collectNow := by
  unfold collectNow
  split
  · exact (still_gate w _).trans (still_serve _)
  · exact still_request w true

theorem still_collect (w : World) : w.Still w.collect := by
  unfold collect
  split
  · exact still_request w true
  · exact ((still_enter w).trans (still_collectNow _)).trans (still_leave _)

theorem still_retire (w : World) : w.Still w.retire := by
  have hdead : w.Still { w with dead := w.dead + 1 } := .of_eq rfl rfl rfl fun h => h
  unfold retire
  dsimp only
  split
  · split
    · exact hdead.trans (still_serve _)
    · exact hdead.trans (still_request _ false)
  · exact .of_eq rfl rfl rfl fun h => h

/-! ## making objects -/

theorem still_growCells (w : World) (k : Kind) (n : Nat) : w.Still (w.growCells k n).2 :=
  .of_eq rfl rfl rfl fun ht => (ht.takeOrGrow k).take k (n - 1)

theorem still_cellsOf (w : World) (k : Kind) (n : Nat) : w.Still (w.cellsOf k n).2 := by
  have htake (w₁ : World) : w₁.Still { w₁ with heap := (w₁.heap.take k n).2 } :=
    .of_eq rfl rfl rfl fun ht => ht.take k n
  have hgrow (w₁ : World) : w₁.Still (if !(w₁.heap.take k n).1.isEmpty then
      ((w₁.heap.take k n).1, { w₁ with heap := (w₁.heap.take k n).2 }) else w₁.growCells k n).2 := by
    split
    · exact htake w₁
    · exact still_growCells w₁ k n
  unfold cellsOf
  extract_lets serves w₁
  have h₁ : w.Still w₁ := by
    unfold w₁
    split
    · exact still_serve w
    · exact .refl w
  refine h₁.trans ?_
  show w₁.Still (ite _ _ _ : _ × World).2
  split
  · exact htake w₁
  · split
    · exact ((still_gate w₁ _).trans (still_serve _)).trans (hgrow _)
    · exact (still_gate w₁ _).trans (still_growCells _ k n)

theorem still_refill (w : World) (cx : CtxId) (k : Kind) (b : Body) :
    w.Still (w.refill cx k b).2 := by
  have hhold : w.Still (w.hold cx b) := still_modifyCtx cx fun _ => rfl
  have hstow (w₁ : World) (n : Nat) (cells : Array Addr) : w₁.Still (w₁.stow cx k n cells) :=
    still_modifyCtx cx fun _ => rfl
  rw [refill_eq]
  exact (hhold.trans (still_cellsOf _ _ _)).trans (hstow _ _ _)

theorem still_install (w : World) (a : Addr) {b : Body} (hb : b.Typed) :
    w.Still { w with heap := w.heap.install a b } :=
  .of_eq rfl rfl rfl fun ht => ht.install a hb

theorem still_alloc (w : World) (cx : CtxId) (k : Kind) {b : Body} (hb : b.Typed) :
    w.Still (w.alloc cx k b).2 := by
  have hmade (w₁ : World) (a : Addr) (h : w.Still w₁) :
      w.Still ({ w₁ with heap := w₁.heap.install a b }.modifyCtx cx fun c =>
        { c with temps := c.temps.push (.obj a) }) :=
    (h.trans (still_install w₁ a hb)).trans (still_modifyCtx cx fun _ => rfl)
  unfold alloc
  cases ((w.ctx cx).cache.of k).back? with
  | some a => exact hmade _ a (still_modifyCtx cx fun _ => rfl)
  | none => exact hmade _ _ (still_refill w cx k b)

end World

end ScriptEngine
