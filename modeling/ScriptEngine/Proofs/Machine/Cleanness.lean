import ScriptEngine.Machine.World
import ScriptEngine.Proofs.Heap.Cleanness

/-!
# Engines without the end of an iteration

An engine is clean when nothing in it is the end of an iteration, and when each frame is at an instruction
of clean code.  Making objects, collecting and passing the gate keep an engine clean.

* `Loaded.Starts`        the places where instructions start;
* `Loaded.Tests`         the places of the tests for the end;
* `Loaded.Clean.item`    the instruction there, and where it leads;
* `World.Clean`          a clean engine;
* `World.Clean.alloc`, `World.Clean.serve`, `World.Clean.freeContext`, ...   what keeps it clean.
-/

namespace ScriptEngine

/-! ## frames -/

namespace Loaded

/-- An instruction starts at the place, or the code ends there. -/
def Starts (c : Loaded) (ip : Nat) : Prop :=
  ∀ l, Decoded c.words l → ip = c.words.size ∨ ∃ i ∈ l, i.place = ip

theorem starts_zero (c : Loaded) : c.Starts 0 := fun _ hl => .inr hl.first

/-- Words spell one list of instructions only. -/
theorem starts_of_decoded {c : Loaded} {l : List Item} (hl : Decoded c.words l) {ip : Nat}
    (h : ip = c.words.size ∨ ∃ i ∈ l, i.place = ip) : c.Starts ip := by
  intro l' hl'
  rwa [Option.some.inj (hl'.spells.symm.trans hl.spells)]

/-- Behind an instruction that iterates, the place is that of the test for the end. -/
def Tests (c : Loaded) (ip : Nat) : Prop :=
  ∃ pre i k post, Decoded c.words (pre ++ i :: k :: post) ∧ i.op.iterates = true ∧ k.op = .jifEnd ∧ k.place = ip

/-- What the instruction at a place of clean code is like: where it leads, instructions start, and if it
iterates, the test for the end stands directly behind it. -/
structure At (c : Loaded) (ip : Nat) (i : Item) : Prop where
  place : i.place = ip
  within : i.In c.words
  next : c.Starts (ip + i.op.length)
  jump : i.op.isJump = true → c.Starts i.arg
  tests : i.op.iterates = true → c.Tests (ip + i.op.length)

theorem Clean.item {c : Loaded} (hc : c.Clean) {ip : Nat} (hs : c.Starts ip) {x : UInt16}
    (hx : c.words[ip]? = some x) : ∃ i : Item, c.At ip i ∧ i.op.word = x := by
  obtain ⟨l, hl, hg⟩ := hc.guarded
  have hlt : ip < c.words.size := (Array.getElem?_eq_some_iff.mp hx).1
  obtain ⟨i, hi, rfl⟩ := (hs l hl).resolve_left (Nat.ne_of_lt hlt)
  refine ⟨i, ⟨rfl, hl.within hi, starts_of_decoded hl (hl.row.behind hi), fun hj => ?_, fun hit => ?_⟩, ?_⟩
  · exact starts_of_decoded hl (.inr (hl.lands i hi hj))
  · obtain ⟨pre, k, post, rfl, hop, hplace⟩ := hg.behind hl.row hi hit
    exact ⟨pre, i, k, post, hl, hit, hop, hplace⟩
  · exact Option.some.inj ((hl.within hi).word.symm.trans hx)

end Loaded

structure Frame.Clean (f : Frame) : Prop where
  func : f.func.Clean
  locals : f.locals.Clean
  closure : f.closure.Clean
  code : f.code.Clean
  starts : f.code.Starts f.ip

/-! ## contexts -/

namespace Context

/-- A context that refers to clean values only. -/
structure Clean (c : Context) : Prop where
  stack : ∀ v ∈ c.stack, v.Clean
  temps : ∀ v ∈ c.temps, v.Clean
  frames : ∀ f ∈ c.frames, f.Clean
  error : ∀ e, c.error = some e → e.value.Clean

variable {c : Context}

theorem clean_empty : ({} : Context).Clean :=
  ⟨Array.forall_mem_empty _, Array.forall_mem_empty _, Array.forall_mem_empty _, nofun⟩

theorem Clean.dropCache (hc : c.Clean) : c.dropCache.Clean := ⟨hc.stack, hc.temps, hc.frames, hc.error⟩

theorem Clean.withStack (hc : c.Clean) {stack : Array Value} (h : ∀ v ∈ stack, v.Clean) :
    { c with stack }.Clean := ⟨h, hc.temps, hc.frames, hc.error⟩

theorem Clean.withTemps (hc : c.Clean) {temps : Array Value} (h : ∀ v ∈ temps, v.Clean) :
    { c with temps }.Clean := ⟨hc.stack, h, hc.frames, hc.error⟩

theorem Clean.withFrames (hc : c.Clean) {frames : Array Frame} (h : ∀ f ∈ frames, f.Clean) :
    { c with frames }.Clean := ⟨hc.stack, hc.temps, h, hc.error⟩

theorem Clean.withError (hc : c.Clean) {error : Option Failure} (h : ∀ e, error = some e → e.value.Clean) :
    { c with error }.Clean := ⟨hc.stack, hc.temps, hc.frames, h⟩

theorem Clean.clearStacks (hc : c.Clean) : c.clearStacks.Clean :=
  ⟨Array.forall_mem_empty _, hc.temps, Array.forall_mem_empty _, hc.error⟩

theorem Clean.shrink (hc : c.Clean) (n : Nat) : { c with stack := c.stack.shrink n }.Clean :=
  hc.withStack fun v hv => hc.stack v (mem_of_mem_shrink hv)

end Context

/-! ## engines -/

namespace World

/-- An engine in which nothing is the end of an iteration. -/
structure Clean (w : World) : Prop where
  heap : w.heap.Clean
  contexts : ∀ c ∈ w.contexts, c.Clean
  roots : ∀ v ∈ w.roots, v.Clean
  saved : ∀ v, some v ∈ w.saved → v.Clean

variable {w : World} {cx : CtxId}

theorem Clean.ctx (hw : w.Clean) (cx : CtxId) : (w.ctx cx).Clean := by
  unfold World.ctx
  cases hc : w.contexts[cx]? with
  | none => exact Context.clean_empty
  | some c => exact hw.contexts c (Array.mem_of_getElem? hc)

theorem Clean.withHeap (hw : w.Clean) {h : Heap} (hh : h.Clean) : { w with heap := h }.Clean :=
  ⟨hh, hw.contexts, hw.roots, hw.saved⟩

theorem Clean.modifyCtx (hw : w.Clean) {f : Context → Context} (hf : (f (w.ctx cx)).Clean) :
    (w.modifyCtx cx f).Clean := by
  refine ⟨hw.heap, fun c hc => ?_, hw.roots, hw.saved⟩
  obtain ⟨j, hj⟩ := Array.mem_iff_getElem?.mp hc
  have hj' : (w.contexts.modify cx f)[j]? = some c := hj
  rw [Array.getElem?_modify] at hj'
  split at hj'
  · rename_i hcx
    obtain ⟨c', hc', rfl⟩ := Option.map_eq_some_iff.mp hj'
    rwa [World.ctx, hcx, hc'] at hf
  · exact hw.contexts c (Array.mem_of_getElem? hj')

/-! ### collecting -/

theorem Clean.collectGarbage (hw : w.Clean) : w.collectGarbage.Clean := by
  refine ⟨Heap.All.sweep Body.clean_free (Heap.All.mark hw.heap _), fun c hc => ?_, hw.roots, hw.saved⟩
  obtain ⟨c', hc', rfl⟩ := Array.mem_map.mp hc
  exact (hw.contexts c' hc').dropCache

theorem Clean.gate (hw : w.Clean) (gate : Gate) : { w with gate }.Clean :=
  ⟨hw.heap, hw.contexts, hw.roots, hw.saved⟩

theorem Clean.serve (hw : w.Clean) : w.serve.Clean := by
  have hdead : w.freeDead.Clean := ⟨hw.heap, hw.contexts, hw.roots, hw.saved⟩
  unfold World.serve
  dsimp only
  split
  · exact hdead.collectGarbage.gate _
  · exact hdead.gate _

theorem Clean.enter (hw : w.Clean) : w.enter.Clean := by
  unfold World.enter
  dsimp only
  split
  · exact hw.gate _
  · split
    · exact ((hw.gate _).gate _).serve
    · exact hw.gate _

theorem Clean.leave (hw : w.Clean) : w.leave.Clean := by
  unfold World.leave
  dsimp only
  split
  · exact hw.gate _
  · split
    · exact (hw.gate _).serve.gate _
    · exact hw.gate _

theorem Clean.poll (hw : w.Clean) : w.poll.Clean := by
  unfold World.poll
  split
  · exact hw.serve
  · exact hw

theorem Clean.retire (hw : w.Clean) : w.retire.Clean := by
  have hdead : { w with dead := w.dead + 1 }.Clean := ⟨hw.heap, hw.contexts, hw.roots, hw.saved⟩
  unfold World.retire
  dsimp only
  split
  · split
    · exact hdead.serve
    · exact hdead.gate _
  · exact hdead

/-! ### objects -/

theorem Clean.growCells (hw : w.Clean) (k : Kind) (n : Nat) : (w.growCells k n).2.Clean :=
  hw.withHeap (Heap.All.take (Heap.All.takeOrGrow Body.clean_free hw.heap k) k _)

theorem Clean.cellsOf (hw : w.Clean) (k : Kind) (n : Nat) : (w.cellsOf k n).2.Clean := by
  have htake {w : World} (hw : w.Clean) : { w with heap := (w.heap.take k n).2 }.Clean :=
    hw.withHeap (Heap.All.take hw.heap k n)
  have hserved : (if w.gate.raised && w.mayServe then w.serve else w).Clean := by
    split
    · exact hw.serve
    · exact hw
  unfold World.cellsOf
  dsimp only
  generalize (if w.gate.raised && w.mayServe then w.serve else w) = w₁ at hserved ⊢
  split
  · exact htake hserved
  · split
    · split
      · exact htake (hserved.gate _).serve
      · exact (hserved.gate _).serve.growCells k n
    · exact (hserved.gate _).growCells k n

theorem Clean.refill (hw : w.Clean) (cx : CtxId) (k : Kind) {b : Body} (hb : b.Clean) :
    (w.refill cx k b).2.Clean := by
  have hheld : (w.modifyCtx cx fun c => { c with temps := c.temps ++ b.children.toArray }).Clean := by
    refine hw.modifyCtx ((hw.ctx cx).withTemps fun v hv => ?_)
    rcases Array.mem_append.mp hv with hv | hv
    · exact (hw.ctx cx).temps v hv
    · exact hb.children v (List.mem_toArray.mp hv)
  have hcells := hheld.cellsOf k (w.modifyCtx cx fun c =>
    { c with temps := c.temps ++ b.children.toArray }).options.allocBatch
  refine hcells.modifyCtx ?_
  have hc := hcells.ctx cx
  exact ⟨hc.stack, fun v hv => hc.temps v (mem_of_mem_take hv), hc.frames, hc.error⟩

theorem Clean.alloc (hw : w.Clean) (cx : CtxId) (k : Kind) {b : Body} (hb : b.Clean) :
    (w.alloc cx k b).1.Clean ∧ (w.alloc cx k b).2.Clean := by
  have hmade {w : World} (hw : w.Clean) (a : Addr) :
      ({ w with heap := w.heap.install a b }.modifyCtx cx fun c =>
        { c with temps := c.temps.push (.obj a) }).Clean := by
    refine (hw.withHeap (Heap.All.install hw.heap a hb)).modifyCtx ?_
    refine (hw.ctx cx).withTemps fun v hv => ?_
    rcases Array.mem_push.mp hv with hv | rfl
    · exact (hw.ctx cx).temps v hv
    · exact Value.clean_obj a
  unfold World.alloc
  split
  rename_i a w₁ hcell
  have hw₁ : w₁.Clean := by
    split at hcell
    · cases hcell
      have hc := hw.ctx cx
      exact hw.modifyCtx ⟨hc.stack, hc.temps, hc.frames, hc.error⟩
    · have hrefill := hw.refill cx k hb
      rwa [hcell] at hrefill
  exact ⟨Value.clean_obj a, hmade hw₁ a⟩

/-! ### contexts -/

theorem Clean.newContext (hw : w.Clean) : w.newContext.2.Clean := by
  unfold World.newContext
  split
  · exact ⟨hw.heap, hw.contexts, hw.roots, hw.saved⟩
  · refine ⟨hw.heap, fun c hc => ?_, hw.roots, hw.saved⟩
    rcases Array.mem_push.mp hc with hc | rfl
    · exact hw.contexts c hc
    · exact Context.clean_empty

theorem Clean.freeChain (hw : w.Clean) (n : Nat) (cx : Option CtxId) : (freeChain n cx w).Clean := by
  induction n generalizing cx w with
  | zero => exact hw
  | succ n ih =>
    cases cx with
    | none => exact hw
    | some cx =>
      have hreset : (w.modifyCtx cx fun _ => {}).Clean := hw.modifyCtx Context.clean_empty
      refine ih (w := if (w.modifyCtx cx fun _ => {}).freeContexts.contains cx then _ else _) ?_ _
      split
      · exact hreset
      · exact ⟨hreset.heap, hreset.contexts, hreset.roots, hreset.saved⟩

theorem Clean.freeContext (hw : w.Clean) (cx : CtxId) : (w.freeContext cx).Clean :=
  hw.freeChain _ _

theorem Clean.intern (hw : w.Clean) (name : Bytes) : { w with heap := (w.heap.intern name).2 }.Clean :=
  hw.withHeap (Heap.All.intern Body.clean_free hw.heap trivial)

theorem clean_new (options : Options) : (World.new options).Clean := by
  have hnamed {h : Heap} (hh : h.Clean) (name : Bytes) : (h.intern name).2.Clean :=
    Heap.All.intern Body.clean_free hh trivial
  have hme := hnamed (Heap.clean_new options.poolBlock) (Bytes.ofString "me")
  unfold World.new
  dsimp only
  generalize (Heap.new options.poolBlock).intern (Bytes.ofString "me") = me at hme ⊢
  have harg := hnamed hme (Bytes.ofString "arg")
  generalize me.2.intern (Bytes.ofString "arg") = arg at harg ⊢
  have hparents := hnamed harg (Bytes.ofString "parents")
  generalize arg.2.intern (Bytes.ofString "parents") = parents at hparents ⊢
  exact ⟨hparents, Array.forall_mem_empty _, Array.forall_mem_empty _,
    fun _ h => absurd h (Array.not_mem_empty _)⟩

end World

end ScriptEngine
