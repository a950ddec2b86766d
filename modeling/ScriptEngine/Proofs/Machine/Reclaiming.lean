import ScriptEngine.Proofs.Machine.Chaining
import ScriptEngine.Proofs.Machine.Passages

/-!
# What is reclaimed

Whatever a run still uses outlasts the collections that are made meanwhile: no root reaches a free cell.  When the
run is over its result has left the stack, and no frame or context refers to it on its account.  The host then
leaves the engine, which is a safe place like any other: a collection that has been asked for is carried out.  The
result outlives that when something else holds on to it, and not otherwise.

* `Machine.call_reaches_no_free_cell`   **no root reaches a free cell**;
* `World.collections_alloc`   a dry pool is collected for;
* `World.Collects`            leaving the engine collects;
* `World.live_leave_iff`      which live values are live afterwards;
* `Host.live_result_iff`      **what becomes of a result**.
-/

namespace ScriptEngine

namespace World

variable {w : World} {c : CtxId} {k : Kind}

theorem collections_cellsOf (n : Nat) (hserves : w.mayServe = true) (hcalm : w.gate.raised = false)
    (hdry : (w.heap.pool k).free = #[]) : (w.cellsOf k n).2.stats.collections = w.stats.collections + 1 := by
  have hnone : (w.heap.take k n).1 = #[] := by
    rw [Heap.take, hdry]
    simp
  have hserve : ({ w with gate := { w.gate with needGc := true } } : World).serve.stats.collections =
      w.stats.collections + 1 := collections_serve _
  unfold cellsOf
  simp only [hcalm, hserves, hnone, Bool.false_and, Bool.false_eq_true, if_false, Array.isEmpty_empty, Bool.not_true,
    if_true]
  split
  · exact hserve
  · exact hserve

/-- **A dry pool is collected for** once, where the gate may be served. -/
theorem collections_alloc (b : Body) (hcache : ((w.ctx c).cache.of k).back? = none) (hserves : w.mayServe = true)
    (hcalm : w.gate.raised = false) (hdry : (w.heap.pool k).free = #[]) :
    (w.alloc c k b).2.stats.collections = w.stats.collections + 1 := by
  unfold alloc
  rw [hcache]
  dsimp only
  rw [refill_eq]
  exact collections_cellsOf (w := w.hold c b) _ hserves hcalm hdry

end World

namespace Machine

/-- **In no state of a call does a root reach a free cell**, whatever the options: started with live
values on an engine whose roots reach none, the call and all runs it starts on children leave every
object alive that the machine still uses. -/
theorem call_reaches_no_free_cell {w : World} (hw : w.InOrder)
    (hroots : ∀ a, w.heap.Reaches w.liveRoots a → w.heap.body a ≠ .free) {cx : CtxId}
    (hcx : cx < w.contexts.size) {func me locals : Value} {args : Array Value}
    (hfunc : w.heap.Live func) (hargs : ∀ v ∈ args, w.heap.Live v) (hme : w.heap.Live me)
    (hlocals : w.heap.Live locals) (n : Nat) (a : Addr) :
    let m := (step .core)^[n] ⟨w.enter, [], .begin cx (.call func args me locals)⟩
    m.world.heap.Reaches m.world.liveRoots a → m.world.heap.body a ≠ .free := by
  intro m ha
  have hstart := sound_call hw (Heap.live_roots_iff.mp hroots) hcx ⟨hfunc, hargs, hme, hlocals⟩
  exact Heap.live_roots_iff.mpr (hstart.run n).world.live a ha

/-! A loop that makes a vector each time round, with a pool of four vectors. -/

namespace Looping

def source : Bytes := Bytes.ofString "for (;;) [];"

def unit : Code Const where
  words := #[12, 8, 1, 30, 1, 13, 7, 39]
  consts := #[.name (Bytes.ofString "arg")]
  lines := #[(0, 1)]
  file := "sample"
  params := #[]
  optional := #[]
  rest := some 0
  needsRest := true

theorem compile_source : ScriptEngine.compile source "sample" 1 = .ok unit := by
  cbv

def loaded : Value × World := Sample.blank.loaded unit [2]

def run (n : Nat) : Machine :=
  (Machine.step .core)^[n] ⟨loaded.2.enter, [], .begin 0 (.call loaded.1 #[] .nil .nil)⟩

theorem reached_loaded : Host.Reached (.idle loaded.2) :=
  Host.reached_blank.compile ⟨by decide +kernel, by decide +kernel⟩
    (Act.run_compile_names compile_source rfl (.cons Sample.symbols_blank .nil))

end Looping

/-- The fourth time round the pool is dry, so the next vector is collected for; whatever the loop comes to after
that, it uses no free cell. -/
theorem call_reaches_no_free_cell_looping :
    ((Looping.run 11).world.alloc 0 .vec (.vec #[])).2.stats.collections = 1 ∧
      ∀ n a, (Looping.run n).world.heap.Reaches (Looping.run n).world.liveRoots a →
        (Looping.run n).world.heap.body a ≠ .free := by
  obtain ⟨hs, hcalm⟩ : Looping.loaded.2.Sound (fun _ => False) ∧ Looping.loaded.2.gate.raised = false :=
    ⟨Looping.reached_loaded.good.ready.2, by decide +kernel⟩
  have hcode : Looping.loaded.1 ∈ (Looping.loaded.2.ctx 0).temps := by decide +kernel
  have hnone : (Looping.run 11).world.stats.collections = 0 := by decide +kernel
  have hdry := World.collections_alloc (w := (Looping.run 11).world) (c := 0) (k := .vec) (.vec #[])
    (by decide +kernel) (by decide +kernel) (by decide +kernel) (by decide +kernel)
  rw [hnone] at hdry
  refine ⟨hdry, fun n a => ?_⟩
  exact call_reaches_no_free_cell ⟨hs.stocked, hs.spare, hs.linked, fun _ => hcalm⟩ (Heap.live_roots_iff.mpr hs.live)
    (by decide +kernel) (hs.live_kept (World.kept_of_temps hcode)) (fun v hv => absurd hv (Array.not_mem_empty v))
    Heap.live_nil Heap.live_nil n a

end Machine

namespace World

variable {w : World} {v : Value}

/-- A collection is asked for, and the way out of the engine is the outermost one. -/
def Collects (w : World) : Prop := w.gate.depth ≤ 1 ∧ w.gate.raised = true ∧ w.gate.needGc = true

instance : Decidable w.Collects := inferInstanceAs (Decidable (_ ∧ _))

theorem heap_leave_of_collects (h : w.Collects) : w.leave.heap = w.collectGarbage.heap := by
  obtain ⟨hdepth, hraised, hgc⟩ := h
  have hout : ¬0 < w.gate.depth - 1 := by omega
  unfold leave serve freeDead
  simp only [if_neg hout, if_pos hraised, if_pos hgc]
  rfl

theorem heap_leave_of_not_collects (h : ¬w.Collects) : w.leave.heap = w.heap := by
  unfold leave
  dsimp only
  split
  · rfl
  · rename_i hout
    split
    · rename_i hraised
      have hgc : ¬w.gate.needGc = true := fun hgc => h ⟨by omega, hraised, hgc⟩
      unfold serve freeDead
      simp only [if_neg hgc]
    · rfl

/-- **A live value is live outside the engine** when leaving collects nothing or a root leads to it. -/
theorem live_leave_iff {used : CtxId → Prop} (hs : w.Sound used) (hv : w.heap.Live v) :
    w.leave.heap.Live v ↔ (w.Collects → ∀ a, v = .obj a → w.heap.Reaches w.liveRoots a) := by
  have hc := collected hs.stocked.laid hs.stocked.clear
  by_cases h : w.Collects
  · rw [heap_leave_of_collects h]
    refine ⟨fun hlive _ a ha => ?_, fun hheld => hc.live (hheld h) hv⟩
    subst ha
    exact Classical.byContradiction fun hnot => hlive.body_ne (hc.freed a hnot)
  · rw [heap_leave_of_not_collects h]
    exact ⟨fun _ hcollects => absurd hcollects h, fun _ => hv⟩

/-- Nothing holds on to the object in a cell: no context, no pin and no object refers to it, and it is no name. -/
def Unheld (w : World) (a : Addr) : Prop :=
  (∀ c ∈ w.contexts.toList, .obj a ∉ c.roots) ∧ .obj a ∉ w.roots.toList ∧ some (.obj a) ∉ w.saved.toList ∧
    (w.heap.body a).kind? ≠ some .str ∧ ∀ b ∈ w.heap.cells.toList, .obj a ∉ b.children

instance (a : Addr) : Decidable (w.Unheld a) := inferInstanceAs (Decidable (_ ∧ _))

theorem Unheld.not_reaches {a : Addr} (h : w.Unheld a) (hc : w.Consistent) : ¬w.heap.Reaches w.liveRoots a := by
  obtain ⟨hctx, hroots, hsaved, hkind, hcells⟩ := h
  have hname {name : Bytes} (hat : w.heap.symbols[name]? = some a) : False := by
    exact hkind (by rw [hc.heap.registered name a hat]; rfl)
  intro hreaches
  cases hreaches with
  | root ha =>
    simp only [liveRoots, List.mem_append, List.mem_flatMap, List.mem_filterMap, List.mem_map] at ha
    rcases ha with (((⟨c, hmem, hv⟩ | hv) | ⟨o, ho, hv⟩) | ⟨⟨name, b⟩, hb, hv⟩) | hv
    · exact hctx c hmem hv
    · exact hroots hv
    · exact hsaved (hv ▸ ho)
    · cases hv
      exact hname (Std.HashMap.mem_toList_iff_getElem?_eq_some.mp hb)
    · simp only [List.mem_cons, List.not_mem_nil, or_false, Value.obj.injEq] at hv
      rcases hv with rfl | rfl | rfl
      · exact hname hc.me
      · exact hname hc.arg
      · exact hname hc.parents
  | @child _ b _ ha =>
    rw [Heap.body] at ha
    cases hb : w.heap.cells[b]? with
    | none =>
      rw [hb] at ha
      exact List.not_mem_nil ha
    | some body =>
      rw [hb] at ha
      exact hcells body (Array.mem_toList_iff.mpr (Array.mem_of_getElem? hb)) ha

end World

namespace Host

/-- **What becomes of a result.**  Whatever natives the host has and whatever they have done, a result is there
with all that it refers to when the run is over.  Once the host has left the engine it still is, unless a
collection has been carried out on the way and no root has led to it. -/
theorem live_result_iff {w : World} {v : Value} (h : Reached (.busy ⟨w, [], .outcome (.ok v)⟩)) :
    w.heap.Live v ∧
      (w.leave.heap.Live v ↔ (w.Collects → ∀ a, v = .obj a → w.heap.Reaches w.liveRoots a)) := by
  have hs := h.good.sound_outcome
  exact ⟨hs.flying, World.live_leave_iff hs.world hs.flying⟩

/-! A program whose native asks for a collection, and which gives back a vector. -/

namespace Collecting

def source : Bytes := Bytes.ofString "me(); []"

def unit : Code Const where
  words := #[40, 1, 35, 0, 1, 8, 39]
  consts := #[.name (Bytes.ofString "arg"), .name (Bytes.ofString "me")]
  lines := #[(0, 1)]
  file := "sample"
  params := #[]
  optional := #[]
  rest := some 0
  needsRest := true

theorem compile_source : ScriptEngine.compile source "sample" 1 = .ok unit := by
  cbv

def native : Native := ⟨"gc", none, false⟩

def engine : World := World.after ((Deed.act 0 (.newNative native)).run Sample.blank)

def loaded : Value × World := engine.loaded unit [2, 3]

def collected : Machine → Machine
  | ⟨w, waiting, .replied cx n site _⟩ =>
    ⟨World.after ((Deed.act cx .collect).run w), waiting, .replied cx n site (.ok (.done .nil))⟩
  | m => m

def run (n : Nat) : Machine :=
  (Machine.step .core)^[n] <| collected <|
    (Machine.step .core)^[3] ⟨loaded.2.enter, [], .begin 0 (.call loaded.1 #[] (.obj 23) .nil)⟩

theorem reached_loaded : Reached (.idle loaded.2) := by
  have hblank : Sample.blank.InUse 0 := ⟨by decide +kernel, by decide +kernel⟩
  have hused : engine.InUse 0 := ⟨by decide +kernel, by decide +kernel⟩
  have hengine : Reached (.idle engine) := reached_blank.deed hblank (d := .newNative native) trivial
  have hat : engine.symMe = 3 ∧ engine.symArg = 2 := by decide +kernel
  have hc : engine.Consistent := hengine.good.consistent
  exact hengine.compile hused (Act.run_compile_names compile_source rfl
    (.cons (hc.arg.trans (congrArg some hat.2)) (.cons (hc.me.trans (congrArg some hat.1)) .nil)))

def worker? : Mode → Option Native
  | .replied _ n _ _ => some n
  | _ => none

theorem reached_collected {m : Machine} (h : Reached (.busy m)) (hn : worker? m.mode = some native) :
    Reached (.busy (collected m)) := by
  obtain ⟨w, waiting, mode⟩ := m
  cases mode with
  | replied cx n site r =>
    obtain rfl := Option.some.inj hn
    have hf : Foreign native := rfl
    exact (h.next (.work hf (d := .collect) trivial)).next (.answer hf Heap.live_nil)
  | _ => cases hn

theorem reached_run (n : Nat) : Reached (.busy (run n)) := by
  have hentered : Reached (.idle loaded.2.enter) := reached_loaded.next (.enter _)
  have hused : loaded.2.enter.InUse 0 := ⟨by decide +kernel, by decide +kernel⟩
  have hgiven : Machine.Given loaded.2.enter.heap (.call loaded.1 #[] (.obj 23) .nil) := by
    refine ⟨hentered.live_temp (c := 0) (by decide +kernel), ?_, hentered.live_temp (c := 0) (by decide +kernel),
      Heap.live_nil⟩
    exact fun v hv => absurd hv (Array.not_mem_empty v)
  exact (reached_collected ((hentered.next (.begin hused hgiven)).run 3) (by decide +kernel)).run n

end Collecting

/-- The vector that the program gives back is there when the run is over, and gone when the host has left. -/
theorem live_result_iff_collecting : ∃ w v, Reached (.busy ⟨w, [], .outcome (.ok v)⟩) ∧ w.heap.Live v ∧
    w.Collects ∧ ¬w.leave.heap.Live v := by
  have hresult : (Collecting.run 5).result? = some (.ok (.obj 6)) := by decide +kernel
  have hunheld : (Collecting.run 5).world.Unheld 6 := by decide +kernel
  have hcollects : (Collecting.run 5).world.Collects := by decide +kernel
  have hreached := Collecting.reached_run 5
  generalize Collecting.run 5 = m at *
  obtain ⟨w, waiting, mode⟩ := m
  obtain ⟨rfl, rfl⟩ := Machine.of_result? hresult
  obtain ⟨hlive, hafter⟩ := live_result_iff hreached
  refine ⟨w, .obj 6, hreached, hlive, hcollects, fun hstays => ?_⟩
  exact hunheld.not_reaches hreached.good.consistent (hafter.mp hstays hcollects 6 rfl)

end Host

end ScriptEngine
