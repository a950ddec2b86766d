import ScriptEngine.Proofs.Machine.Bounds
import ScriptEngine.Proofs.Machine.Loading

/-!
# Fresh engines

A fresh engine has made the three names that the machine uses itself.  They stand in cells that do not
depend on how names are hashed, and so does code that is loaded there as long as it has no other names.
So a run of such code can be followed step by step.

* `Heap.intern_of_none`, `Heap.intern_of_some`   a name that is made, and one that is there;
* `World.new_eq_fresh`     a fresh engine, cell by cell;
* `Act.run_load`           loading, constant by constant;
* `Sample.reached`         an engine with a small loop that calls a function, ready to run.
-/

namespace ScriptEngine

namespace Heap

variable {h : Heap} {name : Bytes}

theorem symbols_takeOrGrow (h : Heap) (k : Kind) : (h.takeOrGrow k).2.symbols = h.symbols := by
  unfold takeOrGrow
  dsimp only
  split <;> rfl

/-- The heap with a new name in a cell of its own. -/
def named (h : Heap) (name : Bytes) : Heap :=
  let (a, h) := h.takeOrGrow .str
  let h := h.install a (.str (.ofName name))
  { h with symbols := h.symbols.insert name a }

theorem symbols_named (h : Heap) (name : Bytes) :
    (h.named name).symbols = h.symbols.insert name (h.takeOrGrow .str).1 := by
  show ((h.takeOrGrow .str).2.symbols).insert _ _ = _
  rw [symbols_takeOrGrow]
  rfl

theorem intern_of_none (hn : h.symbols[name]? = none) :
    h.intern name = ((h.takeOrGrow .str).1, h.named name) := by
  rw [intern, hn]
  rfl

theorem intern_of_some {a : Addr} (hn : h.symbols[name]? = some a) : h.intern name = (a, h) := by
  rw [intern, hn]

end Heap

namespace World

/-- An engine with the names `me`, `arg` and `parents`. -/
def fresh (options : Options) : World :=
  let h := Heap.new options.poolBlock
  let me := (h.takeOrGrow .str).1
  let h := h.named (Bytes.ofString "me")
  let arg := (h.takeOrGrow .str).1
  let h := h.named (Bytes.ofString "arg")
  let parents := (h.takeOrGrow .str).1
  let h := h.named (Bytes.ofString "parents")
  { options, heap := h, symMe := me, symArg := arg, symParents := parents }

theorem names_ne : (Bytes.ofString "me" == Bytes.ofString "arg") = false ∧
    (Bytes.ofString "me" == Bytes.ofString "parents") = false ∧
    (Bytes.ofString "arg" == Bytes.ofString "parents") = false := by
  decide +kernel

theorem new_eq_fresh (options : Options) : World.new options = fresh options := by
  obtain ⟨hme, hme', harg⟩ := names_ne
  have hnone (name : Bytes) : (Heap.new options.poolBlock).symbols[name]? = none :=
    Std.HashMap.getElem?_empty
  have h₁ := Heap.intern_of_none (hnone (Bytes.ofString "me"))
  have h₂ : ((Heap.new options.poolBlock).named (Bytes.ofString "me")).symbols[Bytes.ofString "arg"]? =
      none := by
    rw [Heap.symbols_named, Std.HashMap.getElem?_insert, hme]
    exact hnone _
  have h₃ : (((Heap.new options.poolBlock).named (Bytes.ofString "me")).named
      (Bytes.ofString "arg")).symbols[Bytes.ofString "parents"]? = none := by
    rw [Heap.symbols_named, Std.HashMap.getElem?_insert, harg, Heap.symbols_named,
      Std.HashMap.getElem?_insert, hme']
    exact hnone _
  simp only [World.new, h₁, Heap.intern_of_none h₂, Heap.intern_of_none h₃]
  rfl

theorem symbols_arg (options : Options) :
    (fresh options).heap.symbols[Bytes.ofString "arg"]? = some (fresh options).symArg := by
  have harg : (Bytes.ofString "parents" == Bytes.ofString "arg") = false := by decide +kernel
  simp only [fresh, Heap.symbols_named, Std.HashMap.getElem?_insert, harg]
  simp

end World

/-! ## loading -/

/-- The engine after the hash of a name has been taken. -/
def World.hashed (w : World) (a : Addr) : World := { w with heap := w.heap.freeze (.obj a) }

namespace Act

variable {cx : CtxId} {w w' : World}

theorem run_loadConst_name {name : Bytes} {a : Addr} (hn : w.heap.symbols[name]? = some a) :
    (loadConst cx (.name name)).run w = .ok (.obj a, (w.heap.keyHash (.obj a)).1) (w.hashed a) := by
  have hintern : (intern name).run w = .ok (.obj a) w := by
    show EStateM.Result.ok (Value.obj (w.heap.intern name).1) { w with heap := (w.heap.intern name).2 } = _
    rw [Heap.intern_of_some hn]
  rw [loadConst, loadName, run_bind_of_ok hintern]
  rfl

theorem run_loadConst_code {c : Code Const} {v : Value} (h : (load cx c).run w = .ok v w') :
    (loadConst cx (.code c)).run w = .ok (v, 0) w' := by
  rw [loadConst, run_bind_of_ok h]
  rfl

theorem run_loadList_cons {c : Const} {p : Value × UInt32} (h : (loadConst cx c).run w = .ok p w')
    (cs : List Const) (vs : Array Value) (hs : Array UInt32) :
    (loadList cx (c :: cs) vs hs).run w = (loadList cx cs (vs.push p.1) (hs.push p.2)).run w' := by
  rw [loadList, run_bind_of_ok h]

theorem run_load {c : Code Const} {vs : Array Value} {hs : Array UInt32}
    (h : (loadList cx c.consts.toList #[] #[]).run w = .ok (vs, hs) w') :
    (load cx c).run w = .ok (w'.alloc cx .code (.code { c with consts := vs, hashes := hs })).1
      (w'.alloc cx .code (.code { c with consts := vs, hashes := hs })).2 := by
  obtain ⟨words, ⟨consts⟩, lines, file, params, optional, rest, needsRest⟩ := c
  rw [load, loadConsts, run_bind_of_ok h]
  rfl

theorem run_compile {c : Code Const} {src : Bytes} {file : String} {line : Nat} {v : Value}
    (hc : ScriptEngine.compile src file line = .ok c) (h : (load cx c).run w = .ok v w') :
    (compile cx src file line).run w = .ok (.ok v) w' := by
  rw [compile, hc]
  dsimp only
  rw [run_bind_of_ok h]
  rfl

end Act

/-! ### names only -/

/-- The hashes of names in these cells, behind those before, and the engine that has taken them. -/
def World.hashNames (w : World) : List Addr → Array UInt32 → Array UInt32 × World
  | [], hashes => (hashes, w)
  | a :: cells, hashes => (w.hashed a).hashNames cells (hashes.push (w.heap.keyHash (.obj a)).1)

/-- A unit loaded whose constants are names in these cells. -/
def World.loaded (w : World) (c : Code Const) (cells : List Addr) : Value × World :=
  let (hashes, w) := w.hashNames cells #[]
  w.alloc 0 .code (.code { c with consts := (cells.map Value.obj).toArray, hashes })

namespace Act

theorem run_loadList_names {names : List Bytes} {cells : List Addr} (vs : Array Value) (hs : Array UInt32)
    (h : List.Forall₂ (fun name a => w.heap.symbols[name]? = some a) names cells) :
    (loadList cx (names.map Const.name) vs hs).run w =
      .ok (vs ++ (cells.map Value.obj).toArray, (w.hashNames cells hs).1) (w.hashNames cells hs).2 := by
  induction names generalizing w vs hs cells with
  | nil =>
    cases h
    simp [loadList, World.hashNames, pure, EStateM.pure, EStateM.run]
  | cons name names ih =>
    cases h with
    | @cons _ a _ cells hname h =>
      have hlater : List.Forall₂ (fun name b => (w.hashed a).heap.symbols[name]? = some b) names cells := by
        rw [World.hashed, Heap.symbols_freeze]
        exact h
      rw [List.map_cons, run_loadList_cons (run_loadConst_name hname), ih _ _ hlater, World.hashNames]
      simp

/-- A text that compiles to a unit whose constants are names. -/
theorem run_compile_names {c : Code Const} {src : Bytes} {file : String} {line : Nat} {names : List Bytes}
    {cells : List Addr} (hc : ScriptEngine.compile src file line = .ok c)
    (hconsts : c.consts = (names.map Const.name).toArray)
    (h : List.Forall₂ (fun name a => w.heap.symbols[name]? = some a) names cells) :
    (compile 0 src file line).run w = .ok (.ok (w.loaded c cells).1) (w.loaded c cells).2 := by
  refine run_compile hc (run_load ?_)
  rw [hconsts]
  exact (run_loadList_names #[] #[] h).trans (by rw [Array.empty_append])

end Act

namespace Machine

/-- The context that executes its innermost frame. -/
def running? (m : Machine) : Option CtxId :=
  match m.mode with
  | .running cx => some cx
  | _ => none

theorem mode_of_running? {m : Machine} {cx : CtxId} (h : m.running? = some cx) : m.mode = .running cx := by
  unfold running? at h
  split at h
  · rename_i hmode
    rw [hmode, Option.some.inj h]
  · exact nomatch h

end Machine

/-- A new engine with one context. -/
def Sample.blank : World := (World.fresh { poolBlock := 4 }).newContext.2

theorem Sample.symbols_blank : blank.heap.symbols[Bytes.ofString "arg"]? = some 2 := by
  have hat : (World.fresh { poolBlock := 4 }).symArg = 2 := by decide +kernel
  exact (World.symbols_arg { poolBlock := 4 }).trans (congrArg some hat)

/-! ## a small program -/

/-! A loop that calls a function without a body and ends.  It has neither numbers nor names but `arg`. -/

namespace Sample

def source : Bytes := Bytes.ofString "for (;;) \x7b (func () \x7b\x7d)(); break; \x7d"

def inner : Code Const where
  words := #[7, 39]
  consts := #[.name (Bytes.ofString "arg")]
  lines := #[(0, 1)]
  file := "sample"
  params := #[]
  optional := #[]
  rest := some 0
  needsRest := false

def unit : Code Const where
  words := #[12, 48, 1, 35, 0, 1, 14, 29, 11, 30, 1, 13, 7, 39]
  consts := #[.name (Bytes.ofString "arg"), .code inner]
  lines := #[(0, 1)]
  file := "sample"
  params := #[]
  optional := #[]
  rest := some 0
  needsRest := true

theorem compile_source : ScriptEngine.compile source "sample" 1 = .ok unit := by
  cbv

variable {w : World} {a : Addr}

def loadedInner (w : World) (a : Addr) : Value × World :=
  (w.hashed a).alloc 0 .code
    (.code { inner with consts := #[.obj a], hashes := #[(w.heap.keyHash (.obj a)).1] })

def loaded (w : World) (a : Addr) : Value × World :=
  let r := loadedInner (w.hashed a) a
  r.2.alloc 0 .code
    (.code { unit with consts := #[.obj a, r.1], hashes := #[(w.heap.keyHash (.obj a)).1, 0] })

theorem run_load_inner (hn : w.heap.symbols[Bytes.ofString "arg"]? = some a) :
    (Act.load 0 inner).run w = .ok (loadedInner w a).1 (loadedInner w a).2 := by
  have hlist : (Act.loadList 0 inner.consts.toList #[] #[]).run w =
      .ok (#[.obj a], #[(w.heap.keyHash (.obj a)).1]) (w.hashed a) := by
    rw [inner, Act.run_loadList_cons (Act.run_loadConst_name hn)]
    rfl
  rw [Act.run_load hlist, loadedInner]

theorem run_load_unit (hn : w.heap.symbols[Bytes.ofString "arg"]? = some a) :
    (Act.load 0 unit).run w = .ok (loaded w a).1 (loaded w a).2 := by
  have hagain : (w.hashed a).heap.symbols[Bytes.ofString "arg"]? = some a := by
    rw [World.hashed, Heap.symbols_freeze]
    exact hn
  have hinner := Act.run_loadConst_code (run_load_inner hagain)
  have hlist : (Act.loadList 0 unit.consts.toList #[] #[]).run w =
      .ok (#[.obj a, (loadedInner (w.hashed a) a).1], #[(w.heap.keyHash (.obj a)).1, 0])
        (loadedInner (w.hashed a) a).2 := by
    rw [unit, Act.run_loadList_cons (Act.run_loadConst_name hn), Act.run_loadList_cons hinner]
    rfl
  rw [Act.run_load hlist, loaded]

theorem run_compile (hn : w.heap.symbols[Bytes.ofString "arg"]? = some a) :
    (Act.compile 0 source "sample" 1).run w = .ok (.ok (loaded w a).1) (loaded w a).2 :=
  Act.run_compile compile_source (run_load_unit hn)

def engine : Value × World :=
  let r := loaded blank.enter 2
  (r.1, r.2.leave)

theorem visit_compile : (Engine.visit (Act.compile 0 source "sample" 1)
    (World.new { poolBlock := 4 }).newContext.2).2 = engine.2 := by
  have hrun : (Act.compile 0 source "sample" 1).run blank.enter = _ := run_compile symbols_blank
  rw [World.new_eq_fresh, Engine.visit, ← blank, hrun, engine]

theorem reached : World.Reached .core engine.2 := by
  have hnew : World.Reached .core (World.new { poolBlock := 4 }).newContext.2 :=
    (World.Reached.new _).newContext
  rw [← visit_compile]
  exact hnew.visit (Act.calm_compile source "sample" 1)

theorem inUse : engine.2.InUse 0 := ⟨by decide +kernel, by decide +kernel⟩

def run (n : Nat) : Machine :=
  (Machine.step .core)^[n] ⟨engine.2.enter, [], .begin 0 (.call engine.1 #[] .nil .nil)⟩

end Sample

end ScriptEngine
