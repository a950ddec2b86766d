import ScriptEngine.Failure
import ScriptEngine.Heap.Mark
import ScriptEngine.Options

/-!
# The state of an engine

`World` holds the heap, the contexts, the pinned values, and the gate through which a thread enters
and leaves.  A collection runs only at the gate: a request raises a flag, and the thread serves it
at its next safe place, which is a jump backwards, a refill of its cell cache, or entering and
leaving at the outermost level.  While the thread has entered more than once an outer activity may
still hold values that no root shows, so nothing is served then.

* `World.collectGarbage`  marks from all roots and sweeps;
* `World.serve`           serves a raised gate;
* `World.enter`, `World.leave`, `World.poll`  the safe places;
* `World.cellsOf`         free cells, collecting once and then growing when a pool is dry.
-/

namespace ScriptEngine

/-- The number of a context. -/
abbrev CtxId := Nat

/-- One active call of script code. -/
structure Frame where
  func : Value
  code : Loaded
  ip : Nat
  locals : Value
  closure : Value
  /-- Height of the operand stack below the call. -/
  bp : Nat
  /-- Height of the mark stack below the call. -/
  markBase : Nat

/-- The place a frame is at: that of the instruction it executes. -/
def Frame.place (f : Frame) : Place := ⟨f.code.file, f.code.lineAt (f.ip - 1)⟩

/-- A call stack with what belongs to it. -/
structure Context where
  stack : Array Value := #[]
  frames : Array Frame := #[]
  marks : Array Nat := #[]
  /-- Values made since the current instruction started. -/
  temps : Array Value := #[]
  error : Option Failure := none
  /-- Height of the operand stack to go on at after a failed native call. -/
  resumeAt : Option Nat := none
  /-- Free cells taken from the pools. -/
  cache : PerKind (Array Addr) := Vector.replicate 8 #[]
  child : Option CtxId := none
  parent : Option CtxId := none
  nesting : Nat := 0

instance : Inhabited Context := ⟨{}⟩

namespace Context

/-- The values a context keeps alive. -/
def roots (c : Context) : List Value :=
  c.stack.toList ++ c.temps.toList
    ++ c.frames.toList.flatMap (fun f => [f.func, f.locals, f.closure])
    ++ (c.error.map (·.value)).toList

/-- Drops the cached cells; the next sweep finds them again. -/
def dropCache (c : Context) : Context := { c with cache := Vector.replicate 8 #[] }

def clearStacks (c : Context) : Context :=
  { c with stack := #[], frames := #[], marks := #[], resumeAt := none }

/-- The frame `level` places above the innermost one, or `some none` past the outermost.  The number of
frames down to it is a machine word; where it would not be one there is no answer at all. -/
def frameAt (c : Context) (level : Nat) : Option (Option Frame) :=
  (Numeral.next? level).map fun n => if n ≤ c.frames.size then c.frames[c.frames.size - n]? else none

/-- The places of the frames, innermost first. -/
def places (c : Context) : List Place := c.frames.toList.reverse.map Frame.place

end Context

structure Gate where
  /-- How many times the thread has entered. -/
  depth : Nat := 0
  /-- How many threads are inside. -/
  threads : Nat := 0
  /-- Whether the thread is asked to stop at its next safe place. -/
  raised : Bool := false
  /-- The same flag, as it is polled. -/
  pending : Bool := false
  /-- Whether a collection is wanted. -/
  needGc : Bool := false
  deriving Repr, DecidableEq, Inhabited

/-- Counters of the collector. -/
structure Stats where
  collections : Nat := 0
  reclaimed : Nat := 0
  live : Nat := 0
  deadFreed : Nat := 0
  deriving Repr, DecidableEq, Inhabited

/-- The state of an engine. -/
structure World where
  options : Options
  heap : Heap
  contexts : Array Context := #[]
  /-- The contexts that are not in use; the last one is used next. -/
  freeContexts : Array CtxId := #[]
  /-- Values pinned for good. -/
  roots : Array Value := #[]
  /-- Values pinned under a key. -/
  saved : Array (Option Value) := #[]
  savedFree : Array Nat := #[]
  gate : Gate := {}
  stats : Stats := {}
  /-- Retired table storage that has not been released. -/
  dead : Nat := 0
  /-- The names with a meaning for the machine. -/
  symMe : Addr
  symArg : Addr
  symParents : Addr
  /-- What scripts have printed, last piece first. -/
  printed : List Bytes := []
  /-- How far each counter of the host has counted. -/
  counters : Array Nat := #[]

namespace World

def new (options : Options) : World :=
  let h := Heap.new options.poolBlock
  let (me, h) := h.intern (Bytes.ofString "me")
  let (arg, h) := h.intern (Bytes.ofString "arg")
  let (parents, h) := h.intern (Bytes.ofString "parents")
  { options, heap := h, symMe := me, symArg := arg, symParents := parents }

/-- Everything printed so far. -/
def output (w : World) : Bytes := w.printed.reverse.flatten

def ctx (w : World) (cx : CtxId) : Context := w.contexts[cx]?.getD {}

def modifyCtx (w : World) (cx : CtxId) (f : Context → Context) : World :=
  { w with contexts := w.contexts.modify cx f }

/-! ## Collecting -/

/-- The values that keep objects alive. -/
def liveRoots (w : World) : List Value :=
  w.contexts.toList.flatMap Context.roots ++ w.roots.toList ++ w.saved.toList.filterMap id
    ++ w.heap.symbols.toList.map (fun p => .obj p.2)
    ++ [.obj w.symMe, .obj w.symArg, .obj w.symParents]

/-- Marks from all roots and sweeps; the caches of all contexts are dropped. -/
def collectGarbage (w : World) : World :=
  let w := { w with contexts := w.contexts.map Context.dropCache }
  let (heap, _) := w.heap.mark w.liveRoots
  let (heap, reclaimed, live) := heap.sweep
  { w with
    heap
    gate := { w.gate with needGc := false }
    stats := { w.stats with
      collections := w.stats.collections + 1
      reclaimed := w.stats.reclaimed + reclaimed
      live } }

/-- Releases the retired table storage. -/
def freeDead (w : World) : World :=
  { w with dead := 0, stats := { w.stats with deadFreed := w.stats.deadFreed + w.dead } }

/-- Serves the gate: the thread is the only one inside, so it releases what is dead, collects if
that is wanted, and lowers the flag. -/
def serve (w : World) : World :=
  let w := w.freeDead
  let w := if w.gate.needGc then w.collectGarbage else w
  { w with gate := { w.gate with raised := false, pending := false } }

/-- Asks for the gate to be served later, for a collection if `gc`. -/
def request (w : World) (gc : Bool) : World :=
  { w with gate := { w.gate with
      needGc := w.gate.needGc || gc
      raised := true
      pending := true } }

/-- Whether the thread may serve the gate where it is. -/
def mayServe (w : World) : Bool := w.gate.depth ≤ 1

def enter (w : World) : World :=
  let w := { w with gate := { w.gate with depth := w.gate.depth + 1 } }
  if 1 < w.gate.depth then w
  else
    let w := { w with gate := { w.gate with threads := w.gate.threads + 1 } }
    if w.gate.raised then w.serve else w

def leave (w : World) : World :=
  let w := { w with gate := { w.gate with depth := w.gate.depth - 1 } }
  if 0 < w.gate.depth then w
  else
    let w := if w.gate.raised then w.serve else w
    { w with gate := { w.gate with threads := w.gate.threads - 1 } }

/-- A safe place in running code. -/
def poll (w : World) : World :=
  if w.gate.pending && w.mayServe && w.gate.raised then w.serve else w

/-- Collects at once where that is possible, else asks for it. -/
def collectNow (w : World) : World :=
  if w.mayServe then { w with gate := { w.gate with needGc := true } }.serve else w.request true

/-- Collects, from inside the engine only on leaving it. -/
def collect (w : World) : World :=
  if 0 < w.gate.depth then w.request true else w.enter.collectNow.leave

/-- Notes retired table storage, and releases it when enough has piled up. -/
def retire (w : World) : World :=
  let w := { w with dead := w.dead + 1 }
  if w.options.deadBlocks ≤ w.dead then
    if w.mayServe then w.serve else w.request false
  else w

/-! ## Cells -/

/-- One cell at least from a pool that has none, with a new block if need be. -/
def growCells (w : World) (k : Kind) (n : Nat) : Array Addr × World :=
  let (first, h) := w.heap.takeOrGrow k
  let (more, h) := h.take k (n - 1)
  (more.push first, { w with heap := h })

/-- Up to `n` free cells of a type and at least one.  A dry pool is collected for once, if that is
possible, and then grows; while nested it grows right away. -/
def cellsOf (w : World) (k : Kind) (n : Nat) : Array Addr × World :=
  let serves := w.mayServe
  let w := if w.gate.raised && serves then w.serve else w
  let (cells, heap) := w.heap.take k n
  if !cells.isEmpty then (cells, { w with heap })
  else if serves then
    let w := { w with gate := { w.gate with needGc := true } }.serve
    let (cells, heap) := w.heap.take k n
    if !cells.isEmpty then (cells, { w with heap }) else w.growCells k n
  else { w with gate := { w.gate with needGc := true } }.growCells k n

/-- The cells of a refill.  What the object to be made refers to is kept alive meanwhile. -/
def refill (w : World) (cx : CtxId) (k : Kind) (pending : Body) : Addr × World :=
  let base := (w.ctx cx).temps.size
  let w := w.modifyCtx cx fun c => { c with temps := c.temps ++ pending.children.toArray }
  let (cells, w) := w.cellsOf k w.options.allocBatch
  let w := w.modifyCtx cx fun c =>
    { c with temps := c.temps.take base, cache := c.cache.modify k (· ++ cells.pop) }
  (cells.back?.getD 0, w)

/-- Makes an object of type `k`, which the context keeps alive until its next instruction. -/
def alloc (w : World) (cx : CtxId) (k : Kind) (b : Body) : Value × World :=
  let (a, w) :=
    match ((w.ctx cx).cache.of k).back? with
    | some a => (a, w.modifyCtx cx fun c => { c with cache := c.cache.modify k Array.pop })
    | none => w.refill cx k b
  let w := { w with heap := w.heap.install a b }
  (.obj a, w.modifyCtx cx fun c => { c with temps := c.temps.push (.obj a) })

/-! ## Contexts -/

/-- A context from the free list, or a new one. -/
def newContext (w : World) : CtxId × World :=
  match w.freeContexts.back? with
  | some cx => (cx, { w with freeContexts := w.freeContexts.pop })
  | none => (w.contexts.size, { w with contexts := w.contexts.push {} })

/-- Resets a context and the chain of its children and puts them on the free list.  The number
bounds the chain. -/
def freeChain : Nat → Option CtxId → World → World
  | n + 1, some cx, w =>
    let child := (w.ctx cx).child
    let w := w.modifyCtx cx fun _ => {}
    let w :=
      if w.freeContexts.contains cx then w else { w with freeContexts := w.freeContexts.push cx }
    freeChain n child w
  | _, _, w => w

def freeContext (w : World) (cx : CtxId) : World := freeChain w.contexts.size (some cx) w

/-! ## Pins -/

/-- Pins a value for good. -/
def pin (w : World) (v : Value) : World := { w with roots := w.roots.push v }

/-- Pins a value under a key. -/
def save (w : World) (v : Value) : Nat × World :=
  match w.savedFree.back? with
  | some i => (i, { w with saved := w.saved.setIfInBounds i (some v), savedFree := w.savedFree.pop })
  | none => (w.saved.size, { w with saved := w.saved.push (some v) })

/-- Releases what is pinned under a key. -/
def unsave (w : World) (key : Nat) : World :=
  match w.saved[key]? with
  | some (some _) =>
    { w with saved := w.saved.setIfInBounds key none, savedFree := w.savedFree.push key }
  | _ => w

end World

end ScriptEngine
