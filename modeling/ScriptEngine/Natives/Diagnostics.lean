import ScriptEngine.Natives.Core

/-!
# Natives to watch an engine from inside

Natives that raise errors, collect, look at frames and run functions on child contexts, and two
types of ghost: a `box` holds a number that scripts can read and write, an `opaque` one has no
members.

* `Natives.diagnostics`           the natives, in the order in which they are added;
* `Natives.registerDiagnostics`   adds them to a namespace;
* `Library.withDiagnostics`       the core library with them.
-/

namespace ScriptEngine

namespace Natives

/-- The ghosts that hold a number. -/
def boxType : GhostType := ⟨"box", true⟩

/-- The ghosts without members. -/
def opaqueType : GhostType := ⟨"opaque", false⟩

def boxesReleased (h : Heap) : Nat :=
  h.released.countP fun
    | .ghost _ => true
    | .data _ => false

def countersReleased (h : Heap) : Nat :=
  h.released.countP fun
    | .ghost _ => false
    | .data _ => true

/-- Fails with a string as the message. -/
def fail (_ : CtxId) (_ : Value) (args : Array Value) : Act Value := do
  match (← Act.heap).bytes? (argument args 0) with
  | some bs => Act.raise (Text.lossy bs)
  | none => Act.raise "boom"

/-- Collects at once where that is possible. -/
def collect (_ : CtxId) (_ : Value) (_ : Array Value) : Act Value := do
  modify World.collectNow
  return .nil

def gc (_ : CtxId) (_ : Value) (_ : Array Value) : Act Value := do
  modify World.collect
  return .nil

def collections (_ : CtxId) (_ : Value) (_ : Array Value) : Act Value := do
  return .ofNat (← get).stats.collections

def nested (cx : CtxId) (_ : Value) (_ : Array Value) : Act Value := do
  return .ofBool (← Act.ctx cx).parent.isSome

def depth (cx : CtxId) (_ : Value) (_ : Array Value) : Act Value := do
  return .ofNat (← Act.ctx cx).frames.size

/-- The file and the line of a frame. -/
def placeStart (cx : CtxId) (_ : Native) (_ : Value) (args : Array Value) : Act Reply := do
  let level ← Act.read fun h => h.numOf (argument args 0)
  match (← Act.ctx cx).frameAt (Numeral.toCount level) with
  | none => return .halt
  | some none => return .done .nil
  | some (some f) =>
    let file ← Act.newText cx f.place.file
    return .done (← Act.newVec cx #[file, .ofNat f.place.line])

/-- Starts a call of a function on a child context. -/
def applyStart (cx : CtxId) (_ : Native) (me : Value) (args : Array Value) : Act Reply := do
  let sub ← Act.subContext cx
  return .run sub (.call (argument args 0) (args.extract 1 args.size) me .nil) { sub }

/-- Ends a call on a child context, which is freed. -/
def applyEnd (cx : CtxId) (_ : Native) (_ : Wait) (r : Except Failure Value) : Act Reply := do
  Act.freeChild cx
  match r with
  | .ok v => return .done v
  | .error e => Act.rethrow cx e

/-- How often `retry` goes on. -/
def retries : Nat := 3

/-- Starts `retry(f, v)`. -/
def retryStart (cx : CtxId) (_ : Native) (_ : Value) (args : Array Value) : Act Reply := do
  let sub ← Act.subContext cx
  return .run sub (.call (argument args 0) #[] .nil .nil) { sub, values := #[argument args 1] }

/-- Goes on with `retry`: a failure is logged and the child resumed with `v`, as often as that is
allowed. -/
def retryNext (cx : CtxId) (_ : Native) (wait : Wait) (r : Except Failure Value) : Act Reply := do
  let v := argument wait.values 0
  let log ← if wait.stage = 0 then Act.newVec cx #[] else pure (argument wait.values 1)
  match r with
  | .ok result =>
    discard <| Act.vecPush log result
    return .done log
  | .error e =>
    if retries ≤ wait.stage then Act.rethrow cx e
    else
      let message ← Act.newText cx e.message
      discard <| Act.vecPush log message
      discard <| Act.vecPush log (.ofNat (← Act.ctx wait.sub).frames.size)
      return .run wait.sub (.resume v) { wait with stage := wait.stage + 1, values := #[v, log] }

/-- A ghost: a box if asked for, else an opaque one. -/
def ghost (cx : CtxId) (_ : Value) (args : Array Value) : Act Value := do
  let payload ← Act.read fun h => h.numOf (argument args 1)
  let isBox := (← Act.heap).bytes? (argument args 0) == some (Bytes.ofString boxType.name)
  Act.newGhost cx ⟨if isBox then boxType else opaqueType, payload⟩

/-- Leaves the engine and enters it again. -/
def unlocked (_ : CtxId) (_ : Value) (_ : Array Value) : Act Value := do
  Act.pause
  return .ofNat 1

/-- The message of the context's error. -/
def lasterr (cx : CtxId) (_ : Value) (_ : Array Value) : Act Value := do
  match (← Act.ctx cx).error with
  | some e => Act.newText cx e.message
  | none => return .nil

/-- Makes a child, then calls a function on another one that takes its place. -/
def staleStart (cx : CtxId) (_ : Native) (_ : Value) (args : Array Value) : Act Reply := do
  let old ← Act.subContext cx
  let sub ← Act.subContext cx
  return .run sub (.call (argument args 0) #[] .nil .nil) { sub := old, values := args }

/-- Calls the function on the child that is no longer there, which fails. -/
def staleNext (cx : CtxId) (_ : Native) (wait : Wait) (r : Except Failure Value) :
    Act Reply := do
  match wait.stage, r with
  | 0, .ok _ =>
    Act.freeChild cx
    return .run wait.sub (.call (argument wait.values 0) #[] .nil .nil) { wait with stage := 1 }
  | 0, .error e =>
    Act.freeChild cx
    Act.rethrow cx e
  | _, .ok v => return .done v
  | _, .error e => throw e

/-- How many boxes and counters have been collected. -/
def destroyed (_ : CtxId) (_ : Value) (_ : Array Value) : Act Value := do
  let h ← Act.heap
  return .ofNat (boxesReleased h + countersReleased h)

def counterStart (_ : CtxId) (n : Native) (_ : Value) (_ : Array Value) : Act Reply := do
  let i := n.data.getD 0
  modify fun w => { w with counters := w.counters.modify i (· + 1) }
  return .done (.ofNat ((← get).counters[i]?.getD 0))

/-- The numbers below `n` as items of vectors of their own. -/
def singles (cx : CtxId) (n : Nat) : Act (List Value) :=
  (List.range n).mapM fun i => Act.newVec cx #[.ofNat i]

/-- The sum of the first items of vectors. -/
def sumFirst (h : Heap) (vs : List Value) : Float :=
  vs.foldl (fun s v => s + (((h.vec? v).bind (·[0]?)).bind Value.num?).getD 0.0) 0.0

/-- Works in another context of the engine: makes vectors there, collects and adds them up. -/
def enterStart (_ : CtxId) (_ : Native) (_ : Value) (args : Array Value) : Act Reply := do
  let n ← Act.read fun h => h.numOf (argument args 0)
  let other ← modifyGet World.newContext
  modify World.enter
  let made ← singles other (Numeral.toCount n)
  modify fun w => w.collectNow.collect
  let sum := sumFirst (← Act.heap) made
  modify World.leave
  modify fun w => w.freeContext other
  return .done (.ofFloat sum)

def diagnostics : List (String × Behaviour) :=
  [("fail", .plain fail), ("collect", .plain collect), ("gc", .plain gc),
    ("collections", .plain collections), ("nested", .plain nested), ("depth", .plain depth),
    ("where", ⟨placeStart, Behaviour.handOn⟩), ("apply", ⟨applyStart, applyEnd⟩),
    ("retry", ⟨retryStart, retryNext⟩), ("ghost", .plain ghost), ("unlocked", .plain unlocked),
    ("lasterr", .plain lasterr), ("stale", ⟨staleStart, staleNext⟩),
    ("destroyed", .plain destroyed)]

def diagnosticsWithData : List (String × Behaviour) :=
  [("counter", ⟨counterStart, Behaviour.handOn⟩), ("enter", ⟨enterStart, Behaviour.handOn⟩)]

def newCounter (cx : CtxId) : Act Value := do
  let i ← modifyGet fun w => (w.counters.size, { w with counters := w.counters.push 0 })
  Act.newNative cx { name := "counter", data := some i, cleanup := true }

/-- Adds the natives to a namespace. -/
def registerDiagnostics (cx : CtxId) (ns : Value) : Act Unit := do
  Act.register cx ns (diagnostics.map (·.1))
  Act.addSym ns "counter" (← newCounter cx)
  Act.addSym ns "enter" (← Act.newNative cx { name := "enter", data := some 0, cleanup := false })

def boxGet (cx : CtxId) (box : Value) (name : Bytes) : Act (Option Value) := do
  if name == Bytes.ofString "value" then
    return ((← Act.heap).ghost? box).map fun g => .ofFloat g.payload
  else if name == Bytes.ofString "label" then return some (← Act.newText cx "a box")
  else if name == Bytes.ofString "bad" then Act.raise "box: bad member"
  else return none

def boxSet (_ : CtxId) (box : Value) (name : Bytes) (v : Value) : Act Unit := do
  if name == Bytes.ofString "value" then
    let x ← Act.read fun h => h.numOf v
    match box, (← Act.heap).ghost? box with
    | .obj a, some g => Act.modifyHeap fun h => h.modify a fun _ => .ghost { g with payload := x }
    | _, _ => pure ()
  else Act.raise ("box: cannot set " ++ Text.lossy name)

end Natives

/-- The core library and the diagnostic natives and ghosts. -/
def Library.withDiagnostics : Library where
  native name :=
    (Natives.core ++ Natives.diagnostics ++ Natives.diagnosticsWithData).lookup name
  ghost type :=
    if type == Natives.boxType.name then ⟨some Natives.boxGet, some Natives.boxSet⟩ else {}

end ScriptEngine
