import ScriptEngine.Machine.Library

/-!
# Calling functions

* `Callee`     what can be called;
* `bindArgs`   arguments by place: required ones, defaults, the rest vector;
* `bindNamed`  arguments by name;
* `begin`      starts a request on a context.
-/

namespace ScriptEngine

/-- What a value is as a function. -/
inductive Callee where
  | native (n : Native)
  | script (code : Loaded) (scope : Value)
  /-- Code that is not bound to a scope. -/
  | bare (code : Loaded)
  | none

def Heap.callee (h : Heap) (v : Value) : Callee :=
  match h.bodyOf v with
  | .func target scope =>
    match h.bodyOf target with
    | .code c => .script c scope
    | .native n => .native n
    | _ => .none
  | .native n => .native n
  | .code c => .bare c
  | _ => .none

def Loaded.const (c : Loaded) (i : Nat) : Value := c.consts[i]?.getD .nil

def Loaded.constHash (c : Loaded) (i : Nat) : UInt32 := c.hashes[i]?.getD 0

namespace Act

/-- Binds the name of a constant in the locals. -/
def bindConst (code : Loaded) (locals : Value) (i : Nat) (v : Value) : Act Unit :=
  setHashed locals (code.const i) (code.constHash i) true v

/-- Binds the receiver, unless it is `nil`. -/
def bindMe (locals me : Value) : Act Unit := do
  if !me.isNil then hashSet locals (.obj (← get).symMe) me

/-- Binds arguments by place. -/
def bindArgs (cx : CtxId) (code : Loaded) (locals : Value) (args : Array Value) (me : Value) :
    Act Unit := do
  bindMe locals me
  let need := code.params.size
  if args.size < need then fail (.tooFewArguments args.size need)
  (code.params.toList.zip args.toList).forM fun (i, v) => bindConst code locals i v
  code.optional.toList.zipIdx.forM fun ((i, d), k) =>
    bindConst code locals i (args[need + k]?.getD (code.const d))
  match code.rest with
  | some i =>
    let extra := args.extract (need + code.optional.size) args.size
    if code.needsRest || !extra.isEmpty then
      let v ← newVec cx extra
      bindConst code locals i v
  | none => pure ()

def isBound (code : Loaded) (locals : Value) (i : Nat) : Act Bool := do
  return ((← heap).named? locals (code.const i) (code.constHash i)).isSome

/-- Binds arguments by name. -/
def bindNamed (cx : CtxId) (code : Loaded) (locals named me : Value) : Act Unit := do
  let entries := (((← heap).table? named).map (·.entries)).getD []
  bindMe locals me
  entries.forM fun e => hashSet locals e.key e.val
  code.params.toList.forM fun i => do
    if !(← isBound code locals i) then
      fail (.missingArgument (((← heap).bytes? (code.const i)).getD []))
  code.optional.toList.forM fun (i, d) => do
    if !(← isBound code locals i) then bindConst code locals i (code.const d)
  match code.rest with
  | some i =>
    if code.needsRest then
      let v ← newVec cx #[]
      bindConst code locals i v
  | none => pure ()

def startNative (lib : Library) (cx : CtxId) (n : Native) (me : Value) (args : Array Value) :
    Act Reply :=
  match lib.native n.name with
  | some b => b.start cx n me args
  | none => fail .notCallable

/-- What a request has led to: a frame to run, or what a native does. -/
inductive Begun where
  | frame
  | native (n : Native) (r : Reply)

/-- Starts a call on a context whose former state is dropped. -/
def beginCall (lib : Library) (cx : CtxId) (func : Value) (args : Array Value) (me locals : Value) :
    Act Begun := do
  push cx func
  args.forM fun a => push cx a
  push cx me
  push cx locals
  match (← heap).callee func with
  | .native n => return .native n (← startNative lib cx n me args)
  | callee =>
    let locals ← if (← heap).isKind locals .hash then pure locals else newHash cx
    let (code, scope, func) ←
      match callee with
      | .script code scope => pure (code, scope, func)
      | .bare code => do
        let bound ← newFunc cx func .nil
        pure (code, Value.nil, bound)
      | _ => fail .notCallable
    bindArgs cx code locals args me
    cut cx 0
    pushFrame cx func code locals scope 0
    return .frame

/-- Drops the former state of a context before a call. -/
def prepareCall (cx : CtxId) : Act Unit := do
  freeChild cx
  modifyCtx cx fun c => { c.clearStacks with error := none }

def prepareResume (cx : CtxId) (height : Nat) (v : Value) : Act Unit := do
  freeChild cx
  modifyCtx cx fun c => { c with error := none }
  cut cx height
  push cx v

/-- Ends a run on a context: after a success its state is dropped, after a failure the places of
its frames are added to the error, which it keeps. -/
def finish (cx : CtxId) (r : Except Failure Value) : Act (Except Failure Value) := do
  match r with
  | .ok v =>
    modifyCtx cx Context.clearStacks
    freeChild cx
    return .ok v
  | .error e =>
    let e := { e with trace := e.trace ++ (← ctx cx).places }
    modifyCtx cx fun c => { c with error := some e }
    return .error e

end Act

end ScriptEngine
