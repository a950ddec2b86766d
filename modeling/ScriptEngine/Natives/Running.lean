import ScriptEngine.Machine.Load
import ScriptEngine.Natives.Containers
import ScriptEngine.Natives.Rendering

/-!
# Natives on running code

`print`, `die`, `call`, `compile`, `bind`, `closure` and `caller`.
-/

namespace ScriptEngine

namespace Act

/-- Leaves the engine and enters it again; a wanted collection runs meanwhile. -/
def pause : Act Unit := modify fun w => w.leave.enter

/-- Binds code to a closure over a namespace. -/
def bindTo (cx : CtxId) (code ns next : Value) : Act Value := do
  let scope ← newClosure cx ns next
  newFunc cx code scope

/-- Binds compiled code to the scope of the innermost frame, or to a fresh namespace outside any
call. -/
def bindToCaller (cx : CtxId) (code : Value) : Act Value := do
  if !(← heap).isKind code .code then fail (.notCode "bind_to_caller")
  match (← ctx cx).frames.back? with
  | some f => bindTo cx code f.locals f.closure
  | none => bindTo cx code (← newHash cx) .nil

def bindFunction (cx : CtxId) (code ns : Value) : Act Value := do
  let h ← heap
  if !h.isKind code .code then fail (.notCode "bind_function")
  if !h.isKind ns .hash then fail .scopeNotHash
  bindTo cx code ns .nil

end Act

namespace Natives

/-- Prints its arguments one after the other; the result is what was printed. -/
def print (cx : CtxId) (_ : Value) (args : Array Value) : Act Value := do
  let h ← Act.heap
  let text := args.toList.flatMap h.render
  modify fun w => { w.leave with printed := text :: w.printed }
  modify World.enter
  Act.newStr cx text

def die (_ : CtxId) (_ : Value) (args : Array Value) : Act Value := do
  let v := argument args 0
  match (← Act.heap).toBytes? v with
  | some bs => throw { cause := .raised (Text.lossy bs), value := v }
  | none => throw { cause := .raised "die", value := v }

/-- The arguments given to `call` as a vector; `nil` stands for none. -/
def argumentList (h : Heap) (v : Value) : Except Cause (Array Value) :=
  if v.isNil then .ok #[]
  else
    match h.vec? v with
    | some items => .ok items
    | none => .error .argumentsNotVector

/-- Appends an error to a vector: its message, then the file and the line of each place. -/
def report (cx : CtxId) (errors : Value) (e : Failure) : Act Unit := do
  let message ← Act.newText cx e.message
  discard <| Act.vecPush errors message
  e.trace.forM fun p => do
    let file ← Act.newText cx p.file
    discard <| Act.vecPush errors file
    discard <| Act.vecPush errors (.ofNat p.line)

/-- Starts `call(f, args, me, locals, errors)` on a child context. -/
def callStart (cx : CtxId) (_ : Native) (_ : Value) (args : Array Value) : Act Reply := do
  let h ← Act.heap
  let list ← Act.ofExcept (argumentList h (argument args 1))
  let locals := argument args 3
  if !locals.isNil && !h.isKind locals .hash then Act.fail .localsNotHash
  let sub ← Act.subContext cx
  return .run sub (.call (argument args 0) list (argument args 2) locals)
    { sub, values := #[argument args 4] }

/-- Ends `call`.  With a vector for errors a failure is appended to it and the result is `nil`. -/
def callEnd (cx : CtxId) (_ : Native) (wait : Wait) (r : Except Failure Value) : Act Reply := do
  Act.freeChild cx
  match r with
  | .ok v => return .done v
  | .error e =>
    let errors := argument wait.values 0
    if (← Act.heap).isKind errors .vec then
      report cx errors e
      return .done .nil
    else Act.rethrow cx e

def compile (cx : CtxId) (_ : Value) (args : Array Value) : Act Value := do
  let h ← Act.heap
  match h.bytes? (argument args 0) with
  | none => Act.fail .sourceNotText
  | some src =>
    let file := ((h.bytes? (argument args 1)).map Text.lossy).getD "<compile>"
    match ← Act.compile cx src file 1 with
    | .ok code => Act.bindToCaller cx code
    | .error e => Act.raise e.describe

/-- `bind(f, ns, outer)`: the code of `f` closed over `ns` and the closure of `outer`. -/
def bind (cx : CtxId) (_ : Value) (args : Array Value) : Act Value := do
  let h ← Act.heap
  match h.func? (argument args 0) with
  | none => Act.fail (.notA "bind" "function")
  | some (code, _) =>
    let ns := argument args 1
    if !h.isKind ns .hash then Act.fail .namespaceNotHash
    let outer := argument args 2
    if outer.isNil then Act.bindTo cx code ns .nil
    else
      match h.func? outer with
      | some (_, next) => Act.bindTo cx code ns next
      | none => Act.fail .outerNotFunction

/-- `closure(f, level)`: the namespace that many steps up the scopes of `f`. -/
def closure (_ : CtxId) (_ : Value) (args : Array Value) : Act Value := do
  let h ← Act.heap
  match h.func? (argument args 0) with
  | none => Act.fail (.notA "closure" "function")
  | some (_, scope) =>
    let level := argument args 1
    let level ← if level.isNil then pure 0 else Numeral.toCount <$> Act.ofExcept (h.numOf level)
    return (h.scopes (← Act.chainBound) scope)[level]?.getD .nil

/-- `caller(level)`: the locals, the function, the file and the line of a frame, `nil` past the outermost.
The largest level of all stops the program. -/
def callerStart (cx : CtxId) (_ : Native) (_ : Value) (args : Array Value) : Act Reply := do
  let level := argument args 0
  let level ←
    if level.isNil then pure 1
    else Numeral.toCount <$> Act.read fun h => h.numOf level
  match (← Act.ctx cx).frameAt level with
  | none => return .halt
  | some none => return .done .nil
  | some (some f) =>
    let file ← Act.newText cx f.place.file
    return .done (← Act.newVec cx #[f.locals, f.func, file, .ofNat f.place.line])

end Natives

end ScriptEngine
