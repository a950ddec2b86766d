import ScriptEngine.Machine.Step
import ScriptEngine.Natives.Core

/-!
# Using an engine from outside

A host enters the engine for each thing it does there and leaves it afterwards; leaving is a safe
place, so a wanted collection runs then.

* `Engine.visit`   something done inside;
* `Engine.call`, `Engine.resume`  a run of script code, with a bound on the number of steps;
* `Engine.launch`  a whole program: compiled, given the core library, and called.
-/

namespace ScriptEngine.Engine

def visit {α : Type} (act : Act α) (w : World) : Except Failure α × World :=
  match act.run w.enter with
  | .ok a w => (.ok a, w.leave)
  | .error e w => (.error e, w.leave)

/-- Serves a request on a context in at most `fuel` steps. -/
def request (lib : Library) (fuel : Nat) (cx : CtxId) (r : Request) (w : World) :
    Option (Except Failure Value × World) :=
  (Machine.run lib fuel ⟨w.enter, [], .begin cx r⟩).map fun (r, w) => (r, w.leave)

def call (lib : Library) (fuel : Nat) (cx : CtxId) (func : Value) (args : Array Value)
    (me locals : Value) (w : World) : Option (Except Failure Value × World) :=
  request lib fuel cx (.call func args me locals) w

def resume (lib : Library) (fuel : Nat) (cx : CtxId) (v : Value) (w : World) :
    Option (Except Failure Value × World) :=
  request lib fuel cx (.resume v) w

/-- A namespace with the core library. -/
def coreNamespace (cx : CtxId) : Act Value := do
  let ns ← Act.newHash cx
  Natives.registerCore cx ns
  return ns

end ScriptEngine.Engine
