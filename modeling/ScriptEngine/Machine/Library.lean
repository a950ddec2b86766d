import ScriptEngine.Machine.Scope

/-!
# What a host adds to an engine

A native function runs inside the context that calls it.  It either answers at once or asks for a
run on a child of that context and says, as data, what it waits for; when that run is over it is
resumed with its outcome.  A library gives the natives by their names and the members of ghosts by
the names of their types.

Because a waiting native is data, the whole state of an engine between two instructions is data
too, however deeply natives and scripts call each other.
-/

namespace ScriptEngine

/-- What a native asks a child context to do. -/
inductive Request where
  /-- Call a function. -/
  | call (func : Value) (args : Array Value) (me locals : Value)
  /-- Go on after a failed native call, with a value as its result. -/
  | resume (v : Value)

/-- What a native remembers while a child runs. -/
structure Wait where
  /-- How far the native has come. -/
  stage : Nat := 0
  /-- The child it works with. -/
  sub : CtxId
  values : Array Value := #[]

/-- What a native does next. -/
inductive Reply where
  | done (v : Value)
  | run (sub : CtxId) (request : Request) (wait : Wait)
  /-- Stops the whole program: nothing is handed on and no handler is asked. -/
  | halt

/-- A native function: how it starts and how it goes on after a run of a child. -/
structure Behaviour where
  start : CtxId → Native → Value → Array Value → Act Reply
  resume : CtxId → Native → Wait → Except Failure Value → Act Reply

/-- Hands an outcome on, as a native does that has not waited for one. -/
def Behaviour.handOn (_ : CtxId) (_ : Native) (_ : Wait) (r : Except Failure Value) : Act Reply := do
  match r with
  | .ok v => return .done v
  | .error e => throw e

/-- A native function that answers at once. -/
def Behaviour.plain (f : CtxId → Value → Array Value → Act Value) : Behaviour where
  start cx _ me args := do return .done (← f cx me args)
  resume := handOn

structure Members where
  get : Option (CtxId → Value → Bytes → Act (Option Value)) := none
  set : Option (CtxId → Value → Bytes → Value → Act Unit) := none

/-- What a host adds. -/
structure Library where
  native : String → Option Behaviour
  ghost : String → Members

namespace Act

/-- A member of a hash or of a ghost. -/
def member (lib : Library) (cx : CtxId) (obj sym : Value) (hash : UInt32) (interned : Bool) :
    Act (Option Value) := do
  let h ← heap
  match h.bodyOf obj with
  | .hash _ => hashMember obj sym hash interned
  | .ghost g =>
    match (lib.ghost g.type.name).get with
    | some get => get cx obj ((h.bytes? sym).getD [])
    | none => fail .ghostWithoutMembers
  | _ => fail .notObject

def setMember (lib : Library) (cx : CtxId) (obj sym : Value) (hash : UInt32) (interned : Bool)
    (v : Value) : Act Unit := do
  let h ← heap
  match h.bodyOf obj with
  | .hash _ => setHashed obj sym hash interned v
  | .ghost g =>
    match (lib.ghost g.type.name).set with
    | some set => set cx obj ((h.bytes? sym).getD []) v
    | none => fail .ghostReadOnly
  | _ => fail .notObject

def memberNamed (lib : Library) (cx : CtxId) (obj : Value) (name : String) :
    Act (Option Value) := do
  let sym ← intern (Bytes.ofString name)
  let (hash, interned) ← hashKey sym
  member lib cx obj sym hash interned

def setMemberNamed (lib : Library) (cx : CtxId) (obj : Value) (name : String) (v : Value) :
    Act Unit := do
  let sym ← intern (Bytes.ofString name)
  let (hash, interned) ← hashKey sym
  setMember lib cx obj sym hash interned v

/-- Adds natives to a namespace, in order. -/
def register (cx : CtxId) (ns : Value) (names : List String) : Act Unit :=
  names.forM fun name => do
    let f ← newNative cx { name, data := none, cleanup := false }
    addSym ns name f

end Act

end ScriptEngine
