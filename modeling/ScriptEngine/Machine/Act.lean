import ScriptEngine.Heap.Coerce
import ScriptEngine.Machine.World

/-!
# Acting on an engine

`Act` changes the state of an engine and may fail; a failure keeps the changes made before it.
Everything that belongs to a context takes its number.
-/

namespace ScriptEngine

/-- An activity on an engine. -/
abbrev Act := EStateM Failure World

namespace Act

def fail {α : Type} (cause : Cause) : Act α := throw { cause }

/-- Fails with a message. -/
def raise {α : Type} (message : String) : Act α := fail (.raised message)

/-- The result of a reading, or its failure. -/
def ofExcept {α : Type} : Except Cause α → Act α
  | .ok a => pure a
  | .error c => fail c

def heap : Act Heap := do return (← get).heap

def options : Act Options := do return (← get).options

def modifyHeap (f : Heap → Heap) : Act Unit := modify fun w => { w with heap := f w.heap }

/-- A reading of a value that may fail. -/
def read {α : Type} (f : Heap → Except Cause α) : Act α := do ofExcept (f (← heap))

def ctx (cx : CtxId) : Act Context := do return (← get).ctx cx

def modifyCtx (cx : CtxId) (f : Context → Context) : Act Unit := modify fun w => w.modifyCtx cx f

/-! ## Objects -/

def alloc (cx : CtxId) (k : Kind) (b : Body) : Act Value := modifyGet fun w => w.alloc cx k b

def newStr (cx : CtxId) (bs : Bytes) : Act Value := alloc cx .str (.str (Str.ofBytes bs))

def newText (cx : CtxId) (s : String) : Act Value := newStr cx (Bytes.ofString s)

def newVec (cx : CtxId) (items : Array Value) : Act Value := alloc cx .vec (.vec items)

def newHash (cx : CtxId) : Act Value := alloc cx .hash (.hash Table.empty)

def newClosure (cx : CtxId) (ns next : Value) : Act Value := alloc cx .closure (.closure ns next)

def newFunc (cx : CtxId) (target scope : Value) : Act Value :=
  alloc cx .func (.func target scope)

/-- A function of the host. -/
def newNative (cx : CtxId) (n : Native) : Act Value := do
  let native ← alloc cx .native (.native n)
  newFunc cx native .nil

def newGhost (cx : CtxId) (g : Ghost) : Act Value := alloc cx .ghost (.ghost g)

/-- The one string of a name. -/
def intern (name : Bytes) : Act Value := modifyGet fun w =>
  let (a, heap) := w.heap.intern name
  (.obj a, { w with heap })

/-! ## Tables and vectors -/

/-- Takes the hash of a key. -/
def hashKey (key : Value) : Act (UInt32 × Bool) := modifyGet fun w =>
  let (k, heap) := w.heap.hashKey key
  (k, { w with heap })

/-- Hands retired table storage over. -/
def retire : Act Unit := modify World.retire

def setHashed (box key : Value) (hash : UInt32) (interned : Bool) (v : Value) : Act Unit := do
  if (← heap).isKind box .hash then
    let retired ← modifyGet fun w =>
      let (retired, heap) := w.heap.store box key hash interned v
      (retired, { w with heap })
    if retired then retire
  else fail .setInOther

def hashSet (box key v : Value) : Act Unit := do
  let (hash, interned) ← hashKey key
  setHashed box key hash interned v

def hashGet (box key : Value) : Act (Option Value) := do
  match (← heap).table? box with
  | some t =>
    let (hash, interned) ← hashKey key
    return (← heap).lookup t key hash interned
  | none => return none

/-- Removes a key: the value it had. -/
def hashDelete (box key : Value) : Act (Option Value) := do
  if (← heap).isKind box .hash then
    let (hash, interned) ← hashKey key
    let (old, retired) ← modifyGet fun w =>
      let (r, heap) := w.heap.remove box key hash interned
      (r, { w with heap })
    if retired then retire
    return old
  else fail .deleteFromOther

def addSym (ns : Value) (name : String) (v : Value) : Act Unit := do
  let sym ← intern (Bytes.ofString name)
  hashSet ns sym v

/-- Changes the items of a vector; tells whether there is one. -/
def modifyVec (v : Value) (f : Array Value → Array Value) : Act Bool := do
  match v.addr?, (← heap).isKind v .vec with
  | some a, true =>
    modifyHeap fun h => h.modify a fun
      | .vec items => .vec (f items)
      | b => b
    return true
  | _, _ => return false

/-- Appends to a vector; tells whether there is one. -/
def vecPush (v item : Value) : Act Bool := modifyVec v (·.push item)

def vecSet (v : Value) (i : Nat) (item : Value) : Act Bool := do
  match (← heap).vec? v with
  | some items =>
    if i < items.size then modifyVec v (·.setIfInBounds i item) else return false
  | none => return false

/-! ## Operands -/

def push (cx : CtxId) (v : Value) : Act Unit := do
  if (← options).maxStack ≤ (← ctx cx).stack.size then fail .stackOverflow
  modifyCtx cx fun c => { c with stack := c.stack.push v }

def pop (cx : CtxId) : Act Value := do
  match (← ctx cx).stack.back? with
  | some v =>
    modifyCtx cx fun c => { c with stack := c.stack.pop }
    return v
  | none => fail .stackUnderflow

/-- The operand `depth` places below the top. -/
def peek (cx : CtxId) (depth : Nat) : Act Value := do
  let stack := (← ctx cx).stack
  if depth < stack.size then return stack[stack.size - (depth + 1)]?.getD .nil
  else fail .stackUnderflow

def cut (cx : CtxId) (height : Nat) : Act Unit :=
  modifyCtx cx fun c => { c with stack := c.stack.shrink height }

/-- Replaces the top `n` operands by one. -/
def replaceTop (cx : CtxId) (n : Nat) (v : Value) : Act Unit := do
  modifyCtx cx fun c => { c with stack := c.stack.shrink (c.stack.size - n) }
  push cx v

/-! ## Frames -/

def frame (cx : CtxId) : Act Frame := do
  match (← ctx cx).frames.back? with
  | some f => return f
  | none => fail .noFrame

def jump (cx : CtxId) (ip : Nat) : Act Unit :=
  modifyCtx cx fun c => { c with frames := c.frames.modify (c.frames.size - 1) ({ · with ip }) }

def pushFrame (cx : CtxId) (func : Value) (code : Loaded) (locals scope : Value) (bp : Nat) :
    Act Unit := do
  if (← options).maxCallDepth ≤ (← ctx cx).frames.size then fail .callDepth
  modifyCtx cx fun c => { c with
    frames := c.frames.push
      { func, code, ip := 0, locals, closure := scope, bp, markBase := c.marks.size } }

/-! ## Contexts inside contexts -/

def freeChild (cx : CtxId) : Act Unit := do
  match (← ctx cx).child with
  | some child =>
    modifyCtx cx fun c => { c with child := none }
    modify fun w => w.freeContext child
  | none => pure ()

/-- Makes a child of a context in place of any it has. -/
def subContext (cx : CtxId) : Act CtxId := do
  let nesting := (← ctx cx).nesting
  if (← options).maxNesting ≤ nesting then fail .nestingTooDeep
  freeChild cx
  let sub ← modifyGet World.newContext
  modifyCtx sub fun c => { c with parent := some cx, nesting := nesting + 1 }
  modifyCtx cx fun c => { c with child := some sub }
  return sub

def rethrow {α : Type} (cx : CtxId) (e : Failure) : Act α := do
  modifyCtx cx fun c => { c with error := some e }
  throw e

end Act

end ScriptEngine
