import ScriptEngine.Machine.Call

/-!
# Executing code

`exec` executes one instruction of a context's innermost frame.  `Machine` adds the natives that
wait for a child to finish, and `step` is one step of the whole: an instruction, the start of a
request, or handing an outcome to the native that waits for it.

* `exec`          one instruction;
* `Machine.step`  one step;
* `Machine.run`   steps until the outermost run is over.
-/

namespace ScriptEngine

namespace Act

/-- What an instruction has led to. -/
inductive Outcome where
  | next
  /-- The outermost frame has returned. -/
  | returned (v : Value)
  /-- A native was called; its result belongs at the given height. -/
  | native (base : Nat) (n : Native) (r : Except Failure Reply)

/-- Calls the function at the operand `fidx` with the operands above it; the result belongs at
`base`. -/
def callAt (lib : Library) (cx : CtxId) (base fidx : Nat) (me : Value) (named : Bool) :
    Act Outcome := do
  let stack := (← ctx cx).stack
  let func := stack[fidx]?.getD .nil
  let args := stack.extract (fidx + 1) stack.size
  match (← heap).callee func with
  | .native n =>
    let r ← tryCatch (do return .ok (← startNative lib cx n me args)) (fun e => pure (.error e))
    return .native base n r
  | .script code scope =>
    let locals ← newHash cx
    if named then bindNamed cx code locals (args[0]?.getD .nil) me
    else bindArgs cx code locals args me
    cut cx base
    pushFrame cx func code locals scope base
    return .next
  | .bare _ => fail .unboundCode
  | .none => fail .notCallable

def callWith (lib : Library) (cx : CtxId) (argc : Nat) (method named : Bool) : Act Outcome := do
  let stack := (← ctx cx).stack
  let need := argc + 1 + (if method then 1 else 0)
  if stack.size < need then fail .stackUnderflow
  let fidx := stack.size - argc - 1
  if method then callAt lib cx (fidx - 1) fidx (stack[fidx - 1]?.getD .nil) named
  else callAt lib cx fidx fidx .nil named

/-- The next item, or the next index, of an iteration over a vector. -/
def iterate (cx : CtxId) (values : Bool) : Act Unit := do
  let box ← peek cx 1
  let i := Numeral.toCount ((← peek cx 0).num?.getD 0.0)
  match (← heap).vec? box with
  | none => fail .notIterable
  | some items =>
    if items.size ≤ i then push cx .done
    else
      replaceTop cx 1 (.ofNat (i + 1))
      push cx (if values then items[i]?.getD .nil else .ofNat i)

/-- An operator on two numbers; the right operand is read first. -/
def arith (cx : CtxId) (f : Float → Float → Value) : Act Unit := do
  let y ← peek cx 0
  let b ← read fun h => h.numOf y
  let x ← peek cx 1
  let a ← read fun h => h.numOf x
  replaceTop cx 2 (f a b)

def compare (cx : CtxId) (f : Float → Float → Bool) : Act Unit :=
  arith cx fun a b => .ofBool (f a b)

/-- Equality of the top two operands, as `want` says. -/
def equality (cx : CtxId) (want : Bool) : Act Unit := do
  let a ← peek cx 1
  let b ← peek cx 0
  let eq := (← heap).valuesEqual a b
  replaceTop cx 2 (.ofBool (eq == want))

/-- Jumps when the top operand, which stays, has the given truth. -/
def jumpIf (cx : CtxId) (want : Bool) (target : Nat) : Act Unit := do
  let v ← peek cx 0
  if (← read fun h => h.truth v) == want then jump cx target

def returnFrom (cx : CtxId) : Act Outcome := do
  let v ← pop cx
  let f ← frame cx
  modifyCtx cx fun c => { c with
    frames := c.frames.pop
    stack := c.stack.shrink f.bp
    marks := c.marks.shrink f.markBase }
  if (← ctx cx).frames.isEmpty then return .returned v
  push cx v
  return .next

def perform (lib : Library) (cx : CtxId) (code : Loaded) (op : Op) (arg : Nat) : Act Outcome := do
  match op with
  | .nop => pure ()
  | .pop => discard <| pop cx
  | .dup => push cx (← peek cx 0)
  | .dup2 =>
    let a ← peek cx 1
    let b ← peek cx 0
    push cx a
    push cx b
  | .pushConst => push cx (code.const arg)
  | .pushOne => push cx (.ofNat 1)
  | .pushZero => push cx (.ofNat 0)
  | .pushNil => push cx .nil
  | .newVec => push cx (← newVec cx #[])
  | .vappend =>
    let v ← peek cx 0
    let box ← peek cx 1
    discard <| vecPush box v
    discard <| pop cx
  | .newHash => push cx (← newHash cx)
  | .happend =>
    let v ← peek cx 0
    let k ← peek cx 1
    let box ← peek cx 2
    hashSet box k v
    cut cx ((← ctx cx).stack.size - 2)
  | .mark =>
    if (← options).maxMarks ≤ (← ctx cx).marks.size then fail .markOverflow
    modifyCtx cx fun c => { c with marks := c.marks.push c.stack.size }
  | .unmark => modifyCtx cx fun c => { c with marks := c.marks.pop }
  | .cutBack =>
    match (← ctx cx).marks.back? with
    | some height => cut cx height
    | none => pure ()
  | .cutBackPop =>
    match (← ctx cx).marks.back? with
    | some height =>
      modifyCtx cx fun c => { c with marks := c.marks.pop }
      cut cx height
    | none => pure ()
  | .not =>
    let v ← peek cx 0
    let b ← read fun h => h.truth v
    replaceTop cx 1 (.ofBool !b)
  | .neg =>
    let v ← peek cx 0
    let x ← read fun h => h.numOf v
    replaceTop cx 1 (.ofFloat (-x))
  | .plus => arith cx fun a b => .ofFloat (a + b)
  | .minus => arith cx fun a b => .ofFloat (a - b)
  | .mul => arith cx fun a b => .ofFloat (a * b)
  | .div => arith cx fun a b => .ofFloat (a / b)
  | .lt => compare cx fun a b => a < b
  | .lte => compare cx fun a b => a ≤ b
  | .gt => compare cx fun a b => a > b
  | .gte => compare cx fun a b => a ≥ b
  | .cat =>
    let b ← peek cx 0
    let a ← peek cx 1
    let v ← concat cx a b
    replaceTop cx 2 v
  | .eq => equality cx true
  | .neq => equality cx false
  | .jmp => jump cx arg
  | .jmpLoop =>
    jump cx arg
    modify World.poll
  | .jifNotPop =>
    let v ← pop cx
    if !(← read fun h => h.truth v) then jump cx arg
  | .jifEnd =>
    if (← peek cx 0) == .done then
      discard <| pop cx
      jump cx arg
  | .jifTrue => jumpIf cx true arg
  | .jifNot => jumpIf cx false arg
  | .fcall => return ← callWith lib cx arg false false
  | .mcall => return ← callWith lib cx arg true false
  | .fcallh => return ← callWith lib cx 1 false true
  | .mcallh => return ← callWith lib cx 1 true true
  | .ret => return ← returnFrom cx
  | .loadSym => push cx (← lookupSym cx (code.const arg) (code.constHash arg))
  | .setSym => setSym cx (code.const arg) (code.constHash arg) (← peek cx 0)
  | .setLocal =>
    let v ← peek cx 0
    setHashed (← frame cx).locals (code.const arg) (code.constHash arg) true v
  | .member =>
    let obj ← peek cx 0
    match ← member lib cx obj (code.const arg) (code.constHash arg) true with
    | some v => replaceTop cx 1 v
    | none => fail (.noMember (((← heap).bytes? (code.const arg)).getD []))
  | .setMember =>
    let v ← peek cx 0
    let obj ← peek cx 1
    setMember lib cx obj (code.const arg) (code.constHash arg) true v
    replaceTop cx 2 v
  | .extract =>
    let box ← peek cx 1
    let key ← peek cx 0
    let v ← extract box key
    replaceTop cx 2 v
  | .insert =>
    let v ← peek cx 0
    let key ← peek cx 1
    let box ← peek cx 2
    insert box key v
    replaceTop cx 3 v
  | .slice =>
    let stop ← peek cx 0
    let start ← peek cx 1
    let box ← peek cx 2
    let v ← slice cx box start stop
    replaceTop cx 3 v
  | .func =>
    let f ← frame cx
    let scope ← newClosure cx f.locals f.closure
    let v ← newFunc cx (code.const arg) scope
    push cx v
  | .each => iterate cx true
  | .index => iterate cx false
  return .next

/-- Executes one instruction of the innermost frame. -/
def exec (lib : Library) (cx : CtxId) : Act Outcome := do
  modifyCtx cx fun c => { c with temps := #[] }
  let f ← frame cx
  match f.code.words[f.ip]? with
  | none => fail .offCode
  | some w =>
    let n := Op.operandCount w
    let arg := if 0 < n then (f.code.words[f.ip + 1]?.getD 0).toNat else 0
    jump cx (f.ip + 1 + n)
    match Op.ofWord? w with
    | some op => perform lib cx f.code op arg
    | none => fail (.invalidWord w)

end Act

/-- Where the result of a native goes. -/
inductive Site where
  /-- The native was called as the whole of a request. -/
  | request
  /-- It was called by an instruction; its result belongs at the given height. -/
  | instruction (base : Nat)

/-- A native that waits for a child of its context. -/
structure Waiting where
  cx : CtxId
  native : Native
  site : Site
  wait : Wait

/-- What the machine does next. -/
inductive Mode where
  /-- Starts a request on a context. -/
  | begin (cx : CtxId) (request : Request)
  /-- Executes the innermost frame of a context. -/
  | running (cx : CtxId)
  /-- A native has replied. -/
  | replied (cx : CtxId) (native : Native) (site : Site) (r : Except Failure Reply)
  /-- A run on a context is over. -/
  | ended (cx : CtxId) (r : Except Failure Value)
  /-- An outcome for the native that waits. -/
  | outcome (r : Except Failure Value)

structure Machine where
  world : World
  /-- The natives that wait, innermost first. -/
  waiting : List Waiting
  mode : Mode

namespace Machine

/-- Hands a request of a native on to the child it names, which must be the child the context has
now; the native waits for the outcome. -/
def delegate (w : World) (waiting : List Waiting) (cx : CtxId) (native : Native) (site : Site)
    (sub : CtxId) (request : Request) (wait : Wait) : Machine :=
  let waiting := ⟨cx, native, site, wait⟩ :: waiting
  if (w.ctx cx).child == some sub then ⟨w, waiting, .begin sub request⟩
  else ⟨w, waiting, .outcome (.error { cause := .foreignContext })⟩

/-- Puts the result of a native where it belongs. -/
def settle (w : World) (waiting : List Waiting) (cx : CtxId) (site : Site) (v : Value) :
    Machine :=
  match site with
  | .request =>
    ⟨w.modifyCtx cx fun c => { c with stack := #[] }, waiting, .ended cx (.ok v)⟩
  | .instruction base =>
    match (do Act.cut cx base; Act.push cx v : Act Unit).run w with
    | .ok _ w => ⟨w, waiting, .running cx⟩
    | .error e w => ⟨w, waiting, .ended cx (.error e)⟩

/-- Notes the failure of a native; one that an instruction called can be resumed. -/
def upset (w : World) (waiting : List Waiting) (cx : CtxId) (site : Site) (e : Failure) :
    Machine :=
  match site with
  | .request => ⟨w, waiting, .ended cx (.error e)⟩
  | .instruction base =>
    ⟨w.modifyCtx cx fun c => { c with resumeAt := some base }, waiting, .ended cx (.error e)⟩

def start (lib : Library) (w : World) (waiting : List Waiting) (cx : CtxId) :
    Request → Machine
  | .call func args me locals =>
    match (do Act.prepareCall cx; Act.beginCall lib cx func args me locals).run w with
    | .ok .frame w => ⟨w, waiting, .running cx⟩
    | .ok (.native n r) w => ⟨w, waiting, .replied cx n .request (.ok r)⟩
    | .error e w => ⟨w, waiting, .ended cx (.error e)⟩
  | .resume v =>
    let c := w.ctx cx
    let at? := if c.frames.isEmpty then none else c.resumeAt
    let w := w.modifyCtx cx fun c => { c with resumeAt := none }
    match at? with
    | some height =>
      match (Act.prepareResume cx height v).run w with
      | .ok _ w => ⟨w, waiting, .running cx⟩
      | .error e w => ⟨w, waiting, .outcome (.error e)⟩
    | none => ⟨w, waiting, .outcome (.error { cause := .notResumable })⟩

/-- Resumes the native that waits. -/
def wake (lib : Library) (w : World) (waiting : List Waiting) (who : Waiting)
    (r : Except Failure Value) : Machine :=
  match lib.native who.native.name with
  | some b =>
    match (b.resume who.cx who.native who.wait r).run w with
    | .ok reply w => ⟨w, waiting, .replied who.cx who.native who.site (.ok reply)⟩
    | .error e w => ⟨w, waiting, .replied who.cx who.native who.site (.error e)⟩
  | none => ⟨w, waiting, .replied who.cx who.native who.site (.error { cause := .notCallable })⟩

/-- One step; nothing happens when the outermost run is over or a native has stopped the program. -/
def step (lib : Library) : Machine → Machine
  | ⟨w, waiting, .begin cx request⟩ => start lib w waiting cx request
  | ⟨w, waiting, .running cx⟩ =>
    match (Act.exec lib cx).run w with
    | .ok .next w => ⟨w, waiting, .running cx⟩
    | .ok (.returned v) w => ⟨w, waiting, .ended cx (.ok v)⟩
    | .ok (.native base n r) w => ⟨w, waiting, .replied cx n (.instruction base) r⟩
    | .error e w => ⟨w, waiting, .ended cx (.error e)⟩
  | ⟨w, waiting, .replied cx n site r⟩ =>
    match r with
    | .ok (.done v) => settle w waiting cx site v
    | .ok (.run sub request wait) => delegate w waiting cx n site sub request wait
    | .ok .halt => ⟨w, waiting, .replied cx n site (.ok .halt)⟩
    | .error e => upset w waiting cx site e
  | ⟨w, waiting, .ended cx r⟩ =>
    match (Act.finish cx r).run w with
    | .ok r w => ⟨w, waiting, .outcome r⟩
    | .error e w => ⟨w, waiting, .outcome (.error e)⟩
  | ⟨w, [], .outcome r⟩ => ⟨w, [], .outcome r⟩
  | ⟨w, who :: waiting, .outcome r⟩ => wake lib w waiting who r

/-- The outcome of the outermost run, once it is over. -/
def result? (m : Machine) : Option (Except Failure Value) :=
  match m.waiting, m.mode with
  | [], .outcome r => some r
  | _, _ => none

/-- Steps until the outermost run is over, at most as many as given.  There is no outcome when they do not
suffice or the program is stopped. -/
def run (lib : Library) : Nat → Machine → Option (Except Failure Value × World)
  | 0, _ => none
  | n + 1, m =>
    match m with
    | ⟨w, [], .outcome r⟩ => some (r, w)
    | ⟨_, _, .replied _ _ _ (.ok .halt)⟩ => none
    | m => run lib n (m.step lib)

end Machine

end ScriptEngine
