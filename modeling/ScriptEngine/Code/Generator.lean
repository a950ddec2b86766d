import ScriptEngine.Code.Draft
import ScriptEngine.Grammar.Precedence

/-!
# Code for a tree

Each construct is one definition that is given how the expressions inside it (`expr`) and the
`if` of an `elsif` branch (`chain`) are generated; `Generate.expr` ties them together, counting
the height of the tree down.

Code for an expression leaves one value on the operand stack; code for a statement leaves none.
A loop notes the stack height when it is entered, so that `break` and `continue` can cut back to
it from anywhere inside.

* `generate`  the unit of a whole source text;
* `compile`   the same from the text.
-/

namespace ScriptEngine.Generate

open Gen

/-- Trees that are statements: they leave no value. -/
def isStatement (t : Tree) : Bool :=
  match t.kind with
  | .kReturn | .kBreak | .kContinue => true
  | k => k.isControl

def binaryOp? : Tok → Option Op
  | .plus => some .plus
  | .minus => some .minus
  | .mul => some .mul
  | .div => some .div
  | .cat => some .cat
  | .lt => some .lt
  | .lte => some .lte
  | .gt => some .gt
  | .gte => some .gte
  | .eq => some .eq
  | .neq => some .neq
  | _ => none

def symbol (t : Tree) : Gen Nat :=
  match t.name? with
  | some name => constIndex (.name name)
  | none => fail .expectedSymbol

/-- A number: the two commonest ones have instructions of their own. -/
def pushNumber (x : Float) : Gen Unit :=
  if x.toBits == 0 then emit .pushZero
  else if x == 1.0 then emit .pushOne
  else do emitArg .pushConst (← constIndex (.number x))

/-- The constant of a default value or of a key: a literal, `nil` or a literal with a sign. -/
def literal? : Tree → Option Const
  | .mk (.number x) _ _ => some (.number x)
  | .mk (.text s) _ _ => some (.text s)
  | .mk .nil _ _ => some .nil
  | .mk .minus _ [.mk (.number x) _ _] => some (.number (-x))
  | .mk .neg _ [.mk (.number x) _ _] => some (.number (-x))
  | _ => none

/-- The key of a hash entry or of a named argument. -/
def key (t : Tree) : Gen Unit := do
  let i ←
    match t.name? with
    | some name => constIndex (.name name)
    | none =>
      match literal? t with
      | some c => constIndex c
      | none => fail .badHashKey
  emitArg .pushConst i

section

-- How an expression inside is generated, and how the `if` of an `elsif` branch is.
variable (expr : Tree → Gen Unit)
variable (chain : Tree → Gen Unit)

def value (t : Tree) : Gen Unit := if t.isEmpty then fail .missingExpression else expr t

def condition (t : Tree) : Gen Nat := do
  if t.isEmpty then fail .missingCondition
  expr t
  emitJump .jifNotPop

/-- The label of a jump out of a loop. -/
def label? (t : Tree) : Gen (Option Bytes) :=
  if t.isEmpty then return none
  else
    match t.name? with
    | some name => return some name
    | none => fail .badLoopLabel

/-- `break` or `continue`: the marks of the loops inside the target are dropped on the way. -/
def loopJump (isBreak : Bool) (t : Tree) : Gen Unit := do
  let label ← label? t
  let loops := (← get).draft.loops
  let target :=
    match label with
    | none => if loops.isEmpty then none else some 0
    | some name => loops.findIdx? fun lp => lp.label == some name
  match target with
  | none =>
    match label with
    | some name => fail (.noLoopLabeled name)
    | none => fail .outsideLoop
  | some k =>
    (List.replicate k Op.cutBackPop).forM emit
    emit .cutBack
    let jump ← emitJump .jmp
    modifyDraft fun d => { d with
      loops := d.loops.modify k fun lp =>
        if isBreak then { lp with breaks := lp.breaks ++ [jump] }
        else { lp with continues := lp.continues ++ [jump] } }

/-- The label and the parts of a loop's header. -/
def loopHeader (head : Tree) (parts : Nat) : Gen (Option Bytes × List Tree) :=
  let list := head.flatten
  if list.length == parts + 1 then
    match list with
    | label :: rest =>
      match label.name? with
      | some name => return (some name, rest)
      | none => fail .badLoopLabel
    | [] => fail .badLoopHeader
  else if list.length == parts then return (none, list)
  else fail .badLoopHeader

/-- The statements of a list; with `keep` the value of the last one stays. -/
def sequence (stmt : Tree → Gen Unit) (keep : Bool) : List Tree → Gen Unit
  | [] => pure ()
  | t :: ts => do
    let kept := keep && ts.isEmpty
    if isStatement t then
      stmt t
      if kept then emit .pushNil
    else
      expr t
      if !kept then emit .pop
    sequence stmt keep ts

/-- A list of statements; with `keep` it leaves a value, `nil` when there is no statement. -/
def statements (stmt : Tree → Gen Unit) (t : Tree) (keep : Bool) : Gen Unit :=
  match t.items with
  | [] => if keep then emit .pushNil else pure ()
  | ts => sequence expr stmt keep ts

def block (stmt : Tree → Gen Unit) (t : Tree) : Gen Unit :=
  match t with
  | .mk .lcurl _ [body] => statements expr stmt body false
  | t => statements expr stmt t false

/-- The body of a loop, and the loop with the jumps out of it. -/
def loopBody (stmt : Tree → Gen Unit) (label : Option Bytes) (body : Tree) : Gen Loop := do
  modifyDraft fun d => { d with loops := { label } :: d.loops }
  block expr stmt body
  modifyGet fun s =>
    (s.draft.loops.headD { label }, { s with draft := { s.draft with loops := s.draft.loops.tail } })

/-- Aims the jumps to the next round of a loop at the next word. -/
def continueHere (lp : Loop) : Gen Unit := lp.continues.forM patch

/-- Aims the jumps out of a loop at the next word, where its mark is dropped. -/
def endLoop (lp : Loop) (exit : Option Nat) : Gen Unit := do
  if let some jump := exit then patch jump
  lp.breaks.forM patch
  emit .unmark

def whileLoop (stmt : Tree → Gen Unit) (head body : Tree) : Gen Unit := do
  let (label, parts) ← loopHeader head 1
  emit .mark
  let top ← here
  match parts with
  | [cond] =>
    let exit ← condition expr cond
    let lp ← loopBody expr stmt label body
    continueHere lp
    emitArg .jmpLoop top
    endLoop lp (some exit)
  | _ => fail .badLoopHeader

/-- `for` with a start, a condition and an update, each of which may be missing. -/
def forLoop (stmt : Tree → Gen Unit) (head body : Tree) : Gen Unit := do
  let (label, parts) ← loopHeader head 3
  match parts with
  | [start, cond, update] =>
    if !start.isEmpty then
      expr start
      emit .pop
    emit .mark
    let top ← here
    let exit ← if cond.isEmpty then pure none else some <$> condition expr cond
    let lp ← loopBody expr stmt label body
    continueHere lp
    if !update.isEmpty then
      expr update
      emit .pop
    emitArg .jmpLoop top
    endLoop lp exit
  | _ => fail .badLoopHeader

/-- `foreach` and `forindex`: the vector and the position stay on the stack during the loop. -/
def foreachLoop (stmt : Tree → Gen Unit) (step : Op) (head body : Tree) : Gen Unit := do
  let (label, parts) ← loopHeader head 2
  match parts with
  | [var, vec] =>
    let (set, target) ←
      match var with
      | .mk (.symbol _) _ _ => do pure (Op.setSym, ← symbol var)
      | .mk .kVar _ [name] => do pure (Op.setLocal, ← symbol name)
      | _ => fail .badForeachVariable
    expr vec
    emit .pushZero
    emit .mark
    let top ← here
    emit step
    let exit ← emitJump .jifEnd
    emitArg set target
    emit .pop
    let lp ← loopBody expr stmt label body
    continueHere lp
    emitArg .jmpLoop top
    endLoop lp (some exit)
    emit .pop
    emit .pop
  | _ => fail .badLoopHeader

def ifParts (stmt : Tree → Gen Unit) (parts : List Tree) : Gen Unit :=
  match parts with
  | [cond, body] => do
    let skip ← condition expr cond
    block expr stmt body
    patch skip
  | [cond, body, other] => do
    let skip ← condition expr cond
    block expr stmt body
    let done ← emitJump .jmp
    patch skip
    if other.kind == .kIf then chain other else block expr stmt other
    patch done
  | _ => fail .badStatement

/-- A statement, given how the statements inside it are generated. -/
def statementWith (stmt : Tree → Gen Unit) (t : Tree) : Gen Unit := do
  atLine t.line
  match t with
  | .mk .kIf _ parts => ifParts expr chain stmt parts
  | .mk .kWhile _ [head, body] => whileLoop expr stmt head body
  | .mk .kFor _ [head, body] => forLoop expr stmt head body
  | .mk .kForeach _ [head, body] => foreachLoop expr stmt .each head body
  | .mk .kForindex _ [head, body] => foreachLoop expr stmt .index head body
  | .mk .kReturn _ [v] => do
    expr v
    emit .ret
  | .mk .kBreak _ [label] => loopJump true label
  | .mk .kContinue _ [label] => loopJump false label
  | _ => fail .badStatement

/-- `a ? b : c`. -/
def ternary (cond branches : Tree) : Gen Unit :=
  match branches with
  | .mk .colon _ [yes, no] => do
    let skip ← condition expr cond
    expr yes
    let done ← emitJump .jmp
    patch skip
    expr no
    patch done
  | _ => fail .questionWithoutColon

def isSlice (t : Tree) : Bool := t.kind == .colon

/-- An assignment to a symbol, a declaration, a member or an element. -/
def assign (lhs rhs : Tree) : Gen Unit :=
  match lhs with
  | .mk (.symbol _) _ _ => do
    let i ← symbol lhs
    value expr rhs
    emitArg .setSym i
  | .mk .kVar _ [name] => do
    let i ← symbol name
    value expr rhs
    emitArg .setLocal i
  | .mk .dot _ [owner, name] => do
    let i ← symbol name
    expr owner
    value expr rhs
    emitArg .setMember i
  | .mk .index _ [owner, k] =>
    if isSlice k then fail .badTarget
    else do
      expr owner
      value expr k
      value expr rhs
      emit .insert
  | _ => fail .badTarget

/-- A compound assignment: the container and the key are evaluated once. -/
def compound (op : Op) (lhs rhs : Tree) : Gen Unit :=
  match lhs with
  | .mk (.symbol _) _ _ => do
    let i ← symbol lhs
    emitArg .loadSym i
    value expr rhs
    emit op
    emitArg .setSym i
  | .mk .dot _ [owner, name] => do
    let i ← symbol name
    expr owner
    emit .dup
    emitArg .member i
    value expr rhs
    emit op
    emitArg .setMember i
  | .mk .index _ [owner, k] =>
    if isSlice k then fail .badTarget
    else do
      expr owner
      value expr k
      emit .dup2
      emit .extract
      value expr rhs
      emit op
      emit .insert
  | _ => fail .badTarget

/-- The entries of a hash, or the arguments given by name. -/
def entries : List Tree → Gen Unit
  | [] => pure ()
  | .mk .colon _ [k, v] :: more => do
    key k
    value expr v
    emit .happend
    entries more
  | _ => fail .entryWithoutKey

def elements : List Tree → Gen Unit
  | [] => pure ()
  | t :: ts => do
    expr t
    emit .vappend
    elements ts

/-- A call, with a receiver when the function is a member, and with arguments either all by place
or all by name. -/
def call (line : Nat) (callee arguments : Tree) : Gen Unit := do
  let args := arguments.items
  let named := args.countP fun a => a.kind == .colon
  if named != 0 && named != args.length then fail .mixedArguments
  let method ←
    match callee with
    | .mk .dot _ [owner, name] => do
      let i ← symbol name
      expr owner
      emit .dup
      emitArg .member i
      pure true
    | _ => do
      expr callee
      pure false
  if 0 < named then
    emit .newHash
    entries expr args
    atLine line
    emit (if method then .mcallh else .fcallh)
  else
    if 65535 < args.length then fail .tooManyArguments
    args.forM expr
    atLine line
    emitArg (if method then .mcall else .fcall) args.length

def indexed (line : Nat) (owner k : Tree) : Gen Unit := do
  expr owner
  match k with
  | .mk .colon _ [start, stop] =>
    expr start
    expr stop
    atLine line
    emit .slice
  | _ =>
    value expr k
    atLine line
    emit .extract

/-- The parameters of a function as constant indices. -/
structure Params where
  required : Array Nat := #[]
  optional : Array (Nat × Nat) := #[]
  rest : Option Nat := none
  needsRest : Bool := false

def param (ps : Params) (t : Tree) : Gen Params := do
  atLine t.line
  if ps.rest.isSome then fail .restNotLast
  match t with
  | .mk (.symbol _) _ _ =>
    if ps.optional.isEmpty then
      let i ← symbol t
      return { ps with required := ps.required.push i }
    else fail .badParameter
  | .mk .assign _ [name, default] =>
    let i ← symbol name
    match literal? default with
    | some c =>
      let d ← constIndex c
      return { ps with optional := ps.optional.push (i, d) }
    | none => fail .defaultNotConstant
  | .mk .ellipsis _ [name] =>
    let i ← symbol name
    return { ps with rest := some i, needsRest := true }
  | _ => fail .badParameter

/-- The name that takes the arguments left over when no parameter does. -/
def argName : Bytes := Bytes.ofString "arg"

/-- The parameters of a function; without a parameter list all arguments are left over. -/
def params : Option Tree → Gen Params
  | none => do
    let i ← constIndex (.name argName)
    return { rest := some i, needsRest := true }
  | some list => do
    let ps ← list.items.foldlM param {}
    if ps.rest.isSome then return ps
    else
      let i ← constIndex (.name argName)
      return { ps with rest := some i }

/-- The body of a unit behind its parameters. -/
def unitBody (stmt : Tree → Gen Unit) (list : Option Tree) (body : Tree) : Gen Params := do
  let ps ← params list
  atLine body.line
  statements expr stmt body true
  emit .ret
  return ps

def finish (file : String) (d : Draft) (ps : Params) : Code Const :=
  { words := d.words
    consts := d.consts
    lines := d.lines
    file
    params := ps.required
    optional := ps.optional
    rest := ps.rest
    needsRest := ps.needsRest }

/-- A function literal: a unit of its own, stored as a constant of the one around it. -/
def function (stmt : Tree → Gen Unit) (list : Option Tree) (body : Tree) : Gen Unit := do
  let line ← Gen.line
  enter
  let ps ← unitBody expr stmt list body
  atLine line
  needRoomOutside
  let d ← leave
  let i ← constIndex (.code (finish (← get).file d ps))
  emitArg .func i

def binary (line : Nat) (op : Op) (a b : Tree) : Gen Unit := do
  expr a
  expr b
  atLine line
  emit op

/-- `and` and `or`: the operand that decides is the result. -/
def shortCircuit (jump : Op) (a b : Tree) : Gen Unit := do
  expr a
  let done ← emitJump jump
  emit .pop
  expr b
  patch done

/-- An expression; a statement in its place leaves `nil`. -/
def exprWith (stmt : Tree → Gen Unit) (t : Tree) : Gen Unit := do
  atLine t.line
  match t with
  | .mk .nil _ _ => emit .pushNil
  | .mk .empty _ _ => emit .pushNil
  | .mk (.number x) _ _ => pushNumber x
  | .mk (.text s) _ _ => emitArg .pushConst (← constIndex (.text s))
  | .mk (.symbol _) _ _ => emitArg .loadSym (← symbol t)
  | .mk .lbra _ [list] => do
    emit .newVec
    elements expr list.items
  | .mk .lcurl _ [list] => do
    emit .newHash
    entries expr list.items
  | .mk .kFunc _ [.mk _ _ [body]] => function expr stmt none body
  | .mk .kFunc _ [list, .mk _ _ [body]] => function expr stmt (some list) body
  | .mk .kFunc _ _ => fail .badFunction
  | .mk .minus _ [a] => do
    expr a
    emit .neg
  | .mk .neg _ [a] => do
    expr a
    emit .neg
  | .mk .not _ [a] => do
    expr a
    emit .not
  | .mk .and _ [a, b] => shortCircuit expr .jifNot a b
  | .mk .or _ [a, b] => shortCircuit expr .jifTrue a b
  | .mk .question _ [cond, branches] => ternary expr cond branches
  | .mk .assign _ [lhs, rhs] => assign expr lhs rhs
  | .mk .dot _ [owner, name] => do
    expr owner
    atLine t.line
    emitArg .member (← symbol name)
  | .mk .call line [callee, arguments] => call expr line callee arguments
  | .mk .index line [owner, k] => indexed expr line owner k
  | .mk .kVar _ [name] => do
    let i ← symbol name
    emit .pushNil
    emitArg .setLocal i
  | .mk .list _ _ => statements expr stmt t true
  | .mk k line [a, b] =>
    match k.compoundBase?.bind binaryOp?, binaryOp? k with
    | some op, _ => compound expr op a b
    | none, some op => binary expr line op a b
    | none, none =>
      if isStatement t then do
        statementWith expr chain stmt t
        emit .pushNil
      else fail (.unexpected k)
  | .mk k _ _ =>
    if isStatement t then do
      statementWith expr chain stmt t
      emit .pushNil
    else fail (.unexpected k)

end

mutual
/-- Code for an expression of at most the given height. -/
def expr : Nat → Tree → Gen Unit
  | 0, t => fail (.unexpected t.kind)
  | n + 1, t => exprWith (expr n) (chain n) (stmt n) t
def stmt : Nat → Tree → Gen Unit
  | 0, t => fail (.unexpected t.kind)
  | n + 1, t => statementWith (expr n) (chain n) (stmt n) t
def chain : Nat → Tree → Gen Unit
  | 0, t => fail (.unexpected t.kind)
  | n + 1, t => ifParts (expr n) (chain n) (stmt n) t.children
end

end ScriptEngine.Generate

namespace ScriptEngine

/-- A fault found while generating code, with the constants that had been made by then: those of
each unit under construction, outermost first. -/
structure Unfinished where
  error : CompileError
  made : List (Array Const)

/-- The unit of a tree: it takes no named parameters, and its value is that of the last
statement. -/
def generate (tree : Tree) (file : String) : Except Unfinished (Code Const) :=
  let n := tree.height
  let start : Gen.State := { file, line := tree.line }
  match (Generate.unitBody (Generate.expr n) (Generate.stmt n) none tree).run start with
  | .ok ps s => .ok (Generate.finish file s.draft ps)
  | .error e s =>
    .error ⟨e.inFile file, (s.draft :: s.outer).reverse.map (·.consts)⟩

/-- The unit of a source text. -/
def compile (src : Bytes) (file : String) (firstLine : Nat) : Except Unfinished (Code Const) :=
  match parse src firstLine with
  | .ok tree => generate tree file
  | .error e => .error ⟨e.inFile file, []⟩

end ScriptEngine
