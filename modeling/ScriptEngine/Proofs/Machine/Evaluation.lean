import ScriptEngine.Code.Generator
import ScriptEngine.Machine.Call

/-!
# Evaluating expressions directly

The value of an expression by recursion over its tree, from left to right, without code.  Values that are
still needed are held among the operands of the context while other parts are evaluated, since a collection
may run there; other objects are not kept from one activity to the next.

* `Lexicon`            the objects that stand for the texts and names of a unit;
* `Tree.Plain`         expressions without calls, functions, declarations and statements;
* `Act.holding`        something done while values are held;
* `Evaluate.expr`      the value of an expression.
-/

namespace ScriptEngine

open Generate (binaryOp? literal?)

/-- The objects that stand for the texts and names of a unit. -/
structure Lexicon where
  text : Bytes → Value
  name : Bytes → Value

def Lexicon.const (l : Lexicon) : Const → Value
  | .nil | .code _ => .nil
  | .number x => .ofFloat x
  | .text s => l.text s
  | .name s => l.name s

namespace Tree

mutual
/-- Expressions without calls, functions, declarations and statements. -/
inductive Plain : Tree → Prop
  | nil {line : Nat} {cs : List Tree} : Plain (.mk .nil line cs)
  | empty {line : Nat} {cs : List Tree} : Plain (.mk .empty line cs)
  | number {x : Float} {line : Nat} {cs : List Tree} : Plain (.mk (.number x) line cs)
  | text {s : Bytes} {line : Nat} {cs : List Tree} : Plain (.mk (.text s) line cs)
  | symbol {s : Bytes} {line : Nat} {cs : List Tree} : Plain (.mk (.symbol s) line cs)
  | vector {list : Tree} {line : Nat} (h : ∀ t ∈ list.items, Plain t) : Plain (.mk .lbra line [list])
  | hash {list : Tree} {line : Nat}
    (h : ∀ line' k v, .mk .colon line' [k, v] ∈ list.items → Plain v) : Plain (.mk .lcurl line [list])
  | minus {a : Tree} {line : Nat} (h : Plain a) : Plain (.mk .minus line [a])
  | neg {a : Tree} {line : Nat} (h : Plain a) : Plain (.mk .neg line [a])
  | not {a : Tree} {line : Nat} (h : Plain a) : Plain (.mk .not line [a])
  | and {a b : Tree} {line : Nat} (ha : Plain a) (hb : Plain b) : Plain (.mk .and line [a, b])
  | or {a b : Tree} {line : Nat} (ha : Plain a) (hb : Plain b) : Plain (.mk .or line [a, b])
  | ternary {c a b : Tree} {line line' : Nat} (hc : Plain c) (ha : Plain a) (hb : Plain b) :
    Plain (.mk .question line [c, .mk .colon line' [a, b]])
  | assign {lhs rhs : Tree} {line : Nat} (hl : Target lhs) (hr : Plain rhs) :
    Plain (.mk .assign line [lhs, rhs])
  | member {owner name : Tree} {line : Nat} (h : Plain owner) : Plain (.mk .dot line [owner, name])
  | slice {owner start stop : Tree} {line line' : Nat} (ho : Plain owner) (hs : Plain start)
    (he : Plain stop) : Plain (.mk .index line [owner, .mk .colon line' [start, stop]])
  | element {owner k : Tree} {line : Nat} (ho : Plain owner) (hk : Plain k) :
    Plain (.mk .index line [owner, k])
  | compound {kind : Tok} {lhs rhs : Tree} {line : Nat}
    (hkind : (kind.compoundBase?.bind binaryOp?).isSome = true) (hl : Target lhs) (hr : Plain rhs) :
    Plain (.mk kind line [lhs, rhs])
  | binary {kind : Tok} {a b : Tree} {line : Nat} (hkind : (binaryOp? kind).isSome = true)
    (ha : Plain a) (hb : Plain b) : Plain (.mk kind line [a, b])
/-- What is assigned to: a symbol, a member or an element. -/
inductive Target : Tree → Prop
  | symbol {s : Bytes} {line : Nat} {cs : List Tree} : Target (.mk (.symbol s) line cs)
  | member {owner name : Tree} {line : Nat} (h : Plain owner) : Target (.mk .dot line [owner, name])
  | element {owner k : Tree} {line : Nat} (ho : Plain owner) (hk : Plain k) :
    Target (.mk .index line [owner, k])
end

end Tree

namespace Act

variable {α : Type}

/-- Does something while values are held on top of the operands. -/
def holding (cx : CtxId) (vs : Array Value) (x : Act α) : Act α := do
  modifyCtx cx fun c => { c with stack := c.stack ++ vs }
  let r ← x
  modifyCtx cx fun c => { c with stack := c.stack.shrink (c.stack.size - vs.size) }
  return r

/-- Does something while values are held; the other objects made before are not kept. -/
def working (cx : CtxId) (vs : Array Value) (x : Act α) : Act α :=
  holding cx vs do
    modifyCtx cx fun c => { c with temps := #[] }
    x

end Act

namespace Evaluate

open Act (holding working)

/-- An operator on two numbers; the right operand is read first. -/
def onNumbers (f : Float → Float → Value) (x y : Value) : Act Value := do
  let b ← Act.read fun h => h.numOf y
  let a ← Act.read fun h => h.numOf x
  return f a b

/-- The operators on two values. -/
def operate (cx : CtxId) (op : Op) (x y : Value) : Act Value :=
  match op with
  | .plus => onNumbers (fun a b => .ofFloat (a + b)) x y
  | .minus => onNumbers (fun a b => .ofFloat (a - b)) x y
  | .mul => onNumbers (fun a b => .ofFloat (a * b)) x y
  | .div => onNumbers (fun a b => .ofFloat (a / b)) x y
  | .lt => onNumbers (fun a b => .ofBool (a < b)) x y
  | .lte => onNumbers (fun a b => .ofBool (a ≤ b)) x y
  | .gt => onNumbers (fun a b => .ofBool (a > b)) x y
  | .gte => onNumbers (fun a b => .ofBool (a ≥ b)) x y
  | .cat => Act.concat cx x y
  | .eq => do return .ofBool ((← Act.heap).valuesEqual x y)
  | .neq => do return .ofBool !((← Act.heap).valuesEqual x y)
  | _ => return .nil

def truth (v : Value) : Act Bool := Act.read fun h => h.truth v

section

variable (lib : Library) (cx : CtxId) (lex : Lexicon)

def lookup (s : Bytes) : Act Value := working cx #[] (Act.lookupSym cx (lex.name s) (hashBytes s))

def member (obj : Value) (s : Bytes) : Act Value := do
  match ← Act.member lib cx obj (lex.name s) (hashBytes s) true with
  | some v => return v
  | none => Act.fail (.noMember (((← Act.heap).bytes? (lex.name s)).getD []))

def assignName (s : Bytes) (v : Value) : Act Value := do
  Act.setSym cx (lex.name s) (hashBytes s) v
  return v

def assignMember (obj : Value) (s : Bytes) (v : Value) : Act Value := do
  Act.setMember lib cx obj (lex.name s) (hashBytes s) true v
  return v

def assignElement (box key v : Value) : Act Value := do
  Act.insert box key v
  return v

def key (t : Tree) : Value :=
  match t.name?, literal? t with
  | some s, _ => lex.name s
  | none, some c => lex.const c
  | none, none => .nil

-- How an expression inside is evaluated.
variable (eval : Tree → Act Value)

def elements (box : Value) : List Tree → Act Value
  | [] => return box
  | t :: ts => do
    let v ← holding cx #[box] (eval t)
    working cx #[box, v] (discard <| Act.vecPush box v)
    elements box ts

def entries (box : Value) : List Tree → Act Value
  | .mk .colon _ [k, t] :: ts => do
    let v ← holding cx #[box, key lex k] (eval t)
    working cx #[box, key lex k, v] (Act.hashSet box (key lex k) v)
    entries box ts
  | _ => return box

def assign (lhs rhs : Tree) : Act Value :=
  match lhs with
  | .mk (.symbol s) _ _ => do
    let v ← eval rhs
    working cx #[v] (assignName cx lex s v)
  | .mk .dot _ [owner, .mk (.symbol s) _ _] => do
    let obj ← eval owner
    let v ← holding cx #[obj] (eval rhs)
    working cx #[obj, v] (assignMember lib cx lex obj s v)
  | .mk .index _ [owner, k] => do
    let box ← eval owner
    let key ← holding cx #[box] (eval k)
    let v ← holding cx #[box, key] (eval rhs)
    working cx #[box, key, v] (assignElement box key v)
  | _ => return .nil

/-- A compound assignment: the container and the key are evaluated once. -/
def compound (op : Op) (lhs rhs : Tree) : Act Value :=
  match lhs with
  | .mk (.symbol s) _ _ => do
    let old ← lookup cx lex s
    let v ← holding cx #[old] (eval rhs)
    let new ← working cx #[old, v] (operate cx op old v)
    working cx #[new] (assignName cx lex s new)
  | .mk .dot _ [owner, .mk (.symbol s) _ _] => do
    let obj ← eval owner
    let old ← working cx #[obj, obj] (member lib cx lex obj s)
    let v ← holding cx #[obj, old] (eval rhs)
    let new ← working cx #[obj, old, v] (operate cx op old v)
    working cx #[obj, new] (assignMember lib cx lex obj s new)
  | .mk .index _ [owner, k] => do
    let box ← eval owner
    let key ← holding cx #[box] (eval k)
    let old ← working cx #[box, key, box, key] (Act.extract box key)
    let v ← holding cx #[box, key, old] (eval rhs)
    let new ← working cx #[box, key, old, v] (operate cx op old v)
    working cx #[box, key, new] (assignElement box key new)
  | _ => return .nil

def exprWith (t : Tree) : Act Value :=
  match t with
  | .mk .nil _ _ => return .nil
  | .mk .empty _ _ => return .nil
  | .mk (.number x) _ _ => return .ofFloat x
  | .mk (.text s) _ _ => return lex.text s
  | .mk (.symbol s) _ _ => lookup cx lex s
  | .mk .lbra _ [list] => do
    let box ← working cx #[] (Act.newVec cx #[])
    elements cx eval box list.items
  | .mk .lcurl _ [list] => do
    let box ← working cx #[] (Act.newHash cx)
    entries cx lex eval box list.items
  | .mk .minus _ [a] => do
    let v ← eval a
    return .ofFloat (-(← Act.read fun h => h.numOf v))
  | .mk .neg _ [a] => do
    let v ← eval a
    return .ofFloat (-(← Act.read fun h => h.numOf v))
  | .mk .not _ [a] => do
    let v ← eval a
    return .ofBool !(← truth v)
  | .mk .and _ [a, b] => do
    let v ← eval a
    if ← truth v then eval b else return v
  | .mk .or _ [a, b] => do
    let v ← eval a
    if ← truth v then return v else eval b
  | .mk .question _ [c, .mk .colon _ [a, b]] => do
    let v ← eval c
    if ← truth v then eval a else eval b
  | .mk .assign _ [lhs, rhs] => assign lib cx lex eval lhs rhs
  | .mk .dot _ [owner, .mk (.symbol s) _ _] => do
    let obj ← eval owner
    working cx #[obj] (member lib cx lex obj s)
  | .mk .index _ [owner, .mk .colon _ [start, stop]] => do
    let box ← eval owner
    let first ← holding cx #[box] (eval start)
    let last ← holding cx #[box, first] (eval stop)
    working cx #[box, first, last] (Act.slice cx box first last)
  | .mk .index _ [owner, k] => do
    let box ← eval owner
    let key ← holding cx #[box] (eval k)
    working cx #[box, key] (Act.extract box key)
  | .mk kind _ [a, b] =>
    match kind.compoundBase?.bind binaryOp?, binaryOp? kind with
    | some op, _ => compound lib cx lex eval op a b
    | none, some op => do
      let x ← eval a
      let y ← holding cx #[x] (eval b)
      working cx #[x, y] (operate cx op x y)
    | none, none => return .nil
  | _ => return .nil

end

def expr (lib : Library) (cx : CtxId) (lex : Lexicon) : Nat → Tree → Act Value
  | 0, _ => return .nil
  | n + 1, t => exprWith lib cx lex (expr lib cx lex n) t

end Evaluate

end ScriptEngine
