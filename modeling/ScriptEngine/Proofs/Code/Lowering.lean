import ScriptEngine.Code.Generator
import ScriptEngine.Proofs.Code.Assembly

/-!
# The structured code of a tree

For each construct there is a relation between its tree and its structured code, given those of the
trees inside it.  The code depends on the labels of the loops around, innermost first, and on where
constants are stored, which the relations leave open.

* `Lowering.Sequence`, `Lowering.Block`   statements in a row;
* `Lowering.Statement`   statements;
* `Lowering.Expr`        expressions;
* `Lowering.expr`, `Lowering.stmt`   both, for trees of a height.
-/

namespace ScriptEngine

open Generate (isStatement binaryOp? literal? loopHeader isSlice)

/-- A relation between trees and their structured code inside loops with some labels. -/
abbrev Lowering := List (Option Bytes) → Tree → Asm → Prop

namespace Lowering

def number (x : Float) (i : Nat) : Asm :=
  if x.toBits == 0 then .op .pushZero
  else if x == 1.0 then .op .pushOne
  else .const .pushConst i (.number x)

/-- The constant of a key. -/
def keyConst? (t : Tree) : Option Const :=
  match t.name? with
  | some name => some (.name name)
  | none => literal? t

/-- The label and the parts of a loop's header. -/
def Header (head : Tree) (n : Nat) (label : Option Bytes) (parts : List Tree) : Prop :=
  ∀ g, (loopHeader head n).run g = .ok (label, parts) g

/-- The loop that a jump out of a loop leads to. -/
inductive Aim (ls : List (Option Bytes)) (t : Tree) : Nat → Prop
  | innermost (h : t.isEmpty = true) (hne : ls ≠ []) : Aim ls t 0
  | labelled {name : Bytes} {k : Nat} (h : t.isEmpty = false) (hname : t.name? = some name)
    (hk : ls.findIdx? (· == some name) = some k) : Aim ls t k

theorem Aim.lt {ls : List (Option Bytes)} {t : Tree} {k : Nat} (h : Aim ls t k) :
    k < ls.length := by
  cases h with
  | innermost h hne => exact List.length_pos_iff.mpr hne
  | labelled h hname hk => exact (List.findIdx?_eq_some_iff_getElem.mp hk).1

/-- The variable of a `foreach`: how it is assigned, and its name. -/
inductive LoopVar : Tree → Op → Bytes → Prop
  | symbol {name : Bytes} {line : Nat} {cs : List Tree} :
    LoopVar (.mk (.symbol name) line cs) .setSym name
  | declared {t : Tree} {name : Bytes} {line : Nat} (h : t.name? = some name) :
    LoopVar (.mk .kVar line [t]) .setLocal name

section

-- The code of the expressions inside, of the `if` of an `elsif` branch, and of the statements
-- inside; and the labels of the loops around.
variable (E C S : Lowering) (ls : List (Option Bytes))

/-- An expression that must be there. -/
structure Value (t : Tree) (x : Asm) : Prop where
  there : t.isEmpty = false
  code : E ls t x

/-- An expression that may be missing and whose value is dropped. -/
inductive Dropped (t : Tree) : Asm → Prop
  | none (h : t.isEmpty = true) : Dropped t .skip
  | some {x : Asm} (h : t.isEmpty = false) (hx : E ls t x) : Dropped t (.seq x (.op .pop))

/-- The condition of a `for`, which may be missing. -/
inductive Test (t : Tree) : Asm → Option Op → Prop
  | none (h : t.isEmpty = true) : Test t .skip none
  | some {x : Asm} (h : Value E ls t x) : Test t x (some .jifNotPop)

/-! ## lists -/

inductive Elements : List Tree → Asm → Prop
  | nil : Elements [] .skip
  | cons {t : Tree} {ts : List Tree} {x y : Asm} (head : E ls t x) (tail : Elements ts y) :
    Elements (t :: ts) (.seq x (.seq (.op .vappend) y))

inductive Entries : List Tree → Asm → Prop
  | nil : Entries [] .skip
  | cons {k v : Tree} {line i : Nat} {c : Const} {ts : List Tree} {x y : Asm}
    (key : keyConst? k = some c) (value : Value E ls v x) (tail : Entries ts y) :
    Entries (.mk .colon line [k, v] :: ts)
      (.seq (.const .pushConst i c) (.seq x (.seq (.op .happend) y)))

inductive Arguments : List Tree → Asm → Prop
  | nil : Arguments [] .skip
  | cons {t : Tree} {ts : List Tree} {x y : Asm} (head : E ls t x) (tail : Arguments ts y) :
    Arguments (t :: ts) (.seq x y)

/-- The statements of a list; with `keep` the value of the last one stays. -/
inductive Sequence (keep : Bool) : List Tree → Asm → Prop
  | nil : Sequence keep [] .skip
  | stmt {t : Tree} {ts : List Tree} {x y : Asm} (h : isStatement t = true) (head : S ls t x)
    (tail : Sequence keep ts y) :
    Sequence keep (t :: ts)
      (.seq x (.seq (if keep && ts.isEmpty then .op .pushNil else .skip) y))
  | expr {t : Tree} {ts : List Tree} {x y : Asm} (h : isStatement t = false) (head : E ls t x)
    (tail : Sequence keep ts y) :
    Sequence keep (t :: ts) (.seq x (.seq (if keep && ts.isEmpty then .skip else .op .pop) y))

inductive Statements (t : Tree) (keep : Bool) : Asm → Prop
  | none (h : t.items = []) : Statements t keep (if keep then .op .pushNil else .skip)
  | some {x : Asm} (h : t.items ≠ []) (hx : Sequence E S ls keep t.items x) : Statements t keep x

inductive Block : Tree → Asm → Prop
  | braced {line : Nat} {body : Tree} {x : Asm} (h : Statements E S ls body false x) :
    Block (.mk .lcurl line [body]) x
  | bare {t : Tree} {x : Asm} (h : Statements E S ls t false x) : Block t x

/-! ## statements -/

inductive IfParts : List Tree → Asm → Prop
  | one {c b : Tree} {x y : Asm} (hc : Value E ls c x) (hb : Block E S ls b y) :
    IfParts [c, b] (.seq x (.bypass .jifNotPop y))
  | other {c b o : Tree} {x y z : Asm} (hc : Value E ls c x) (hb : Block E S ls b y)
    (hk : (o.kind == .kIf) = false) (ho : Block E S ls o z) : IfParts [c, b, o] (.seq x (.branch y z))
  | chain {c b o : Tree} {x y z : Asm} (hc : Value E ls c x) (hb : Block E S ls b y)
    (hk : (o.kind == .kIf) = true) (ho : C ls o z) : IfParts [c, b, o] (.seq x (.branch y z))

/-- The code of a `foreach` or `forindex`: the vector and the position stay on the stack. -/
def foreach (step : Op) (v : Asm) (set : Op) (i : Nat) (name : Bytes) (y : Asm) : Asm :=
  .loop (.seq v (.op .pushZero)) (.op step) (some .jifEnd)
    (.seq (.const set i (.name name)) (.seq (.op .pop) y)) .skip (.seq (.op .pop) (.op .pop))

inductive Statement : Tree → Asm → Prop
  | ifs {line : Nat} {parts : List Tree} {x : Asm} (h : IfParts E C S ls parts x) :
    Statement (.mk .kIf line parts) x
  | whiles {line : Nat} {head body cond : Tree} {label : Option Bytes} {x y : Asm}
    (h : Header head 1 label [cond]) (hc : Value E ls cond x)
    (hb : Block E S (label :: ls) body y) :
    Statement (.mk .kWhile line [head, body]) (.loop .skip x (some .jifNotPop) y .skip .skip)
  | fors {line : Nat} {head body start cond update : Tree} {label : Option Bytes}
    {p x y u : Asm} {exit : Option Op} (h : Header head 3 label [start, cond, update])
    (hs : Dropped E ls start p) (hc : Test E ls cond x exit) (hb : Block E S (label :: ls) body y)
    (hu : Dropped E ls update u) :
    Statement (.mk .kFor line [head, body]) (.loop p x exit y u .skip)
  | foreach {kind : Tok} {step set : Op} {line i : Nat} {head body var vec : Tree}
    {label : Option Bytes} {name : Bytes} {v y : Asm}
    (hk : kind = .kForeach ∧ step = .each ∨ kind = .kForindex ∧ step = .index)
    (h : Header head 2 label [var, vec]) (hv : LoopVar var set name) (he : E ls vec v)
    (hb : Block E S (label :: ls) body y) :
    Statement (.mk kind line [head, body]) (foreach step v set i name y)
  | ret {line : Nat} {t : Tree} {x : Asm} (h : E ls t x) :
    Statement (.mk .kReturn line [t]) (.seq x (.op .ret))
  | leave {kind : Tok} {out : Bool} {line k : Nat} {t : Tree}
    (hk : kind = .kBreak ∧ out = true ∨ kind = .kContinue ∧ out = false) (h : Aim ls t k) :
    Statement (.mk kind line [t]) (.leave out k)

/-! ## expressions -/

inductive Assign (rhs : Tree) : Tree → Asm → Prop
  | symbol {name : Bytes} {line i : Nat} {cs : List Tree} {x : Asm} (h : Value E ls rhs x) :
    Assign rhs (.mk (.symbol name) line cs) (.seq x (.const .setSym i (.name name)))
  | declared {t : Tree} {name : Bytes} {line i : Nat} {x : Asm} (hn : t.name? = some name)
    (h : Value E ls rhs x) :
    Assign rhs (.mk .kVar line [t]) (.seq x (.const .setLocal i (.name name)))
  | member {owner t : Tree} {name : Bytes} {line i : Nat} {o x : Asm} (hn : t.name? = some name)
    (ho : E ls owner o) (h : Value E ls rhs x) :
    Assign rhs (.mk .dot line [owner, t])
      (.seq o (.seq x (.const .setMember i (.name name))))
  | element {owner k : Tree} {line : Nat} {o y x : Asm} (hs : isSlice k = false)
    (ho : E ls owner o) (hk : Value E ls k y) (h : Value E ls rhs x) :
    Assign rhs (.mk .index line [owner, k]) (.seq o (.seq y (.seq x (.op .insert))))

inductive Compound (op : Op) (rhs : Tree) : Tree → Asm → Prop
  | symbol {name : Bytes} {line i : Nat} {cs : List Tree} {x : Asm} (h : Value E ls rhs x) :
    Compound op rhs (.mk (.symbol name) line cs)
      (.seq (.const .loadSym i (.name name)) (.seq x (.seq (.op op) (.const .setSym i (.name name)))))
  | member {owner t : Tree} {name : Bytes} {line i : Nat} {o x : Asm} (hn : t.name? = some name)
    (ho : E ls owner o) (h : Value E ls rhs x) :
    Compound op rhs (.mk .dot line [owner, t])
      (.seq o (.seq (.op .dup) (.seq (.const .member i (.name name))
        (.seq x (.seq (.op op) (.const .setMember i (.name name)))))))
  | element {owner k : Tree} {line : Nat} {o y x : Asm} (hs : isSlice k = false)
    (ho : E ls owner o) (hk : Value E ls k y) (h : Value E ls rhs x) :
    Compound op rhs (.mk .index line [owner, k])
      (.seq o (.seq y (.seq (.op .dup2) (.seq (.op .extract)
        (.seq x (.seq (.op op) (.op .insert)))))))

/-- The function of a call; with a receiver when it is a member. -/
inductive Callee : Tree → Bool → Asm → Prop
  | method {owner t : Tree} {name : Bytes} {line i : Nat} {o : Asm} (hn : t.name? = some name)
    (ho : E ls owner o) :
    Callee (.mk .dot line [owner, t]) true
      (.seq o (.seq (.op .dup) (.const .member i (.name name))))
  | plain {t : Tree} {x : Asm} (h : E ls t x) : Callee t false x

inductive Call (callee : Tree) (args : List Tree) : Asm → Prop
  | named {method : Bool} {x y : Asm} (hc : Callee E ls callee method x)
    (ha : Entries E ls args y) :
    Call callee args (.seq x (.seq (.op .newHash) (.seq y (.op (if method then .mcallh else .fcallh)))))
  | placed {method : Bool} {x y : Asm} (hc : Callee E ls callee method x)
    (ha : Arguments E ls args y) (hlen : args.length ≤ 65535) :
    Call callee args (.seq x (.seq y (.instr (if method then .mcall else .fcall) args.length none)))

inductive Indexed (owner : Tree) : Tree → Asm → Prop
  | slice {start stop : Tree} {line : Nat} {o x y : Asm} (ho : E ls owner o)
    (hx : E ls start x) (hy : E ls stop y) :
    Indexed owner (.mk .colon line [start, stop]) (.seq o (.seq x (.seq y (.op .slice))))
  | element {k : Tree} {o x : Asm} (ho : E ls owner o)
    (hs : ∀ line start stop, k ≠ .mk .colon line [start, stop]) (hx : Value E ls k x) :
    Indexed owner k (.seq o (.seq x (.op .extract)))

inductive Expr : Tree → Asm → Prop
  | nil {line : Nat} {cs : List Tree} : Expr (.mk .nil line cs) (.op .pushNil)
  | empty {line : Nat} {cs : List Tree} : Expr (.mk .empty line cs) (.op .pushNil)
  | number {v : Float} {line i : Nat} {cs : List Tree} : Expr (.mk (.number v) line cs) (number v i)
  | text {s : Bytes} {line i : Nat} {cs : List Tree} :
    Expr (.mk (.text s) line cs) (.const .pushConst i (.text s))
  | symbol {name : Bytes} {line i : Nat} {cs : List Tree} :
    Expr (.mk (.symbol name) line cs) (.const .loadSym i (.name name))
  | vector {list : Tree} {line : Nat} {x : Asm} (h : Elements E ls list.items x) :
    Expr (.mk .lbra line [list]) (.seq (.op .newVec) x)
  | hash {list : Tree} {line : Nat} {x : Asm} (h : Entries E ls list.items x) :
    Expr (.mk .lcurl line [list]) (.seq (.op .newHash) x)
  | func {line i : Nat} {cs : List Tree} {c : Code Const} :
    Expr (.mk .kFunc line cs) (.const .func i (.code c))
  | minus {a : Tree} {line : Nat} {x : Asm} (h : E ls a x) :
    Expr (.mk .minus line [a]) (.seq x (.op .neg))
  | neg {a : Tree} {line : Nat} {x : Asm} (h : E ls a x) :
    Expr (.mk .neg line [a]) (.seq x (.op .neg))
  | not {a : Tree} {line : Nat} {x : Asm} (h : E ls a x) :
    Expr (.mk .not line [a]) (.seq x (.op .not))
  | and {a b : Tree} {line : Nat} {x y : Asm} (ha : E ls a x) (hb : E ls b y) :
    Expr (.mk .and line [a, b]) (.seq x (.bypass .jifNot (.seq (.op .pop) y)))
  | or {a b : Tree} {line : Nat} {x y : Asm} (ha : E ls a x) (hb : E ls b y) :
    Expr (.mk .or line [a, b]) (.seq x (.bypass .jifTrue (.seq (.op .pop) y)))
  | ternary {c a b : Tree} {line line' : Nat} {x y z : Asm} (hc : Value E ls c x)
    (ha : E ls a y) (hb : E ls b z) :
    Expr (.mk .question line [c, .mk .colon line' [a, b]]) (.seq x (.branch y z))
  | assign {lhs rhs : Tree} {line : Nat} {x : Asm} (h : Assign E ls rhs lhs x) :
    Expr (.mk .assign line [lhs, rhs]) x
  | member {owner t : Tree} {name : Bytes} {line i : Nat} {o : Asm} (hn : t.name? = some name)
    (ho : E ls owner o) :
    Expr (.mk .dot line [owner, t]) (.seq o (.const .member i (.name name)))
  | call {callee arguments : Tree} {line : Nat} {x : Asm}
    (h : Call E ls callee arguments.items x) : Expr (.mk .call line [callee, arguments]) x
  | index {owner k : Tree} {line : Nat} {x : Asm} (h : Indexed E ls owner k x) :
    Expr (.mk .index line [owner, k]) x
  | declared {t : Tree} {name : Bytes} {line i : Nat} (hn : t.name? = some name) :
    Expr (.mk .kVar line [t]) (.seq (.op .pushNil) (.const .setLocal i (.name name)))
  | list {line : Nat} {cs : List Tree} {x : Asm}
    (h : Statements E S ls (.mk .list line cs) true x) : Expr (.mk .list line cs) x
  | compound {kind : Tok} {op : Op} {a b : Tree} {line : Nat} {x : Asm}
    (hk : kind.compoundBase?.bind binaryOp? = some op) (h : Compound E ls op b a x) :
    Expr (.mk kind line [a, b]) x
  | binary {kind : Tok} {op : Op} {a b : Tree} {line : Nat} {x y : Asm}
    (hk : binaryOp? kind = some op) (ha : E ls a x) (hb : E ls b y) :
    Expr (.mk kind line [a, b]) (.seq x (.seq y (.op op)))
  | statement {t : Tree} {x : Asm} (ht : isStatement t = true) (h : Statement E C S ls t x) :
    Expr t (.seq x (.op .pushNil))

end

mutual
def expr : Nat → Lowering
  | 0 => fun _ _ _ => False
  | n + 1 => Expr (expr n) (chain n) (stmt n)
def stmt : Nat → Lowering
  | 0 => fun _ _ _ => False
  | n + 1 => Statement (expr n) (chain n) (stmt n)
/-- The code of the `if` of an `elsif` branch. -/
def chain : Nat → Lowering
  | 0 => fun _ _ _ => False
  | n + 1 => fun ls t => IfParts (expr n) (chain n) (stmt n) ls t.children
end

end Lowering

end ScriptEngine
