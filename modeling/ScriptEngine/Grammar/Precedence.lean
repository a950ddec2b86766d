import ScriptEngine.Grammar.Blocks
import ScriptEngine.Grammar.Tree
import ScriptEngine.Token.Lexer

/-!
# From pieces to trees

The levels of binding are listed from the loosest to the tightest.  A row of pieces is split at an
operator of the first level that has one there; the parts are then read from that level or the
next one on, as the rule of the level says.  A row without any operator must be a single piece that
stands for a value.

Every reading of a row inside another one takes one from a budget of nesting.

* `Level`, `levels`  the operators and the rule of each level;
* `climb`            one row, given how rows and values inside it are read;
* `row`              a row within a budget of nesting;
* `parse`            the tree of a source text.
-/

namespace ScriptEngine.Precedence

/-- How the operators of a level split a row. -/
inductive Rule where
  /-- Separated items, collected into one flat list. -/
  | list
  /-- Right associative: the leftmost operator splits. -/
  | fromLeft
  /-- Left associative: the rightmost operator splits. -/
  | fromRight
  /-- Operators before their operand. -/
  | before
  /-- `...` after a parameter. -/
  | rest
  /-- Calls, indexing and member access in one chain. -/
  | chain

/-- A level of binding. -/
structure Level where
  ops : List Tok
  rule : Rule

def Level.has (lv : Level) (k : Tok) : Bool := lv.ops.contains k

/-- The levels, loosest first. -/
def levels : List Level :=
  [⟨[.semi, .comma], .list⟩,
   ⟨[.ellipsis], .rest⟩,
   ⟨[.kReturn, .kBreak, .kContinue], .before⟩,
   ⟨[.assign, .plusEq, .minusEq, .mulEq, .divEq, .catEq], .fromLeft⟩,
   ⟨[.colon, .question], .fromLeft⟩,
   ⟨[.kVar], .before⟩,
   ⟨[.or], .fromRight⟩,
   ⟨[.and], .fromRight⟩,
   ⟨[.eq, .neq], .fromRight⟩,
   ⟨[.lt, .lte, .gt, .gte], .fromRight⟩,
   ⟨[.plus, .minus, .cat], .fromRight⟩,
   ⟨[.mul, .div], .fromRight⟩,
   ⟨[.minus, .neg, .not], .before⟩,
   ⟨[.lpar, .lbra], .chain⟩,
   ⟨[.dot], .fromRight⟩]

/-- Splits a row at the first piece that `p` accepts. -/
def splitFirst? (p : Piece → Bool) (ps : List Piece) : Option (List Piece × Piece × List Piece) :=
  match ps.span (fun x => !p x) with
  | (front, x :: back) => some (front, x, back)
  | (_, []) => none

/-- Splits a row at the last piece that `p` accepts. -/
def splitLast? (p : Piece → Bool) (ps : List Piece) : Option (List Piece × Piece × List Piece) :=
  match splitFirst? p ps.reverse with
  | some (back, x, front) => some (front.reverse, x, back.reverse)
  | none => none

/-- Cuts a row at every piece that `p` accepts: each part with the separator after it, and the last
part. -/
def cut (p : Piece → Bool) (ps : List Piece) : List (List Piece × Piece) × List Piece :=
  let (parts, part) := ps.foldl
    (fun (parts, part) x => if p x then ((part.reverse, x) :: parts, []) else (parts, x :: part))
    (([], []) : List (List Piece × Piece) × List Piece)
  (parts.reverse, part.reverse)

/-- One step of cutting: a piece either ends a part or is put onto it. -/
def cutStep (p : Piece → Bool) (made : List (List Piece × Piece) × List Piece) (x : Piece) :
    List (List Piece × Piece) × List Piece :=
  if p x then ((made.2.reverse, x) :: made.1, []) else (made.1, x :: made.2)

theorem cut_foldl (p : Piece → Bool) (ps : List Piece) :
    cut p ps = ((ps.foldl (cutStep p) ([], [])).1.reverse, (ps.foldl (cutStep p) ([], [])).2.reverse) := rfl

/-- A tree whose root is the operator `op`. -/
def node (op : Piece) (children : List Tree) : Tree := .mk op.kind op.line children

section

-- How a row is read from a level on, with the line to blame; how a value is read; and how the
-- `if` after an `else` is read.
variable (row : List Piece → Nat → Nat → Except CompileError Tree)
variable (value : Piece → Except CompileError Tree)
variable (elseIf : Piece → Except CompileError Tree)

/-- The pieces below a bracket. -/
def inside (p : Piece) : Except CompileError Tree := row p.inner 0 p.line

def blockTree (p : Piece) : Except CompileError Tree := do
  .ok (.mk .lcurl p.line [← inside row p])

/-- The piece of a value: a leaf, a bracket, a function literal or a control statement. -/
def atom (p : Piece) : Except CompileError Tree :=
  match p.kind with
  | .symbol _ | .number _ | .text _ | .nil | .empty => .ok (.mk p.kind p.line [])
  | .lpar => inside row p
  | .lbra | .lcurl => do .ok (node p [← inside row p])
  | .kFunc =>
    match p.inner with
    | [body] => do .ok (node p [← blockTree row body])
    | [params, body] => do
      let params ← inside row params
      .ok (node p [params, ← blockTree row body])
    | _ => faultAt p.line .badFunction
  | k =>
    if k.isControl then
      match p.inner with
      | [head, body] => do
        let head ← inside row head
        .ok (node p [head, ← blockTree row body])
      | [head, body, other] => do
        let head ← inside row head
        let body ← blockTree row body
        let other ← if other.kind == .kIf then elseIf other else blockTree row other
        .ok (node p [head, body, other])
      | _ => faultAt p.line .malformedControl
    else faultAt p.line .unparsable

/-- An operand, which must not be empty. -/
def operand (ps : List Piece) (level : Nat) (op : Piece) : Except CompileError Tree := do
  let t ← row ps level op.line
  if t.isEmpty then faultAt op.line .missingOperand else .ok t

/-- The items of a list, each blamed on the separator after it. -/
def listItems (level : Nat) (parts : List (List Piece × Piece)) : Except CompileError (List Tree) :=
  parts.mapM fun (part, sep) => row part (level + 1) sep.line

/-- A list of separated items. -/
def listTree (level : Nat) (ps : List Piece) (lv : Level) :
    Option (Except CompileError Tree) :=
  match cut (fun p => lv.has p.kind) ps with
  | ([], _) => none
  | ((part, sep) :: more, final) => some do
    let items ← listItems row level ((part, sep) :: more)
    let last ← row final (level + 1) ((more.getLastD (part, sep)).2).line
    .ok (.mk .list sep.line (items ++ [last]))

/-- What a level makes of a row of at least one piece, or `none` when it has no operator there. -/
def atLevel (level : Nat) (lv : Level) (first : Piece) (tail : List Piece) :
    Option (Except CompileError Tree) :=
  let ps := first :: tail
  let isOp (p : Piece) := lv.has p.kind
  match lv.rule with
  | .list => listTree row level ps lv
  | .fromLeft =>
    (splitFirst? isOp ps).map fun (front, op, back) => do
      let left ← row front (level + 1) op.line
      let right ← row back level op.line
      .ok (node op [left, right])
  | .fromRight =>
    (splitLast? isOp tail).map fun (front, op, back) => do
      let left ← operand row (first :: front) level op
      let right ← operand row back (level + 1) op
      .ok (node op [left, right])
  | .before =>
    if isOp first then some do
      let right ←
        match first.kind with
        | .kReturn | .kBreak | .kContinue => row tail level first.line
        | _ => operand row tail level first
      .ok (node first [right])
    else none
  | .rest =>
    match ps.reverse with
    | last :: front =>
      if isOp last then some do
        let left ← operand row front.reverse level last
        .ok (node last [left])
      else none
    | [] => none
  | .chain =>
    match ps.reverse with
    | last :: front =>
      match last.kind with
      | .lpar => some do
        let left ← operand row front.reverse level last
        let arguments ← inside row last
        .ok (.mk .call last.line [left, arguments])
      | .lbra => some do
        let left ← operand row front.reverse level last
        let key ← inside row last
        .ok (.mk .index last.line [left, key])
      | .symbol _ =>
        match front with
        | dot :: owner :: more =>
          if dot.kind == .dot then some do
            let left ← operand row (owner :: more).reverse level dot
            let right ← value last
            .ok (node dot [left, right])
          else none
        | _ => none
      | _ => none
    | [] => none

/-- Tries the levels from `level` on. -/
def fromLevel (first : Piece) (tail : List Piece) : Nat → List Level → Except CompileError Tree
  | _, [] => faultAt (tail.head?.getD first).line .unparsable
  | level, lv :: more =>
    match atLevel row value level lv first tail with
    | some r => r
    | none => fromLevel first tail (level + 1) more

/-- A row read from `level` on; an empty one is blamed on `line`. -/
def climb (ps : List Piece) (level line : Nat) : Except CompileError Tree :=
  match ps with
  | [] => .ok (.empty line)
  | [p] => if p.kind.isAtom then value p else fromLevel row value p [] level (levels.drop level)
  | p :: tail => fromLevel row value p tail level (levels.drop level)

end

mutual
/-- A row within a budget of nesting. -/
def row : Nat → List Piece → Nat → Nat → Except CompileError Tree
  | 0, _, _, line => faultAt line .tooDeep
  | d + 1, ps, level, line => climb (row d) (atom (row d) (elseIf d)) ps level line
/-- The `if` after an `else` within a budget of nesting. -/
def elseIf : Nat → Piece → Except CompileError Tree
  | 0, p => faultAt p.line .tooDeep
  | d + 1, p => atom (row d) (elseIf d) p
end

end ScriptEngine.Precedence

namespace ScriptEngine

/-- The tree of a source text whose first line has the given number. -/
def parse (src : Bytes) (firstLine : Nat) : Except CompileError Tree := do
  let tokens ← lex src firstLine
  let pieces ← bracket tokens
  let pieces ← Blocks.fix firstLine pieces
  Precedence.row maxNesting pieces 0 firstLine

end ScriptEngine
