import ScriptEngine.Grammar.Bracketed

/-!
# Blocks

Function literals and control statements take the pieces that belong to them: a function its
parameter list and body, a control statement its header, its body and, for `if`, its other branch.
An unbraced body is wrapped in a block of its own, and a statement separator is put after a
control statement and after a function literal that is the value of an assignment, where the
text has none.

All functions walk along the siblings that are still to come and give back those they leave.
Blocks inside blocks are counted down from a budget, so that nesting is bounded; the walk along one
list of siblings is bounded by its length.

* `fixSiblings`  one list of siblings;
* `fixControl`   a control statement at the front of a list;
* `fixBlock`     the pieces below a bracket, and `fix` those of a whole text.
-/

namespace ScriptEngine.Blocks

/-- Kinds that may follow a function literal after `=` without a separator. -/
def followsFunc : Tok → Bool
  | .semi | .comma | .colon | .rpar | .lpar | .lbra | .dot => true
  | _ => false

/-- The separator to put on `line` before `rest`, unless `keep` lets the next piece follow. -/
def separator (line : Nat) (keep : Tok → Bool) : List Piece → List Piece
  | [] => []
  | p :: _ => if keep p.kind then [] else [.mk .semi line []]

section

-- How to fix the pieces below a bracket whose line is given, and how to fix the control statement
-- with the given keyword and line.
variable (block : Nat → List Piece → Except CompileError (List Piece))
variable (control : Tok → Nat → List Piece → Except CompileError (Piece × List Piece))

/-- A bracket with its pieces fixed. -/
def fixGroup : Piece → Except CompileError Piece
  | .mk k line ps => do .ok (.mk k line (← block line ps))

/-- A function literal: an optional parameter list, then the body. -/
def fixFunc (line : Nat) (rest : List Piece) : Except CompileError (Piece × List Piece) := do
  let (params, rest) ←
    match rest with
    | .mk .lpar l ps :: rest => do .ok ([← fixGroup block (.mk .lpar l ps)], rest)
    | _ => .ok ([], rest)
  match rest with
  | .mk .lcurl l ps :: rest =>
    do .ok (.mk .kFunc line (params ++ [← fixGroup block (.mk .lcurl l ps)]), rest)
  | _ => faultAt line .badFunction

/-- The body after a piece on line `owner`. -/
def takeBody (owner : Nat) : List Piece → Except CompileError (Piece × List Piece)
  | [] => faultAt owner .missingBody
  | .mk .lcurl l ps :: rest => do .ok (← fixGroup block (.mk .lcurl l ps), rest)
  | .mk k l ps :: rest =>
    if k.isControl then do
      let (stmt, rest) ← control k l rest
      .ok (.mk .lcurl l [stmt], rest)
    else do
      let (own, rest) := (Piece.mk k l ps :: rest).span (fun p => p.kind != .semi)
      .ok (.mk .lcurl l (← block l own), rest)

/-- The pieces at which an `else` of an `if` before `rest` is looked for: a separator in front of
the `else` is passed over. -/
def atElse (rest : List Piece) : List Piece :=
  match rest with
  | .mk .semi _ _ :: .mk .kElse l ps :: more => .mk .kElse l ps :: more
  | .mk .semi _ _ :: .mk .kElsif l ps :: more => .mk .kElsif l ps :: more
  | _ => rest

/-- The other branch of an `if`, when there is one. -/
def fixElse (rest : List Piece) : Except CompileError (List Piece × List Piece) :=
  match atElse rest with
  | .mk .kElsif l _ :: more => do
    let (stmt, rest) ← control .kIf l more
    .ok ([stmt], rest)
  | .mk .kElse _ _ :: .mk .kIf l _ :: more => do
    let (stmt, rest) ← control .kIf l more
    .ok ([stmt], rest)
  | .mk .kElse l _ :: more => do
    let (body, rest) ← takeBody block control l more
    .ok ([body], rest)
  | _ => .ok ([], rest)

/-- Header, body and other branch of a control statement. -/
def controlParts (kind : Tok) (line : Nat) (rest : List Piece) : Except CompileError (Piece × List Piece) :=
  match rest with
  | .mk .lpar l ps :: rest => do
    let head ← fixGroup block (.mk .lpar l ps)
    let (body, rest) ← takeBody block control line rest
    let (other, rest) ← if kind == .kIf then fixElse block control rest else .ok ([], rest)
    .ok (.mk kind line (head :: body :: other), rest)
  | _ => faultAt line .missingHeader

/-- Fixes siblings behind those in `made` (last first).  The number bounds the steps. -/
def fixSiblings : Nat → List Piece → List Piece → Except CompileError (List Piece)
  | _, made, [] => .ok made.reverse
  | 0, made, rest => .ok (made.reverse ++ rest)
  | n + 1, made, .mk kind line inner :: rest =>
    match kind with
    | .kFunc =>
      match fixFunc block line rest with
      | .error e => .error e
      | .ok (func, rest) =>
        let semi :=
          match made with
          | .mk .assign _ _ :: _ => separator line followsFunc rest
          | _ => []
        fixSiblings n (semi ++ func :: made) rest
    | .kElse | .kElsif => faultAt line .elseWithoutIf
    | _ =>
      if kind.isControl then
        match control kind line rest with
        | .error e => .error e
        | .ok (stmt, rest) =>
          fixSiblings n (separator line (· == .semi) rest ++ stmt :: made) rest
      else if kind.isOpen then
        match fixGroup block (.mk kind line inner) with
        | .error e => .error e
        | .ok p => fixSiblings n (p :: made) rest
      else fixSiblings n (.mk kind line inner :: made) rest

end

mutual
/-- Fixes the pieces below a bracket on `line`, with the given budget of nesting left. -/
def fixBlock : Nat → Nat → List Piece → Except CompileError (List Piece)
  | 0, line, _ => faultAt line .tooDeep
  | d + 1, _, ps => fixSiblings (fixBlock d) (fixControl d) ps.length [] ps
/-- Fixes the control statement with the given keyword and line, whose parts come next. -/
def fixControl : Nat → Tok → Nat → List Piece → Except CompileError (Piece × List Piece)
  | 0, _, line, _ => faultAt line .tooDeep
  | d + 1, kind, line, rest => controlParts (fixBlock d) (fixControl d) kind line rest
end

/-- Fixes the pieces of a whole text that starts on `line`. -/
def fix (line : Nat) (ps : List Piece) : Except CompileError (List Piece) :=
  fixBlock maxNesting line ps

end ScriptEngine.Blocks
