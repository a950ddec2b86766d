import ScriptEngine.Fault

/-!
# Tokens grouped by brackets

`bracket` hangs the tokens between a pair of brackets below the opening one and drops the closing
one.  At most `maxNesting` brackets may be open at once.

* `Piece`    a token with the pieces below it;
* `bracket`  the pieces of a token list, or the first bracket that has no partner.

`Piece.flat` writes a forest out again, each group with its closing bracket, so that grouping
followed by `flat` is the identity on the kinds of a well-bracketed list.
-/

namespace ScriptEngine

/-- How many brackets, blocks and operators may be nested. -/
def maxNesting : Nat := 200

/-- A token and what was grouped below it. -/
inductive Piece where
  | mk (kind : Tok) (line : Nat) (inner : List Piece)
  deriving Inhabited

namespace Piece

def kind : Piece → Tok
  | mk k _ _ => k

def line : Piece → Nat
  | mk _ l _ => l

def inner : Piece → List Piece
  | mk _ _ ps => ps

/-- A token with nothing below it. -/
def leaf (t : Token) : Piece := mk t.kind t.line []

mutual
/-- The kinds of a piece and of all below it in order, with a closing bracket after a group. -/
def flat : Piece → List Tok
  | mk k _ ps => k :: (flatAll ps ++ k.closer?.toList)
/-- The kinds of a forest. -/
def flatAll : List Piece → List Tok
  | [] => []
  | p :: ps => flat p ++ flatAll ps
end

end Piece

namespace Bracket

/-- A bracket that is still open, with the pieces before it on its level (last first). -/
structure Open where
  token : Token
  before : List Piece

/-- Groups the remaining tokens: `opened` are the brackets around the current place, innermost
first, and `level` the pieces read on the current level, last first. -/
def group : List Token → List Open → List Piece → Except CompileError (List Piece)
  | [], [], level => .ok level.reverse
  | [], o :: _, _ => faultAt o.token.line .unterminatedBracket
  | t :: ts, opened, level =>
    if t.kind.isOpen then
      if maxNesting ≤ opened.length then faultAt t.line .tooDeep
      else group ts (⟨t, level⟩ :: opened) []
    else if t.kind.isClose then
      match opened with
      | [] => faultAt t.line .unmatchedCloser
      | o :: opened =>
        if o.token.kind.closer? == some t.kind then
          group ts opened (.mk o.token.kind o.token.line level.reverse :: o.before)
        else faultAt t.line .mismatchedBracket
    else group ts opened (Piece.leaf t :: level)

end Bracket

def bracket (ts : List Token) : Except CompileError (List Piece) := Bracket.group ts [] []

end ScriptEngine
