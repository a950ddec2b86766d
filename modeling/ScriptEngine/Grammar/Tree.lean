import ScriptEngine.Numeral.Shortest
import ScriptEngine.Token

/-!
# Syntax trees

A tree is a kind, a line and the trees below it.  Names, numbers, strings, `nil` and places where
nothing was written are leaves; every other kind has at least one tree below it.

* `Tree.leaves`   the symbols, literals and `nil`s of a tree in order, with their lines;
* `Tree.dump`     a one-line form for inspection;
* `Tree.items`    the items of a list, with lists inside it spliced in place.
-/

namespace ScriptEngine

inductive Tree where
  | mk (kind : Tok) (line : Nat) (children : List Tree)
  deriving Inhabited

namespace Tree

def kind : Tree → Tok
  | mk k _ _ => k

def line : Tree → Nat
  | mk _ l _ => l

def children : Tree → List Tree
  | mk _ _ cs => cs

/-- A place where nothing was written. -/
def empty (line : Nat) : Tree := mk .empty line []

def isEmpty (t : Tree) : Bool := t.kind == .empty

/-- The name of a symbol. -/
def name? : Tree → Option Bytes
  | mk (.symbol s) _ _ => some s
  | _ => none

mutual
/-- The number of levels of a tree. -/
def height : Tree → Nat
  | mk _ _ cs => heightFrom 0 cs + 1
/-- The number of levels of the highest tree, but at least `best`. -/
def heightFrom (best : Nat) : List Tree → Nat
  | [] => best
  | t :: ts => heightFrom (max best (height t)) ts
end

mutual
/-- The trees of a list that are no lists themselves; any other tree is its only item. -/
def flatten : Tree → List Tree
  | mk .list _ cs => flattenAll cs
  | t => [t]
/-- The items of several trees in order. -/
def flattenAll : List Tree → List Tree
  | [] => []
  | t :: ts => flatten t ++ flattenAll ts
end

/-- The items of a list at which something was written. -/
def items (t : Tree) : List Tree := t.flatten.filter fun i => !i.isEmpty

def isValue : Tok → Bool
  | .symbol _ | .number _ | .text _ | .nil => true
  | _ => false

mutual
/-- The symbols, literals and `nil`s of a tree in order, with their lines. -/
def leaves : Tree → List (Tok × Nat)
  | mk k l cs => if cs.isEmpty && isValue k then [(k, l)] else leavesAll cs
def leavesAll : List Tree → List (Tok × Nat)
  | [] => []
  | t :: ts => leaves t ++ leavesAll ts
end

/-- Two lowercase hexadecimal digits. -/
def hexByte (b : UInt8) : List Char :=
  [Nat.digitChar (b.toNat / 16), Nat.digitChar (b.toNat % 16)]

/-- How a kind is written in a dump: names, numbers and strings show their value. -/
def headText : Tok → String
  | .symbol s => "y:" ++ Bytes.toLatin s
  | .number x => "n:" ++ Numeral.written x
  | .text s => "s:" ++ String.ofList (s.flatMap hexByte)
  | k => k.name

mutual
/-- The tree on one line: `head@line`, or the same with the trees below it in parentheses. -/
def dump : Tree → String
  | mk k l [] => headText k ++ "@" ++ toString l
  | mk k l (c :: cs) =>
    "(" ++ headText k ++ "@" ++ toString l ++ " " ++ dump c ++ dumpAll cs ++ ")"
def dumpAll : List Tree → String
  | [] => ""
  | t :: ts => " " ++ dump t ++ dumpAll ts
end

end Tree

end ScriptEngine
