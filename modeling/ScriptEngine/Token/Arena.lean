import ScriptEngine.Token

/-!
# Tokens linked to their siblings

Tokens that are grouped in place stand in an arena and are linked to each other: each one knows the
siblings before and behind it, the token whose siblings they are, and the ends of the row of its own.
The first token of an arena stands for the whole text.

* `Arena.Node`     a token and its links;
* `Arena.add`      puts a token into an arena, without links;
* `Arena.append`, `Arena.unlink`, `Arena.insertAfter`   the changes of links.
-/

namespace ScriptEngine

/-- A token and its links. -/
@[ext]
structure Arena.Node where
  token : Token
  prev : Option Nat := none
  next : Option Nat := none
  parent : Option Nat := none
  first : Option Nat := none
  last : Option Nat := none
  deriving Inhabited

/-- Tokens that are linked to each other by their places. -/
structure Arena where
  nodes : Array Arena.Node

namespace Arena

/-- The place of the token that stands for the whole text. -/
def top : Nat := 0

/-- An arena with that token only. -/
def start (line : Nat) : Arena := ⟨#[{ token := ⟨.list, line⟩ }]⟩

def size (a : Arena) : Nat := a.nodes.size

/-- The token at a place, with its links. -/
def node (a : Arena) (i : Nat) : Node := a.nodes[i]?.getD default

def token (a : Arena) (i : Nat) : Token := (a.node i).token

def kind (a : Arena) (i : Nat) : Tok := (a.token i).kind

def line (a : Arena) (i : Nat) : Nat := (a.token i).line

def next (a : Arena) (i : Nat) : Option Nat := (a.node i).next

/-- The sibling behind a token if it is of the given kind. -/
def nextOf? (a : Arena) (i : Nat) (k : Tok) : Option Nat := (a.next i).filter fun n => a.kind n == k

def change (a : Arena) (i : Nat) (f : Node → Node) : Arena := ⟨a.nodes.modify i f⟩

def add (a : Arena) (t : Token) : Arena := ⟨a.nodes.push { token := t }⟩

def setKind (a : Arena) (i : Nat) (k : Tok) : Arena :=
  a.change i fun t => { t with token := { t.token with kind := k } }

def append (a : Arena) (p i : Nat) : Arena :=
  let last := (a.node p).last
  let a := a.change i fun t => { t with prev := last, next := none, parent := some p }
  let a :=
    match last with
    | some l => a.change l fun t => { t with next := some i }
    | none => a.change p fun t => { t with first := some i }
  a.change p fun t => { t with last := some i }

def unlink (a : Arena) (i : Nat) : Arena :=
  let t := a.node i
  let a :=
    match t.prev, t.parent with
    | some l, _ => a.change l fun s => { s with next := t.next }
    | none, some p => a.change p fun s => { s with first := t.next }
    | none, none => a
  let a :=
    match t.next, t.parent with
    | some r, _ => a.change r fun s => { s with prev := t.prev }
    | none, some p => a.change p fun s => { s with last := t.prev }
    | none, none => a
  a.change i fun s => { s with prev := none, next := none, parent := none }

def insertAfter (a : Arena) (here i : Nat) : Arena :=
  let next := (a.node here).next
  let parent := (a.node here).parent
  let a := a.change i fun t => { t with prev := some here, next := next, parent := parent }
  let a := a.change here fun t => { t with next := some i }
  match next, parent with
  | some r, _ => a.change r fun t => { t with prev := some i }
  | none, some p => a.change p fun t => { t with last := some i }
  | none, none => a

end Arena

end ScriptEngine
