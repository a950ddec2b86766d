import ScriptEngine.Grammar.Blocks
import ScriptEngine.Token.Arena
import ScriptEngine.Token.Lexer

/-!
# Grouping in place

The tokens of a text are put into an arena as they are read.  Then brackets, function literals and
control statements take what belongs to them by changes of links, and the rows of the arena become the
same pieces that `bracket` and `Blocks.fix` make.  Each change is put on record, so that something can be
said of the arena at every moment.

The links say how far a walk goes.  The number that bounds the steps of a walk stops it for good, unlike
the end of a row.

* `Linking.scan`             reads tokens into the arena;
* `Linking.matchBrackets`    moves what stands between two brackets below the first of them;
* `Linking.fixBlock`, `Linking.fixControl`   complete the rows below a bracket and a control statement;
* `Linking.arrange`          does all of this.
-/

namespace ScriptEngine

namespace Arena

/-- Why work on an arena ends early. -/
inductive Halt where
  | refused (e : CompileError)
  /-- A walk has taken all the steps it may. -/
  | endless

/-- An arena and what it was after each change of its links, last first. -/
structure Log where
  now : Arena
  past : List Arena

/-- An arena without tokens of a text. -/
def Log.start (line : Nat) : Log := ⟨.start line, []⟩

end Arena

/-- Work on an arena. -/
abbrev Linking := EStateM Arena.Halt Arena.Log

namespace Linking

open Arena (top)

def now : Linking Arena := do return (← get).now

def ofExcept {α : Type} : Except CompileError α → Linking α
  | .ok a => pure a
  | .error e => throw (.refused e)

/-- Refuses the text at the token at a place. -/
def refuse {α : Type} (i : Nat) (fault : Fault) : Linking α := do
  ofExcept (faultAt ((← now).line i) fault)

def relink (f : Arena → Arena) : Linking Unit := modify fun s => ⟨f s.now, f s.now :: s.past⟩

def add (t : Token) : Linking Nat := modifyGet fun s => (s.now.size, { s with now := s.now.add t })

def setKind (i : Nat) (k : Tok) : Linking Unit := modify fun s => { s with now := s.now.setKind i k }

def unlink (i : Nat) : Linking Unit := relink (·.unlink i)

/-- Puts a token at the end of the row of another one. -/
def append (p i : Nat) : Linking Unit := relink (·.append p i)

/-- Moves the siblings behind `here` to the row of `into`, up to the first one at which to stop.  The
number bounds the steps. -/
def gather (here into : Nat) (stop : Arena → Nat → Bool) : Nat → Linking Unit
  | 0 => throw .endless
  | n + 1 => do
    let a ← now
    match a.next here with
    | none => pure ()
    | some i =>
      if stop a i then pure ()
      else do
        unlink i
        append into i
        gather here into stop n

/-! ## reading -/

/-- The kind a token takes behind all others. -/
def signed (a : Arena) (kind : Tok) : Tok :=
  match kind, (a.node top).last with
  | .minus, some l => if (a.kind l).beforeSign then .neg else .minus
  | k, _ => k

/-- Puts a token behind all others of the text. -/
def push (kind : Tok) (line : Nat) : Linking Unit := do
  let i ← add ⟨signed (← now) kind, line⟩
  append top i

/-- Reads the tokens of `src`.  The number bounds the steps. -/
def scan : Nat → Nat → Bytes → Linking Unit
  | _, _, [] => pure ()
  | 0, _, _ => pure ()
  | n + 1, line, c :: rest =>
    let take (r : Except CompileError Lexer.Read) : Linking Unit := do
      let r ← ofExcept r
      push r.kind line
      scan n r.line r.rest
    if c == 10 then scan n (line + 1) rest
    else if c == 32 || c == 9 || c == 13 || c == 12 then scan n line rest
    else if c == 35 then scan n line (rest.dropWhile (· != 10))
    else if c == 34 || c == 39 then take (Lexer.string n c line rest)
    else if c == 96 then take (Lexer.character line rest)
    else if Byte.isDigit c then take (Lexer.number line (c :: rest))
    else take (Lexer.word line c (c :: rest))

/-! ## brackets -/

/-- Groups from a token on, with the brackets that are open.  The number bounds the steps. -/
def matchFrom : Nat → Option Nat → List Nat → Linking Unit
  | 0, _, _ => throw .endless
  | _ + 1, none, [] => pure ()
  | _ + 1, none, o :: _ => refuse o .unterminatedBracket
  | n + 1, some i, opened => do
    let a ← now
    if (a.kind i).isOpen then
      if maxNesting ≤ opened.length then refuse i .tooDeep
      else matchFrom n (a.next i) (i :: opened)
    else if (a.kind i).isClose then
      match opened with
      | [] => refuse i .unmatchedCloser
      | o :: opened =>
        if (a.kind o).closer? == some (a.kind i) then do
          gather o o (fun _ c => c == i) (a.size + 1)
          unlink i
          matchFrom n (a.next i) opened
        else refuse i .mismatchedBracket
    else matchFrom n (a.next i) opened

/-- Groups all tokens by their brackets. -/
def matchBrackets : Linking Unit := do
  let a ← now
  matchFrom (a.size + 1) (a.node top).first []

/-! ## blocks -/

/-- Puts a separator behind a token unless the next one may follow. -/
def addSeparator (i : Nat) (keep : Tok → Bool) : Linking Unit := do
  let a ← now
  match a.next i with
  | none => pure ()
  | some n =>
    if keep (a.kind n) then pure ()
    else do
      let semi ← add ⟨.semi, a.line i⟩
      relink (·.insertAfter i semi)

section

-- How to complete the row of a bracket, and how to complete a control statement.
variable (block control : Nat → Linking Unit)

/-- Moves the next sibling to the row of a token and completes it. -/
def adopt (i n : Nat) : Linking Unit := do
  unlink n
  append i n
  block n

/-- The body of a function literal. -/
def fixFuncBody (i : Nat) : Linking Unit := do
  match (← now).nextOf? i .lcurl with
  | some body => adopt block i body
  | none => refuse i .badFunction

def fixFunc (i : Nat) : Linking Unit := do
  match (← now).nextOf? i .lpar with
  | some params => do
    adopt block i params
    fixFuncBody block i
  | none => fixFuncBody block i

/-- The body behind `owner`, which is in no row afterwards. -/
def takeBody (owner : Nat) : Linking Nat := do
  let a ← now
  match a.next owner with
  | none => refuse owner .missingBody
  | some n =>
    if a.kind n == .lcurl then do
      unlink n
      block n
      return n
    else do
      let body ← add ⟨.lcurl, a.line n⟩
      if (a.kind n).isControl then do
        control n
        unlink n
        append body n
      else do
        gather owner body (fun a c => a.kind c == .semi) (a.size + 1)
        block body
      return body

/-- Passes over a separator behind an `if` when an `else` follows: the sibling that comes next then. -/
def atElse (i : Nat) : Linking (Option Nat) := do
  let a ← now
  match a.next i with
  | none => return none
  | some n =>
    let other := (a.nextOf? n .kElse).isSome || (a.nextOf? n .kElsif).isSome
    if a.kind n == .semi && other then do
      unlink n
      return a.next n
    else return some n

def fixElse (i : Nat) : Linking Unit := do
  match ← atElse i with
  | none => pure ()
  | some n =>
    let a ← now
    if a.kind n == .kElsif then do
      setKind n .kIf
      control n
      unlink n
      append i n
    else if a.kind n == .kElse then
      match a.nextOf? n .kIf with
      | some inner => do
        unlink n
        control inner
        unlink inner
        append i inner
      | none => do
        let body ← takeBody block control n
        unlink n
        append i body
    else pure ()

def controlParts (i : Nat) : Linking Unit := do
  match (← now).nextOf? i .lpar with
  | none => refuse i .missingHeader
  | some head => do
    adopt block i head
    let body ← takeBody block control i
    append i body
    if (← now).kind i == .kIf then fixElse block control i else pure ()

/-- Completes what a token of a row begins. -/
def fixOne (i : Nat) : Linking Unit := do
  let kind := (← now).kind i
  if kind == .kFunc then do
    fixFunc block i
    let a ← now
    match (a.node i).prev with
    | some p => if a.kind p == .assign then addSeparator i Blocks.followsFunc else pure ()
    | none => pure ()
  else if kind.isControl then do
    control i
    addSeparator i (· == .semi)
  else if kind == .kElse || kind == .kElsif then refuse i .elseWithoutIf
  else if kind.isOpen then block i
  else pure ()

/-- Completes a row from a token on.  The number bounds the steps. -/
def fixFrom : Nat → Option Nat → Linking Unit
  | 0, _ => throw .endless
  | _ + 1, none => pure ()
  | n + 1, some i => do
    fixOne block control i
    fixFrom n ((← now).next i)

end

mutual
def fixBlock : Nat → Nat → Linking Unit
  | 0, i => refuse i .tooDeep
  | d + 1, i => do
    let a ← now
    fixFrom (fixBlock d) (fixControl d) (2 * a.size + 1) (a.node i).first
/-- Completes a control statement, whose parts come next. -/
def fixControl : Nat → Nat → Linking Unit
  | 0, i => refuse i .tooDeep
  | d + 1, i => controlParts (fixBlock d) (fixControl d) i
end

/-- Reads the tokens of a text and groups them. -/
def arrange (src : Bytes) (firstLine : Nat) : Linking Unit := do
  scan (src.length + 1) firstLine src
  matchBrackets
  fixBlock maxNesting top

end Linking

end ScriptEngine
