import ScriptEngine.Heap.Coerce

/-!
# Listings of code

A listing shows a unit word by word: the offset of each instruction, its mnemonic, its operand
with the constant it stands for, and the source line where that changes.  The units among its
constants follow, each under the name of the unit around it and its own constant index.

* `Heap.listing`  the listing of a code object or of a function bound to one.
-/

namespace ScriptEngine.Listing

/-- A text filled up with blanks to a width. -/
def padded (width : Nat) (s : String) : String := s.pushn ' ' (width - s.length)

def zeroPadded (width n : Nat) : String :=
  let s := toString n
  "".pushn '0' (width - s.length) ++ s

def constant (h : Heap) : Value → String
  | .nil => "nil"
  | .num n => Numeral.written n.toFloat
  | .done => "<end>"
  | .obj a =>
    match h.bytes? (.obj a) with
    | some bs => Text.quote (Text.lossy bs)
    | none => "<" ++ h.typeName (.obj a) ++ ">"

/-- The operand of an instruction, with the constant it stands for. -/
def operand (h : Heap) (c : Loaded) (op : Op) (arg : UInt16) : String :=
  let note :=
    match op.takesConst, c.consts[arg.toNat]? with
    | true, some v => " ; " ++ constant h v
    | _, _ => ""
  " " ++ toString arg.toNat ++ note

/-- An instruction; `arg` is the word after it. -/
def instruction (h : Heap) (c : Loaded) (w : UInt16) (arg : UInt16) : String :=
  match Op.ofWord? w, Op.mnemonic? w with
  | some op, some m =>
    padded 12 m ++ (if op.hasOperand then operand h c op arg else "")
  | _, _ => "<invalid 0x" ++ Text.hex w.toNat ++ ">"

/-- The line at the offset `ip` and the runs that start after it, given the line so far and the
runs that follow. -/
def lineAt (ip : Nat) : Nat → List (Nat × Nat) → Nat × List (Nat × Nat)
  | line, [] => (line, [])
  | line, (start, next) :: runs =>
    if start ≤ ip then lineAt ip next runs else (line, (start, next) :: runs)

/-- A listing under way: its text, the line shown last, the current line and the runs that
follow. -/
structure State where
  out : String
  shown : Option Nat
  line : Nat
  runs : List (Nat × Nat)

/-- Adds the row of the instruction at `ip`. -/
def State.row (s : State) (width ip : Nat) (body : String) : State :=
  let (line, runs) := lineAt ip s.line s.runs
  let start := s.out ++ zeroPadded width ip ++ ": "
  if s.shown == some line then { s with out := start ++ body ++ "\n", line, runs }
  else
    { out := start ++ padded 40 body ++ " line " ++ toString line ++ "\n"
      shown := some line
      line
      runs }

/-- Adds the rows of the words from `ip` on. -/
def rows (h : Heap) (c : Loaded) (width : Nat) : Nat → List UInt16 → State → State
  | _, [], s => s
  | ip, [w], s => s.row width ip (instruction h c w 0)
  | ip, w :: arg :: ws, s =>
    let s := s.row width ip (instruction h c w arg)
    if 0 < Op.operandCount w then rows h c width (ip + 2) ws s
    else rows h c width (ip + 1) (arg :: ws) s

/-- The listing of one unit under the given name, without the units among its constants. -/
def unit (h : Heap) (name : String) (c : Loaded) : String :=
  let size := c.words.size
  let head := name ++ " (" ++ c.file ++ ", " ++ toString size ++ " words, "
    ++ toString c.consts.size ++ " constants):\n"
  let width := max 4 (toString size).length
  let start : State :=
    { out := head, shown := none, line := (c.lines[0]?.map (·.2)).getD 0, runs := c.lines.toList }
  (rows h c width 0 c.words.toList start).out

/-- The listing of a unit and of the units among its constants.  The number bounds how deep those
lie inside each other. -/
def nested (h : Heap) : Nat → String → Loaded → String
  | 0, name, c => unit h name c
  | n + 1, name, c =>
    c.consts.toList.zipIdx.foldl
      (fun out (v, i) =>
        match h.code? v with
        | some inner => out ++ "\n" ++ nested h n (name ++ "/const " ++ toString i) inner
        | none => out)
      (unit h name c)

end ScriptEngine.Listing

namespace ScriptEngine.Heap

def nativeOf? (h : Heap) (v : Value) : Option Native :=
  match h.func? v with
  | some (target, _) => h.native? target
  | none => h.native? v

def codeOf? (h : Heap) (v : Value) : Option Loaded :=
  match h.func? v with
  | some (target, _) => h.code? target
  | none => h.code? v

/-- The listing of a code object or of a function bound to one; other values are only named. -/
def listing (h : Heap) (v : Value) : String :=
  match h.codeOf? v, h.nativeOf? v with
  | some c, _ => Listing.nested h h.cells.size "<top>" c
  | none, some n => "<native " ++ n.name ++ ">\n"
  | none, none => "<" ++ h.typeName v ++ " is not compiled code>\n"

end ScriptEngine.Heap
