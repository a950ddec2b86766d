import ScriptEngine.Engine
import ScriptEngine.Listing

/-!
# The command line

Options may stand anywhere among the arguments; the first argument that is left over is the script
and the others are handed to it.

* `CommandLine.parse`    the arguments and the environment as an invocation, or what is wrong;
* `CommandLine.program`  runs a script and tells what it wrote;
* `CommandLine.execute`  both, with a way to read files.
-/

namespace ScriptEngine.CommandLine

/-- What is wrong with the arguments. -/
inductive UsageError where
  | missingScript
  | missingValue (flag : String)
  | invalidValue (flag value : String)
  deriving Repr, DecidableEq

def UsageError.message : UsageError → String
  | missingScript => "free-standing argument is missing"
  | missingValue flag => "the '" ++ flag ++ "' option doesn't have an associated value"
  | invalidValue flag value => "invalid value for " ++ flag ++ ": " ++ value

/-- A script to run. -/
structure Invocation where
  options : Options
  script : String
  args : List String
  deriving Repr, DecidableEq

/-- What is asked for. -/
inductive Wish where
  | help
  | run (i : Invocation)
  deriving Repr, DecidableEq

/-- What a program has written, and its exit status. -/
structure Report where
  status : Nat
  stdout : Bytes := []
  stderr : Bytes := []
  deriving Repr, DecidableEq

/-- Takes the first occurrence of a flag out of the arguments. -/
def takeFlag (flag : String) (args : List String) : Bool × List String :=
  (args.contains flag, args.erase flag)

/-- Takes a flag and the argument after it out of the arguments. -/
def takeValue (flag : String) : List String → Except UsageError (Option String × List String)
  | [] => .ok (none, [])
  | a :: rest =>
    if a == flag then
      match rest with
      | v :: rest => .ok (some v, rest)
      | [] => .error (.missingValue flag)
    else do
      let (v, rest) ← takeValue flag rest
      return (v, a :: rest)

/-- Takes a flag with a size, which is at least one; without the flag it is `old`. -/
def takeSize (flag : String) (old : Nat) (args : List String) :
    Except UsageError (Nat × List String) := do
  match ← takeValue flag args with
  | (none, rest) => return (old, rest)
  | (some v, rest) =>
    match Numeral.size? v with
    | some n => return (max n 1, rest)
    | none => throw (.invalidValue flag v)

def parse (env : String → Option String) (args : List String) : Except UsageError Wish := do
  if args.contains "-h" || args.contains "--help" then return .help
  let o := Options.ofEnv env
  let (disassemble, args) := takeFlag "--disassemble" args
  let (poolBlock, args) ← takeSize "--pool-block" o.poolBlock args
  let (maxStack, args) ← takeSize "--max-stack" o.maxStack args
  let (maxCallDepth, args) ← takeSize "--max-call-depth" o.maxCallDepth args
  let options :=
    { o with disassemble := o.disassemble || disassemble, poolBlock, maxStack, maxCallDepth }
  match args with
  | [] => throw .missingScript
  | script :: args => return .run { options, script, args }

def help : String :=
  String.join
    ["Usage: sable [options] <script> [script args...]\n",
      "Options:\n",
      "  -h, --help: Print this help message\n",
      "  --disassemble: Print the bytecode of the script before running it\n",
      "  --pool-block <n>: Cells per allocation block (default: 512)\n",
      "  --max-stack <n>: Operand stack limit (default: 16k)\n",
      "  --max-call-depth <n>: Call depth limit (default: 4096)\n"]

/-- Whether the word `error` is written in colour. -/
def coloured (env : String → Option String) : Bool :=
  match env "TERM" with
  | some term => term != "dumb" && (env "NO_COLOR").isNone
  | none => false

/-- An error as it is shown to the user; `trace` holds the places further out. -/
def complaint (colour : Bool) (text : String) (trace : List Place) : Bytes :=
  let word := if colour then "\x1b[0m\x1b[1m\x1b[31merror\x1b[0m" else "error"
  let outer := trace.map fun p =>
    "  called from " ++ p.file ++ ", line " ++ toString p.line ++ "\n"
  Bytes.ofString (word ++ ": " ++ text ++ "\n" ++ String.join outer)

def refusal (text : String) : Report :=
  { status := 2, stderr := Bytes.ofString ("sable: " ++ text ++ "\n") }

def prepare (cx : CtxId) (src : Bytes) (i : Invocation) :
    Act (Except CompileError (Value × Value × Array Value)) := do
  match ← Act.compile cx src i.script 1 with
  | .error e => return .error e
  | .ok code =>
    let ns ← Engine.coreNamespace cx
    let args := (← i.args.mapM (Act.newText cx)).toArray
    discard <| Act.newVec cx args
    return .ok (code, ns, args)

/-- More steps than a script ever takes. -/
def plenty : Nat := 0x4000000000000000

def launch (colour : Bool) (i : Invocation) (cx : CtxId) (code ns : Value) (args : Array Value)
    (w : World) : Report :=
  let w := (w.pin code).pin ns
  let listing := if i.options.disassemble then Bytes.ofString (w.heap.listing code) else []
  match Engine.call Library.core plenty cx code args .nil ns w with
  | some (.ok _, w) => { status := 0, stdout := listing ++ w.output }
  | some (.error e, w) =>
    { status := 1
      stdout := listing ++ w.output
      stderr := complaint colour e.describe e.trace.tail }
  | none => { status := 101, stdout := listing }

def program (colour : Bool) (i : Invocation) (src : Bytes) : Report :=
  let (cx, w) := (World.new i.options).newContext
  match Engine.visit (prepare cx src i) w with
  | (.ok (.ok (code, ns, args)), w) => launch colour i cx code ns args w
  | (.ok (.error e), _) => { status := 1, stderr := complaint colour e.describe [] }
  | (.error e, _) => { status := 1, stderr := complaint colour e.describe e.trace.tail }

/-- Does what the arguments ask for.  `read` gives the bytes of a file or says why it cannot. -/
def execute {m : Type → Type} [Monad m] (env : String → Option String)
    (read : String → m (Except String Bytes)) (args : List String) : m Report := do
  match parse env args with
  | .error e => return refusal e.message
  | .ok .help => return { status := 0, stdout := Bytes.ofString help }
  | .ok (.run i) =>
    match ← read i.script with
    | .error why => return refusal ("cannot read " ++ i.script ++ ": " ++ why)
    | .ok src => return program (coloured env) i src

/-- The environment variables that matter. -/
def consulted : List String :=
  ["SABLE_POOL_BLOCK", "SABLE_ALLOC_BATCH", "SABLE_DEAD_BLOCKS", "SABLE_MAX_STACK",
    "SABLE_MAX_CALL_DEPTH", "SABLE_MAX_NESTING", "SABLE_DISASSEMBLE", "TERM", "NO_COLOR"]

end ScriptEngine.CommandLine
