import ScriptEngine.Numeral.Size

/-!
# Options

Sizes and limits of an engine, their defaults, and how environment variables override them.
-/

namespace ScriptEngine

structure Options where
  /-- Cells per block of a pool. -/
  poolBlock : Nat := 512
  /-- Cells a context takes from a pool at a time. -/
  allocBatch : Nat := 32
  /-- Retired table storage that may pile up before it is released. -/
  deadBlocks : Nat := 64
  /-- Operands per context. -/
  maxStack : Nat := 16 * 1024
  /-- Frames per context. -/
  maxCallDepth : Nat := 4096
  /-- Contexts inside each other. -/
  maxNesting : Nat := 128
  /-- Loop marks per context. -/
  maxMarks : Nat := 1024
  /-- How deep members are looked up through parents. -/
  maxParentsDepth : Nat := 32
  /-- How many objects a member is looked up in. -/
  maxParentsVisits : Nat := 4096
  /-- Whether to print the code before running it. -/
  disassemble : Bool := false
  deriving Repr, DecidableEq, Inhabited

namespace Options

/-- A switch as written in an environment variable. -/
def switch? (text : String) : Option Bool :=
  let t := text.map Char.toLower
  if t == "1" || t == "true" || t == "yes" || t == "on" then some true
  else if t == "0" || t == "false" || t == "no" || t == "off" then some false
  else none

def sizeFrom (env : String → Option String) (var : String) (old : Nat) : Nat :=
  match (env var).bind Numeral.size? with
  | some n => max n 1
  | none => old

/-- The defaults overridden by environment variables. -/
def ofEnv (env : String → Option String) : Options :=
  let o : Options := {}
  { o with
    poolBlock := sizeFrom env "SABLE_POOL_BLOCK" o.poolBlock
    allocBatch := sizeFrom env "SABLE_ALLOC_BATCH" o.allocBatch
    deadBlocks := sizeFrom env "SABLE_DEAD_BLOCKS" o.deadBlocks
    maxStack := sizeFrom env "SABLE_MAX_STACK" o.maxStack
    maxCallDepth := sizeFrom env "SABLE_MAX_CALL_DEPTH" o.maxCallDepth
    maxNesting := sizeFrom env "SABLE_MAX_NESTING" o.maxNesting
    disassemble := ((env "SABLE_DISASSEMBLE").bind switch?).getD o.disassemble }

end Options

end ScriptEngine
