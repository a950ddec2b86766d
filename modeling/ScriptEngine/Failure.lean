import ScriptEngine.Numeral.Shortest
import ScriptEngine.Text.Quoted
import ScriptEngine.Text.Utf8
import ScriptEngine.Value

/-!
# Runtime errors

A cause, the value handed to `die`, and the places of the frames that were active, innermost
first.  The wording of every cause is in `Cause.message`.
-/

namespace ScriptEngine

/-- Why a run stopped. -/
inductive Cause where
  -- the machine
  | stackOverflow
  | stackUnderflow
  | callDepth
  | markOverflow
  | noFrame
  | offCode
  | invalidWord (w : UInt16)
  | notCallable
  | unboundCode
  | tooFewArguments (given need : Nat)
  | missingArgument (name : Bytes)
  | undefinedSymbol (name : Bytes)
  | notIterable
  -- coercions
  | nilAsNumber
  | textAsNumber
  | objectAsNumber
  | objectAsTruth
  | nilAsText
  | objectAsText
  | notFinite (x : Float)
  | notByte (x : Float)
  -- members and containers
  | noMember (name : Bytes)
  | notObject
  | ghostWithoutMembers
  | ghostReadOnly
  | parentsNotVector
  | keyNotScalar
  | outOfBounds (what : String) (index : Float) (size : Nat)
  | sliceOutOfBounds (start stop : Int) (size : Nat)
  | extractFromOther
  | insertIntoOther
  | sliceOfOther
  | setInOther
  | deleteFromOther
  | unchangeable (why : Str.Refusal)
  -- contexts
  | nestingTooDeep
  | foreignContext
  | notResumable
  | notCode (who : String)
  | scopeNotHash
  -- natives
  | notA (who what : String)
  | noSize
  | negativeSize
  | sizeOutOfRange (x : Float)
  | startOutOfBounds (who : String) (start : Int) (size : Nat)
  | characterOutOfRange (x : Float)
  | argumentsNotVector
  | localsNotHash
  | sourceNotText
  | namespaceNotHash
  | outerNotFunction
  | noIdentity
  /-- A message chosen by a script or by the host. -/
  | raised (message : String)
  deriving Repr, DecidableEq

namespace Cause

def message : Cause → String
  | stackOverflow => "stack overflow"
  | stackUnderflow => "operand stack underflow"
  | callDepth => "call stack overflow"
  | markOverflow => "mark stack overflow"
  | noFrame => "no active frame"
  | offCode => "instruction pointer out of range"
  | invalidWord w => "invalid opcode 0x" ++ Text.hex w.toNat
  | notCallable => "function/method call on uncallable object"
  | unboundCode => "function/method call on unbound code"
  | tooFewArguments h n =>
    "too few function args (have " ++ toString h ++ " need " ++ toString n ++ ")"
  | missingArgument name => "missing argument: " ++ Text.lossy name
  | undefinedSymbol name => "undefined symbol: " ++ Text.lossy name
  | notIterable => "foreach enumeration of non-vector"
  | nilAsNumber => "nil used in numeric context"
  | textAsNumber => "non-numeric string in numeric context"
  | objectAsNumber => "non-scalar in numeric context"
  | objectAsTruth => "non-scalar used in boolean context"
  | nilAsText => "nil used in string context"
  | objectAsText => "non-scalar in string context"
  | notFinite x => "index " ++ Numeral.written x ++ " is not a finite number"
  | notByte x => "byte value " ++ Numeral.written x ++ " out of range"
  | noMember name => "no such member: " ++ Text.lossy name
  | notObject => "non-objects have no members"
  | ghostWithoutMembers => "ghost has no members"
  | ghostReadOnly => "ghost members are read-only"
  | parentsNotVector => "parents field not vector"
  | keyNotScalar => "container index not scalar"
  | outOfBounds what i n =>
    what ++ " index " ++ Numeral.written i ++ " out of bounds (size " ++ toString n ++ ")"
  | sliceOutOfBounds a b n =>
    "slice [" ++ toString a ++ ":" ++ toString b ++ "] out of bounds (size " ++ toString n ++ ")"
  | extractFromOther => "extract from non-container"
  | insertIntoOther => "insert into non-container"
  | sliceOfOther => "slice of non-vector"
  | setInOther => "insert into non-hash"
  | deleteFromOther => "delete from non-hash"
  | unchangeable why => why.message
  | nestingTooDeep => "call nesting too deep"
  | foreignContext => "sub-context does not belong to this context"
  | notResumable => "context cannot be resumed"
  | notCode who => who ++ ": not compiled code"
  | scopeNotHash => "bind_function: namespace is not a hash"
  | notA who what => who ++ ": not a " ++ what
  | noSize => "object has no size"
  | negativeSize => "setsize: negative size"
  | sizeOutOfRange x => "setsize: size " ++ Numeral.written x ++ " out of range"
  | startOutOfBounds who a n =>
    who ++ ": start " ++ toString a ++ " out of bounds (size " ++ toString n ++ ")"
  | characterOutOfRange x => "chr: byte value " ++ Numeral.written x ++ " out of range"
  | argumentsNotVector => "call: arguments must be a vector"
  | localsNotHash => "call: locals must be a hash"
  | sourceNotText => "compile: source is not a string"
  | namespaceNotHash => "bind: namespace is not a hash"
  | outerNotFunction => "bind: outer scope is not a function"
  | noIdentity => "id: argument is not an object"
  | raised m => m

end Cause

/-- A place in a source text. -/
structure Place where
  file : String
  line : Nat
  deriving Repr, DecidableEq

/-- A runtime error. -/
structure Failure where
  cause : Cause
  value : Value := .nil
  trace : List Place := []
  deriving Repr, DecidableEq

namespace Failure

/-- The message without a place. -/
def message (f : Failure) : String := f.cause.message

/-- The message with the innermost place. -/
def describe (f : Failure) : String :=
  match f.trace with
  | p :: _ => f.message ++ " at " ++ p.file ++ ", line " ++ toString p.line
  | [] => f.message

end Failure

end ScriptEngine
