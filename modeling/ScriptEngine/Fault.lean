import ScriptEngine.Text.Utf8
import ScriptEngine.Token

/-!
# What can be wrong with a source text

One constructor per cause, the wording in `Fault.message`, and the place in `CompileError`.
-/

namespace ScriptEngine

/-- A reason to refuse a source text. -/
inductive Fault where
  -- tokens
  | unterminatedString
  | badHexEscape
  | badEscape (byte : UInt8)
  | unterminatedCharacter
  | badCharacter
  | badNumber
  | illegalCharacter (byte : UInt8)
  -- brackets
  | tooDeep
  | unmatchedCloser
  | mismatchedBracket
  | unterminatedBracket
  -- blocks
  | elseWithoutIf
  | badFunction
  | missingHeader
  | missingBody
  -- operators
  | missingOperand
  | unparsable
  | malformedControl
  -- code
  | functionTooLarge
  | tooManyConstants
  | expectedSymbol
  | unexpected (kind : Tok)
  | badStatement
  | missingCondition
  | badLoopLabel
  | badLoopHeader
  | badForeachVariable
  | noLoopLabeled (label : Bytes)
  | outsideLoop
  | questionWithoutColon
  | missingExpression
  | badTarget
  | badHashKey
  | entryWithoutKey
  | mixedArguments
  | tooManyArguments
  | restNotLast
  | defaultNotConstant
  | badParameter
  deriving Repr, DecidableEq

namespace Fault

/-- A byte inside a message. -/
def shown (b : UInt8) : String := Bytes.toLatin [b]

def message : Fault → String
  | unterminatedString => "unterminated string"
  | badHexEscape => "bad \\x escape"
  | badEscape b => "bad escape '\\" ++ shown b ++ "'"
  | unterminatedCharacter => "unterminated character literal"
  | badCharacter => "bad character literal"
  | badNumber => "bad number"
  | illegalCharacter b => "illegal character '" ++ shown b ++ "'"
  | tooDeep => "expression too deeply nested"
  | unmatchedCloser => "unmatched closing brace"
  | mismatchedBracket => "mismatched brace"
  | unterminatedBracket => "unterminated brace"
  | elseWithoutIf => "else without matching if"
  | badFunction => "bad function definition"
  | missingHeader => "missing '(' after control keyword"
  | missingBody => "missing statement body"
  | missingOperand => "missing operand"
  | unparsable => "parse error"
  | malformedControl => "malformed control statement"
  | functionTooLarge => "function too large"
  | tooManyConstants => "too many constants"
  | expectedSymbol => "expected a symbol"
  | unexpected kind => "unexpected " ++ kind.name
  | badStatement => "bad statement"
  | missingCondition => "missing condition"
  | badLoopLabel => "bad loop label"
  | badLoopHeader => "bad loop header"
  | badForeachVariable => "bad foreach variable"
  | noLoopLabeled label => "no enclosing loop labeled " ++ Text.lossy label
  | outsideLoop => "break or continue outside a loop"
  | questionWithoutColon => "'?' without ':'"
  | missingExpression => "missing expression"
  | badTarget => "bad lvalue"
  | badHashKey => "bad hash key"
  | entryWithoutKey => "hash entries need a key"
  | mixedArguments => "mixed named and positional arguments"
  | tooManyArguments => "too many arguments"
  | restNotLast => "rest argument must be last"
  | defaultNotConstant => "default arguments must be constants"
  | badParameter => "bad function argument"

end Fault

/-- A fault and the line and file it was found in; the file is empty before it is known. -/
structure CompileError where
  line : Nat
  fault : Fault
  file : String := ""
  deriving Repr, DecidableEq

namespace CompileError

def message (e : CompileError) : String := e.fault.message

/-- The message with its place. -/
def describe (e : CompileError) : String :=
  if e.file.isEmpty then "parse error: " ++ e.message ++ " at line " ++ toString e.line
  else "parse error: " ++ e.message ++ " in " ++ e.file ++ ", line " ++ toString e.line

/-- The same error in a file. -/
def inFile (e : CompileError) (file : String) : CompileError := { e with file }

end CompileError

/-- Fails with `fault` at `line`. -/
def faultAt {α : Type} (line : Nat) (fault : Fault) : Except CompileError α :=
  .error { line, fault }

end ScriptEngine
