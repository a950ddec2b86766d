/-!
# Instructions

Code is an array of 16-bit words: an instruction word, followed by one operand word for some
instructions.  An operand is a constant's index, a jump target (a word offset) or a number of
arguments.

* `Op.table`   every instruction with its mnemonic, in the order of their words;
* `Op.word`, `Op.ofWord?`  the word of an instruction and back.
-/

namespace ScriptEngine

inductive Op where
  | nop | pop | dup
  /-- Doubles the top two values, keeping their order. -/
  | dup2
  | pushConst | pushOne | pushZero | pushNil
  | newVec
  /-- `vec, value` become `vec`. -/
  | vappend
  | newHash
  /-- `hash, key, value` become `hash`. -/
  | happend
  /-- Notes the height of the operand stack. -/
  | mark
  | unmark
  /-- Cuts the operand stack back to the last mark. -/
  | cutBack
  /-- The same, dropping the mark. -/
  | cutBackPop
  | not | neg
  | plus | minus | mul | div | cat
  | lt | lte | gt | gte | eq | neq
  | jmp
  /-- A jump backwards, at which a pending collection may run. -/
  | jmpLoop
  | jifNotPop
  /-- Jumps and pops when the top is the end-of-iteration mark. -/
  | jifEnd
  /-- Jumps that leave the tested value in place. -/
  | jifTrue | jifNot
  /-- `func, arguments` become the result. -/
  | fcall
  /-- `receiver, func, arguments` become the result. -/
  | mcall
  /-- Calls with a hash of named arguments. -/
  | fcallh | mcallh
  | ret
  | loadSym | setSym | setLocal
  | member
  /-- `object, value` become `value`. -/
  | setMember
  | extract
  /-- `container, key, value` become `value`. -/
  | insert
  | slice
  /-- Binds a code constant to the current scope. -/
  | func
  /-- `vec, i` become `vec, i + 1, item`, or the end mark is pushed. -/
  | each
  /-- The same with the index in place of the item. -/
  | index
  deriving Repr, DecidableEq, Inhabited

namespace Op

/-- Every instruction and its mnemonic, in the order of their words. -/
def table : Array (Op × String) :=
  #[(nop, "nop"), (pop, "pop"), (dup, "dup"), (dup2, "dup2"), (pushConst, "push-const"),
    (pushOne, "push-one"), (pushZero, "push-zero"), (pushNil, "push-nil"), (newVec, "new-vec"),
    (vappend, "vappend"), (newHash, "new-hash"), (happend, "happend"), (mark, "mark"),
    (unmark, "unmark"), (cutBack, "break"), (cutBackPop, "break2"), (not, "not"), (neg, "neg"),
    (plus, "plus"), (minus, "minus"), (mul, "mul"), (div, "div"), (cat, "cat"), (lt, "lt"),
    (lte, "lte"), (gt, "gt"), (gte, "gte"), (eq, "eq"), (neq, "neq"), (jmp, "jmp"),
    (jmpLoop, "jmp-loop"), (jifNotPop, "jif-not-pop"), (jifEnd, "jif-end"),
    (jifTrue, "jif-true"), (jifNot, "jif-not"), (fcall, "fcall"), (mcall, "mcall"),
    (fcallh, "fcallh"), (mcallh, "mcallh"), (ret, "return"), (loadSym, "local"),
    (setSym, "set-sym"), (setLocal, "set-local"), (member, "member"),
    (setMember, "set-member"), (extract, "extract"), (insert, "insert"), (slice, "slice"),
    (func, "func"), (each, "each"), (index, "index")]

def number (op : Op) : Nat := op.ctorIdx

def word (op : Op) : UInt16 := op.number.toUInt16

def ofWord? (w : UInt16) : Option Op := table[w.toNat]?.map (·.1)

def mnemonic? (w : UInt16) : Option String := table[w.toNat]?.map (·.2)

def hasOperand : Op → Bool
  | pushConst | jmp | jmpLoop | jifNotPop | jifEnd | jifTrue | jifNot | fcall | mcall | loadSym
  | setSym | setLocal | member | setMember | func => true
  | _ => false

/-- How many operand words follow a word. -/
def operandCount (w : UInt16) : Nat :=
  match ofWord? w with
  | some op => if op.hasOperand then 1 else 0
  | none => 0

def takesConst : Op → Bool
  | pushConst | loadSym | setSym | setLocal | member | setMember | func => true
  | _ => false

theorem ofWord?_word (op : Op) : ofWord? op.word = some op := by
  cases op <;> rfl

theorem word_injective {a b : Op} (h : a.word = b.word) : a = b := by
  have := congrArg ofWord? h
  rwa [ofWord?_word, ofWord?_word, Option.some.injEq] at this

end Op

end ScriptEngine
