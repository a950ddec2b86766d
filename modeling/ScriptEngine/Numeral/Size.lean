import ScriptEngine.Numeral.Binary
import ScriptEngine.Numeral.Reading

/-!
# Sizes such as `512`, `64k`, `8m` or `1gb`

A size is a number with an optional binary factor and an optional trailing `b`; the number is
cut to a whole one before it is multiplied.
-/

namespace ScriptEngine.Numeral

/-- White space around a size or an option. -/
def isBlank (c : Char) : Bool :=
  let n := c.toNat
  (9 ≤ n && n ≤ 13) || n == 0x20 || n == 0x85 || n == 0xA0 || n == 0x1680
    || (0x2000 ≤ n && n ≤ 0x200A) || n == 0x2028 || n == 0x2029 || n == 0x202F || n == 0x205F
    || n == 0x3000

def trimmed (cs : List Char) : List Char :=
  ((cs.dropWhile isBlank).reverse.dropWhile isBlank).reverse

def factor? (c : Char) : Option Nat :=
  if c == 'g' || c == 'G' then some (1024 * 1024 * 1024)
  else if c == 'm' || c == 'M' then some (1024 * 1024)
  else if c == 'k' || c == 'K' then some 1024
  else none

def splitLast? (cs : List Char) : Option (List Char × Char) :=
  match cs.reverse with
  | c :: r => some (r.reverse, c)
  | [] => none

/-- The number of cells, frames, … that a size stands for; it wraps at 64 bits. -/
def size? (text : String) : Option Nat :=
  let cs := trimmed text.toList
  let cs :=
    match splitLast? cs with
    | some (front, c) => if !front.isEmpty && (c == 'b' || c == 'B') then front else cs
    | none => cs
  match splitLast? cs with
  | none => none
  | some (front, c) =>
    let (digits, factor) :=
      match factor? c with
      | some f => (front, f)
      | none => (cs, 1)
    (real? (String.ofList digits)).map fun n => toCount n.toFloat * factor % 0x10000000000000000

end ScriptEngine.Numeral
