import ScriptEngine.Fault
import ScriptEngine.Numeral.Reading

/-!
# Reading tokens

The text is read once from the left.  Each reader takes the bytes after what it has recognised so
far and gives back the bytes it leaves, so that a token list is a walk along suffixes of the text.

* `word`, `string`, `character`, `number`  the readers of one token;
* `lex`  all tokens of a text.

A name that is longer than the longest fixed spelling at the same place is a symbol.  A minus sign
right after an arithmetic operator is the sign of the next operand and becomes `Tok.neg`.
-/

namespace ScriptEngine.Lexer

/-- One token read: its kind, the line after it and the bytes left. -/
structure Read where
  kind : Tok
  line : Nat
  rest : Bytes

/-- The byte of the escape after a backslash, in double quotes and in character literals. -/
def escape (line : Nat) : Bytes → Except CompileError (UInt8 × Bytes)
  | [] => faultAt line .unterminatedString
  | c :: rest =>
    if c == Byte.ofChar 'n' then .ok (10, rest)
    else if c == Byte.ofChar 't' then .ok (9, rest)
    else if c == Byte.ofChar 'r' then .ok (13, rest)
    else if c == Byte.ofChar '0' then .ok (0, rest)
    else if c == Byte.ofChar '\\' || c == Byte.ofChar '"' || c == 39 || c == 96 then
      .ok (c, rest)
    else if c == Byte.ofChar 'x' then
      match rest with
      | h :: l :: rest' =>
        match Byte.digitVal? 16 h, Byte.digitVal? 16 l with
        | some hi, some lo => .ok ((hi * 16 + lo).toUInt8, rest')
        | _, _ => faultAt line .badHexEscape
      | _ => faultAt line .badHexEscape
    else faultAt line (.badEscape c)

/-- The bytes of a string behind `read` (last first), up to the closing `quote`.  Single quotes
escape only themselves and the backslash.  The number bounds the steps. -/
def stringBody (quote : UInt8) (start : Nat) :
    Nat → Nat → Bytes → Bytes → Except CompileError Read
  | _, _, _, [] => faultAt start .unterminatedString
  | 0, _, _, _ => faultAt start .unterminatedString
  | n + 1, line, read, c :: rest =>
    if c == quote then .ok ⟨.text read.reverse, line, rest⟩
    else if c == 92 then
      if quote == 34 then
        match escape line rest with
        | .ok (b, rest') => stringBody quote start n line (b :: read) rest'
        | .error e => .error e
      else
        match rest with
        | e :: rest' =>
          if e == 39 || e == 92 then stringBody quote start n line (e :: read) rest'
          else stringBody quote start n line (92 :: read) rest
        | [] => stringBody quote start n line (92 :: read) rest
    else if c == 10 then stringBody quote start n (line + 1) (c :: read) rest
    else stringBody quote start n line (c :: read) rest

def string (n : Nat) (quote : UInt8) (line : Nat) (rest : Bytes) : Except CompileError Read :=
  stringBody quote line n line [] rest

/-- A character literal, after its opening back quote: the value of its byte. -/
def character (line : Nat) : Bytes → Except CompileError Read
  | [] => faultAt line .unterminatedCharacter
  | c :: rest => do
    let (b, rest) ← if c == 92 then escape line rest else .ok (c, rest)
    match rest with
    | 96 :: rest => .ok ⟨.number (Float.ofNat b.toNat), line, rest⟩
    | _ => faultAt line .badCharacter

/-- Digits of `base`, at least one. -/
def radixDigits (base : Nat) (line : Nat) (rest : Bytes) : Except CompileError (Float × Bytes) :=
  let (ds, rest) := rest.span fun b => (Byte.digitVal? base b).isSome
  if ds.isEmpty then faultAt line .badNumber
  else .ok (Numeral.radix base (ds.filterMap (Byte.digitVal? base)), rest)

def decimal (src : Bytes) : Float × Bytes :=
  let (whole, rest) := src.span Byte.isDigit
  let (frac, rest) :=
    match rest with
    | 46 :: d :: after => if Byte.isDigit d then (d :: after).span Byte.isDigit else ([], rest)
    | _ => ([], rest)
  let (e, rest) :=
    match rest with
    | c :: after =>
      if c == 101 || c == 69 then (Numeral.exponent? after).getD (0, rest) else (0, rest)
    | [] => (0, rest)
  (Numeral.Mantissa.value ⟨whole, frac, []⟩ e, rest)

def number (line : Nat) (src : Bytes) : Except CompileError Read := do
  let (value, rest) ←
    match src with
    | 48 :: 120 :: after => radixDigits 16 line after
    | 48 :: 111 :: after => radixDigits 8 line after
    | _ => .ok (decimal src)
  match rest with
  | c :: _ =>
    if Byte.inName c then faultAt line .badNumber else .ok ⟨.number value, line, rest⟩
  | [] => .ok ⟨.number value, line, rest⟩

/-- A fixed spelling or a name. -/
def word (line : Nat) (c : UInt8) (src : Bytes) : Except CompileError Read :=
  let name := if Byte.startsName c then src.takeWhile Byte.inName else []
  let asName :=
    if name.isEmpty then faultAt line (.illegalCharacter c)
    else .ok ⟨.symbol name, line, src.drop name.length⟩
  match lexeme? src with
  | some (len, kind) => if name.length ≤ len then .ok ⟨kind, line, src.drop len⟩ else asName
  | none => asName

/-- The kind a token takes after the tokens `before` (last first). -/
def signed (kind : Tok) (before : List Token) : Tok :=
  match kind, before with
  | .minus, t :: _ => if t.kind.beforeSign then .neg else .minus
  | k, _ => k

/-- The tokens of `src` behind `before` (last first).  The number bounds the steps. -/
def tokens : Nat → Nat → List Token → Bytes → Except CompileError (List Token)
  | _, _, before, [] => .ok before.reverse
  | 0, _, before, _ => .ok before.reverse
  | n + 1, line, before, c :: rest =>
    let take (r : Except CompileError Read) : Except CompileError (List Token) :=
      match r with
      | .ok r => tokens n r.line (⟨signed r.kind before, line⟩ :: before) r.rest
      | .error e => .error e
    if c == 10 then tokens n (line + 1) before rest
    else if c == 32 || c == 9 || c == 13 || c == 12 then tokens n line before rest
    else if c == 35 then tokens n line before (rest.dropWhile (· != 10))
    else if c == 34 || c == 39 then take (string n c line rest)
    else if c == 96 then take (character line rest)
    else if Byte.isDigit c then take (number line (c :: rest))
    else take (word line c (c :: rest))

end ScriptEngine.Lexer

namespace ScriptEngine

/-- All tokens of a text whose first line has the given number. -/
def lex (src : Bytes) (firstLine : Nat) : Except CompileError (List Token) :=
  Lexer.tokens (src.length + 1) firstLine [] src

end ScriptEngine
