import ScriptEngine.Bytes

/-!
# Tokens

A token is a kind and the line it starts on.  Names, numbers and strings carry their value in the
kind; the last kinds are never read from the text but made while a text is parsed.

* `Tok.name`    the kind's name in messages and dumps;
* `lexemes`     the fixed spellings, and `lexeme?` the longest one at the front of a text;
* `Tok.closer?`  the bracket that closes an opening one.
-/

namespace ScriptEngine

/-- The kinds of token. -/
inductive Tok where
  | and | or | not
  | lpar | rpar | lbra | rbra | lcurl | rcurl
  | mul | plus | minus | neg | div | cat
  | colon | dot | comma | semi
  | assign | lt | lte | eq | neq | gt | gte
  | nil
  | kIf | kElsif | kElse | kFor | kForeach | kForindex | kWhile
  | kReturn | kBreak | kContinue | kFunc
  | symbol (name : Bytes)
  | number (value : Float)
  | text (bytes : Bytes)
  | kVar | ellipsis | question
  | plusEq | minusEq | mulEq | divEq | catEq
  /-- A place where nothing was written. -/
  | empty
  | call | index | list
  deriving Repr, DecidableEq, Inhabited

namespace Tok

def name : Tok → String
  | and => "And" | or => "Or" | not => "Not"
  | lpar => "LPar" | rpar => "RPar" | lbra => "LBra" | rbra => "RBra"
  | lcurl => "LCurl" | rcurl => "RCurl"
  | mul => "Mul" | plus => "Plus" | minus => "Minus" | neg => "Neg" | div => "Div" | cat => "Cat"
  | colon => "Colon" | dot => "Dot" | comma => "Comma" | semi => "Semi"
  | assign => "Assign" | lt => "Lt" | lte => "Lte" | eq => "Eq" | neq => "Neq"
  | gt => "Gt" | gte => "Gte"
  | nil => "Nil"
  | kIf => "If" | kElsif => "Elsif" | kElse => "Else" | kFor => "For" | kForeach => "Foreach"
  | kForindex => "Forindex" | kWhile => "While"
  | kReturn => "Return" | kBreak => "Break" | kContinue => "Continue" | kFunc => "Func"
  | symbol _ => "Symbol"
  | number _ => "Literal"
  | text _ => "Literal"
  | kVar => "Var" | ellipsis => "Ellipsis" | question => "Question"
  | plusEq => "PlusEq" | minusEq => "MinusEq" | mulEq => "MulEq" | divEq => "DivEq"
  | catEq => "CatEq"
  | empty => "Empty"
  | call => "Call" | index => "Index" | list => "List"

/-- `(`, `[` and the opening brace. -/
def isOpen : Tok → Bool
  | lpar | lbra | lcurl => true
  | _ => false

/-- `)`, `]` and the closing brace. -/
def isClose : Tok → Bool
  | rpar | rbra | rcurl => true
  | _ => false

/-- The bracket that closes an opening one. -/
def closer? : Tok → Option Tok
  | lpar => some rpar
  | lbra => some rbra
  | lcurl => some rcurl
  | _ => none

/-- Keywords of the statements with a parenthesised header and a body. -/
def isControl : Tok → Bool
  | kIf | kWhile | kFor | kForeach | kForindex => true
  | _ => false

/-- Kinds that stand for a value on their own. -/
def isAtom : Tok → Bool
  | symbol _ | number _ | text _ | nil | empty | lpar | lbra | lcurl | kFunc => true
  | t => t.isControl

/-- The operator that a compound assignment applies. -/
def compoundBase? : Tok → Option Tok
  | plusEq => some plus
  | minusEq => some minus
  | mulEq => some mul
  | divEq => some div
  | catEq => some cat
  | _ => none

/-- The operators after which a minus can only be a sign. -/
def beforeSign : Tok → Bool
  | plus | minus | mul | div | cat | neg => true
  | _ => false

theorem isOpen_iff_closer (t : Tok) : t.isOpen = t.closer?.isSome := by cases t <;> rfl

end Tok

/-- A token and the line it starts on. -/
structure Token where
  kind : Tok
  line : Nat
  deriving Repr, DecidableEq, Inhabited

/-- The fixed spellings and their kinds. -/
def lexemes : List (String × Tok) :=
  [("and", .and), ("or", .or), ("&&", .and), ("||", .or), ("!", .not),
   ("(", .lpar), (")", .rpar), ("[", .lbra), ("]", .rbra), ("\x7b", .lcurl), ("\x7d", .rcurl),
   ("*", .mul), ("+", .plus), ("-", .minus), ("/", .div), ("~", .cat),
   (":", .colon), (".", .dot), (",", .comma), (";", .semi),
   ("=", .assign), ("<", .lt), ("<=", .lte), ("==", .eq), ("!=", .neq), (">", .gt), (">=", .gte),
   ("nil", .nil), ("if", .kIf), ("elsif", .kElsif), ("else", .kElse), ("for", .kFor),
   ("foreach", .kForeach), ("forindex", .kForindex), ("while", .kWhile),
   ("return", .kReturn), ("break", .kBreak), ("continue", .kContinue), ("func", .kFunc),
   ("...", .ellipsis), ("?", .question), ("var", .kVar),
   ("+=", .plusEq), ("-=", .minusEq), ("*=", .mulEq), ("/=", .divEq), ("~=", .catEq)]

/-- The fixed spellings as bytes. -/
def lexemeBytes : List (Bytes × Tok) :=
  lexemes.map fun (s, t) => (s.toList.map Byte.ofChar, t)

/-- The longer of two matches, the first of two equally long ones. -/
def longer (a b : Option (Nat × Tok)) : Option (Nat × Tok) :=
  match a, b with
  | some (m, s), some (n, t) => if m < n then some (n, t) else some (m, s)
  | none, b => b
  | a, none => a

/-- The longest fixed spelling at the front of a text: its length and kind. -/
def lexeme? (src : Bytes) : Option (Nat × Tok) :=
  lexemeBytes.foldl
    (fun best (w, t) => if w.isPrefixOf src then longer best (some (w.length, t)) else best) none

end ScriptEngine
