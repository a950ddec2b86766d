import ScriptEngine.Text.Hidden

/-!
# Quoted text

Listings and diagnostics show a string between double quotes: the quote, the backslash and the
usual controls have short escapes, every other hidden character is written by its code point.
-/

namespace ScriptEngine.Text

/-- A number in lowercase hexadecimal. -/
def hex (n : Nat) : String := String.ofList (Nat.toDigits 16 n)

def escape (c : Char) : String :=
  if c == '\x00' then "\\0"
  else if c == '\t' then "\\t"
  else if c == '\r' then "\\r"
  else if c == '\n' then "\\n"
  else if c == '\\' then "\\\\"
  else if c == '"' then "\\\""
  else if isHidden c.toNat then "\\u\x7b" ++ hex c.toNat ++ "\x7d"
  else String.singleton c

def quote (s : String) : String :=
  "\"" ++ String.join (s.toList.map escape) ++ "\""

end ScriptEngine.Text
