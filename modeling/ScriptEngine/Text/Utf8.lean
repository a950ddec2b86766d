import ScriptEngine.Bytes

/-!
# Reading bytes as UTF-8

`front` reads one scalar value from the front of a byte string, or says how many bytes at the
front are the longest prefix of a well-formed sequence that the following byte breaks.

* `decode?`  the text of a well-formed byte string, `none` for any other;
* `lossy`    the same with each broken sequence replaced by one U+FFFD.
-/

namespace ScriptEngine.Text

/-- What stands at the front of a non-empty byte string. -/
inductive Front where
  /-- A scalar value, written with `width` bytes. -/
  | scalar (c : Char) (width : Nat)
  /-- `width` bytes that belong to no scalar value. -/
  | broken (width : Nat)

/-- `0x80` to `0xBF`, the bytes that continue a sequence. -/
def isTail (b : UInt8) : Bool := 0x80 ≤ b && b ≤ 0xBF

/-- The low six bits that a continuing byte adds. -/
def tailBits (b : UInt8) : Nat := b.toNat - 0x80

/-- Whether `b` may follow `lead` at the start of a sequence of three or four bytes: it excludes
overlong forms, surrogates and values above U+10FFFF. -/
def follows (lead b : UInt8) : Bool :=
  if lead == 0xE0 then 0xA0 ≤ b && b ≤ 0xBF
  else if lead == 0xED then 0x80 ≤ b && b ≤ 0x9F
  else if lead == 0xF0 then 0x90 ≤ b && b ≤ 0xBF
  else if lead == 0xF4 then 0x80 ≤ b && b ≤ 0x8F
  else isTail b

def front (lead : UInt8) (rest : Bytes) : Front :=
  if lead < 0x80 then .scalar (Char.ofNat lead.toNat) 1
  else if 0xC2 ≤ lead && lead ≤ 0xDF then
    match rest with
    | b :: _ =>
      if isTail b then .scalar (Char.ofNat ((lead.toNat - 0xC0) * 64 + tailBits b)) 2
      else .broken 1
    | _ => .broken 1
  else if 0xE0 ≤ lead && lead ≤ 0xEF then
    match rest with
    | b :: c :: _ =>
      if !follows lead b then .broken 1
      else if !isTail c then .broken 2
      else .scalar (Char.ofNat ((lead.toNat - 0xE0) * 4096 + tailBits b * 64 + tailBits c)) 3
    | [b] => if follows lead b then .broken 2 else .broken 1
    | [] => .broken 1
  else if 0xF0 ≤ lead && lead ≤ 0xF4 then
    match rest with
    | b :: c :: d :: _ =>
      if !follows lead b then .broken 1
      else if !isTail c then .broken 2
      else if !isTail d then .broken 3
      else .scalar (Char.ofNat ((lead.toNat - 0xF0) * 262144 + tailBits b * 4096
        + tailBits c * 64 + tailBits d)) 4
    | [b, c] =>
      if !follows lead b then .broken 1 else if !isTail c then .broken 2 else .broken 3
    | [b] => if follows lead b then .broken 2 else .broken 1
    | [] => .broken 1
  else .broken 1

/-- Reads a whole byte string behind the characters `read` (last first), putting `mend` for each
broken sequence; without `mend` a broken sequence ends the reading.  The number bounds how many
sequences are read. -/
def decodeWith (mend : Option Char) : Nat → Bytes → List Char → Option (List Char)
  | n + 1, b :: rest, read =>
    match front b rest with
    | .scalar c w => decodeWith mend n (rest.drop (w - 1)) (c :: read)
    | .broken w =>
      match mend with
      | some m => decodeWith mend n (rest.drop (w - 1)) (m :: read)
      | none => none
  | _, _, read => some read.reverse

/-- The text of a well-formed byte string. -/
def decode? (bs : Bytes) : Option String :=
  (decodeWith none bs.length bs []).map String.ofList

/-- The text of any byte string, with U+FFFD for each broken sequence. -/
def lossy (bs : Bytes) : String :=
  String.ofList ((decodeWith (some '\uFFFD') bs.length bs []).getD [])

end ScriptEngine.Text
