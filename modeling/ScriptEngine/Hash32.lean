import ScriptEngine.Bytes
import ScriptEngine.Number

/-!
# The 32-bit hash of a byte string

The multiply-and-rotate hash over little-endian words of four bytes, with the remaining bytes and
the length folded in at the end and a final avalanche.  All arithmetic wraps at 32 bits.

* `hashBytes`   the hash of a byte string;
* `hashNumber`  the hash of a number: of its eight bytes, the two zeros being one number.
-/

namespace ScriptEngine

namespace Hash32

/-- Rotation to the left; `k` lies strictly between 0 and 32. -/
def rotl (x k : UInt32) : UInt32 := (x <<< k) ||| (x >>> (32 - k))

/-- Scrambles one word before it is mixed in. -/
def scramble (k : UInt32) : UInt32 := rotl (k * 0xcc9e2d51) 15 * 0x1b873593

/-- Mixes one word into the state. -/
def mix (h k : UInt32) : UInt32 := rotl (h ^^^ scramble k) 13 * 5 + 0xe6546b64

/-- The final avalanche. -/
def finish (h : UInt32) : UInt32 :=
  let h := (h ^^^ (h >>> 16)) * 0x85ebca6b
  let h := (h ^^^ (h >>> 13)) * 0xc2b2ae35
  h ^^^ (h >>> 16)

/-- The little-endian word of up to four bytes. -/
def word : Bytes → UInt32
  | [] => 0
  | b :: rest => b.toUInt32 + word rest * 256

/-- The state after all bytes: whole words are mixed, a shorter rest is only scrambled in. -/
def absorb (h : UInt32) : Bytes → UInt32
  | a :: b :: c :: d :: rest => absorb (mix h (word [a, b, c, d])) rest
  | [] => h
  | rest => h ^^^ scramble (word rest)

end Hash32

def hashBytes (bs : Bytes) : UInt32 :=
  Hash32.finish (Hash32.absorb 0 bs ^^^ bs.length.toUInt32)

/-- The eight bytes of a word, lowest first. -/
def leBytes (w : UInt64) : Bytes :=
  (List.range 8).map fun i => (w >>> (8 * i).toUInt64).toUInt8

/-- The hash of a number; equal numbers hash alike because both zeros are taken as `+0`. -/
def hashNumber (n : Number) : UInt32 :=
  hashBytes (leBytes (if n.toFloat == 0.0 then 0 else n.bits))

end ScriptEngine
