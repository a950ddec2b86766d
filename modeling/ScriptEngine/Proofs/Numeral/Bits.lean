import Mathlib.Tactic
import ScriptEngine.Numeral.Rounded
import ScriptEngine.Proofs.Number

/-!
# Bits of computed numbers

A `Float` and its bits stand for the same number, and the sign of a number that is no `NaN` is its highest
bit.

* `Number.ofFloat_toFloat`   `Float.ofBits` keeps the bits of all but a `NaN`;
* `Number.ofFloat_neg`       the other sign is the other highest bit;
* `toNat_toBits_ofBits`      the bits of a number up to the infinite one.
-/

namespace ScriptEngine

open Float.Model (UnpackedFloat Format)
open Float.Model.UnpackedFloat (Sign packComponents unpackSign unpackExponent unpackMantissa)

theorem Sign.toBitVec_neg (s : Sign) : (-s).toBitVec = s.toBitVec ^^^ 1#1 := by
  cases s <;> rfl

/-- The other sign is the other highest bit of a word. -/
theorem packComponents_neg (s : Sign) (e : BitVec 11) (m : BitVec 52) :
    packComponents .binary64 (-s) e m = packComponents .binary64 s e m ^^^ 0x8000000000000000#64 := by
  have hword : 0x8000000000000000#64 = ((1#1 ++ 0#11) ++ 0#52 : BitVec 64) := by decide
  show (((-s).toBitVec ++ e) ++ m : BitVec 64) = ((s.toBitVec ++ e) ++ m : BitVec 64) ^^^ _
  rw [hword, BitVec.xor_append, BitVec.xor_append, Sign.toBitVec_neg, BitVec.xor_zero, BitVec.xor_zero]

theorem pack_neg {u : UnpackedFloat} (h : u ≠ .notANumber) :
    UnpackedFloat.pack .binary64 u.neg = UnpackedFloat.pack .binary64 u ^^^ 0x8000000000000000#64 := by
  cases u with
  | notANumber => exact absurd rfl h
  | infinity s => exact packComponents_neg s _ _
  | zero s => exact packComponents_neg s _ _
  | finite s m e hm =>
    unfold UnpackedFloat.neg UnpackedFloat.pack
    dsimp only
    split_ifs
    · exact packComponents_neg s _ _
    · exact packComponents_neg s _ _
    · exact packComponents_neg s _ _

theorem parts_of_unpack_nan {b : BitVec Format.binary64.numBits}
    (h : UnpackedFloat.unpack .binary64 b = .notANumber) :
    unpackExponent b = -1#_ ∧ unpackMantissa b ≠ 0#_ := by
  unfold UnpackedFloat.unpack at h
  dsimp only at h
  split_ifs at h with h1 h2
  exact ⟨h1, h2⟩

namespace Number

/-- Only a `NaN` changes its bits when it is computed with. -/
theorem ofFloat_toFloat {n : Number} (h : n.unpacked ≠ .notANumber) : ofFloat n.toFloat = n := by
  have hb : UnpackedFloat.pack .binary64 n.unpacked = n.bits.toBitVec := pack_unpack _ h
  show Number.mk (UInt64.ofBitVec (UnpackedFloat.pack .binary64 n.unpacked)) = n
  rw [hb]

theorem toFloat_ofFloat (x : Float) : (ofFloat x).toFloat = x := by
  obtain ⟨⟨bits, valid⟩⟩ := x
  have hb : UnpackedFloat.pack .binary64 (UnpackedFloat.unpack .binary64 bits.toBitVec) = bits.toBitVec := by
    by_cases h : UnpackedFloat.unpack .binary64 bits.toBitVec = .notANumber
    · -- the one `NaN` that is a `Float`
      obtain ⟨hexp, hmant⟩ := parts_of_unpack_nan h
      rw [h]
      exact (valid.eq_packedNaN hexp hmant).symm
    · exact pack_unpack _ h
  show Float.ofModel (Float.Model.ofBits bits) = _
  congr 1
  show Float.Model.mk _ _ = _
  congr 1
  show UInt64.ofBitVec (UnpackedFloat.pack .binary64 (UnpackedFloat.unpack .binary64 bits.toBitVec)) = bits
  rw [hb]

theorem ofFloat_injective : Function.Injective ofFloat := fun v w h => by
  rw [← toFloat_ofFloat v, h, toFloat_ofFloat]

/-- The other sign of a number that is no `NaN` is its other highest bit. -/
theorem ofFloat_neg {n : Number} (h : n.unpacked ≠ .notANumber) : ofFloat (-n.toFloat) = n.negated := by
  have hneg : (-n.toFloat).toBits
      = UInt64.ofBitVec (UnpackedFloat.pack .binary64 (n.toFloat.toModel.unpack).neg) := rfl
  have hb : UnpackedFloat.pack .binary64 n.unpacked = n.bits.toBitVec := pack_unpack _ h
  unfold ofFloat negated
  rw [hneg, unpack_toFloat, pack_neg h, hb]
  rfl

theorem unpacked_ne_of_le {n : Number} (h : n.bits.toNat ≤ Numeral.infinityBits) :
    n.unpacked ≠ .notANumber := by
  intro hnan
  obtain ⟨hones, hzeros⟩ := parts_of_unpack_nan hnan
  have hexp : n.bits.toNat / 2 ^ 52 % 2 ^ 11 = 2 ^ 11 - 1 := by
    have := congrArg BitVec.toNat hones
    simpa [unpackExponent, BitVec.extractLsb, Nat.shiftRight_eq_div_pow] using this
  have hmant : n.bits.toNat % 2 ^ 52 ≠ 0 := by
    intro h0
    refine hzeros (BitVec.eq_of_toNat_eq ?_)
    simpa [unpackMantissa, BitVec.extractLsb] using h0
  simp only [Numeral.infinityBits, Numeral.exponentWeight] at h
  omega

end Number

namespace Numeral

theorem toNat_toBits_ofBits {b : Nat} (h : b ≤ infinityBits) : (Float.ofBits b.toUInt64).toBits.toNat = b := by
  have hb : b.toUInt64.toNat = b := UInt64.toNat_ofNat_of_lt' (by
    simp only [infinityBits, exponentWeight, UInt64.size] at h ⊢
    omega)
  have hkeep : Number.ofFloat (Number.toFloat ⟨b.toUInt64⟩) = ⟨b.toUInt64⟩ :=
    Number.ofFloat_toFloat (Number.unpacked_ne_of_le (by rwa [hb]))
  have : (Float.ofBits b.toUInt64).toBits = b.toUInt64 := congrArg Number.bits hkeep
  rw [this, hb]

end Numeral

end ScriptEngine
