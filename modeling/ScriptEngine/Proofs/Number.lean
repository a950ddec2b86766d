import Mathlib
import ScriptEngine.Hash32

/-!
# Equality of numbers

`Number.equals` compares two doubles as doubles: it forgets the sign of a zero, and no `NaN` passes
it.  Here it is read off the bits.

* `Number.equals_iff`      equal numbers are two zeros, or the same bits and no `NaN`;
* `Number.equals_symm`, `Number.equals_trans`  so equality is symmetric and transitive;
* `hashNumber_eq_of_equals`  and the hash of a number respects it.
-/

namespace ScriptEngine

open Float.Model (UnpackedFloat Format)
open Float.Model.UnpackedFloat (Sign packComponents unpackSign unpackExponent unpackMantissa)

/-! ## packing what was unpacked -/

theorem Sign.toBitVec_ofBitVec (s : BitVec 1) : (Sign.ofBitVec s).toBitVec = s := by
  revert s
  decide

/-- the parts of a word, put together again -/
theorem joined_parts (b : BitVec Format.binary64.numBits) :
    packComponents .binary64 (Sign.ofBitVec (unpackSign b)) (unpackExponent b)
      (unpackMantissa b) = b := by
  show ((Sign.ofBitVec (unpackSign b)).toBitVec ++ unpackExponent b) ++ unpackMantissa b = b
  rw [Sign.toBitVec_ofBitVec]
  apply BitVec.eq_of_getLsbD_eq
  intro i hi
  simp only [unpackSign, unpackExponent, unpackMantissa, BitVec.getLsbD_append,
    BitVec.getLsbD_cast, BitVec.getLsbD_extractLsb]
  grind

theorem toNat_one_append (m : BitVec 52) : (1#1 ++ m).toNat = 2 ^ 52 + m.toNat := by
  rw [BitVec.toNat_append, ← Nat.shiftLeft_add_eq_or_of_lt m.isLt]
  rfl

/-- **Only a `NaN` loses bits** when a word is unpacked and packed again. -/
theorem pack_unpack (b : BitVec Format.binary64.numBits)
    (h : UnpackedFloat.unpack .binary64 b ≠ .notANumber) :
    UnpackedFloat.pack .binary64 (UnpackedFloat.unpack .binary64 b) = b := by
  have hb := joined_parts b
  have hm : (unpackMantissa b).toNat < 2 ^ 52 := (unpackMantissa b).isLt
  have he : (unpackExponent b).toNat < 2 ^ 11 := (unpackExponent b).isLt
  unfold UnpackedFloat.unpack at h ⊢
  dsimp only at h ⊢
  by_cases h1 : unpackExponent b = -1#_
  · rw [if_pos h1] at h ⊢
    by_cases h2 : unpackMantissa b = 0#_
    · rw [if_pos h2]
      rwa [h1, h2] at hb
    · rw [if_neg h2] at h
      exact absurd rfl h
  rw [if_neg h1]
  by_cases h2 : unpackExponent b = 0#_
  · rw [if_pos h2]
    by_cases h3 : unpackMantissa b = 0#_
    · rw [dif_pos h3]
      rwa [h2, h3] at hb
    · rw [dif_neg h3]
      -- a subnormal number: the mantissa has no leading one
      have hlog : (unpackMantissa b).toNat.log2 < 52 :=
        (Nat.log2_lt (fun e => h3 (BitVec.eq_of_toNat_eq e))).mpr hm
      have hexp : (unpackExponent b).toNat = 0 := by rw [h2]; rfl
      unfold UnpackedFloat.pack
      dsimp only
      rw [if_neg (by simp only [hexp]; decide), if_neg (by show ¬ _ + 1 = 53; omega),
        BitVec.ofNat_toNat, BitVec.setWidth_eq]
      rwa [h2] at hb
  · rw [if_neg h2]
    -- a normal number: the leading one is put in front and dropped again
    have hexp : (unpackExponent b).toNat + 1 < 2 ^ 11 := by
      have hne : (unpackExponent b).toNat ≠ 2 ^ 11 - 1 := fun e => h1 (BitVec.eq_of_toNat_eq e)
      omega
    have hlog : (2 ^ 52 + (unpackMantissa b).toNat).log2 = 52 := by
      rw [Nat.log2_eq_iff (by omega)]
      omega
    have hbias : ((unpackExponent b).toNat : Int)
        - (Format.binary64.exponentBias + Format.binary64.mantissaBitsWithoutImplicit)
        + Format.binary64.exponentBias + Format.binary64.mantissaBitsWithoutImplicit
        = ((unpackExponent b).toNat : Int) := by ring
    have hlow : BitVec.ofNat 52 (2 ^ 52 + (unpackMantissa b).toNat) = unpackMantissa b := by
      apply BitVec.eq_of_toNat_eq
      rw [BitVec.toNat_ofNat]
      omega
    unfold UnpackedFloat.pack
    dsimp only
    rw [hbias, Int.toNat_natCast, if_neg (by show ¬ 2 ^ 11 ≤ _; omega), toNat_one_append,
      if_pos (by rw [hlog]; rfl), hlow, BitVec.ofNat_toNat, BitVec.setWidth_eq]
    exact hb

/-! ## comparing -/

theorem compare_eq_iff (u v : UnpackedFloat) :
    u.compare v = some .eq ↔
      (∃ s t, u = .zero s ∧ v = .zero t) ∨ (u = v ∧ u ≠ .notANumber) := by
  cases u with
  | notANumber => simp [UnpackedFloat.compare]
  | infinity s =>
    cases v with
    | infinity t => cases s <;> cases t <;> simp [UnpackedFloat.compare] <;> decide
    | _ => cases s <;> simp [UnpackedFloat.compare]
  | zero s =>
    cases v with
    | infinity t => cases t <;> simp [UnpackedFloat.compare]
    | finite t _ _ _ => cases t <;> simp [UnpackedFloat.compare]
    | _ => simp [UnpackedFloat.compare]
  | finite s m e hm =>
    cases v with
    | notANumber => simp [UnpackedFloat.compare]
    | infinity t => cases t <;> simp [UnpackedFloat.compare]
    | zero t => cases s <;> simp [UnpackedFloat.compare]
    | finite t m' e' hm' =>
      cases s <;> cases t <;>
        simp [UnpackedFloat.compare, Ordering.then_eq_eq, and_comm]

namespace Number

/-- A number as sign, mantissa and exponent. -/
def unpacked (n : Number) : UnpackedFloat := UnpackedFloat.unpack .binary64 n.bits.toBitVec

theorem unpack_toFloat (n : Number) : n.toFloat.toModel.unpack = n.unpacked := by
  show UnpackedFloat.unpack .binary64 (UnpackedFloat.pack .binary64 n.unpacked) = n.unpacked
  by_cases h : n.unpacked = .notANumber
  · rw [h]
    rfl
  · exact congrArg _ (pack_unpack _ h)

theorem bits_eq_of_unpacked {m n : Number} (h : m.unpacked = n.unpacked)
    (hm : m.unpacked ≠ .notANumber) : m = n := by
  have hb : m.bits.toBitVec = n.bits.toBitVec := by
    rw [← pack_unpack _ hm, ← pack_unpack n.bits.toBitVec (fun e => hm (h.trans e))]
    exact congrArg _ h
  cases m
  cases n
  exact congrArg Number.mk (UInt64.toBitVec_inj.mp hb)

theorem equals_iff (m n : Number) :
    m.equals n = true ↔
      (∃ s t, m.unpacked = .zero s ∧ n.unpacked = .zero t) ∨
        (m = n ∧ m.unpacked ≠ .notANumber) := by
  have h : m.equals n = (m.unpacked.compare n.unpacked == some .eq) := by
    rw [← unpack_toFloat m, ← unpack_toFloat n]
    rfl
  rw [h, beq_iff_eq, compare_eq_iff]
  refine or_congr Iff.rfl (and_congr_left fun hm => ?_)
  exact ⟨fun e => bits_eq_of_unpacked e hm, fun e => congrArg _ e⟩

theorem equals_symm {m n : Number} (h : m.equals n = true) : n.equals m = true := by
  rw [equals_iff] at h ⊢
  rcases h with ⟨s, t, hm, hn⟩ | ⟨rfl, hm⟩
  · exact .inl ⟨t, s, hn, hm⟩
  · exact .inr ⟨rfl, hm⟩

theorem equals_trans {l m n : Number} (h : l.equals m = true) (h' : m.equals n = true) :
    l.equals n = true := by
  rw [equals_iff] at h h' ⊢
  rcases h with ⟨s, t, hl, hm⟩ | ⟨rfl, hl⟩
  · rcases h' with ⟨t', r, _, hn⟩ | ⟨rfl, _⟩
    · exact .inl ⟨s, r, hl, hn⟩
    · exact .inl ⟨s, t, hl, hm⟩
  · exact h'

end Number

theorem toFloat_beq_zero_of_unpacked {n : Number} {s : Sign} (h : n.unpacked = .zero s) :
    (n.toFloat == 0.0) = true := by
  have h0 : (n.toFloat == 0.0) = (n.unpacked.compare (.zero .positive) == some .eq) := by
    rw [← Number.unpack_toFloat n]
    rfl
  rw [h0, h]
  rfl

/-- **Equal numbers have the same hash.** -/
theorem hashNumber_eq_of_equals {m n : Number} (h : m.equals n = true) :
    hashNumber m = hashNumber n := by
  rw [Number.equals_iff] at h
  rcases h with ⟨s, t, hm, hn⟩ | ⟨rfl, _⟩
  · unfold hashNumber
    rw [if_pos (toFloat_beq_zero_of_unpacked hm), if_pos (toFloat_beq_zero_of_unpacked hn)]
  · rfl

end ScriptEngine
