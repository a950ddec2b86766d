import Mathlib.Data.List.TakeWhile
import Mathlib.Tactic
import ScriptEngine.Numeral.Reading
import ScriptEngine.Proofs.Numeral.Bits
import ScriptEngine.Proofs.Numeral.Rounding

/-!
# The number nearest to a row of digits

The digits of a mantissa and a power of ten stand for a rational; zeros at both ends of the digits only move
the point, and far outside the range of the format no power is formed.

* `digitsVal_append`, `le_digitsVal`, `digitsVal_lt`   the natural number of a row of digits;
* `rounds_nearest`   the digits times a power of ten are rounded to the nearest number;
* `rounds_value`     **so are a mantissa and an exponent.**
-/

namespace ScriptEngine.Numeral

def IsDigits (ds : Bytes) : Prop := ∀ b ∈ ds, Byte.isDigit b = true

theorem digit_le {b : UInt8} (h : Byte.isDigit b = true) : b.toNat - 48 ≤ 9 := by
  simp only [Byte.isDigit, Bool.and_eq_true, decide_eq_true_eq, UInt8.le_iff_toNat_le] at h
  have := h.2
  simp at this
  omega

/-! ## rows of digits -/

theorem digitsVal_foldl (n : Nat) (ds : Bytes) :
    ds.foldl (fun n b => 10 * n + (b.toNat - 48)) n = n * 10 ^ ds.length + digitsVal ds := by
  unfold digitsVal
  induction ds generalizing n with
  | nil => simp
  | cons b ds ih =>
    rw [List.foldl_cons, List.foldl_cons, ih, ih (10 * 0 + _), List.length_cons, pow_succ]
    ring

theorem digitsVal_append (a b : Bytes) :
    digitsVal (a ++ b) = digitsVal a * 10 ^ b.length + digitsVal b := by
  rw [digitsVal, List.foldl_append, digitsVal_foldl]
  rfl

theorem digitsVal_cons (b : UInt8) (ds : Bytes) :
    digitsVal (b :: ds) = (b.toNat - 48) * 10 ^ ds.length + digitsVal ds := by
  rw [digitsVal, List.foldl_cons, digitsVal_foldl]
  simp

theorem digitsVal_lt {ds : Bytes} (h : IsDigits ds) : digitsVal ds < 10 ^ ds.length := by
  induction ds with
  | nil => exact Nat.one_pos
  | cons b ds ih =>
    have hb := digit_le (h b List.mem_cons_self)
    have hds := ih fun c hc => h c (List.mem_cons_of_mem _ hc)
    rw [digitsVal_cons, List.length_cons, pow_succ]
    nlinarith

/-- A row of digits that does not start with a zero. -/
theorem le_digitsVal {b : UInt8} {ds : Bytes} (hb : Byte.isDigit b = true) (hne : b ≠ 48) :
    10 ^ ds.length ≤ digitsVal (b :: ds) := by
  have hpos : 1 ≤ b.toNat - 48 := by
    simp only [Byte.isDigit, Bool.and_eq_true, decide_eq_true_eq, UInt8.le_iff_toNat_le] at hb
    have hne' : b.toNat ≠ 48 := fun h => hne (UInt8.toNat_inj.mp h)
    have := hb.1
    simp at this
    omega
  rw [digitsVal_cons]
  exact le_trans (Nat.le_mul_of_pos_left _ hpos) (Nat.le_add_right _ _)

theorem digitsVal_replicate_zero (n : Nat) : digitsVal (List.replicate n 48) = 0 := by
  induction n with
  | zero => rfl
  | succ n ih => rw [List.replicate_succ, digitsVal_cons, ih]; simp

theorem digitsVal_dropZeros (ds : Bytes) : digitsVal (dropZeros ds) = digitsVal ds := by
  induction ds with
  | nil => rfl
  | cons b ds ih =>
    unfold dropZeros at ih ⊢
    rw [List.dropWhile_cons]
    split_ifs with hb
    · obtain rfl : b = 48 := by simpa using hb
      rw [ih, digitsVal_cons]
      simp
    · rfl

/-- Zeros behind a row of digits are powers of ten. -/
theorem digitsVal_dropZerosBehind (ds : Bytes) :
    digitsVal ds = digitsVal (dropZeros ds.reverse).reverse * 10 ^ (ds.length - (dropZeros ds.reverse).length) ∧
      (dropZeros ds.reverse).length ≤ ds.length := by
  have hsplit := List.takeWhile_append_dropWhile (p := (· == (48 : UInt8))) (l := ds.reverse)
  have hzeros : ds.reverse.takeWhile (· == (48 : UInt8))
      = List.replicate (ds.reverse.takeWhile (· == (48 : UInt8))).length 48 :=
    List.eq_replicate_iff.mpr ⟨rfl, fun b hb => by simpa using List.mem_takeWhile_imp hb⟩
  have hds : ds = (dropZeros ds.reverse).reverse ++ (ds.reverse.takeWhile (· == (48 : UInt8))).reverse := by
    rw [dropZeros, ← List.reverse_append, hsplit, List.reverse_reverse]
  have hlen : ds.length = (dropZeros ds.reverse).length + (ds.reverse.takeWhile (· == (48 : UInt8))).length := by
    conv_lhs => rw [hds]
    simp
  refine ⟨?_, by omega⟩
  conv_lhs => rw [hds]
  rw [digitsVal_append, hzeros, List.reverse_replicate, digitsVal_replicate_zero, List.length_replicate,
    Nat.add_zero, hlen, Nat.add_sub_cancel_left]

/-! ## rounding them -/

theorem rounds_zero {q : ℚ} (hq : q < middle 0) : RoundsTo q 0 :=
  ⟨by decide, fun c hc => absurd hc c.succ_ne_zero, fun _ => .inl hq⟩

theorem rounds_infinity {q : ℚ} (h : magnitude infinityBits ≤ q) : RoundsTo q infinityBits :=
  ⟨le_rfl, fun c hc => .inl ((middle_lt_magnitude (by omega)).trans_le h), fun h => absurd h (lt_irrefl _)⟩

theorem middle_zero : middle 0 = 2 ^ (-1075 : ℤ) := by
  have h : OnGrid 0 0 (-1074) := ⟨le_rfl, Nat.zero_le _, .inl rfl, rfl⟩
  rw [h.middle_eq (by decide), show (-1075 : ℤ) = -1074 - 1 by norm_num, zpow_sub_one₀ (by norm_num)]
  generalize (2 : ℚ) ^ (-1074 : ℤ) = u
  push_cast
  ring

theorem magnitude_infinity : magnitude infinityBits = 2 ^ (1024 : ℤ) := by
  have h : OnGrid infinityBits exponentWeight 972 := ⟨by norm_num, by decide, .inr le_rfl, by decide⟩
  have hW : ((exponentWeight : ℕ) : ℚ) = 2 ^ (52 : ℤ) := by norm_num [exponentWeight]
  rw [h.magnitude_eq, hW, ← zpow_add₀ (by norm_num)]
  rfl

/-- The powers of ten at which digits are no longer looked at. -/
theorem two_zpow_le_ten_zpow : (2 : ℚ) ^ (1075 : ℤ) ≤ 10 ^ (400 : ℤ) := by
  calc (2 : ℚ) ^ (1075 : ℤ) ≤ 2 ^ (1200 : ℤ) := zpow_le_zpow_right₀ (by norm_num) (by norm_num)
    _ = (2 ^ (3 : ℕ)) ^ (400 : ℕ) := by rw [← pow_mul]; rfl
    _ ≤ 10 ^ (400 : ℕ) := pow_le_pow_left₀ (by norm_num) (by norm_num) _
    _ = 10 ^ (400 : ℤ) := by rw [← zpow_natCast]; rfl

theorem toNat_toBits_ofRatio (a b : Nat) : (ofRatio a b).toBits.toNat = ratioBits a b :=
  toNat_toBits_ofBits (Nat.min_le_right _ _)

/-- Digits, the first of which is not zero, times a power of ten. -/
theorem rounds_nearest {ds : Bytes} (hds : IsDigits ds) (hhead : ∀ c ∈ ds.head?, c ≠ 48) (e : ℤ) :
    RoundsTo (digitsVal ds * 10 ^ e) (nearest ds e).toBits.toNat := by
  cases ds with
  | nil =>
    have : (nearest [] e).toBits.toNat = 0 := rfl
    rw [this, show digitsVal [] = 0 from rfl, Nat.cast_zero, zero_mul]
    exact rounds_zero (by rw [middle_zero]; positivity)
  | cons b ds =>
    have hlow : (10 : ℚ) ^ (ds.length : ℤ) ≤ digitsVal (b :: ds) := by
      rw [zpow_natCast]
      exact_mod_cast le_digitsVal (hds b List.mem_cons_self) (hhead b rfl)
    have hup : (digitsVal (b :: ds) : ℚ) < 10 ^ ((ds.length : ℤ) + 1) := by
      have := digitsVal_lt hds
      rw [List.length_cons] at this
      exact_mod_cast this
    have he : (0 : ℚ) < 10 ^ e := by positivity
    set top : ℤ := ((b :: ds).length : ℤ) + e with htop
    rw [List.length_cons] at htop
    push_cast at htop
    have hnearest : nearest (b :: ds) e = if top < -400 then 0.0
        else if 400 < top then Float.ofBits infinityBits.toUInt64
        else ofRatio (digitsVal (b :: ds) * (Ratio.pow 10 e).num) (Ratio.pow 10 e).den := by
      unfold nearest
      simp only [List.isEmpty_cons, Bool.false_or, decide_eq_true_eq]
      rfl
    rw [hnearest]
    split_ifs with hsmall hlarge
    · -- below half of the least number
      have hq : (digitsVal (b :: ds) : ℚ) * 10 ^ e < middle 0 := by
        calc (digitsVal (b :: ds) : ℚ) * 10 ^ e < 10 ^ ((ds.length : ℤ) + 1) * 10 ^ e :=
              mul_lt_mul_of_pos_right hup he
          _ = 10 ^ top := by rw [htop, ← zpow_add₀ (by norm_num)]
          _ ≤ 10 ^ (-400 : ℤ) := zpow_le_zpow_right₀ (by norm_num) hsmall.le
          _ ≤ 2 ^ (-1075 : ℤ) := by
            rw [zpow_neg, zpow_neg]
            exact inv_anti₀ (by positivity) two_zpow_le_ten_zpow
          _ = _ := middle_zero.symm
      exact rounds_zero hq
    · -- above all numbers
      have hq : magnitude infinityBits ≤ digitsVal (b :: ds) * 10 ^ e := by
        calc magnitude infinityBits = 2 ^ (1024 : ℤ) := magnitude_infinity
          _ ≤ 2 ^ (1075 : ℤ) := zpow_le_zpow_right₀ (by norm_num) (by norm_num)
          _ ≤ 10 ^ (400 : ℤ) := two_zpow_le_ten_zpow
          _ ≤ 10 ^ ((ds.length : ℤ) + e) := zpow_le_zpow_right₀ (by norm_num) (by omega)
          _ = 10 ^ (ds.length : ℤ) * 10 ^ e := zpow_add₀ (by norm_num) _ _
          _ ≤ _ := mul_le_mul_of_nonneg_right hlow he.le
      rw [toNat_toBits_ofBits le_rfl]
      exact rounds_infinity hq
    · have hden := Ratio.den_pow_pos (show 0 < 10 by norm_num) e
      have hnum := Ratio.num_pow_pos (show 0 < 10 by norm_num) e
      have hpos : 0 < digitsVal (b :: ds) := by
        have : (0 : ℚ) < digitsVal (b :: ds) := lt_of_lt_of_le (by positivity) hlow
        exact_mod_cast this
      have h := rounds_ratio (Nat.mul_pos hpos hnum) hden
      have hpow : ((Ratio.pow 10 e).num : ℚ) / (Ratio.pow 10 e).den = 10 ^ e := by
        simpa using Ratio.pow_eq 10 e
      rw [toNat_toBits_ofRatio]
      rwa [Nat.cast_mul, mul_div_assoc, hpow] at h

/-- **A mantissa and an exponent are read as the nearest number.** -/
theorem rounds_value {whole frac rest : Bytes} (hwhole : IsDigits whole) (hfrac : IsDigits frac) (e : ℤ) :
    RoundsTo (digitsVal (whole ++ frac) * 10 ^ (e - frac.length))
      (Mantissa.value ⟨whole, frac, rest⟩ e).toBits.toNat := by
  have hall : IsDigits (whole ++ frac) := fun b hb => (List.mem_append.mp hb).elim (hwhole b) (hfrac b)
  unfold Mantissa.value
  dsimp only
  set ds := dropZeros (whole ++ frac) with hds
  obtain ⟨hval, hlen⟩ := digitsVal_dropZerosBehind ds
  set kept := dropZeros ds.reverse with hkept
  have hdigits : IsDigits kept.reverse := by
    intro b hb
    have hmem : b ∈ ds := by
      have := (List.dropWhile_sublist (· == (48 : UInt8))).subset (List.mem_reverse.mp hb)
      exact List.mem_reverse.mp this
    exact hall b ((List.dropWhile_sublist _).subset hmem)
  have hhead : ∀ c ∈ kept.reverse.head?, c ≠ 48 := by
    -- what is kept is the front of digits that start with no zero
    have hfront : kept.reverse <+: ds := by
      rw [hkept, ← List.reverse_reverse ds, List.reverse_prefix, List.reverse_reverse]
      exact List.dropWhile_suffix _
    obtain ⟨more, hmore⟩ := hfront
    intro c hc
    have hfirst : ds.head? = some c := by rw [← hmore, List.head?_append, hc, Option.some_or]
    have hnot := List.head?_dropWhile_not (· == (48 : UInt8)) (whole ++ frac)
    rw [show (whole ++ frac).dropWhile (· == (48 : UInt8)) = ds from rfl, hfirst] at hnot
    simpa using hnot
  have h := rounds_nearest hdigits hhead
    (e - frac.length + (ds.length - kept.reverse.length : Nat))
  have hq : (digitsVal kept.reverse : ℚ) * 10 ^ (e - frac.length + (ds.length - kept.reverse.length : Nat))
      = digitsVal (whole ++ frac) * 10 ^ (e - frac.length) := by
    rw [← digitsVal_dropZeros (whole ++ frac), ← hds, hval, List.length_reverse, zpow_add₀ (by norm_num),
      zpow_natCast]
    push_cast
    ring
  rwa [hq] at h

end ScriptEngine.Numeral
