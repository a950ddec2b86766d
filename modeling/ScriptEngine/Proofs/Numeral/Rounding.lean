import Mathlib.Algebra.Order.Field.Power
import Mathlib.Tactic
import ScriptEngine.Numeral.Rounded

/-!
# Rounding to the nearest number

The doubles from zero upwards are numbered by their bits.  A positive rational is rounded to the bits
whose number is nearest; between two numbers the border is the point in the middle, which belongs to
the even bits.  The infinite number takes the place of the power of two behind the largest number.

* `magnitude`     the number with given bits;
* `middle`        the border between given bits and the next ones;
* `RoundsTo`      a rational is rounded to given bits, and `RoundsTo.unique`;
* `rounds_ratio`  **the quotient of two natural numbers is rounded to the nearest number.**
-/

namespace ScriptEngine.Numeral

/-- The number with given bits, for a sign bit of zero.  Behind the largest number the powers of two go
on. -/
def magnitude (b : Nat) : ℚ :=
  if b < exponentWeight then b * 2 ^ (-1074 : ℤ)
  else (exponentWeight + b % exponentWeight : ℕ) * 2 ^ ((b / exponentWeight : ℕ) - 1075 : ℤ)

/-- The border between given bits and the next ones. -/
def middle (b : Nat) : ℚ := (magnitude b + magnitude (b + 1)) / 2

/-- The numbers below the infinite one are rounded to the bits on whose side of the borders they lie; a border
belongs to the even bits. -/
structure RoundsTo (q : ℚ) (b : Nat) : Prop where
  le_infinity : b ≤ infinityBits
  lower : ∀ c, c + 1 = b → middle c < q ∨ (middle c = q ∧ b % 2 = 0)
  upper : b < infinityBits → q < middle b ∨ (q = middle b ∧ b % 2 = 0)

/-! ## the grid -/

/-- Bits as a mantissa and the exponent of its unit; the least mantissa of the next binade may take part. -/
structure OnGrid (b m : Nat) (e : ℤ) : Prop where
  exp : -1074 ≤ e
  mant : m ≤ 2 * exponentWeight
  normal : e = -1074 ∨ exponentWeight ≤ m
  bits : b = (e + 1074).toNat * exponentWeight + m

theorem OnGrid.magnitude_eq {b m : Nat} {e : ℤ} (h : OnGrid b m e) : magnitude b = m * 2 ^ e := by
  obtain ⟨n, rfl⟩ : ∃ n : ℕ, e = n - 1074 := ⟨(e + 1074).toNat, by have := h.exp; omega⟩
  have hW : exponentWeight = 4503599627370496 := rfl
  have hm := h.mant
  have hnormal := h.normal
  have hb : b = n * exponentWeight + m := by rw [h.bits]; congr 2; omega
  rw [hW] at hm hnormal hb
  unfold magnitude
  rcases Nat.lt_or_ge m 4503599627370496 with hlow | hhigh
  · -- only the lowest binade has so small a mantissa
    obtain rfl : n = 0 := by omega
    rw [if_pos (by omega), hb]
    norm_num
  · rw [if_neg (by omega)]
    rcases Nat.lt_or_ge m 9007199254740992 with hin | hout
    · have hdiv : b / exponentWeight = n + 1 := by rw [hW]; omega
      have hmod : exponentWeight + b % exponentWeight = m := by rw [hW]; omega
      rw [hdiv, hmod]
      congr 2
      push_cast
      ring
    · have hdiv : b / exponentWeight = n + 2 := by rw [hW]; omega
      have hmod : exponentWeight + b % exponentWeight = 4503599627370496 := by rw [hW]; omega
      obtain rfl : m = 2 * 4503599627370496 := by omega
      have hexp : ((n + 2 : ℕ) : ℤ) - 1075 = (n - 1074) + 1 := by push_cast; ring
      rw [hdiv, hmod, hexp, zpow_add_one₀ (by norm_num)]
      push_cast
      ring

theorem onGrid (b : Nat) : ∃ m e, OnGrid b m e ∧ m < 2 * exponentWeight := by
  rcases Nat.lt_or_ge b exponentWeight with h | h
  · exact ⟨b, -1074, ⟨le_rfl, by omega, .inl rfl, by simp⟩, by omega⟩
  · have hW : exponentWeight = 4503599627370496 := rfl
    rw [hW] at h
    refine ⟨4503599627370496 + b % 4503599627370496, (b / 4503599627370496 : ℕ) - 1075, ⟨?_, ?_, ?_, ?_⟩, ?_⟩
    · omega
    · omega
    · right
      omega
    · rw [hW]
      omega
    · omega

theorem OnGrid.succ {b m : Nat} {e : ℤ} (h : OnGrid b m e) (hm : m < 2 * exponentWeight) :
    OnGrid (b + 1) (m + 1) e :=
  ⟨h.exp, hm, h.normal.imp_right (by omega), by rw [h.bits, Nat.add_assoc]⟩

theorem OnGrid.middle_eq {b m : Nat} {e : ℤ} (h : OnGrid b m e) (hm : m < 2 * exponentWeight) :
    middle b = (m + 1 / 2) * 2 ^ e := by
  rw [middle, h.magnitude_eq, (h.succ hm).magnitude_eq]
  push_cast
  ring

theorem OnGrid.even {b m : Nat} {e : ℤ} (h : OnGrid b m e) : b % 2 = m % 2 := by
  have := h.bits
  simp only [exponentWeight] at this
  omega

theorem magnitude_strictMono : StrictMono magnitude := by
  refine strictMono_nat_of_lt_succ fun b => ?_
  obtain ⟨m, e, h, hm⟩ := onGrid b
  rw [h.magnitude_eq, (h.succ hm).magnitude_eq]
  have : (0 : ℚ) < 2 ^ e := by positivity
  push_cast
  linarith

theorem middle_strictMono : StrictMono middle := by
  intro b c hbc
  have h1 := magnitude_strictMono hbc
  have h2 := magnitude_strictMono (Nat.succ_lt_succ hbc)
  simp only [middle]
  linarith

theorem magnitude_lt_middle (b : Nat) : magnitude b < middle b := by
  have := magnitude_strictMono b.lt_succ_self
  simp only [middle]
  linarith

theorem middle_lt_magnitude {b c : Nat} (h : b < c) : middle b < magnitude c := by
  have h1 := magnitude_strictMono b.lt_succ_self
  have h2 := magnitude_strictMono.monotone (Nat.succ_le_of_lt h)
  simp only [middle]
  linarith

/-- A rational is rounded to one number only. -/
theorem RoundsTo.unique {q : ℚ} {b c : Nat} (hb : RoundsTo q b) (hc : RoundsTo q c) : b = c := by
  -- of two results the smaller one is odd or even, and the larger one is the next
  have hlt {b c : Nat} (hb : RoundsTo q b) (hc : RoundsTo q c) : ¬ b < c := by
    intro hbc
    obtain ⟨d, rfl⟩ : ∃ d, c = d + 1 := ⟨c - 1, by omega⟩
    have hmono : middle b ≤ middle d := middle_strictMono.monotone (Nat.le_of_lt_succ hbc)
    rcases hc.lower d rfl with hlow | ⟨hlow, heven⟩ <;>
      rcases hb.upper (Nat.lt_of_lt_of_le hbc hc.le_infinity) with hup | ⟨hup, heven'⟩
    · linarith
    · linarith
    · linarith
    · have : b = d := middle_strictMono.injective (by linarith)
      omega
  exact Nat.le_antisymm (Nat.not_lt.mp (hlt hc hb)) (Nat.not_lt.mp (hlt hb hc))

/-! ## rounding a quotient -/

theorem Ratio.num_pow_pos {base : Nat} (hb : 0 < base) (e : ℤ) : 0 < (Ratio.pow base e).num := by
  unfold Ratio.pow
  split
  · exact Nat.pow_pos hb
  · exact Nat.one_pos

theorem Ratio.den_pow_pos {base : Nat} (hb : 0 < base) (e : ℤ) : 0 < (Ratio.pow base e).den := by
  unfold Ratio.pow
  split
  · exact Nat.one_pos
  · exact Nat.pow_pos hb

theorem Ratio.pow_eq (base : Nat) (e : ℤ) :
    ((Ratio.pow base e).num : ℚ) / (Ratio.pow base e).den = (base : ℚ) ^ e := by
  unfold Ratio.pow
  split
  · rename_i h
    obtain ⟨n, rfl⟩ := Int.eq_ofNat_of_zero_le h
    simp
  · rename_i h
    obtain ⟨n, rfl⟩ : ∃ n : ℕ, e = -n := ⟨(-e).toNat, by omega⟩
    simp

/-- The rounded quotient is at most half a unit away, and even when it is that far. -/
theorem roundDiv_spec (a : Nat) {b : Nat} (hb : 0 < b) :
    (2 * a < 2 * roundDiv a b * b + b ∨ (2 * a = 2 * roundDiv a b * b + b ∧ roundDiv a b % 2 = 0)) ∧
      (2 * roundDiv a b * b < 2 * a + b ∨ (2 * roundDiv a b * b = 2 * a + b ∧ roundDiv a b % 2 = 0)) := by
  have hsplit : b * (a / b) + a % b = a := Nat.div_add_mod a b
  have hmod : a % b < b := Nat.mod_lt a hb
  have hq : 2 * (a / b) * b = 2 * (b * (a / b)) := by ring
  have hq' : 2 * (a / b + 1) * b = 2 * (b * (a / b)) + 2 * b := by ring
  unfold roundDiv
  dsimp only
  split_ifs with hlow hhigh
  · exact ⟨.inl (by omega), .inl (by omega)⟩
  · exact ⟨.inl (by omega), .inl (by omega)⟩
  · -- a tie goes to the even one of the two
    rcases Nat.mod_two_eq_zero_or_one (a / b) with h | h
    · rw [h, Nat.add_zero]
      exact ⟨.inr ⟨by omega, h⟩, .inl (by omega)⟩
    · rw [h]
      exact ⟨.inl (by omega), .inr ⟨by omega, by omega⟩⟩

theorem leadingBit_spec {a b : Nat} (ha : 0 < a) (hb : 0 < b) :
    (2 : ℚ) ^ leadingBit a b ≤ (a : ℚ) / b ∧ (a : ℚ) / b < 2 ^ (leadingBit a b + 1) := by
  have hb' : (0 : ℚ) < b := by exact_mod_cast hb
  have hlog {n : Nat} (hn : 0 < n) : (2 : ℚ) ^ (n.log2 : ℤ) ≤ n ∧ (n : ℚ) < 2 ^ ((n.log2 : ℤ) + 1) := by
    have h1 := Nat.log2_self_le hn.ne'
    have h2 := Nat.lt_log2_self (n := n)
    constructor
    · exact_mod_cast h1
    · exact_mod_cast h2
  obtain ⟨ha1, ha2⟩ := hlog ha
  obtain ⟨hb1, hb2⟩ := hlog hb
  have hup : (a : ℚ) / b < 2 ^ ((a.log2 : ℤ) - b.log2 + 1) := by
    rw [div_lt_iff₀ hb']
    calc (a : ℚ) < 2 ^ ((a.log2 : ℤ) + 1) := ha2
      _ = 2 ^ ((a.log2 : ℤ) - b.log2 + 1) * 2 ^ (b.log2 : ℤ) := by
        rw [← zpow_add₀ (by norm_num)]; congr 1; ring
      _ ≤ _ := mul_le_mul_of_nonneg_left hb1 (by positivity)
  have hlow : (2 : ℚ) ^ ((a.log2 : ℤ) - b.log2 - 1) ≤ (a : ℚ) / b := by
    rw [le_div_iff₀ hb']
    calc (2 : ℚ) ^ ((a.log2 : ℤ) - b.log2 - 1) * b
        ≤ 2 ^ ((a.log2 : ℤ) - b.log2 - 1) * 2 ^ ((b.log2 : ℤ) + 1) :=
          mul_le_mul_of_nonneg_left hb2.le (by positivity)
      _ = 2 ^ (a.log2 : ℤ) := by rw [← zpow_add₀ (by norm_num)]; congr 1; ring
      _ ≤ a := ha1
  unfold leadingBit
  dsimp only
  set p : ℤ := (a.log2 : ℤ) - b.log2
  have hden : (0 : ℚ) < (Ratio.pow 2 p).den := by exact_mod_cast Ratio.den_pow_pos two_pos p
  -- the exact comparison of the quotient with the power of two
  have hcmp : a * (Ratio.pow 2 p).den < b * (Ratio.pow 2 p).num ↔ (a : ℚ) / b < 2 ^ p := by
    have := Ratio.pow_eq 2 p
    push_cast at this
    rw [← this, div_lt_div_iff₀ hb' hden, mul_comm ((Ratio.pow 2 p).num : ℚ)]
    exact_mod_cast Iff.rfl
  split_ifs with h
  · rw [sub_add_cancel]
    exact ⟨hlow, hcmp.mp h⟩
  · exact ⟨not_lt.mp fun h' => h (hcmp.mpr h'), hup⟩

theorem OnGrid.pred {c m : Nat} {e : ℤ} (h : OnGrid (c + 1) m e) (hm : e = -1074 ∨ exponentWeight < m) :
    OnGrid c (m - 1) e ∧ 0 < m := by
  have hpos : 0 < m := by
    rcases hm with rfl | hm
    · have hc : c + 1 = m := by simpa using h.bits
      omega
    · omega
  have := h.mant
  have := h.bits
  exact ⟨⟨h.exp, by omega, hm.imp_right (by omega), by omega⟩, hpos⟩

section
variable {q : ℚ} {r : Nat} {e : ℤ}

/-- A rational between two powers of two, and the number of units it is rounded to. -/
theorem onGrid_of_units (he : -1074 ≤ e) (hq : q < 2 * exponentWeight * 2 ^ e)
    (hnormal : e = -1074 ∨ exponentWeight * 2 ^ e ≤ q) (hup : q ≤ (r + 1 / 2) * 2 ^ e)
    (hlow : (r - 1 / 2) * 2 ^ e ≤ q) : OnGrid ((e + 1074).toNat * exponentWeight + r) r e := by
  have hu : (0 : ℚ) < 2 ^ e := by positivity
  refine ⟨he, ?_, hnormal.imp_right fun h => ?_, rfl⟩
  · have h1 : (r : ℚ) - 1 / 2 < 2 * exponentWeight := lt_of_mul_lt_mul_right (hlow.trans_lt hq) hu.le
    have h2 : (r : ℚ) < (2 * exponentWeight + 1 : ℕ) := by push_cast; linarith
    exact Nat.le_of_lt_succ (by exact_mod_cast h2)
  · have h1 : (exponentWeight : ℚ) ≤ r + 1 / 2 := le_of_mul_le_mul_right (h.trans hup) hu
    have h2 : (exponentWeight : ℚ) < (r + 1 : ℕ) := by push_cast; linarith
    exact Nat.le_of_lt_succ (by exact_mod_cast h2)

/-- The lower border of a number of units.  Below the least mantissa of a binade the numbers are closer
together. -/
theorem OnGrid.lower {c : Nat} (h : OnGrid (c + 1) r e) (hnormal : e = -1074 ∨ exponentWeight * 2 ^ e ≤ q)
    (hlow : (r - 1 / 2) * 2 ^ e < q ∨ ((r - 1 / 2) * 2 ^ e = q ∧ r % 2 = 0)) :
    middle c < q ∨ (middle c = q ∧ (c + 1) % 2 = 0) := by
  by_cases hfirst : r = exponentWeight ∧ e ≠ -1074
  · left
    have hge : magnitude (c + 1) ≤ q := by
      rw [h.magnitude_eq, hfirst.1]
      exact hnormal.resolve_left hfirst.2
    exact (middle_lt_magnitude c.lt_succ_self).trans_le hge
  · have hr : e = -1074 ∨ exponentWeight < r := by
      by_cases he : e = -1074
      · exact .inl he
      · exact .inr (lt_of_le_of_ne (h.normal.resolve_left he) fun h' => hfirst ⟨h'.symm, he⟩)
    obtain ⟨hpred, hpos⟩ := h.pred hr
    have hmant := h.mant
    have hcast : ((r - 1 : ℕ) : ℚ) + 1 / 2 = r - 1 / 2 := by
      rw [Nat.cast_sub hpos]
      push_cast
      ring
    rw [hpred.middle_eq (by omega), h.even, hcast]
    exact hlow

theorem OnGrid.upper {b : Nat} (h : OnGrid b r e) (hq : q < 2 * exponentWeight * 2 ^ e)
    (hup : q < (r + 1 / 2) * 2 ^ e ∨ (q = (r + 1 / 2) * 2 ^ e ∧ r % 2 = 0)) :
    q < middle b ∨ (q = middle b ∧ b % 2 = 0) := by
  by_cases hlast : r = 2 * exponentWeight
  · left
    have hlt : q < magnitude b := by
      rw [h.magnitude_eq, hlast]
      push_cast
      exact hq
    exact hlt.trans (magnitude_lt_middle b)
  · rw [h.middle_eq (lt_of_le_of_ne h.mant hlast), h.even]
    exact hup

theorem rounds_units (he : -1074 ≤ e) (hq : q < 2 * exponentWeight * 2 ^ e)
    (hnormal : e = -1074 ∨ exponentWeight * 2 ^ e ≤ q)
    (hup : q < (r + 1 / 2) * 2 ^ e ∨ (q = (r + 1 / 2) * 2 ^ e ∧ r % 2 = 0))
    (hlow : (r - 1 / 2) * 2 ^ e < q ∨ ((r - 1 / 2) * 2 ^ e = q ∧ r % 2 = 0)) :
    RoundsTo q (encode r e) := by
  have hgrid := onGrid_of_units he hq hnormal (hup.elim le_of_lt fun h => h.1.le)
    (hlow.elim le_of_lt fun h => h.1.le)
  unfold encode
  generalize (e + 1074).toNat * exponentWeight + r = b at hgrid ⊢
  rcases Nat.lt_or_ge infinityBits b with hinf | hfin
  · -- too large: the infinite number is nearest
    rw [Nat.min_eq_right hinf.le]
    refine ⟨le_rfl, fun c hc => .inl ?_, fun h => absurd h (lt_irrefl _)⟩
    obtain ⟨d, rfl⟩ : ∃ d, b = d + 1 := ⟨b - 1, by omega⟩
    have hcd : middle c < middle d := middle_strictMono (by omega)
    exact hcd.trans_le ((hgrid.lower hnormal hlow).elim le_of_lt fun h => h.1.le)
  · rw [Nat.min_eq_left hfin]
    refine ⟨hfin, fun c hc => ?_, fun _ => hgrid.upper hq hup⟩
    subst hc
    exact hgrid.lower hnormal hlow

end

def ratioBits (a b : Nat) : Nat :=
  let unit := Ratio.pow 2 (unitExponent a b)
  encode (roundDiv (a * unit.den) (b * unit.num)) (unitExponent a b)

/-- **A quotient is rounded to the nearest number.** -/
theorem rounds_ratio {a b : Nat} (ha : 0 < a) (hb : 0 < b) : RoundsTo ((a : ℚ) / b) (ratioBits a b) := by
  obtain ⟨hlow, hup⟩ := leadingBit_spec ha hb
  have hb' : (0 : ℚ) < b := by exact_mod_cast hb
  set e := unitExponent a b with he
  have hunit : ((Ratio.pow 2 e).num : ℚ) / (Ratio.pow 2 e).den = 2 ^ e := by
    simpa using Ratio.pow_eq 2 e
  have hnum := Ratio.num_pow_pos two_pos e
  have hden := Ratio.den_pow_pos two_pos e
  show RoundsTo _ (encode (roundDiv (a * (Ratio.pow 2 e).den) (b * (Ratio.pow 2 e).num)) e)
  generalize (Ratio.pow 2 e).num = n at hunit hnum ⊢
  generalize (Ratio.pow 2 e).den = d at hunit hden ⊢
  have hd' : (0 : ℚ) < d := by exact_mod_cast hden
  have hn' : (0 : ℚ) < n := by exact_mod_cast hnum
  have hepos : (0 : ℚ) < 2 ^ e := by positivity
  have hW : ((2 : ℚ) * exponentWeight : ℚ) = 2 ^ (53 : ℤ) := by norm_num [exponentWeight]
  have hW' : ((exponentWeight : ℕ) : ℚ) = 2 ^ (52 : ℤ) := by norm_num [exponentWeight]
  have hmax : e = max (-1074) (leadingBit a b - 52) := he
  obtain ⟨h1, h2⟩ := roundDiv_spec (a * d) (Nat.mul_pos hb hnum)
  set r := roundDiv (a * d) (b * n)
  -- distances in units are distances in products of natural numbers
  have hscale (x : ℚ) : x * 2 ^ e = x * (b * n) / (b * d) := by
    rw [← hunit]
    field_simp
  have hquot : (a : ℚ) / b = (a * d) / (b * d) := by field_simp
  have hbd : (0 : ℚ) < b * d := by positivity
  refine rounds_units (hmax ▸ le_max_left _ _) ?_ ?_ ?_ ?_
  · calc (a : ℚ) / b < 2 ^ (leadingBit a b + 1) := hup
      _ ≤ 2 ^ (53 + e) := zpow_le_zpow_right₀ (by norm_num) (by rw [hmax]; omega)
      _ = _ := by rw [hW, zpow_add₀ (by norm_num)]
  · rcases eq_or_ne e (-1074) with h | h
    · exact .inl h
    · right
      calc ((exponentWeight : ℕ) : ℚ) * 2 ^ e = 2 ^ (52 + e) := by rw [hW', zpow_add₀ (by norm_num)]
        _ ≤ 2 ^ leadingBit a b := zpow_le_zpow_right₀ (by norm_num) (by omega)
        _ ≤ _ := hlow
  · rw [hscale, hquot, div_lt_div_iff_of_pos_right hbd, div_left_inj' hbd.ne']
    rcases h1 with h | ⟨h, heven⟩
    · left
      have h' : (2 * (a * d) : ℚ) < 2 * r * (b * n) + b * n := by exact_mod_cast h
      linarith
    · right
      have h' : (2 * (a * d) : ℚ) = 2 * r * (b * n) + b * n := by exact_mod_cast h
      exact ⟨by linarith, heven⟩
  · rw [hscale, hquot, div_lt_div_iff_of_pos_right hbd, div_left_inj' hbd.ne']
    rcases h2 with h | ⟨h, heven⟩
    · left
      have h' : (2 * r * (b * n) : ℚ) < 2 * (a * d) + b * n := by exact_mod_cast h
      linarith
    · right
      have h' : (2 * r * (b * n) : ℚ) = 2 * (a * d) + b * n := by exact_mod_cast h
      exact ⟨by linarith, heven⟩

end ScriptEngine.Numeral
