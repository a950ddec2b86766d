import ScriptEngine.Numeral.Shortest
import ScriptEngine.Proofs.Machine.Elements
import ScriptEngine.Proofs.Numeral.Bits
import ScriptEngine.Proofs.Numeral.Grammar
import ScriptEngine.Proofs.Text.Ascii

/-!
# Numbers written and read back

The text of a finite number stands for a rational between the borders of the number, so it is rounded to the
number again.  Neither the search for few digits nor the layout of the text matters for that: what the search
finds lies between the borders, and each of the three layouts has the value of the decimal.

* `Interval.Contains`        the rationals that an interval takes in;
* `OnGrid.rounds`            they are rounded to the number of the interval;
* `rounds_shortest`          so is the shortest decimal of a number;
* `Decimal.written_isMantissa`   the text of a decimal and its value;
* `numeric?_written`         **a number written and read back,** bit for bit, if it is finite.
-/

namespace ScriptEngine

namespace Numeral

/-! ## intervals -/

def Decimal.value (d : Decimal) : ℚ := d.coeff * 10 ^ d.exp

/-- A rational lies in an interval whose borders are counted in `u`. -/
def Interval.Contains (i : Interval) (u q : ℚ) : Prop :=
  if i.closed then i.lo * u ≤ q ∧ q ≤ i.hi * u else i.lo * u < q ∧ q < i.hi * u

variable {b c m n k : Nat} {e : ℤ} {q u : ℚ} {i : Interval} {unit step : Ratio} {d : Decimal}

theorem quarter (e : ℤ) : (2 : ℚ) ^ e = 4 * 2 ^ (e - 2) := by
  rw [zpow_sub₀ two_ne_zero]
  norm_num
  ring

/-- The lower end of the interval is the border to the number before. -/
theorem OnGrid.middle_pred (h : OnGrid (c + 1) m e) (hm : m < 2 * exponentWeight) (hpos : 0 < m) :
    middle c = (Interval.of m e).lo * 2 ^ (e - 2) := by
  unfold Interval.of
  dsimp only
  by_cases hnear : m = exponentWeight ∧ e ≠ -1074
  · -- the number before has half the unit
    obtain ⟨rfl, he⟩ := hnear
    have hge := h.exp
    have hbefore : OnGrid c (2 * exponentWeight - 1) (e - 1) := by
      refine ⟨by omega, Nat.sub_le _ _, .inr (by decide), ?_⟩
      have hbits := h.bits
      have hexp : (e + 1074).toNat = (e - 1 + 1074).toNat + 1 := by omega
      rw [hexp, Nat.add_mul, Nat.one_mul] at hbits
      have : 0 < exponentWeight := by decide
      omega
    rw [hbefore.middle_eq (by decide), if_pos (by simpa using he), quarter (e - 1)]
    rw [show e - 2 = (e - 1 - 2) + 1 by ring, zpow_add_one₀ two_ne_zero]
    norm_num [exponentWeight]
    ring
  · obtain ⟨hbefore, -⟩ := h.pred (by
      have := h.normal
      omega)
    rw [hbefore.middle_eq (by omega), if_neg (by simpa using hnear), quarter e, Nat.cast_sub (by omega),
      Nat.cast_sub (by omega)]
    push_cast
    ring

/-- **The rationals of an interval are rounded to its number.** -/
theorem OnGrid.rounds (h : OnGrid b m e) (hm : m < 2 * exponentWeight) (hpos : 0 < m) (hb : b ≤ infinityBits)
    (hq : (Interval.of m e).Contains (2 ^ (e - 2)) q) : RoundsTo q b := by
  have hmid : middle b = (Interval.of m e).hi * 2 ^ (e - 2) := by
    rw [h.middle_eq hm, quarter e, Interval.of]
    push_cast
    ring
  have hends : ((Interval.of m e).lo * 2 ^ (e - 2) < q ∨ ((Interval.of m e).lo * 2 ^ (e - 2) = q ∧ b % 2 = 0)) ∧
      (q < (Interval.of m e).hi * 2 ^ (e - 2) ∨ (q = (Interval.of m e).hi * 2 ^ (e - 2) ∧ b % 2 = 0)) := by
    unfold Interval.Contains at hq
    split_ifs at hq with hclosed
    · have heven : b % 2 = 0 := h.even.trans (by simpa [Interval.of] using hclosed)
      exact ⟨hq.1.lt_or_eq.imp_right (⟨·, heven⟩), hq.2.lt_or_eq.imp_right (⟨·, heven⟩)⟩
    · exact ⟨.inl hq.1, .inl hq.2⟩
  refine ⟨hb, fun c hc => ?_, fun _ => by rw [hmid]; exact hends.2⟩
  subst hc
  rw [h.middle_pred hm hpos]
  exact hends.1

/-! ## the shortest decimal -/

theorem Interval.contains_of_holds (hunit : 0 < unit.den) (hstep : 0 < step.den)
    (h : i.holds (unit.num * step.den) (unit.den * step.num) c = true) :
    i.Contains ((unit.num : ℚ) / unit.den) (c * ((step.num : ℚ) / step.den)) := by
  have hunit' : (0 : ℚ) < unit.den := by exact_mod_cast hunit
  have hstep' : (0 : ℚ) < step.den := by exact_mod_cast hstep
  have hleft (n : Nat) : n * ((unit.num : ℚ) / unit.den)
      = ((n * (unit.num * step.den) : ℕ) : ℚ) / (unit.den * step.den) := by
    push_cast
    field_simp
  have hright : (c : ℚ) * ((step.num : ℚ) / step.den)
      = ((c * (unit.den * step.num) : ℕ) : ℚ) / (unit.den * step.den) := by
    push_cast
    field_simp
  have hpos : (0 : ℚ) < unit.den * step.den := mul_pos hunit' hstep'
  unfold Interval.holds at h
  unfold Interval.Contains
  rw [hleft, hleft, hright, div_le_div_iff_of_pos_right hpos, div_le_div_iff_of_pos_right hpos,
    div_lt_div_iff_of_pos_right hpos, div_lt_div_iff_of_pos_right hpos]
  simp only [Nat.cast_le, Nat.cast_lt]
  split_ifs at h ⊢ <;> simpa using h

theorem Interval.holds_of_onGrid? {k : ℤ} (h : i.onGrid? unit k = some c) :
    i.holds (unit.num * (Ratio.pow 10 k).den) (unit.den * (Ratio.pow 10 k).num) c = true := by
  unfold Interval.onGrid? at h
  dsimp only at h
  split at h
  · split at h <;> cases h <;> assumption
  · cases h
    assumption
  · cases h
    assumption
  · exact nomatch h

theorem Interval.contains_of_search? {place : ℤ} (hunit : 0 < unit.den)
    (h : i.search? unit place k n = some d) : i.Contains ((unit.num : ℚ) / unit.den) d.value := by
  induction k generalizing n with
  | zero => exact nomatch h
  | succ k ih =>
    unfold Interval.search? at h
    dsimp only at h
    split at h
    · rename_i c hgrid
      cases h
      have hin := Interval.contains_of_holds hunit (Ratio.den_pow_pos (by decide) _) (holds_of_onGrid? hgrid)
      rw [Ratio.pow_eq] at hin
      exact hin
    · exact ih h

theorem Interval.contains_mid (hpos : 0 < m) (hu : 0 < u) : (Interval.of m e).Contains u (4 * m * u) := by
  have hlo : ((Interval.of m e).lo : ℚ) < 4 * m := by
    have : (Interval.of m e).lo < 4 * m := by
      unfold Interval.of
      dsimp only
      split_ifs <;> omega
    exact_mod_cast this
  have hhi : (4 * m : ℚ) < (Interval.of m e).hi := by
    have : 4 * m < (Interval.of m e).hi := by
      unfold Interval.of
      dsimp only
      omega
    exact_mod_cast this
  have h1 := mul_lt_mul_of_pos_right hlo hu
  have h2 := mul_lt_mul_of_pos_right hhi hu
  unfold Interval.Contains
  split_ifs
  · exact ⟨h1.le, h2.le⟩
  · exact ⟨h1, h2⟩

theorem value_exactly (m : Nat) (e : ℤ) : (exactly m e).value = m * 2 ^ e := by
  unfold exactly Decimal.value
  split_ifs with h
  · obtain ⟨n, rfl⟩ := Int.eq_ofNat_of_zero_le h
    simp
  · obtain ⟨n, rfl⟩ : ∃ n : ℕ, e = -n := ⟨(-e).toNat, by omega⟩
    have hten : (10 : ℚ) ^ n = 5 ^ n * 2 ^ n := by rw [← mul_pow]; norm_num
    simp [hten]
    field_simp

/-- The zeros at the end of the digits only move the point. -/
theorem Decimal.value_strip (n : Nat) (d : Decimal) : (d.strip n).value = d.value := by
  induction n generalizing d with
  | zero => rfl
  | succ n ih =>
    unfold Decimal.strip
    split_ifs with h
    · have hten : d.coeff % 10 = 0 := by simpa using (Bool.and_eq_true_iff.mp h).1
      obtain ⟨c, hc⟩ := Nat.dvd_of_mod_eq_zero hten
      rw [ih, Decimal.value, Decimal.value, hc, Nat.mul_div_cancel_left _ (by decide),
        zpow_add_one₀ (by norm_num)]
      push_cast
      ring
    · rfl

/-- **The shortest decimal of a number is rounded to the number.** -/
theorem rounds_shortest (h : OnGrid b m e) (hm : m < 2 * exponentWeight) (hpos : 0 < m) (hb : b ≤ infinityBits) :
    RoundsTo (shortest m e).value b := by
  refine h.rounds hm hpos hb ?_
  unfold shortest
  dsimp only
  rw [Decimal.value_strip]
  have hunit : ((Ratio.pow 2 (e - 2)).num : ℚ) / (Ratio.pow 2 (e - 2)).den = 2 ^ (e - 2) := by
    simpa using Ratio.pow_eq 2 (e - 2)
  cases hsearch : (Interval.of m e).search? (Ratio.pow 2 (e - 2))
      (leadingPlace ((Interval.of m e).mid * (Ratio.pow 2 (e - 2)).num) (Ratio.pow 2 (e - 2)).den) 17 1 with
  | none =>
    rw [Option.getD_none, value_exactly, quarter e]
    have hmid := Interval.contains_mid (m := m) (e := e) hpos (u := (2 : ℚ) ^ (e - 2)) (by positivity)
    convert hmid using 1
    ring
  | some d =>
    have hin := Interval.contains_of_search? (Ratio.den_pow_pos two_pos _) hsearch
    rw [hunit] at hin
    exact hin

/-! ## texts of decimals -/

theorem toNat_ofChar {c : Char} (hc : c.toNat < 128) : (Byte.ofChar c).toNat = c.toNat :=
  UInt8.toNat_ofNat_of_lt' (by simp only [UInt8.size]; omega)

theorem toNat_of_isDigit {ch : Char} (h : ch.isDigit = true) : 48 ≤ ch.toNat ∧ ch.toNat ≤ 57 := by
  simpa [Char.isDigit, UInt32.le_iff_toNat_le] using h

/-- The bytes of the digits of a number are digits and have its value. -/
theorem digitsVal_toDigits (n : Nat) :
    IsDigits ((Nat.toDigits 10 n).map Byte.ofChar) ∧ digitsVal ((Nat.toDigits 10 n).map Byte.ofChar) = n := by
  have hdigit : ∀ ch ∈ Nat.toDigits 10 n, 48 ≤ ch.toNat ∧ ch.toNat ≤ 57 := fun ch hch =>
    toNat_of_isDigit (Nat.isDigit_of_mem_toDigits (by decide) le_rfl hch)
  constructor
  · intro b hb
    obtain ⟨ch, hch, rfl⟩ := List.mem_map.mp hb
    have := hdigit ch hch
    have hval := toNat_ofChar (c := ch) (by omega)
    simp [Byte.isDigit, UInt8.le_iff_toNat_le, hval, this]
  · have hfold : digitsVal ((Nat.toDigits 10 n).map Byte.ofChar) = Nat.ofDigitChars 10 (Nat.toDigits 10 n) 0 := by
      unfold digitsVal Nat.ofDigitChars
      rw [List.foldl_map]
      refine List.foldl_ext _ _ _ fun v ch hch => ?_
      rw [toNat_ofChar (by have := hdigit ch hch; omega)]
      rfl
    rw [hfold, Nat.ofDigitChars_toDigits (by decide) le_rfl]

theorem isDigits_append {ds es : Bytes} (hds : IsDigits ds) (hes : IsDigits es) : IsDigits (ds ++ es) :=
  fun b hb => (List.mem_append.mp hb).elim (hds b) (hes b)

theorem isDigits_zeros (n : Nat) : IsDigits (List.replicate n 48) := fun b hb => by
  rw [List.eq_of_mem_replicate hb]
  rfl

/-- The bytes of a decimal: zeros behind the digits, a point among them, or zeros in front of them. -/
theorem Decimal.ofString_written (d : Decimal) {ds : Bytes} (hds : ds = (Nat.toDigits 10 d.coeff).map Byte.ofChar) :
    Bytes.ofString d.written =
      if 0 ≤ d.exp then ds ++ List.replicate d.exp.toNat 48
      else if 0 < ds.length + d.exp then
        ds.take (ds.length + d.exp).toNat ++ 46 :: ds.drop (ds.length + d.exp).toNat
      else 48 :: 46 :: (List.replicate (-(ds.length + d.exp)).toNat 48 ++ ds) := by
  have hascii : ∀ ch ∈ Nat.toDigits 10 d.coeff, ch.toNat < 128 := fun ch hch => by
    have := toNat_of_isDigit (Nat.isDigit_of_mem_toDigits (by decide) le_rfl hch)
    omega
  have hzeros (n : Nat) : ∀ ch ∈ List.replicate n '0', ch.toNat < 128 := fun ch hch => by
    rw [List.eq_of_mem_replicate hch]
    decide
  subst hds
  unfold Decimal.written
  dsimp only
  rw [List.length_map]
  split_ifs with hexp hpoint
  · rw [Bytes.ofString_ofList, List.map_append, List.map_replicate]
    · rfl
    · intro ch hch
      exact (List.mem_append.mp hch).elim (hascii ch) (hzeros _ ch)
  · rw [Bytes.ofString_ofList, List.map_append, List.map_cons, List.map_take, List.map_drop]
    · rfl
    · intro ch hch
      rcases List.mem_append.mp hch with hch | hch
      · exact hascii ch (List.mem_of_mem_take hch)
      · rcases List.mem_cons.mp hch with rfl | hch
        · decide
        · exact hascii ch (List.mem_of_mem_drop hch)
  · rw [Bytes.ofString_ofList, List.map_cons, List.map_cons, List.map_append, List.map_replicate]
    · rfl
    · intro ch hch
      simp only [List.mem_cons, List.mem_append] at hch
      rcases hch with rfl | rfl | hch | hch
      · decide
      · decide
      · exact hzeros _ ch hch
      · exact hascii ch hch

/-- **The text of a decimal** is a mantissa with its value. -/
theorem Decimal.written_isMantissa (d : Decimal) :
    ∃ whole frac, IsMantissa (Bytes.ofString d.written) whole frac ∧
      (digitsVal (whole ++ frac) * 10 ^ (-frac.length : ℤ) : ℚ) = d.value := by
  obtain ⟨hdigits, hval⟩ := digitsVal_toDigits d.coeff
  have hne : (Nat.toDigits 10 d.coeff).map Byte.ofChar ≠ [] := by simp [Nat.toDigits_ne_nil]
  rw [d.ofString_written rfl]
  generalize (Nat.toDigits 10 d.coeff).map Byte.ofChar = ds at hdigits hval hne
  unfold Decimal.value
  split_ifs with hexp hpoint
  · obtain ⟨n, hn⟩ := Int.eq_ofNat_of_zero_le hexp
    refine ⟨_, _, .whole (isDigits_append hdigits (isDigits_zeros _)) (by simp [hne]), ?_⟩
    rw [List.append_nil, digitsVal_append, digitsVal_replicate_zero, hval, hn]
    simp
  · refine ⟨_, _, .point (fun b hb => hdigits b (List.mem_of_mem_take hb))
      (fun b hb => hdigits b (List.mem_of_mem_drop hb)) (by rwa [List.take_append_drop]), ?_⟩
    rw [List.take_append_drop, hval, List.length_drop]
    congr 2
    omega
  · refine ⟨[48], _, .point (isDigits_zeros 1) (isDigits_append (isDigits_zeros _) hdigits) (by simp), ?_⟩
    rw [digitsVal_append, digitsVal_append, digitsVal_replicate_zero, hval, List.length_append, List.length_replicate]
    have hzero : digitsVal [48] = 0 := rfl
    rw [hzero, Nat.zero_mul, Nat.zero_mul, Nat.zero_add, Nat.zero_add]
    congr 2
    omega

/-! ## numbers taken apart -/

theorem parts?_eq_some {x : Float} {neg : Bool} (h : parts? x = some ⟨neg, m, e⟩) :
    OnGrid (x.toBits.toNat % signWeight) m e ∧ m < 2 * exponentWeight ∧
      x.toBits.toNat % signWeight < infinityBits ∧ neg = decide (signWeight ≤ x.toBits.toNat) := by
  have hsize : x.toBits.toNat < 2 ^ 64 := UInt64.toNat_lt _
  unfold parts? at h
  dsimp only at h
  generalize x.toBits.toNat = w at h hsize
  have hW : exponentWeight = 4503599627370496 := rfl
  have hS : signWeight = 9223372036854775808 := rfl
  have hI : infinityBits = 9218868437227405312 := rfl
  split_ifs at h with htop hlow
  · obtain ⟨rfl, rfl, rfl⟩ := Parts.mk.inj (Option.some.inj h)
    rw [hW] at hlow
    refine ⟨⟨le_rfl, ?_, .inl rfl, ?_⟩, ?_, ?_, rfl⟩ <;> simp only [hW, hS, hI] <;> omega
  · obtain ⟨rfl, rfl, rfl⟩ := Parts.mk.inj (Option.some.inj h)
    rw [hW] at htop hlow
    refine ⟨⟨?_, ?_, .inr ?_, ?_⟩, ?_, ?_, rfl⟩ <;> simp only [hW, hS, hI] <;> omega

theorem IsMantissa.isDigits {bs whole frac : Bytes} (h : IsMantissa bs whole frac) :
    IsDigits whole ∧ IsDigits frac := by
  cases h with
  | whole hds _ => exact ⟨hds, isDigits_zeros 0⟩
  | point hwhole hfrac _ => exact ⟨hwhole, hfrac⟩

/-- The text of a finite number without its sign. -/
theorem body?_of_onGrid (h : OnGrid b m e) (hm : m < 2 * exponentWeight) (hb : b ≤ infinityBits) {text : String}
    (htext : text = if m = 0 then "0" else (shortest m e).written) :
    ∃ v, body? (Bytes.ofString text) = some v ∧ v.toBits.toNat = b ∧
      sign (Bytes.ofString text) = (false, Bytes.ofString text) := by
  obtain ⟨whole, frac, hmantissa, hrounds⟩ : ∃ whole frac, IsMantissa (Bytes.ofString text) whole frac ∧
      RoundsTo (digitsVal (whole ++ frac) * 10 ^ (0 - frac.length : ℤ)) b := by
    subst htext
    split_ifs with hzero
    · subst hzero
      obtain rfl : e = -1074 := h.normal.resolve_right (by decide)
      obtain rfl : b = 0 := h.bits
      have htext : Bytes.ofString "0" = [48] := @Bytes.ofString_ofList ['0'] (by simp)
      refine ⟨[48], [], by rw [htext]; exact .whole (isDigits_zeros 1) (by simp), rounds_zero ?_⟩
      rw [middle_zero]
      have hval : digitsVal ([48] ++ []) = 0 := rfl
      rw [hval, Nat.cast_zero, zero_mul]
      positivity
    · obtain ⟨whole, frac, hmantissa, hval⟩ := (shortest m e).written_isMantissa
      refine ⟨whole, frac, hmantissa, ?_⟩
      rw [zero_sub, hval]
      exact rounds_shortest h hm (Nat.pos_of_ne_zero hzero) hb
  have hdecimal : IsDecimal (Bytes.ofString text) whole frac 0 := by
    have hparts := IsDecimal.parts hmantissa .absent
    rwa [List.append_nil] at hparts
  obtain ⟨hwhole, hfrac⟩ := hmantissa.isDigits
  exact ⟨_, hdecimal.body?_eq, (rounds_value hwhole hfrac 0).unique hrounds, hdecimal.bare.sign_eq⟩

theorem unpacked_ne_of_parts? {n : Number} {p : Parts} (h : parts? n.toFloat = some p) :
    n.unpacked ≠ .notANumber := by
  intro hnan
  have hbits : n.toFloat.toBits = UInt64.ofBitVec (Float.Model.UnpackedFloat.pack .binary64 n.unpacked) := rfl
  rw [hnan] at hbits
  have hnone : parts? n.toFloat = none := by
    unfold parts?
    rw [hbits]
    rfl
  exact nomatch hnone.symm.trans h

theorem toNat_negated {n : Number} (h : signWeight ≤ n.bits.toNat) :
    n.negated.bits.toNat = n.bits.toNat % signWeight := by
  have hsize : n.bits.toNat < 2 ^ 64 := UInt64.toNat_lt _
  have hbits : n.negated.bits.toNat = n.bits.toNat ^^^ 2 ^ 63 := UInt64.toNat_xor ..
  have hlow := Nat.xor_mod_two_pow (a := n.bits.toNat) (b := 2 ^ 63) (n := 63)
  have hhigh := Nat.xor_div_two_pow (a := n.bits.toNat) (b := 2 ^ 63) (n := 63)
  have hone : n.bits.toNat / 2 ^ 63 = 1 := by
    simp only [signWeight] at h
    omega
  rw [hone, Nat.div_self (by decide), Nat.xor_self] at hhigh
  rw [Nat.mod_self, Nat.xor_zero] at hlow
  have hweight : signWeight = 2 ^ 63 := rfl
  rw [hbits, hweight]
  omega

theorem numeric?_names : numeric? (Bytes.ofString "nan") = none ∧ numeric? (Bytes.ofString "inf") = none ∧
    numeric? (Bytes.ofString "-inf") = none := by
  have hnone {cs : List Char} (hcs : ∀ ch ∈ cs, ch.toNat < 128) (h : numeric? (cs.map Byte.ofChar) = none) :
      numeric? (Bytes.ofString (String.ofList cs)) = none := by rw [Bytes.ofString_ofList hcs, h]
  exact ⟨@hnone ['n', 'a', 'n'] (by simp) rfl, @hnone ['i', 'n', 'f'] (by simp) rfl,
    @hnone ['-', 'i', 'n', 'f'] (by simp) rfl⟩

/-- The value of the text of a number is the number, bit for bit, if it is finite; else the text is no numeral. -/
theorem read_written (n : Number) :
    (numeric? (Bytes.ofString (written n.toFloat))).map Number.ofFloat =
      if isFinite n.toFloat then some n else none := by
  obtain ⟨hnan, hinf, hminus⟩ := numeric?_names
  unfold written isFinite
  cases hparts : parts? n.toFloat with
  | none =>
    rw [Option.isSome_none, if_neg Bool.false_ne_true, Option.map_eq_none_iff]
    dsimp only
    split_ifs <;> assumption
  | some p =>
    obtain ⟨neg, m, e⟩ := p
    obtain ⟨hgrid, hm, hb, hneg⟩ := parts?_eq_some hparts
    have hbits : n.toFloat.toBits = n.bits :=
      congrArg Number.bits (Number.ofFloat_toFloat (unpacked_ne_of_parts? hparts))
    rw [hbits] at hgrid hb hneg
    obtain ⟨v, hbody, hv, hsign⟩ := body?_of_onGrid hgrid hm hb.le rfl
    rw [Option.isSome_some, if_pos rfl]
    dsimp only
    cases neg with
    | false =>
      have hsmall : n.bits.toNat < signWeight := by simpa using hneg.symm
      have hn : Number.ofFloat v = n := by
        rw [Nat.mod_eq_of_lt hsmall] at hv
        exact congrArg Number.mk (UInt64.toNat_inj.mp hv)
      rw [if_neg Bool.false_ne_true, numeric?_eq, hsign, hbody, Option.map_some, Option.map_some]
      exact congrArg some hn
    | true =>
      have hlarge : signWeight ≤ n.bits.toNat := by simpa using hneg.symm
      have hn : Number.ofFloat v = n.negated := by
        rw [← toNat_negated hlarge] at hv
        exact congrArg Number.mk (UInt64.toNat_inj.mp hv)
      have hreal : (Number.ofFloat v).unpacked ≠ .notANumber := Number.unpacked_ne_of_le (by
        show v.toBits.toNat ≤ _
        rw [hv]
        exact hb.le)
      have hback : Number.ofFloat (-v) = n := by
        rw [← Number.toFloat_ofFloat v, Number.ofFloat_neg hreal, hn, Number.negated_negated]
      have hminus : Bytes.ofString "-" = [45] := @Bytes.ofString_ofList ['-'] (by simp)
      rw [if_pos rfl, Bytes.ofString_append, hminus, numeric?_eq]
      show ((body? (Bytes.ofString _)).map fun v => -v).map Number.ofFloat = _
      rw [hbody, Option.map_some, Option.map_some, hback]

end Numeral

namespace Heap

theorem toNum?_of_bytes {h : Heap} {s : Value} {bs : Bytes} (hs : h.bytes? s = some bs) :
    h.toNum? s = Numeral.numeric? bs := by
  cases s with
  | num _ => exact nomatch hs
  | nil => exact nomatch hs
  | done => exact nomatch hs
  | obj a => exact congrArg (Option.bind · Numeral.numeric?) hs

theorem valuesEqual_of_bytes {h : Heap} {s : Value} {bs : Bytes} {n : Number} (hs : h.bytes? s = some bs)
    (hn : Numeral.numeric? bs = some n.toFloat) :
    h.valuesEqual s (.num n) = n.equals n ∧ h.valuesEqual (.num n) s = n.equals n := by
  cases s with
  | num _ => exact nomatch hs
  | nil => exact nomatch hs
  | done => exact nomatch hs
  | obj a => simp only [valuesEqual, hs, hn, Number.equals, and_self]

end Heap

/-- **A number written and read back.**  The bytes of a finite number are a numeral that stands for this number,
bit for bit, and those of the other numbers are none; so a finite number that has been made a string is the same
where a number is wanted, and equal to the string. -/
theorem Numeral.numeric?_written (n : Number) :
    (Numeral.numeric? (Bytes.ofString (Numeral.written n.toFloat))).map Number.ofFloat =
        (if Numeral.isFinite n.toFloat then some n else none) ∧
      ∀ (h : Heap) (s : Value), h.bytes? s = h.toBytes? (.num n) → Numeral.isFinite n.toFloat = true →
        h.numOf s = h.numOf (.num n) ∧ h.valuesEqual s (.num n) = true ∧ h.valuesEqual (.num n) s = true := by
  refine ⟨Numeral.read_written n, fun h s hs hfinite => ?_⟩
  have hread := Numeral.read_written n
  rw [if_pos hfinite] at hread
  obtain ⟨v, hv, hvn⟩ := Option.map_eq_some_iff.mp hread
  have hsame : v = n.toFloat := by rw [← hvn, Number.toFloat_ofFloat]
  rw [hsame] at hv
  obtain ⟨p, hp⟩ := Option.isSome_iff_exists.mp hfinite
  have hself : n.equals n = true := (Number.equals_iff n n).mpr (.inr ⟨rfl, Numeral.unpacked_ne_of_parts? hp⟩)
  obtain ⟨hleft, hright⟩ := Heap.valuesEqual_of_bytes hs hv
  refine ⟨(Heap.numOf_eq h s).mpr ?_, hleft.trans hself, hright.trans hself⟩
  rw [Heap.toNum?_of_bytes hs, hv]

/-- A heap whose one string was made of the negative zero. -/
theorem Numeral.numeric?_written_negative_zero :
    let n : Number := ⟨0x8000000000000000⟩
    let h : Heap := { cells := #[.str (.ofBytes (Bytes.ofString (Numeral.written n.toFloat)))],
                      pools := Vector.replicate 8 { blockSize := 1 } }
    Numeral.isFinite n.toFloat = true ∧ h.bytes? (.obj 0) = h.toBytes? (.num n) ∧
      h.numOf (.obj 0) = h.numOf (.num n) ∧ h.valuesEqual (.obj 0) (.num n) = true := by
  intro n h
  have hfinite : Numeral.isFinite n.toFloat = true := by decide +kernel
  have hs : h.bytes? (.obj 0) = h.toBytes? (.num n) := rfl
  obtain ⟨hnum, hequal, -⟩ := (Numeral.numeric?_written n).2 h (.obj 0) hs hfinite
  exact ⟨hfinite, hs, hnum, hequal⟩

end ScriptEngine
