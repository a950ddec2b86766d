import Mathlib.Data.List.TakeWhile
import Mathlib.Tactic
import ScriptEngine.Proofs.Numeral.Nearest
import ScriptEngine.Proofs.Text.Ascii

/-!
# The texts that are numbers

A numeral is an optional sign and a body, which is `0x` and hex digits, or a mantissa with an optional exponent.
The grammar stands here by itself; reading a text succeeds exactly on the numerals.

* `IsMantissa`, `IsExponent`, `IsHex`, `IsDecimal`, `IsSigned`   the parts of a numeral;
* `IsNumeral`, `Denotes`   the grammar, and the number of a body;
* `numeric?_spec`          **the texts that are numbers, and their values.**
-/

namespace ScriptEngine.Numeral

/-! ## the grammar -/

/-- A mantissa and its digits before and behind the point: at most one point, at least one digit. -/
inductive IsMantissa : Bytes → Bytes → Bytes → Prop
  | whole {ds : Bytes} (hds : IsDigits ds) (hne : ds ≠ []) : IsMantissa ds ds []
  | point {whole frac : Bytes} (hwhole : IsDigits whole) (hfrac : IsDigits frac) (hne : whole ++ frac ≠ []) :
    IsMantissa (whole ++ 46 :: frac) whole frac

/-- An optional exponent and its value: a mark, an optional sign, at least one digit. -/
inductive IsExponent : Bytes → ℤ → Prop
  | absent : IsExponent [] 0
  | unsigned {mark : UInt8} {ds : Bytes} (hmark : mark = 101 ∨ mark = 69) (hds : IsDigits ds) (hne : ds ≠ []) :
    IsExponent (mark :: ds) (exponentVal ds)
  | plus {mark : UInt8} {ds : Bytes} (hmark : mark = 101 ∨ mark = 69) (hds : IsDigits ds) (hne : ds ≠ []) :
    IsExponent (mark :: 43 :: ds) (exponentVal ds)
  | minus {mark : UInt8} {ds : Bytes} (hmark : mark = 101 ∨ mark = 69) (hds : IsDigits ds) (hne : ds ≠ []) :
    IsExponent (mark :: 45 :: ds) (-exponentVal ds)

/-- `0x` or `0X` and at least one hex digit, with the values of the digits. -/
inductive IsHex : Bytes → List Nat → Prop
  | digits {x : UInt8} {ds : Bytes} {vs : List Nat} (hx : x = 120 ∨ x = 88) (hne : ds ≠ [])
    (hvs : ds.map (Byte.digitVal? 16) = vs.map some) : IsHex (48 :: x :: ds) vs

/-- A mantissa and an optional exponent. -/
inductive IsDecimal : Bytes → Bytes → Bytes → ℤ → Prop
  | parts {m x whole frac : Bytes} {e : ℤ} (hm : IsMantissa m whole frac) (hx : IsExponent x e) :
    IsDecimal (m ++ x) whole frac e

/-- An optional sign in front of a body; the flag tells a minus. -/
inductive IsSigned : Bool → Bytes → Bytes → Prop
  | unsigned (body : Bytes) : IsSigned false body body
  | plus (body : Bytes) : IsSigned false body (43 :: body)
  | minus (body : Bytes) : IsSigned true body (45 :: body)

/-- The texts of numbers: an optional sign in front of hex digits or of a decimal body. -/
def IsNumeral (bs : Bytes) : Prop :=
  ∃ neg body, IsSigned neg body bs ∧ ((∃ vs, IsHex body vs) ∨ ∃ whole frac e, IsDecimal body whole frac e)

/-- The number of a body.  Hex digits are taken in from the left; a decimal body stands for the number that it
stands for outside of scripts, and that is the one nearest to the rational written. -/
inductive Denotes : Bytes → Float → Prop
  | hex {body : Bytes} {vs : List Nat} (h : IsHex body vs) :
    Denotes body (vs.foldl (fun v d => v * Float.ofNat 16 + Float.ofNat d) 0.0)
  | decimal {body whole frac : Bytes} {e : ℤ} {w : Float} (h : IsDecimal body whole frac e)
    (hreal : real? (Bytes.toLatin body) = some (.ofFloat w))
    (hnearest : RoundsTo (digitsVal (whole ++ frac) * 10 ^ (e - frac.length)) w.toBits.toNat) : Denotes body w

/-! ## splitting texts -/

theorem span_digits {ds rest : Bytes} (hds : IsDigits ds) (hrest : ∀ c ∈ rest.head?, Byte.isDigit c = false) :
    (ds ++ rest).span Byte.isDigit = (ds, rest) := by
  have h : rest.takeWhile Byte.isDigit = [] ∧ rest.dropWhile Byte.isDigit = rest := by
    cases rest with
    | nil => exact ⟨rfl, rfl⟩
    | cons c rest =>
      have hc := hrest c rfl
      exact ⟨List.takeWhile_cons_of_neg (by simp [hc]), List.dropWhile_cons_of_neg (by simp [hc])⟩
  rw [List.span_eq_takeWhile_dropWhile, List.takeWhile_append_of_pos hds, List.dropWhile_append_of_pos hds,
    h.1, h.2, List.append_nil]

theorem span_spec {bs ds rest : Bytes} (h : bs.span Byte.isDigit = (ds, rest)) :
    bs = ds ++ rest ∧ IsDigits ds := by
  rw [List.span_eq_takeWhile_dropWhile] at h
  obtain ⟨rfl, rfl⟩ := Prod.mk.inj h
  exact ⟨List.takeWhile_append_dropWhile.symm, fun b hb => List.mem_takeWhile_imp hb⟩

/-- What may stand behind a mantissa so that it ends there. -/
def Ends (rest : Bytes) : Prop := ∀ c ∈ rest.head?, Byte.isDigit c = false ∧ c ≠ 46

theorem mantissa_of_isMantissa {m whole frac rest : Bytes} (h : IsMantissa m whole frac) (hrest : Ends rest) :
    mantissa (m ++ rest) = ⟨whole, frac, rest⟩ := by
  have hdigit : ∀ c ∈ rest.head?, Byte.isDigit c = false := fun c hc => (hrest c hc).1
  unfold mantissa
  cases h with
  | whole hds hne =>
    rw [span_digits hds hdigit]
    dsimp only
    split
    · exact absurd rfl (hrest 46 rfl).2
    · rfl
  | point hwhole hfrac hne =>
    rw [List.append_assoc, span_digits hwhole (fun c hc => by cases hc; rfl)]
    exact congrArg (fun r : Bytes × Bytes => (⟨whole, r.1, r.2⟩ : Mantissa)) (span_digits hfrac hdigit)

theorem isMantissa_of_mantissa {bs : Bytes} (hne : (mantissa bs).whole ++ (mantissa bs).frac ≠ []) :
    ∃ m, bs = m ++ (mantissa bs).rest ∧ IsMantissa m (mantissa bs).whole (mantissa bs).frac := by
  revert hne
  unfold mantissa
  cases hspan : bs.span Byte.isDigit with
  | mk whole rest =>
    obtain ⟨rfl, hwhole⟩ := span_spec hspan
    dsimp only
    split
    · rename_i after
      cases hspan' : after.span Byte.isDigit with
      | mk frac rest =>
        obtain ⟨rfl, hfrac⟩ := span_spec hspan'
        intro hne
        exact ⟨whole ++ 46 :: frac, by simp, .point hwhole hfrac hne⟩
    · intro hne
      exact ⟨whole, rfl, .whole hwhole (by simpa using hne)⟩

theorem sign_of_head {bs : Bytes} (h : ∀ c ∈ bs.head?, Byte.isDigit c = true) : sign bs = (false, bs) := by
  unfold sign
  split
  · exact absurd (h 45 rfl) (by decide)
  · exact absurd (h 43 rfl) (by decide)
  · rfl

theorem sign_digits {ds : Bytes} (hds : IsDigits ds) : sign ds = (false, ds) :=
  sign_of_head fun c hc => hds c (List.mem_of_mem_head? hc)

theorem exponent?_eq (bs : Bytes) : exponent? bs =
    if ((sign bs).2.span Byte.isDigit).1.isEmpty then none
    else some (if (sign bs).1 then -(exponentVal ((sign bs).2.span Byte.isDigit).1 : ℤ)
      else exponentVal ((sign bs).2.span Byte.isDigit).1, ((sign bs).2.span Byte.isDigit).2) := rfl

theorem exponent?_of_sign {bs ds : Bytes} {neg : Bool} (hsign : sign bs = (neg, ds)) (hds : IsDigits ds)
    (hne : ds ≠ []) : exponent? bs = some (if neg then -(exponentVal ds : ℤ) else exponentVal ds, []) := by
  have hspan : ds.span Byte.isDigit = (ds, []) := by
    have : (ds ++ []).span Byte.isDigit = (ds, []) := span_digits hds fun c hc => nomatch hc
    rwa [List.append_nil] at this
  have hempty : ds.isEmpty = false := by simpa using hne
  rw [exponent?_eq, hsign, hspan]
  simp [hempty]

theorem isExponent_of_exponent? {mark : UInt8} (hmark : mark = 101 ∨ mark = 69) {bs rest : Bytes} {e : ℤ}
    (h : exponent? bs = some (e, rest)) : ∃ x, mark :: bs = x ++ rest ∧ IsExponent x e := by
  unfold exponent? at h
  split at h
  rename_i neg ds hsign
  cases hspan : ds.span Byte.isDigit with
  | mk ds' rest' =>
    rw [hspan] at h
    dsimp only at h
    split at h
    · exact nomatch h
    · rename_i hempty
      obtain ⟨hds, hdigits⟩ := span_spec hspan
      have hne : ds' ≠ [] := by simpa using hempty
      obtain ⟨rfl, rfl⟩ := Prod.mk.inj (Option.some.inj h)
      split at hsign <;> obtain ⟨rfl, rfl⟩ := Prod.mk.inj hsign
      · exact ⟨mark :: 45 :: ds', by rw [hds]; rfl, .minus hmark hdigits hne⟩
      · exact ⟨mark :: 43 :: ds', by rw [hds]; rfl, .plus hmark hdigits hne⟩
      · exact ⟨mark :: ds', by rw [hds]; rfl, .unsigned hmark hdigits hne⟩

theorem IsExponent.ends {x : Bytes} {e : ℤ} (h : IsExponent x e) : Ends x := by
  have hmark {mark : UInt8} (h : mark = 101 ∨ mark = 69) : Byte.isDigit mark = false ∧ mark ≠ 46 := by
    rcases h with rfl | rfl <;> decide
  intro c hc
  cases h with
  | absent => exact nomatch hc
  | unsigned h _ _ => cases hc; exact hmark h
  | plus h _ _ => cases hc; exact hmark h
  | minus h _ _ => cases hc; exact hmark h

/-! ## bodies -/

theorem decimal?_of_isMantissa {m x whole frac : Bytes} {e : ℤ} (hm : IsMantissa m whole frac)
    (hx : IsExponent x e) : decimal? (m ++ x) = some (Mantissa.value ⟨whole, frac, []⟩ e) := by
  have hne : (whole.isEmpty && frac.isEmpty) = false := by
    cases hm with
    | whole _ hne => simpa using hne
    | point _ _ hne => simpa [List.isEmpty_iff] using hne
  unfold decimal?
  rw [mantissa_of_isMantissa hm hx.ends]
  dsimp only
  rw [hne]
  have hmark {mark : UInt8} (h : mark = 101 ∨ mark = 69) : (mark == 101 || mark == 69) = true := by
    simpa using h
  cases hx with
  | absent => rfl
  | unsigned h hds hds' =>
    dsimp only
    rw [if_pos (hmark h), exponent?_of_sign (sign_digits hds) hds hds']
    rfl
  | plus h hds hds' =>
    dsimp only
    rw [if_pos (hmark h), exponent?_of_sign (show sign _ = (false, _) from rfl) hds hds']
    rfl
  | minus h hds hds' =>
    dsimp only
    rw [if_pos (hmark h), exponent?_of_sign (show sign _ = (true, _) from rfl) hds hds']
    rfl

theorem isMantissa_of_decimal? {bs : Bytes} {w : Float} (h : decimal? bs = some w) :
    ∃ m x whole frac e, bs = m ++ x ∧ IsMantissa m whole frac ∧ IsExponent x e ∧
      w = Mantissa.value ⟨whole, frac, []⟩ e := by
  unfold decimal? at h
  dsimp only at h
  split at h
  · exact nomatch h
  · rename_i hne
    obtain ⟨m, hbs, hm⟩ := @isMantissa_of_mantissa bs (by simpa [List.isEmpty_iff] using hne)
    split at h
    · rename_i hrest
      exact ⟨m, [], _, _, 0, by rw [hrest] at hbs; exact hbs, hm, .absent, (Option.some.inj h).symm⟩
    · rename_i c after hrest
      split at h
      · rename_i hc
        split at h
        · rename_i e hexp
          have hmark : c = 101 ∨ c = 69 := by simpa using hc
          obtain ⟨x, hx, hexponent⟩ := isExponent_of_exponent? hmark hexp
          rw [List.append_nil] at hx
          exact ⟨m, x, _, _, e, by rw [hrest, hx] at hbs; exact hbs, hm, hexponent, (Option.some.inj h).symm⟩
        · exact nomatch h
      · exact nomatch h

/-- The bytes of a body, the first of which is a digit or the point. -/
structure Bare (bs : Bytes) : Prop where
  ascii : ∀ b ∈ bs, b.toNat < 128
  first : ∃ c ∈ bs.head?, Byte.isDigit c = true ∨ c = 46

theorem digit_ascii {b : UInt8} (h : Byte.isDigit b = true) : b.toNat < 128 := by
  have := digit_le h
  omega

theorem IsExponent.ascii {x : Bytes} {e : ℤ} (h : IsExponent x e) : ∀ b ∈ x, b.toNat < 128 := by
  have hmark {mark : UInt8} (h : mark = 101 ∨ mark = 69) : mark.toNat < 128 := by
    rcases h with rfl | rfl <;> decide
  cases h with
  | absent => exact fun b hb => nomatch hb
  | unsigned h hds _ =>
    rw [List.forall_mem_cons]
    exact ⟨hmark h, fun b hb => digit_ascii (hds b hb)⟩
  | plus h hds _ =>
    rw [List.forall_mem_cons, List.forall_mem_cons]
    exact ⟨hmark h, by decide, fun b hb => digit_ascii (hds b hb)⟩
  | minus h hds _ =>
    rw [List.forall_mem_cons, List.forall_mem_cons]
    exact ⟨hmark h, by decide, fun b hb => digit_ascii (hds b hb)⟩

theorem IsDecimal.bare {body whole frac : Bytes} {e : ℤ} (h : IsDecimal body whole frac e) : Bare body := by
  obtain ⟨hm, hx⟩ := h
  cases hm with
  | whole hds hne =>
    refine ⟨List.forall_mem_append.mpr ⟨fun b hb => digit_ascii (hds b hb), hx.ascii⟩, ?_⟩
    obtain ⟨c, ds, rfl⟩ := List.exists_cons_of_ne_nil hne
    exact ⟨c, rfl, .inl (hds c List.mem_cons_self)⟩
  | @point whole frac hwhole hfrac hne =>
    refine ⟨?_, ?_⟩
    · rw [List.forall_mem_append, List.forall_mem_append, List.forall_mem_cons]
      exact ⟨⟨fun b hb => digit_ascii (hwhole b hb), by decide, fun b hb => digit_ascii (hfrac b hb)⟩, hx.ascii⟩
    · cases whole with
      | nil => exact ⟨46, rfl, .inr rfl⟩
      | cons c ds => exact ⟨c, rfl, .inl (hwhole c List.mem_cons_self)⟩

theorem Bare.sign_eq {bs : Bytes} (h : Bare bs) : sign bs = (false, bs) := by
  obtain ⟨c, hc, hfirst⟩ := h.first
  unfold sign
  split
  · cases hc
    exact absurd hfirst (by decide)
  · cases hc
    exact absurd hfirst (by decide)
  · rfl

/-- Outside of scripts a body stands for the same number. -/
theorem Bare.real?_eq {bs : Bytes} (h : Bare bs) :
    real? (Bytes.toLatin bs) = (decimal? bs).map .ofFloat := by
  obtain ⟨c, hc, hfirst⟩ := h.first
  obtain ⟨rest, rfl⟩ : ∃ rest, bs = c :: rest := by
    cases bs with
    | nil => cases hc
    | cons d rest => exact ⟨rest, by cases hc; rfl⟩
  -- no name starts with a digit or a point
  have hname (d : Char) (cs : List Char) (hcs : ∀ e ∈ d :: cs, e.toNat < 128) (hd : lower c ≠ Byte.ofChar d) :
      ((c :: rest).map lower == Bytes.ofString (String.ofList (d :: cs))) = false := by
    rw [Bytes.ofString_ofList hcs]
    simp [hd]
  have hlower : lower c = c := by
    unfold lower
    rcases hfirst with hdigit | rfl
    · rw [if_neg]
      simp only [Byte.isDigit, Bool.and_eq_true, decide_eq_true_eq, UInt8.le_iff_toNat_le] at hdigit ⊢
      have := hdigit.2
      simp at this ⊢
      omega
    · rfl
  have hne (d : Char) (hd : Byte.isDigit (Byte.ofChar d) = false ∧ Byte.ofChar d ≠ 46) :
      lower c ≠ Byte.ofChar d := by
    rw [hlower]
    rintro rfl
    rcases hfirst with h | h
    · rw [hd.1] at h
      cases h
    · exact hd.2 h
  have hinf := hname 'i' ['n', 'f'] (by simp) (hne 'i' (by decide))
  have hinfinity := hname 'i' ['n', 'f', 'i', 'n', 'i', 't', 'y'] (by simp) (hne 'i' (by decide))
  have hnan := hname 'n' ['a', 'n'] (by simp) (hne 'n' (by decide))
  unfold real?
  rw [Bytes.ofString_toLatin h.ascii, h.sign_eq]
  show Option.map _ (if _ == Bytes.ofString (String.ofList _) || _ == Bytes.ofString (String.ofList _) then _
    else if _ == Bytes.ofString (String.ofList _) then _ else _) = _
  rw [hinf, hinfinity, hnan]
  exact Option.map_id' ..

theorem digitsIn?_eq_some_iff {base : Nat} {bs : Bytes} {vs : List Nat} :
    digitsIn? base bs = some vs ↔ bs.map (Byte.digitVal? base) = vs.map some := by
  unfold digitsIn?
  induction bs generalizing vs with
  | nil => cases vs <;> simp
  | cons b bs ih =>
    rw [List.mapM_cons, List.map_cons]
    cases hb : Byte.digitVal? base b with
    | none => cases vs <;> simp
    | some d =>
      cases vs with
      | nil => simp [Option.bind_eq_some_iff]
      | cons v vs =>
        rw [List.map_cons, List.cons.injEq, ← ih, and_comm]
        simp [Option.bind_eq_some_iff]

/-- A mantissa is no zero with an `x` behind it. -/
theorem decimal?_hex {x : UInt8} (hx : x = 120 ∨ x = 88) (ds : Bytes) : decimal? (48 :: x :: ds) = none := by
  have hspan : (48 :: x :: ds).span Byte.isDigit = ([48], x :: ds) := by
    refine @span_digits [48] _ (fun b hb => by rw [List.mem_singleton.mp hb]; rfl) ?_
    rcases hx with rfl | rfl <;> exact fun c hc => by cases hc; rfl
  have hm : mantissa (48 :: x :: ds) = ⟨[48], [], x :: ds⟩ := by
    unfold mantissa
    rw [hspan]
    rcases hx with rfl | rfl <;> rfl
  unfold decimal?
  rw [hm]
  rcases hx with rfl | rfl <;> rfl

/-- The number that a body is read as. -/
def body? (body : Bytes) : Option Float :=
  match body with
  | 48 :: x :: d :: ds =>
    if x == 120 || x == 88 then (digitsIn? 16 (d :: ds)).map (radix 16) else decimal? body
  | _ => decimal? body

theorem numeric?_eq (bs : Bytes) :
    numeric? bs = (body? (sign bs).2).map fun v => if (sign bs).1 then -v else v := rfl

theorem IsHex.body?_eq {body : Bytes} {vs : List Nat} (h : IsHex body vs) : body? body = some (radix 16 vs) := by
  obtain ⟨hx, hne, hvs⟩ := h
  rename_i x ds
  obtain ⟨d, ds, rfl⟩ := List.exists_cons_of_ne_nil hne
  show (if x == 120 || x == 88 then (digitsIn? 16 (d :: ds)).map (radix 16) else _) = _
  rw [if_pos (by simpa using hx), digitsIn?_eq_some_iff.mpr hvs]
  rfl

theorem IsDecimal.body?_eq {body whole frac : Bytes} {e : ℤ} (h : IsDecimal body whole frac e) :
    body? body = some (Mantissa.value ⟨whole, frac, []⟩ e) := by
  have hdecimal : decimal? body = some (Mantissa.value ⟨whole, frac, []⟩ e) := by
    obtain ⟨hm, hx⟩ := h
    exact decimal?_of_isMantissa hm hx
  unfold body?
  split
  · split_ifs with hx
    · rw [decimal?_hex (by simpa using hx)] at hdecimal
      exact nomatch hdecimal
    · exact hdecimal
  · exact hdecimal

/-- A body that is read is one of the grammar. -/
theorem isBody_of_body? {body : Bytes} {w : Float} (h : body? body = some w) :
    (∃ vs, IsHex body vs) ∨ ∃ whole frac e, IsDecimal body whole frac e := by
  have hdecimal {body : Bytes} (h : decimal? body = some w) : ∃ whole frac e, IsDecimal body whole frac e := by
    obtain ⟨m, x, whole, frac, e, rfl, hm, hx, -⟩ := isMantissa_of_decimal? h
    exact ⟨whole, frac, e, .parts hm hx⟩
  unfold body? at h
  split at h
  · split_ifs at h with hx
    · obtain ⟨vs, hvs, -⟩ := Option.map_eq_some_iff.mp h
      exact .inl ⟨vs, .digits (by simpa using hx) (List.cons_ne_nil _ _) (digitsIn?_eq_some_iff.mp hvs)⟩
    · exact .inr (hdecimal h)
  · exact .inr (hdecimal h)

theorem body?_eq_some_iff {body : Bytes} {w : Float} : body? body = some w ↔ Denotes body w := by
  constructor
  · intro h
    rcases isBody_of_body? h with ⟨vs, hhex⟩ | ⟨whole, frac, e, hdecimal⟩
    · obtain rfl : radix 16 vs = w := Option.some.inj (hhex.body?_eq.symm.trans h)
      exact .hex hhex
    · obtain rfl : Mantissa.value ⟨whole, frac, []⟩ e = w := Option.some.inj (hdecimal.body?_eq.symm.trans h)
      refine .decimal hdecimal ?_ ?_
      · rw [hdecimal.bare.real?_eq]
        obtain ⟨hm, hx⟩ := hdecimal
        rw [decimal?_of_isMantissa hm hx]
        rfl
      · obtain ⟨hm, hx⟩ := hdecimal
        cases hm with
        | whole hds _ => exact rounds_value hds (List.forall_mem_nil _) e
        | point hwhole hfrac _ => exact rounds_value hwhole hfrac e
  · intro h
    cases h with
    | hex hhex => exact hhex.body?_eq
    | decimal hdecimal hreal _ =>
      rw [hdecimal.bare.real?_eq] at hreal
      obtain ⟨v, hv, hvw⟩ := Option.map_eq_some_iff.mp hreal
      obtain rfl := Number.ofFloat_injective hvw
      rw [hdecimal.body?_eq]
      obtain ⟨hm, hx⟩ := hdecimal
      rw [← decimal?_of_isMantissa hm hx, hv]

/-! ## signs -/

theorem isSigned_sign (bs : Bytes) : IsSigned (sign bs).1 (sign bs).2 bs := by
  unfold sign
  split
  · exact .minus _
  · exact .plus _
  · exact .unsigned _

/-- No body starts with a sign. -/
theorem IsSigned.sign_eq {neg : Bool} {body bs : Bytes} (h : IsSigned neg body bs)
    (hbody : (∃ vs, IsHex body vs) ∨ ∃ whole frac e, IsDecimal body whole frac e) : sign bs = (neg, body) := by
  cases h with
  | plus => rfl
  | minus => rfl
  | unsigned =>
    rcases hbody with ⟨vs, hhex⟩ | ⟨whole, frac, e, hdecimal⟩
    · cases hhex with
      | digits => rfl
    · exact hdecimal.bare.sign_eq

theorem Denotes.isBody {body : Bytes} {w : Float} (h : Denotes body w) :
    (∃ vs, IsHex body vs) ∨ ∃ whole frac e, IsDecimal body whole frac e := by
  cases h with
  | hex hhex => exact .inl ⟨_, hhex⟩
  | decimal hdecimal _ _ => exact .inr ⟨_, _, _, hdecimal⟩

/-- **The texts that are numbers** are those of the grammar, and the number of such a text is the number of its
body with the sign. -/
theorem numeric?_spec (bs : Bytes) :
    ((∃ v, numeric? bs = some v) ↔ IsNumeral bs) ∧
      ∀ v, numeric? bs = some v ↔ ∃ neg body w, IsSigned neg body bs ∧ Denotes body w ∧ v = if neg then -w else w := by
  rw [numeric?_eq]
  constructor
  · constructor
    · rintro ⟨v, hv⟩
      obtain ⟨w, hw, -⟩ := Option.map_eq_some_iff.mp hv
      exact ⟨_, _, isSigned_sign bs, isBody_of_body? hw⟩
    · rintro ⟨neg, body, hsigned, hbody⟩
      rw [hsigned.sign_eq hbody]
      rcases hbody with ⟨vs, hhex⟩ | ⟨whole, frac, e, hdecimal⟩
      · exact ⟨_, congrArg _ hhex.body?_eq⟩
      · exact ⟨_, congrArg _ hdecimal.body?_eq⟩
  · intro v
    rw [Option.map_eq_some_iff]
    constructor
    · rintro ⟨w, hw, rfl⟩
      exact ⟨_, _, w, isSigned_sign bs, body?_eq_some_iff.mp hw, rfl⟩
    · rintro ⟨neg, body, w, hsigned, hbody, rfl⟩
      rw [hsigned.sign_eq hbody.isBody]
      exact ⟨w, body?_eq_some_iff.mpr hbody, rfl⟩

end ScriptEngine.Numeral
