import ScriptEngine.Proofs.Numeral.Written
import ScriptEngine.Proofs.Token.Lines

/-!
# Number literals and numeric strings

A number literal and a string are read by two readers.  The reader of literals stops where the text goes on in
another way, gives back a point or an exponent mark that no digits follow, and knows octal digits; where it takes
a whole text that is not octal, it takes a numeral and gives the same number.

* `Lexer.isDecimal_of_decimal`   a decimal literal is a decimal body, with the same value;
* `Lexer.body?_of_number`        so is a literal with hex digits;
* `numeric?_of_lex`              **a literal that is a whole text, and the same text as a string.**
-/

namespace ScriptEngine

open Numeral (IsDigits IsMantissa IsExponent IsDecimal IsHex body?)

namespace Lexer

/-! ## the readers of literals -/

theorem decimal_eq (src : Bytes) : decimal src =
    (Numeral.Mantissa.value ⟨(src.span Byte.isDigit).1, (decimalPlaces (src.span Byte.isDigit).2).1, []⟩
      (decimalExponent (decimalPlaces (src.span Byte.isDigit).2).2).1,
      (decimalExponent (decimalPlaces (src.span Byte.isDigit).2).2).2) := rfl

theorem isExponent_of_decimalExponent {rest : Bytes} (h : (decimalExponent rest).2 = []) :
    IsExponent rest (decimalExponent rest).1 := by
  unfold decimalExponent at h ⊢
  split at h
  · rename_i c after
    split_ifs at h ⊢ with hc
    · cases hexp : Numeral.exponent? after with
      | none =>
        rw [hexp] at h
        exact nomatch h
      | some x =>
        obtain ⟨e, rest⟩ := x
        rw [hexp] at h
        obtain rfl : rest = [] := h
        have hmark : c = 101 ∨ c = 69 := by simpa using hc
        obtain ⟨x, hx, hexponent⟩ := Numeral.isExponent_of_exponent? hmark hexp
        rw [hx, List.append_nil]
        exact hexponent
  · exact .absent

theorem isMantissa_of_decimalPlaces {whole rest : Bytes} (hwhole : IsDigits whole) (hne : whole ≠ []) :
    ∃ m, whole ++ rest = m ++ (decimalPlaces rest).2 ∧ IsMantissa m whole (decimalPlaces rest).1 := by
  unfold decimalPlaces
  split
  · rename_i d after
    split_ifs with hd
    · cases hspan : (d :: after).span Byte.isDigit with
      | mk frac rest =>
        obtain ⟨hafter, hfrac⟩ := Numeral.span_spec hspan
        refine ⟨whole ++ 46 :: frac, ?_, .point hwhole hfrac fun h => hne (List.append_eq_nil_iff.mp h).1⟩
        rw [hafter]
        simp
    · exact ⟨whole, rfl, .whole hwhole hne⟩
  · exact ⟨whole, rfl, .whole hwhole hne⟩

/-- A decimal literal that is a whole text is a decimal body. -/
theorem isDecimal_of_decimal {c : UInt8} {src : Bytes} (hc : Byte.isDigit c = true)
    (h : (decimal (c :: src)).2 = []) :
    ∃ whole frac e, IsDecimal (c :: src) whole frac e ∧
      (decimal (c :: src)).1 = Numeral.Mantissa.value ⟨whole, frac, []⟩ e := by
  rw [decimal_eq] at h ⊢
  cases hspan : (c :: src).span Byte.isDigit with
  | mk whole rest =>
    rw [hspan] at h
    obtain ⟨hsrc, hwhole⟩ := Numeral.span_spec hspan
    have hne : whole ≠ [] := by
      rintro rfl
      rw [List.span_eq_takeWhile_dropWhile, List.takeWhile_cons_of_pos hc] at hspan
      exact nomatch (Prod.mk.inj hspan).1
    obtain ⟨m, hm, hmantissa⟩ : ∃ m, whole ++ rest = m ++ _ ∧ IsMantissa m whole _ := isMantissa_of_decimalPlaces hwhole hne
    rw [hsrc, hm]
    exact ⟨_, _, _, .parts hmantissa (isExponent_of_decimalExponent h), rfl⟩

theorem filterMap_digits {base : Nat} {ds : Bytes} (h : ∀ b ∈ ds, (Byte.digitVal? base b).isSome = true) :
    ds.map (Byte.digitVal? base) = (ds.filterMap (Byte.digitVal? base)).map some := by
  induction ds with
  | nil => rfl
  | cons b ds ih =>
    obtain ⟨d, hd⟩ := Option.isSome_iff_exists.mp (h b List.mem_cons_self)
    rw [List.map_cons, List.filterMap_cons_some hd, List.map_cons, hd, ih fun c hc => h c (List.mem_cons_of_mem _ hc)]

/-- Hex digits up to the end of the text. -/
theorem isHex_of_radixDigits {line : Nat} {ds : Bytes} {v : Float} (h : radixDigits 16 line ds = .ok (v, [])) :
    ∃ vs, IsHex (48 :: 120 :: ds) vs ∧ v = Numeral.radix 16 vs := by
  unfold radixDigits at h
  rw [List.span_eq_takeWhile_dropWhile] at h
  dsimp only at h
  split_ifs at h with hempty
  · exact nomatch h
  obtain ⟨rfl, hrest⟩ := Prod.mk.inj (Except.ok.inj h)
  have hall := List.takeWhile_append_dropWhile (p := fun b => (Byte.digitVal? 16 b).isSome) (l := ds)
  rw [hrest, List.append_nil] at hall
  rw [hall] at hempty ⊢
  have hdigits : ∀ b ∈ ds, (Byte.digitVal? 16 b).isSome = true := List.takeWhile_eq_self_iff.mp hall
  exact ⟨_, .digits (.inl rfl) (by simpa using hempty) (filterMap_digits hdigits), rfl⟩

/-- A literal that is a whole text is a body with the same value, unless it is octal. -/
theorem body?_of_number {line line' : Nat} {c : UInt8} {src : Bytes} {n : Float} (hc : Byte.isDigit c = true)
    (hoctal : ¬ [48, 111] <+: c :: src) (h : number line (c :: src) = .ok ⟨.number n, line', []⟩) :
    body? (c :: src) = some n := by
  -- nothing stands behind the digits
  have hend {v : Float} {rest : Bytes} (hr : numberEnd line v rest = .ok ⟨.number n, line', []⟩) :
      rest = [] ∧ v = n := by
    unfold numberEnd at hr
    split at hr
    · split_ifs at hr
      · exact nomatch hr
      · exact nomatch (Read.mk.inj (Except.ok.inj hr)).2.2
    · obtain ⟨hv, -, -⟩ := Read.mk.inj (Except.ok.inj hr)
      exact ⟨rfl, Tok.number.inj hv⟩
  unfold number at h
  dsimp only at h
  split at h
  · rename_i after heq
    obtain ⟨rfl, rfl⟩ := List.cons.inj heq
    cases hdigits : radixDigits 16 line after with
    | error e =>
      rw [hdigits] at h
      exact nomatch h
    | ok x =>
      obtain ⟨v, rest⟩ := x
      rw [hdigits] at h
      obtain ⟨rfl, rfl⟩ := hend h
      obtain ⟨vs, hhex, rfl⟩ := isHex_of_radixDigits hdigits
      exact hhex.body?_eq
  · rename_i after heq
    exact absurd ⟨after, heq.symm⟩ hoctal
  · obtain ⟨hrest, rfl⟩ := hend h
    obtain ⟨whole, frac, e, hdecimal, hv⟩ := isDecimal_of_decimal hc hrest
    rw [hv]
    exact hdecimal.body?_eq

/-! ## whole texts -/

/-- Behind the last token there are blanks, newlines and comments only. -/
theorem Located.gap {line : Nat} {before : List Token} {src : Bytes} (h : Located line before src []) :
    src = [] ∨ 35 ∈ src ∨ ∃ c ∈ src.getLast?, c = 10 ∨ isBlank c = true := by
  -- one more byte in front
  have hcons {c : UInt8} {src : Bytes} (hc : c = 10 ∨ isBlank c = true)
      (h : src = [] ∨ 35 ∈ src ∨ ∃ c ∈ src.getLast?, c = 10 ∨ isBlank c = true) :
      35 ∈ c :: src ∨ ∃ d ∈ (c :: src).getLast?, d = 10 ∨ isBlank d = true := by
    rcases h with rfl | h | ⟨d, hd, h⟩
    · exact .inr ⟨c, rfl, hc⟩
    · exact .inl (List.mem_cons_of_mem _ h)
    · refine .inr ⟨d, ?_, h⟩
      rw [List.getLast?_cons, hd]
      rfl
  generalize hfound : ([] : List (Token × Bytes)) = found at h
  induction h with
  | done => exact .inl rfl
  | newline _ ih => exact .inr (hcons (.inl rfl) (ih hfound))
  | blank hc _ ih => exact .inr (hcons (.inr hc) (ih hfound))
  | comment _ _ => exact .inr (.inl List.mem_cons_self)
  | token _ _ _ _ => exact nomatch hfound

/-- A literal that is the only token and has nothing behind it is read by the reader of literals. -/
theorem number_of_lex {c : UInt8} {rest : Bytes} {firstLine line : Nat} {n : Float} (hc : Byte.isDigit c = true)
    (hlex : lex (c :: rest) firstLine = .ok [⟨.number n, line⟩]) (hcomment : 35 ∉ c :: rest)
    (hblank : ∀ d ∈ (c :: rest).getLast?, d ≠ 10 ∧ isBlank d = false) :
    ∃ line', number firstLine (c :: rest) = .ok ⟨.number n, line', []⟩ := by
  obtain ⟨found, hfound, hts⟩ := located_tokens (Nat.lt_succ_self _) hlex
  cases hfound with
  | newline _ => exact absurd hc (by decide)
  | blank hc' _ =>
    simp only [isBlank, Bool.or_eq_true, beq_iff_eq] at hc'
    rcases hc' with ((rfl | rfl) | rfl) | rfl <;> exact absurd hc (by decide)
  | comment _ => exact absurd hc (by decide)
  | @token _ _ _ _ _ r tail _ hread htail =>
    obtain ⟨htoken, hnil⟩ := List.cons.inj hts
    have htail' : tail = [] := List.map_eq_nil_iff.mp hnil.symm
    subst htail'
    have hnumber : number firstLine (c :: rest) = .ok r := by
      rw [← hread, reader, if_neg, if_neg, if_pos hc]
      · rw [beq_iff_eq]
        rintro rfl
        exact absurd hc (by decide)
      · rw [Bool.or_eq_true, beq_iff_eq, beq_iff_eq]
        rintro (rfl | rfl) <;> exact absurd hc (by decide)
    -- the text behind the literal is its end
    obtain ⟨-, w, hw, -⟩ := passes_number hc hnumber
    have hsrc : c :: rest = (c :: w) ++ r.rest := congrArg _ hw
    have hrest : r.rest = [] := by
      rcases htail.gap with h | h | ⟨d, hd, hgap⟩
      · exact h
      · exact absurd (hsrc ▸ List.mem_append_right _ h) hcomment
      · obtain ⟨hne, hblank⟩ := hblank d (by rw [hsrc, List.getLast?_append, hd]; rfl)
        rcases hgap with rfl | hd
        · exact absurd rfl hne
        · exact absurd hd (by rw [hblank]; exact Bool.false_ne_true)
    have hkind : r.kind = .number n := by
      have hsigned : signed r.kind [] = .number n := (Token.mk.inj htoken).1.symm
      unfold signed at hsigned
      split at hsigned
      · rename_i hbefore
        exact nomatch hbefore
      · exact hsigned
    obtain ⟨kind, line', after⟩ := r
    dsimp only at hkind hrest
    subst hkind hrest
    exact ⟨line', hnumber⟩

end Lexer

/-- **A number literal and the same text as a string** stand for the same number.  The text starts with a digit,
is not octal and has nothing behind the literal. -/
theorem numeric?_of_lex {src : Bytes} {firstLine line : Nat} {n : Float}
    (hlex : lex src firstLine = .ok [⟨.number n, line⟩]) (hdigit : ∃ c ∈ src.head?, Byte.isDigit c = true)
    (hoctal : ¬ [48, 111] <+: src) (hcomment : 35 ∉ src)
    (hblank : ∀ c ∈ src.getLast?, c ≠ 10 ∧ Lexer.isBlank c = false) :
    Numeral.numeric? src = some n ∧
      ∀ (h : Heap) (s : Value), h.bytes? s = some src →
        h.numOf s = .ok n ∧ h.numOf (.num (.ofFloat n)) = .ok n := by
  obtain ⟨c, hc, hd⟩ := hdigit
  obtain ⟨rest, rfl⟩ := List.head?_eq_some_iff.mp hc
  have hnumeric : Numeral.numeric? (c :: rest) = some n := by
    have hhead : ∀ d ∈ (c :: rest).head?, Byte.isDigit d = true := fun d h => by cases h; exact hd
    obtain ⟨line', hread⟩ := Lexer.number_of_lex hd hlex hcomment hblank
    rw [Numeral.numeric?_eq, Numeral.sign_of_head hhead, Lexer.body?_of_number hd hoctal hread]
    rfl
  refine ⟨hnumeric, fun h s hs => ⟨(Heap.numOf_eq h s).mpr ?_, congrArg Except.ok (Number.toFloat_ofFloat n)⟩⟩
  rw [Heap.toNum?_of_bytes hs, hnumeric]

/-- The text `1.5e3`. -/
theorem numeric?_of_lex_exponent :
    lex [49, 46, 53, 101, 51] 1 = .ok [⟨.number (Numeral.Mantissa.value ⟨[49], [53], []⟩ 3), 1⟩] ∧
      Numeral.numeric? [49, 46, 53, 101, 51] = some (Numeral.Mantissa.value ⟨[49], [53], []⟩ 3) := by
  have hlex : lex [49, 46, 53, 101, 51] 1 = .ok [⟨.number (Numeral.Mantissa.value ⟨[49], [53], []⟩ 3), 1⟩] := rfl
  exact ⟨hlex, (numeric?_of_lex hlex ⟨49, rfl, rfl⟩ (by decide) (by decide)
    (by rintro _ ⟨⟩; decide)).1⟩

end ScriptEngine
