import Mathlib.Data.List.Basic
import ScriptEngine.Token.Lexer

/-!
# Written tokens are read back

A token that a text can hold is written as a `Word`: a fixed spelling, a name, a string in either kind
of quotes, or a character given by its two digits.  Words that stand one blank apart are read back in
order with their kinds and values.  Only a minus depends on what stands before it.

* `Name`           an identifier that is no keyword;
* `Glyph`          one byte of a string in double quotes;
* `Word.text`, `Word.kind`   how a word is written, and the token it stands for;
* `signs`          the kinds of a row of tokens, with each minus after an operator made a sign;
* `lex_written`    **reading a written row of words.**
-/

namespace ScriptEngine

/-! ## words -/

/-- Shaped like an identifier, and no keyword. -/
def isName (s : Bytes) : Bool :=
  s.head?.any Byte.startsName && s.all Byte.inName && !(lexemeBytes.map (·.1)).contains s

/-- An identifier that is no keyword. -/
abbrev Name := { s : Bytes // isName s = true }

def hexDigit (capital : Bool) (d : Nat) : UInt8 :=
  if d < 10 then (48 + d).toUInt8 else if capital then (55 + d).toUInt8 else (87 + d).toUInt8

def hexEscape (high low : Bool) (b : UInt8) : Bytes :=
  [92, 120, hexDigit high (b.toNat / 16), hexDigit low (b.toNat % 16)]

/-- A byte of a string in double quotes: as it is, behind a backslash, or by its digits. -/
inductive Glyph where
  | plain (b : UInt8) (h : b ≠ 34 ∧ b ≠ 92)
  | escaped (b : UInt8) (h : b = 34 ∨ b = 92)
  | digits (high low : Bool) (b : UInt8)

namespace Glyph

def byte : Glyph → UInt8
  | plain b _ | escaped b _ | digits _ _ b => b

def text : Glyph → Bytes
  | plain b _ => [b]
  | escaped b _ => [92, b]
  | digits high low b => hexEscape high low b

end Glyph

/-- A byte of a string in single quotes. -/
def inSingle (b : UInt8) : Bytes := if b = 39 ∨ b = 92 then [92, b] else [b]

/-- A token as it is written. -/
inductive Word where
  | fixed (s : String) (t : Tok) (h : (s, t) ∈ lexemes)
  | name (s : Name)
  | double (gs : List Glyph)
  | single (bs : Bytes)
  | char (high low : Bool) (b : UInt8)

namespace Word

def text : Word → Bytes
  | fixed s _ _ => s.toList.map Byte.ofChar
  | name s => s
  | double gs => 34 :: (gs.flatMap Glyph.text ++ [34])
  | single bs => 39 :: (bs.flatMap inSingle ++ [39])
  | char high low b => 96 :: (hexEscape high low b ++ [96])

def kind : Word → Tok
  | fixed _ t _ => t
  | name s => .symbol s
  | double gs => .text (gs.map Glyph.byte)
  | single bs => .text bs
  | char _ _ b => .number (Float.ofNat b.toNat)

theorem mem_lexemeBytes {s : String} {t : Tok} (h : (s, t) ∈ lexemes) :
    (s.toList.map Byte.ofChar, t) ∈ lexemeBytes :=
  List.mem_map.mpr ⟨(s, t), h, rfl⟩

end Word

/-- Words one blank apart. -/
def written (ws : List Word) : Bytes := [32].intercalate (ws.map Word.text)

/-- The kinds behind a token of the kind `last`: a minus behind `+ - * / ~` or behind a sign is a sign. -/
def signs (last : Option Tok) : List Tok → List Tok
  | [] => []
  | k :: ks =>
    let k' := if k = .minus ∧ last ∈ [Tok.plus, .minus, .mul, .div, .cat, .neg].map some then .neg else k
    k' :: signs (some k') ks

/-! ## fixed spellings at the front of a text -/

/-- What may follow a word: nothing, or a blank. -/
def Gap (rest : Bytes) : Prop := rest = [] ∨ ∃ more, rest = 32 :: more

theorem takeWhile_gap {p : UInt8 → Bool} (hp : p 32 = false) {s rest : Bytes} (hs : ∀ b ∈ s, p b = true)
    (hr : Gap rest) : (s ++ rest).takeWhile p = s := by
  rw [List.takeWhile_append_of_pos hs]
  rcases hr with rfl | ⟨more, rfl⟩
  · simp
  · simp [hp]

theorem prefix_gap {w s rest : Bytes} (hw : (32 : UInt8) ∉ w) (hr : Gap rest) :
    w.isPrefixOf (s ++ rest) = w.isPrefixOf s := by
  induction w generalizing s with
  | nil => simp
  | cons x w ih =>
    simp only [List.mem_cons, not_or] at hw
    cases s with
    | nil =>
      rcases hr with rfl | ⟨more, rfl⟩
      · simp
      · simp [List.isPrefixOf, Ne.symm hw.1]
    | cons y s => simp [List.isPrefixOf, ih hw.2]

/-- A byte that opens a fixed spelling or a name. -/
def Lexer.opensWord (c : UInt8) : Bool := c ∉ [10, 32, 9, 13, 12, 35, 34, 39, 96] && !Byte.isDigit c

theorem lexemes_regular : ∀ p ∈ lexemeBytes, lexeme? p.1 = some (p.1.length, p.2) ∧ p.1 ≠ [] ∧
    p.1.head?.any Lexer.opensWord = true ∧ (p.1.head?.any Byte.startsName = true → p.1.all Byte.inName = true) ∧
    p.1.all (fun b => b != 10 && b != 32) = true := by decide +kernel

theorem lexemes_plain : ∀ p ∈ lexemeBytes, (32 : UInt8) ∉ p.1 := fun p hp hb => by
  have h := List.all_eq_true.mp (lexemes_regular p hp).2.2.2.2 32 hb
  exact nomatch h

/-- A fixed spelling does not reach over a blank. -/
theorem lexeme?_gap (s : Bytes) {rest : Bytes} (hr : Gap rest) : lexeme? (s ++ rest) = lexeme? s := by
  unfold lexeme?
  apply List.foldl_ext
  intro best p hp
  simp only [prefix_gap (lexemes_plain p hp) hr]

theorem longer_cases {a b c : Option (Nat × Tok)} (h : longer a b = c) : c = a ∨ c = b := by
  unfold longer at h
  split at h
  · split at h <;> simp [← h]
  · exact .inr h.symm
  · exact .inl h.symm

/-- What is found is a fixed spelling at the front. -/
theorem lexeme?_eq_some {src : Bytes} {n : Nat} {t : Tok} (h : lexeme? src = some (n, t)) :
    ∃ p ∈ lexemeBytes, p.1.isPrefixOf src = true ∧ p.1.length = n := by
  refine List.foldlRecOn (motive := fun best => ∀ m k, best = some (m, k) →
    ∃ p ∈ lexemeBytes, p.1.isPrefixOf src = true ∧ p.1.length = m) lexemeBytes _ (by simp) ?_ n t h
  intro best ih p hp m k hm
  dsimp only at hm
  split at hm
  · next hpre =>
    rcases longer_cases hm with hold | hnew
    · exact ih m k hold.symm
    · cases hnew
      exact ⟨p, hp, hpre, rfl⟩
  · exact ih m k hm

namespace Lexer

/-! ## one word -/

theorem word_fixed (line : Nat) {c : UInt8} {s rest : Bytes} {t : Tok} (hp : (c :: s, t) ∈ lexemeBytes)
    (hr : Gap rest) : word line c (c :: s ++ rest) = .ok ⟨t, line, rest⟩ := by
  obtain ⟨hlex, -, -, hname, -⟩ := lexemes_regular _ hp
  have hshort : (if Byte.startsName c then (c :: s ++ rest).takeWhile Byte.inName else []).length ≤
      (c :: s).length := by
    split
    · next hc =>
      have hall : ∀ b ∈ c :: s, Byte.inName b = true := List.all_eq_true.mp (hname (by simpa using hc))
      exact Nat.le_of_eq (congrArg List.length (takeWhile_gap rfl hall hr))
    · exact Nat.zero_le _
  unfold word
  rw [lexeme?_gap _ hr, hlex]
  simp only [if_pos hshort, List.drop_left]

theorem word_name (line : Nat) {c : UInt8} {s rest : Bytes} (hs : isName (c :: s) = true) (hr : Gap rest) :
    word line c (c :: s ++ rest) = .ok ⟨.symbol (c :: s), line, rest⟩ := by
  simp only [isName, List.head?_cons, Option.any_some, Bool.and_eq_true, Bool.not_eq_true',
    List.all_eq_true] at hs
  obtain ⟨⟨hstart, hall⟩, hkey⟩ := hs
  unfold word
  rw [lexeme?_gap _ hr, if_pos hstart, takeWhile_gap rfl hall hr]
  have hasName : (if (c :: s).isEmpty = true then faultAt line (.illegalCharacter c)
      else .ok ⟨.symbol (c :: s), line, (c :: s ++ rest).drop (c :: s).length⟩ : Except CompileError Read) =
      .ok ⟨.symbol (c :: s), line, rest⟩ := by simp
  cases hlex : lexeme? (c :: s) with
  | none => exact hasName
  | some p =>
    obtain ⟨n, t⟩ := p
    -- a fixed spelling as long as the name would be the name
    have hlt : n < (c :: s).length := by
      obtain ⟨q, hq, hpre, hlen⟩ := lexeme?_eq_some hlex
      have hpre : q.1 <+: c :: s := List.isPrefixOf_iff_prefix.mp hpre
      rcases Nat.lt_or_ge n (c :: s).length with h | h
      · exact h
      · have heq := hpre.eq_of_length_le (by omega)
        rw [← heq] at hkey
        have hmem : q.1 ∈ lexemeBytes.map (·.1) := List.mem_map_of_mem hq
        simp [List.contains_eq_mem, hmem] at hkey
    simp only [if_neg (Nat.not_le.mpr hlt)]
    exact hasName

theorem digitVal?_hexDigit (capital : Bool) {d : Nat} (hd : d < 16) :
    Byte.digitVal? 16 (hexDigit capital d) = some d := by
  have h : ∀ capital : Bool, ∀ d : Fin 16, Byte.digitVal? 16 (hexDigit capital d) = some d.val := by
    decide
  exact h capital ⟨d, hd⟩

theorem escape_digits (line : Nat) (high low : Bool) (b : UInt8) (rest : Bytes) :
    escape line (120 :: hexDigit high (b.toNat / 16) :: hexDigit low (b.toNat % 16) :: rest) =
      .ok (b, rest) := by
  have hb := b.toNat_lt
  have hhigh := digitVal?_hexDigit high (d := b.toNat / 16) (by omega)
  have hlow := digitVal?_hexDigit low (d := b.toNat % 16) (by omega)
  have hvalue : (b.toNat / 16 * 16 + b.toNat % 16).toUInt8 = b := by
    rw [Nat.div_add_mod']
    exact UInt8.ofNat_toNat
  simp [escape, hhigh, hlow, hvalue, Byte.ofChar]

theorem stringBody_double (gs : List Glyph) (rest : Bytes) (start : Nat) {n : Nat} (line : Nat) (read : Bytes)
    (hn : gs.length < n) : ∃ line', stringBody 34 start n line read (gs.flatMap Glyph.text ++ 34 :: rest) =
      .ok ⟨.text (read.reverse ++ gs.map Glyph.byte), line', rest⟩ := by
  induction gs generalizing n line read with
  | nil =>
    obtain ⟨n, rfl⟩ := Nat.exists_eq_succ_of_ne_zero (Nat.ne_of_gt hn)
    exact ⟨line, by simp [stringBody]⟩
  | cons g gs ih =>
    obtain ⟨n, rfl⟩ := Nat.exists_eq_succ_of_ne_zero (Nat.ne_of_gt (Nat.zero_lt_of_lt hn))
    have hn' : gs.length < n := by simpa using hn
    have hmore (line : Nat) : ∃ line', stringBody 34 start n line (g.byte :: read)
        (gs.flatMap Glyph.text ++ 34 :: rest) =
        .ok ⟨.text (read.reverse ++ (g :: gs).map Glyph.byte), line', rest⟩ := by
      simpa using ih line (g.byte :: read) hn'
    cases g with
    | plain b h =>
      by_cases hb : b = 10
      · simpa [stringBody, Glyph.text, Glyph.byte, hb] using hmore (line + 1)
      · simpa [stringBody, Glyph.text, Glyph.byte, h, hb] using hmore line
    | escaped b h =>
      have hesc : escape line (b :: (gs.flatMap Glyph.text ++ 34 :: rest)) =
          .ok (b, gs.flatMap Glyph.text ++ 34 :: rest) := by
        rcases h with rfl | rfl <;> rfl
      simpa [stringBody, Glyph.text, Glyph.byte, hesc] using hmore line
    | digits high low b =>
      have hesc := escape_digits line high low b (gs.flatMap Glyph.text ++ 34 :: rest)
      simpa [stringBody, Glyph.text, Glyph.byte, hexEscape, hesc] using hmore line

theorem stringBody_single (bs rest : Bytes) (start : Nat) {n : Nat} (line : Nat) (read : Bytes)
    (hn : bs.length < n) : ∃ line', stringBody 39 start n line read (bs.flatMap inSingle ++ 39 :: rest) =
      .ok ⟨.text (read.reverse ++ bs), line', rest⟩ := by
  induction bs generalizing n line read with
  | nil =>
    obtain ⟨n, rfl⟩ := Nat.exists_eq_succ_of_ne_zero (Nat.ne_of_gt hn)
    exact ⟨line, by simp [stringBody]⟩
  | cons b bs ih =>
    obtain ⟨n, rfl⟩ := Nat.exists_eq_succ_of_ne_zero (Nat.ne_of_gt (Nat.zero_lt_of_lt hn))
    have hmore (line : Nat) : ∃ line', stringBody 39 start n line (b :: read)
        (bs.flatMap inSingle ++ 39 :: rest) = .ok ⟨.text (read.reverse ++ b :: bs), line', rest⟩ := by
      simpa using ih line (b :: read) (by simpa using hn)
    by_cases hq : b = 39 ∨ b = 92
    · simpa [stringBody, inSingle, hq] using hmore line
    · rw [not_or] at hq
      by_cases hb : b = 10
      · simpa [stringBody, inSingle, hb] using hmore (line + 1)
      · simpa [stringBody, inSingle, hq, hb] using hmore line

theorem character_digits (line : Nat) (high low : Bool) (b : UInt8) (rest : Bytes) :
    character line (hexEscape high low b ++ 96 :: rest) =
      .ok ⟨.number (Float.ofNat b.toNat), line, rest⟩ := by
  have hesc := escape_digits line high low b (96 :: rest)
  simp [character, hexEscape, hesc, bind, Except.bind]

/-! ## rows of words -/

theorem opensWord_fixed : ∀ p ∈ lexemeBytes, p.1.head?.any opensWord = true := fun p hp =>
  (lexemes_regular p hp).2.2.1

theorem opensWord_name {c : UInt8} (h : Byte.startsName c = true) : opensWord c = true := by
  simp only [Byte.startsName, Byte.isLetter, Bool.or_eq_true, Bool.and_eq_true, decide_eq_true_eq,
    beq_iff_eq, UInt8.le_iff_toNat_le] at h
  simp only [opensWord, Byte.isDigit, List.mem_cons, List.not_mem_nil, or_false, Bool.and_eq_true,
    decide_eq_true_eq, Bool.not_eq_true', Bool.and_eq_false_iff, decide_eq_false_iff_not,
    UInt8.le_iff_toNat_le, ← UInt8.toNat_inj] at h ⊢
  simp at h ⊢
  omega

/-- A row that starts with a fixed spelling or a name. -/
theorem tokens_of_word {c : UInt8} (hc : opensWord c = true) {n line line' : Nat} {before : List Token}
    {s rest : Bytes} {k : Tok} (h : word line c (c :: s ++ rest) = .ok ⟨k, line', rest⟩) :
    tokens (n + 1) line before (c :: s ++ rest) =
      tokens n line' (⟨signed k before, line⟩ :: before) rest := by
  simp only [opensWord, List.mem_cons, List.not_mem_nil, or_false, not_or, Bool.and_eq_true,
    decide_eq_true_eq, Bool.not_eq_true'] at hc
  rw [List.cons_append] at h ⊢
  simp [tokens, hc, h]

theorem length_le_flatMap {α : Type} {f : α → Bytes} (hf : ∀ x, 1 ≤ (f x).length) (l : List α) :
    l.length ≤ (l.flatMap f).length := by
  induction l with
  | nil => simp
  | cons x l ih =>
    have hx := hf x
    simp only [List.flatMap_cons, List.length_append, List.length_cons]
    omega

/-- A word at the front of a text, read with enough steps left. -/
theorem tokens_word (w : Word) {rest : Bytes} (hr : Gap rest) {n : Nat} (hn : w.text.length ≤ n)
    (line : Nat) (before : List Token) : ∃ line', tokens (n + 1) line before (w.text ++ rest) =
      tokens n line' (⟨signed w.kind before, line⟩ :: before) rest := by
  cases w with
  | fixed s t h =>
    have hp := Word.mem_lexemeBytes h
    have hopens := opensWord_fixed _ hp
    simp only [Word.text, Word.kind]
    generalize s.toList.map Byte.ofChar = bs at hp hopens ⊢
    cases bs with
    | nil => simp at hopens
    | cons c bs => exact ⟨line, tokens_of_word (by simpa using hopens) (word_fixed line hp hr)⟩
  | name s =>
    obtain ⟨s, hs⟩ := s
    cases s with
    | nil => simp [isName] at hs
    | cons c s =>
      have hstart : Byte.startsName c = true := by
        simp only [isName, List.head?_cons, Option.any_some, Bool.and_eq_true] at hs
        exact hs.1.1
      exact ⟨line, tokens_of_word (opensWord_name hstart) (word_name line hs hr)⟩
  | double gs =>
    have hlen : gs.length < n := by
      have hle := length_le_flatMap (f := Glyph.text) (by intro g; cases g <;> simp [Glyph.text, hexEscape]) gs
      simp only [Word.text, List.length_cons, List.length_append] at hn
      omega
    obtain ⟨line', h⟩ := stringBody_double gs rest line line [] hlen
    exact ⟨line', by simp [tokens, Word.text, Word.kind, string, h]⟩
  | single bs =>
    have hlen : bs.length < n := by
      have hle := length_le_flatMap (f := inSingle) (by intro b; unfold inSingle; split <;> simp) bs
      simp only [Word.text, List.length_cons, List.length_append] at hn
      omega
    obtain ⟨line', h⟩ := stringBody_single bs rest line line [] hlen
    exact ⟨line', by simp [tokens, Word.text, Word.kind, string, h]⟩
  | char high low b =>
    have h := character_digits line high low b rest
    exact ⟨line, by simp [tokens, Word.text, Word.kind, h]⟩

theorem signed_eq (k : Tok) (before : List Token) : signed k before =
    if k = .minus ∧ before.head?.map Token.kind ∈ [Tok.plus, .minus, .mul, .div, .cat, .neg].map some
      then .neg else k := by
  by_cases hk : k = .minus
  · subst hk
    cases before with
    | nil => simp [signed]
    | cons t before =>
      obtain ⟨kind, line⟩ := t
      cases kind <;> simp [signed, Tok.beforeSign]
  · simp [signed, hk]

theorem text_pos (w : Word) : 0 < w.text.length := by
  cases w with
  | fixed s t h =>
    have hopens := opensWord_fixed _ (Word.mem_lexemeBytes h)
    simp only [Word.text]
    generalize s.toList.map Byte.ofChar = bs at hopens ⊢
    cases bs <;> simp at hopens ⊢
  | name s =>
    obtain ⟨s, hs⟩ := s
    cases s <;> simp [isName, Word.text] at hs ⊢
  | double | single | char => simp [Word.text]

theorem tokens_written (ws : List Word) {n : Nat} (hn : (written ws).length < n) (line : Nat)
    (before : List Token) : ∃ out, tokens n line before (written ws) = .ok (before.reverse ++ out) ∧
      out.map Token.kind = signs (before.head?.map Token.kind) (ws.map Word.kind) := by
  induction ws generalizing n line before with
  | nil => exact ⟨[], by simp [written, tokens], rfl⟩
  | cons w ws ih =>
    obtain ⟨n, rfl⟩ := Nat.exists_eq_succ_of_ne_zero (Nat.ne_of_gt (Nat.zero_lt_of_lt hn))
    -- what follows the word, and how it is read on
    obtain ⟨rest, htext, hgap, hlen, hrest⟩ : ∃ rest, written (w :: ws) = w.text ++ rest ∧ Gap rest ∧
        w.text.length ≤ n ∧ ∀ line t, ∃ out, tokens n line (t :: before) rest =
          .ok (before.reverse ++ t :: out) ∧
          out.map Token.kind = signs (some t.kind) (ws.map Word.kind) := by
      cases ws with
      | nil =>
        refine ⟨[], by simp [written], .inl rfl, ?_, fun line t => ⟨[], by simp [tokens], rfl⟩⟩
        simpa [written, Nat.lt_succ_iff] using hn
      | cons w' ws =>
        have htext : written (w :: w' :: ws) = w.text ++ 32 :: written (w' :: ws) := by
          simp [written, List.intercalate]
        have hpos := text_pos w
        rw [htext, List.length_append, List.length_cons] at hn
        obtain ⟨n, rfl⟩ := Nat.exists_eq_succ_of_ne_zero (show n ≠ 0 by omega)
        refine ⟨_, htext, .inr ⟨_, rfl⟩, by omega, fun line t => ?_⟩
        obtain ⟨out, hout, hkinds⟩ := ih (n := n) (by omega) line (t :: before)
        exact ⟨out, by simpa [tokens] using hout, hkinds⟩
    obtain ⟨line', hword⟩ := tokens_word w hgap hlen line before
    obtain ⟨out, hout, hkinds⟩ := hrest line' ⟨signed w.kind before, line⟩
    refine ⟨⟨signed w.kind before, line⟩ :: out, ?_, ?_⟩
    · rw [htext]
      exact hword.trans hout
    · simp only [List.map_cons, hkinds, signs, signed_eq]

end Lexer

/-- **Words written one blank apart are read back**, in order and with their values; a minus is a sign
exactly where it stands behind an arithmetic operator or another sign. -/
theorem lex_written (ws : List Word) (line : Nat) :
    ∃ ts, lex (written ws) line = .ok ts ∧ ts.map Token.kind = signs none (ws.map Word.kind) := by
  obtain ⟨ts, h, hkinds⟩ := Lexer.tokens_written ws (Nat.lt_succ_self _) line []
  exact ⟨ts, h, hkinds⟩

end ScriptEngine
