import Mathlib.Data.List.TakeDrop
import Mathlib.Data.List.TakeWhile
import Mathlib.Tactic.SplitIfs
import ScriptEngine.Proofs.Token.Spelling

/-!
# Lines of tokens

The line of a token is that of its first byte.  Newlines are counted between tokens, behind comments and
inside strings.  A newline that is the byte of a character literal is passed over, so behind every such
literal the lines are one less than the number of newlines tells.

* `Lexer.reader`       the reader of one token, chosen by its first byte;
* `Lexer.Located`      the tokens of a text, each with the text from its first byte on;
* `Lexer.newlines`, `Lexer.rawNewline`   what is counted, and the literals in which it is not;
* `Lexer.lines_reader`   what one reader counts;
* `line_lt_of_lex`     lines stay within 32 bits if the text's newlines do;
* `lex_lines`          **the line of every token.**
-/

namespace ScriptEngine

namespace Lexer

/-- The reader of the token that starts with `c`. -/
def reader (n line : Nat) (c : UInt8) (rest : Bytes) : Except CompileError Read :=
  if c == 34 || c == 39 then string n c line rest
  else if c == 96 then character line rest
  else if Byte.isDigit c then number line (c :: rest)
  else word line c (c :: rest)

/-- Bytes between tokens that are no newline. -/
def isBlank (c : UInt8) : Bool := c == 32 || c == 9 || c == 13 || c == 12

/-- The tokens met in a text behind the tokens `before` (last first), each with the text from its first byte
on. -/
inductive Located : Nat → List Token → Bytes → List (Token × Bytes) → Prop
  | done {line : Nat} {before : List Token} : Located line before [] []
  | newline {line : Nat} {before : List Token} {rest : Bytes} {found : List (Token × Bytes)}
    (h : Located (line + 1) before rest found) : Located line before (10 :: rest) found
  | blank {line : Nat} {before : List Token} {c : UInt8} {rest : Bytes} {found : List (Token × Bytes)}
    (hc : isBlank c = true) (h : Located line before rest found) : Located line before (c :: rest) found
  | comment {line : Nat} {before : List Token} {rest : Bytes} {found : List (Token × Bytes)}
    (h : Located line before (rest.dropWhile (· != 10)) found) : Located line before (35 :: rest) found
  | token {n line : Nat} {before : List Token} {c : UInt8} {rest : Bytes} {r : Read} {found : List (Token × Bytes)}
    (hc : c ≠ 10 ∧ isBlank c = false ∧ c ≠ 35) (hread : reader n line c rest = .ok r)
    (h : Located r.line (⟨signed r.kind before, line⟩ :: before) r.rest found) :
    Located line before (c :: rest) ((⟨signed r.kind before, line⟩, c :: rest) :: found)

def newlines (bs : Bytes) : Nat := bs.count 10

/-- Whether a character literal of a newline, written as it is, stands at the front of a text. -/
def rawNewline (src : Bytes) : Bool := [96, 10].isPrefixOf src

/-! ## what a reader passes over -/

/-- The second text is the end of the first one, with `k` newlines before it. -/
def Passes (src rest : Bytes) (k : Nat) : Prop := ∃ w, src = w ++ rest ∧ newlines w = k

namespace Passes

variable {src rest : Bytes} {k : Nat}

theorem refl (src : Bytes) : Passes src src 0 := ⟨[], rfl, rfl⟩

theorem cons {c : UInt8} (hc : c ≠ 10) (h : Passes src rest k) : Passes (c :: src) rest k := by
  obtain ⟨w, rfl, rfl⟩ := h
  exact ⟨c :: w, rfl, List.count_cons_of_ne (by simpa using hc)⟩

theorem newline (h : Passes src rest k) : Passes (10 :: src) rest (k + 1) := by
  obtain ⟨w, rfl, rfl⟩ := h
  exact ⟨10 :: w, rfl, List.count_cons_self⟩

theorem trans {more : Bytes} {l : Nat} (h : Passes src rest k) (h' : Passes rest more l) :
    Passes src more (k + l) := by
  obtain ⟨w, rfl, rfl⟩ := h
  obtain ⟨w', rfl, rfl⟩ := h'
  exact ⟨w ++ w', by rw [List.append_assoc], List.count_append⟩

theorem of_all {w : Bytes} (hw : ∀ b ∈ w, b ≠ 10) : Passes (w ++ rest) rest 0 :=
  ⟨w, rfl, List.count_eq_zero.mpr fun h => hw 10 h rfl⟩

theorem dropWhile {p : UInt8 → Bool} (hp : p 10 = false) (src : Bytes) : Passes src (src.dropWhile p) 0 := by
  have h : Passes (src.takeWhile p ++ src.dropWhile p) (src.dropWhile p) 0 := of_all fun b hb hb10 => by
    have hpb := List.mem_takeWhile_imp hb
    rw [hb10, hp] at hpb
    exact nomatch hpb
  rwa [List.takeWhile_append_dropWhile] at h

end Passes

theorem passes_escape {line : Nat} {src rest : Bytes} {b : UInt8} (h : escape line src = .ok (b, rest)) :
    Passes src rest 0 := by
  unfold escape at h
  split at h
  · exact nomatch h
  · rename_i c src
    have hc : c ≠ 10 := by
      rintro rfl
      exact nomatch h
    -- the two digits of a byte
    have hdigit {d : UInt8} {v : Nat} (hd : Byte.digitVal? 16 d = some v) : d ≠ 10 := by
      rintro rfl
      exact nomatch hd
    refine .cons hc ?_
    repeat' split at h
    all_goals try (cases h; exact .refl _)
    all_goals try (simp [faultAt] at h; done)
    rename_i hhigh hlow
    cases h
    exact .cons (hdigit hhigh) (.cons (hdigit hlow) (.refl _))

/-- A string passes over as many newlines as it counts. -/
theorem passes_stringBody {quote : UInt8} {start n line : Nat} {read src : Bytes} {r : Read} (hq : quote ≠ 10)
    (h : stringBody quote start n line read src = .ok r) : ∃ k, Passes src r.rest k ∧ r.line = line + k := by
  induction n generalizing line read src with
  | zero => cases src <;> cases h
  | succ n ih =>
    cases src with
    | nil => cases h
    | cons c src =>
      -- one byte that is no newline, and what follows it
      have hnext {line' : Nat} {read' rest : Bytes} (hc : c ≠ 10) (hpass : Passes src rest 0)
          (hrest : stringBody quote start n line' read' rest = .ok r) (hline : line' = line) :
          ∃ k, Passes (c :: src) r.rest k ∧ r.line = line + k := by
        obtain ⟨k, hk, hr⟩ := ih hrest
        refine ⟨0 + k, (hpass.trans hk).cons hc, ?_⟩
        rw [hr, hline, Nat.zero_add]
      rw [stringBody.eq_def] at h
      dsimp only at h
      split at h
      · rename_i hc
        cases h
        obtain rfl : c = quote := by simpa using hc
        exact ⟨0, (Passes.refl src).cons hq, rfl⟩
      split at h
      · rename_i hc
        have hc10 : c ≠ 10 := by
          rintro rfl
          cases hc
        split at h
        · split at h
          · rename_i hescape
            exact hnext hc10 (passes_escape hescape) h rfl
          · cases h
        · split at h
          · rename_i e rest
            split at h
            · rename_i he
              have he10 : e ≠ 10 := by
                rintro rfl
                cases he
              exact hnext hc10 ((Passes.refl rest).cons he10) h rfl
            · exact hnext hc10 (.refl _) h rfl
          · exact hnext hc10 (.refl _) h rfl
      split at h
      · rename_i hc
        obtain rfl : c = 10 := by simpa using hc
        obtain ⟨k, hk, hr⟩ := ih h
        exact ⟨k + 1, hk.newline, by omega⟩
      · rename_i hc
        exact hnext (by simpa using hc) (.refl _) h rfl

/-- The character literal of a byte, behind which its closing quote is due. -/
def characterEnd (line : Nat) (b : UInt8) (rest : Bytes) : Except CompileError Read :=
  match rest with
  | 96 :: rest => .ok ⟨.number (Float.ofNat b.toNat), line, rest⟩
  | _ => faultAt line .badCharacter

theorem passes_character {line : Nat} {src : Bytes} {r : Read} (h : character line src = .ok r) :
    r.line = line ∧ Passes src r.rest (if rawNewline (96 :: src) then 1 else 0) := by
  cases src with
  | nil => cases h
  | cons c src =>
    obtain ⟨b, rest, hbyte, hquote⟩ : ∃ b rest, (if c == 92 then escape line src else .ok (c, src)) = .ok (b, rest) ∧
        characterEnd line b rest = .ok r := by
      unfold character at h
      dsimp only at h
      split at h
      · cases hescape : escape line src with
        | error e =>
          rw [hescape] at h
          cases h
        | ok x =>
          rw [hescape] at h
          exact ⟨x.1, x.2, by rw [if_pos ‹_›], h⟩
      · exact ⟨c, src, by rw [if_neg ‹_›], h⟩
    have hpass : Passes (c :: src) rest (if rawNewline (96 :: c :: src) then 1 else 0) := by
      by_cases hnewline : c = 10
      · subst hnewline
        cases hbyte
        exact (Passes.refl _).newline
      · have hraw : rawNewline (96 :: c :: src) = false := by
          simpa [rawNewline, List.isPrefixOf] using Ne.symm hnewline
        rw [hraw]
        refine .cons hnewline ?_
        split at hbyte
        · exact passes_escape hbyte
        · cases hbyte
          exact .refl _
    unfold characterEnd at hquote
    split at hquote
    · rename_i rest
      cases hquote
      exact ⟨rfl, hpass.trans ((Passes.refl rest).cons (by decide))⟩
    · cases hquote

/-- The digits of an exponent, which come behind its sign. -/
def exponentDigits (neg : Bool) (ds : Bytes) : Option (Int × Bytes) :=
  let (ds, rest) := ds.span Byte.isDigit
  if ds.isEmpty then none
  else
    let n : Int := Numeral.exponentVal ds
    some (if neg then -n else n, rest)

theorem passes_exponent {src rest : Bytes} {e : Int} (h : Numeral.exponent? src = some (e, rest)) :
    Passes src rest 0 := by
  unfold Numeral.exponent? at h
  have hdigits {ds : Bytes} {neg : Bool} (hd : exponentDigits neg ds = some (e, rest)) : Passes ds rest 0 := by
    rw [exponentDigits, List.span_eq_takeWhile_dropWhile] at hd
    dsimp only at hd
    split at hd
    · cases hd
    · cases hd
      exact .dropWhile rfl ds
  split at h
  rename_i neg ds hsign
  have hds := hdigits h
  split at hsign <;> cases hsign
  · exact hds.cons (by decide)
  · exact hds.cons (by decide)
  · exact hds

def decimalPlaces (rest : Bytes) : Bytes × Bytes :=
  match rest with
  | 46 :: d :: after => if Byte.isDigit d then (d :: after).span Byte.isDigit else ([], rest)
  | _ => ([], rest)

def decimalExponent (rest : Bytes) : Int × Bytes :=
  match rest with
  | c :: after => if c == 101 || c == 69 then (Numeral.exponent? after).getD (0, rest) else (0, rest)
  | [] => (0, rest)

theorem passes_decimal {c : UInt8} (hc : Byte.isDigit c = true) (rest : Bytes) :
    Passes rest (decimal (c :: rest)).2 0 := by
  have hfrac (rest : Bytes) : Passes rest (decimalPlaces rest).2 0 := by
    unfold decimalPlaces
    split
    · split
      · rw [List.span_eq_takeWhile_dropWhile]
        exact (Passes.dropWhile rfl _).cons (by decide)
      · exact .refl _
    · exact .refl _
  have hexponent (rest : Bytes) : Passes rest (decimalExponent rest).2 0 := by
    unfold decimalExponent
    split
    · rename_i c after
      split
      · rename_i hc
        have hc10 : c ≠ 10 := by
          rintro rfl
          cases hc
        cases hexp : Numeral.exponent? after with
        | none => exact .refl _
        | some x => exact (passes_exponent hexp).cons hc10
      · exact .refl _
    · exact .refl _
  unfold decimal
  rw [List.span_eq_takeWhile_dropWhile, List.dropWhile_cons_of_pos hc]
  exact ((Passes.dropWhile rfl rest).trans (hfrac _)).trans (hexponent _)

theorem passes_radixDigits {base line : Nat} {src rest : Bytes} {x : Float}
    (h : radixDigits base line src = .ok (x, rest)) : Passes src rest 0 := by
  unfold radixDigits at h
  rw [List.span_eq_takeWhile_dropWhile] at h
  dsimp only at h
  split at h
  · exact nomatch h
  · cases h
    refine .dropWhile ?_ src
    simp [Byte.digitVal?]

/-- A number that ends before `rest`, where no name may start. -/
def numberEnd (line : Nat) (value : Float) (rest : Bytes) : Except CompileError Read :=
  match rest with
  | c :: _ => if Byte.inName c then faultAt line .badNumber else .ok ⟨.number value, line, rest⟩
  | [] => .ok ⟨.number value, line, rest⟩

theorem passes_number {line : Nat} {c : UInt8} {src : Bytes} {r : Read} (hc : Byte.isDigit c = true)
    (h : number line (c :: src) = .ok r) : r.line = line ∧ Passes src r.rest 0 := by
  have hend {value : Float} {rest : Bytes} (hr : numberEnd line value rest = .ok r)
      (hpass : Passes src rest 0) : r.line = line ∧ Passes src r.rest 0 := by
    unfold numberEnd at hr
    split at hr
    · split at hr
      · cases hr
      · cases hr
        exact ⟨rfl, hpass⟩
    · cases hr
      exact ⟨rfl, hpass⟩
  -- the digits behind `0x` or `0o`
  have hradix {base : Nat} {after : Bytes} (hsrc : Passes src after 0)
      (hr : (radixDigits base line after >>= fun x => numberEnd line x.1 x.2) = .ok r) :
      r.line = line ∧ Passes src r.rest 0 := by
    cases hdigits : radixDigits base line after with
    | error e =>
      rw [hdigits] at hr
      cases hr
    | ok x =>
      rw [hdigits] at hr
      exact hend hr (hsrc.trans (passes_radixDigits hdigits))
  unfold number at h
  dsimp only at h
  split at h
  · rename_i after heq
    obtain rfl := (List.cons.inj heq).2
    exact hradix ((Passes.refl after).cons (by decide)) h
  · rename_i after heq
    obtain rfl := (List.cons.inj heq).2
    exact hradix ((Passes.refl after).cons (by decide)) h
  · exact hend h (passes_decimal hc src)

theorem lexemes_oneLine : ∀ p ∈ lexemeBytes, p.1 ≠ [] ∧ ∀ b ∈ p.1, b ≠ 10 := fun p hp => by
  obtain ⟨-, hne, -, -, hall⟩ := lexemes_regular p hp
  refine ⟨hne, fun b hb hnewline => ?_⟩
  have h := List.all_eq_true.mp hall b hb
  simp [hnewline] at h

theorem drop_takeWhile (p : UInt8 → Bool) (src : Bytes) :
    src.drop (src.takeWhile p).length = src.dropWhile p := by
  induction src with
  | nil => rfl
  | cons c src ih =>
    by_cases hc : p c = true
    · simpa [hc] using ih
    · simp [hc]

theorem passes_word {line : Nat} {c : UInt8} {src : Bytes} {r : Read} (h : word line c (c :: src) = .ok r) :
    r.line = line ∧ Passes src r.rest 0 := by
  unfold word at h
  extract_lets name asName at h
  have hname (hr : asName = .ok r) : r.line = line ∧ Passes src r.rest 0 := by
    unfold asName name at hr
    by_cases hc : Byte.startsName c = true
    · simp only [if_pos hc, drop_takeWhile] at hr
      split at hr
      · exact nomatch hr
      · cases hr
        rw [List.dropWhile_cons_of_pos (Byte.startsName_inName hc)]
        exact ⟨rfl, .dropWhile rfl src⟩
    · simp only [if_neg hc] at hr
      exact nomatch hr
  split at h
  · rename_i len kind hlex
    split at h
    · cases h
      obtain ⟨⟨w, k⟩, hp, hpre, rfl⟩ := lexeme?_eq_some hlex
      obtain ⟨hne, hw⟩ := lexemes_oneLine _ hp
      cases w with
      | nil => exact absurd rfl hne
      | cons d w =>
        obtain ⟨rest, hrest⟩ := List.isPrefixOf_iff_prefix.mp hpre
        obtain ⟨rfl, rfl⟩ := List.cons.inj hrest
        refine ⟨rfl, ?_⟩
        simp only [List.length_cons, List.drop_succ_cons, List.append_eq, List.drop_left]
        exact .of_all fun b hb => hw b (List.mem_cons_of_mem _ hb)
    · exact hname h
  · exact hname h

/-- **A reader counts the newlines it passes over,** but for that of a character literal. -/
theorem lines_reader {n line : Nat} {c : UInt8} {rest : Bytes} {r : Read} (hc : c ≠ 10)
    (h : reader n line c rest = .ok r) : ∃ k, Passes rest r.rest k ∧
      r.line + (if rawNewline (c :: rest) then 1 else 0) = line + k := by
  have hraw (hne : c ≠ 96) : rawNewline (c :: rest) = false := by
    simpa [rawNewline, List.isPrefixOf] using fun h => absurd h.symm hne
  unfold reader at h
  split at h
  · rename_i hquote
    obtain ⟨k, hk, hline⟩ := passes_stringBody hc h
    have hne : c ≠ 96 := by
      rintro rfl
      exact nomatch hquote
    exact ⟨k, hk, by rw [hraw hne]; exact hline⟩
  split at h
  · rename_i hquote
    obtain rfl : c = 96 := by simpa using hquote
    obtain ⟨hline, hpass⟩ := passes_character h
    exact ⟨_, hpass, by rw [hline]⟩
  · rename_i hquote
    have hne : c ≠ 96 := by simpa using hquote
    rw [hraw hne]
    split at h
    · obtain ⟨hline, hpass⟩ := passes_number ‹_› h
      exact ⟨0, hpass, hline⟩
    · obtain ⟨hline, hpass⟩ := passes_word h
      exact ⟨0, hpass, hline⟩

/-! ## all tokens -/

/-- The tokens of a text of which one has been read. -/
def follow (n line : Nat) (before : List Token) (r : Except CompileError Read) : Except CompileError (List Token) :=
  match r with
  | .ok r => tokens n r.line (⟨signed r.kind before, line⟩ :: before) r.rest
  | .error e => .error e

/-- The tokens of a text are met in it. -/
theorem located_tokens {n line : Nat} {before ts : List Token} {src : Bytes} (hn : src.length < n)
    (h : tokens n line before src = .ok ts) :
    ∃ found, Located line before src found ∧ ts = before.reverse ++ found.map Prod.fst := by
  induction n generalizing line before src with
  | zero => exact absurd hn (Nat.not_lt_zero _)
  | succ n ih =>
    cases src with
    | nil =>
      cases h
      exact ⟨[], .done, by simp⟩
    | cons c rest =>
      have hlen : rest.length < n := Nat.lt_of_succ_lt_succ hn
      have hstep : tokens (n + 1) line before (c :: rest) =
          if c == 10 then tokens n (line + 1) before rest
          else if isBlank c then tokens n line before rest
          else if c == 35 then tokens n line before (rest.dropWhile (· != 10))
          else follow n line before (reader n line c rest) := by
        rw [tokens]
        unfold follow reader isBlank
        split_ifs <;> rfl
      rw [hstep] at h
      split at h
      · rename_i hc
        obtain rfl : c = 10 := by simpa using hc
        obtain ⟨found, hfound, hts⟩ := ih hlen h
        exact ⟨found, .newline hfound, hts⟩
      rename_i hnewline
      split at h
      · rename_i hc
        obtain ⟨found, hfound, hts⟩ := ih hlen h
        exact ⟨found, .blank hc hfound, hts⟩
      rename_i hblank
      split at h
      · rename_i hc
        obtain rfl : c = 35 := by simpa using hc
        have hshort := (List.dropWhile_sublist (l := rest) (p := (· != 10))).length_le
        obtain ⟨found, hfound, hts⟩ := ih (Nat.lt_of_le_of_lt hshort hlen) h
        exact ⟨found, .comment hfound, hts⟩
      rename_i hcomment
      unfold follow at h
      split at h
      · rename_i r hread
        have hc : c ≠ 10 := by simpa using hnewline
        obtain ⟨k, ⟨w, hw, -⟩, -⟩ := lines_reader hc hread
        have hlen' : r.rest.length < n := by
          rw [hw, List.length_append] at hlen
          omega
        obtain ⟨found, hfound, hts⟩ := ih hlen' h
        refine ⟨_, .token ⟨hc, by simpa using hblank, by simpa using hcomment⟩ hread hfound, ?_⟩
        rw [hts, List.reverse_cons, List.append_assoc]
        rfl
      · cases h

/-- **The lines of the tokens met in a text.** -/
theorem Located.line_eq {line : Nat} {before : List Token} {src : Bytes} {found : List (Token × Bytes)}
    (h : Located line before src found) {front back : List (Token × Bytes)} {t : Token} {start : Bytes}
    (hfound : found = front ++ (t, start) :: back) :
    ∃ k, Passes src start k ∧ t.line + front.countP (fun p => rawNewline p.2) = line + k := by
  induction h generalizing front with
  | done => simp at hfound
  | newline _ ih =>
    obtain ⟨k, hk, hline⟩ := ih hfound
    exact ⟨k + 1, hk.newline, by omega⟩
  | @blank _ _ c _ _ hc _ ih =>
    obtain ⟨k, hk, hline⟩ := ih hfound
    have hc10 : c ≠ 10 := by
      rintro rfl
      exact nomatch hc
    exact ⟨k, hk.cons hc10, hline⟩
  | @comment _ _ rest _ _ ih =>
    obtain ⟨k, hk, hline⟩ := ih hfound
    have hpass : Passes rest start (0 + k) := (Passes.dropWhile rfl rest).trans hk
    exact ⟨0 + k, hpass.cons (by decide), by omega⟩
  | @token n line before c rest r found hc hread _ ih =>
    cases front with
    | nil =>
      obtain ⟨⟨rfl, rfl⟩, -⟩ := (List.cons.inj hfound).imp Prod.mk.inj id
      exact ⟨0, .refl _, rfl⟩
    | cons p front =>
      obtain ⟨rfl, hrest⟩ := List.cons.inj hfound
      obtain ⟨k, hk, hline⟩ := lines_reader hc.1 hread
      obtain ⟨l, hl, hline'⟩ := ih hrest
      refine ⟨k + l, (hk.trans hl).cons hc.1, ?_⟩
      rw [List.countP_cons]
      dsimp only
      omega

end Lexer

/-- Lines are numbers of 32 bits as long as the first line and the newlines of the text together are. -/
theorem line_lt_of_lex {src : Bytes} {firstLine : Nat} {ts : List Token} (h : lex src firstLine = .ok ts)
    (hfits : firstLine + Lexer.newlines src < UInt32.size) {t : Token} (ht : t ∈ ts) : t.line < UInt32.size := by
  obtain ⟨found, hfound, rfl⟩ := Lexer.located_tokens (Nat.lt_succ_self _) h
  obtain ⟨⟨t, start⟩, hp, rfl⟩ := List.mem_map.mp ht
  obtain ⟨front, back, heq⟩ := List.append_of_mem hp
  obtain ⟨k, ⟨text, htext, hk⟩, hline⟩ := hfound.line_eq heq
  have hle : k ≤ Lexer.newlines src := by
    rw [← hk, htext, Lexer.newlines, Lexer.newlines, List.count_append]
    exact Nat.le_add_right _ _
  dsimp only
  omega

/-- **The line of every token** is that of the first line and the newlines before its first byte, less one for
each character literal before it that is a newline as it is. -/
theorem lex_lines {src : Bytes} {firstLine : Nat} {ts : List Token} (h : lex src firstLine = .ok ts) :
    ∃ found, Lexer.Located firstLine [] src found ∧ found.map Prod.fst = ts ∧
      ∀ front t start back, found = front ++ (t, start) :: back → ∃ text, src = text ++ start ∧
        t.line + front.countP (fun p => Lexer.rawNewline p.2) = firstLine + Lexer.newlines text := by
  obtain ⟨found, hfound, hts⟩ := Lexer.located_tokens (Nat.lt_succ_self _) h
  refine ⟨found, hfound, hts.symm, fun front t start back heq => ?_⟩
  obtain ⟨k, ⟨text, htext, hk⟩, hline⟩ := hfound.line_eq heq
  exact ⟨text, htext, by rw [hk, hline]⟩

/-- In a character literal of a newline and a name behind it, the name is on the second line of the text, and its
token on the first one. -/
theorem lex_lines_literal :
    let src : Bytes := [96, 10, 96, 32, 120]
    let ts : List Token := [⟨.number (Float.ofNat 10), 1⟩, ⟨.symbol [120], 1⟩]
    lex src 1 = .ok ts ∧ ∃ found, Lexer.Located 1 [] src found ∧ found.map Prod.fst = ts ∧
      ∀ front t start back, found = front ++ (t, start) :: back → ∃ text, src = text ++ start ∧
        t.line + front.countP (fun p => Lexer.rawNewline p.2) = 1 + Lexer.newlines text :=
  have h : lex [96, 10, 96, 32, 120] 1 = .ok [⟨.number (Float.ofNat 10), 1⟩, ⟨.symbol [120], 1⟩] := rfl
  ⟨h, lex_lines h⟩

end ScriptEngine
