import ScriptEngine.Grammar.Bracketed

/-!
# Which token lists can be grouped

Grouping succeeds on the properly nested lists with at most `maxNesting` brackets open at once, loses
no token on them, and refuses every other list at the first place that cannot be continued to such a
list.

* `Nested`          every bracket is closed by one of its own kind;
* `Leaves`          the brackets that a text leaves open, innermost first;
* `Within`          at most so many brackets are ever open at once;
* `Faulty`          the first fault of a token list and its line;
* `Piece.shown`     a piece written out again, each group with its closing bracket;
* `bracket_spec`    **when grouping succeeds, what it gives and where it fails**.

A text is either left with some brackets open or it has a fault (`leaves_or_faulty`), and the brackets
that a text leaves open are those grouping holds after it (`group_of_leaves`).
-/

namespace ScriptEngine

/-! ## pieces written out -/

/-- What the pieces keep of a token: its kind and, but for a closing bracket, its line. -/
def Token.shown (t : Token) : Tok × Option Nat :=
  (t.kind, if t.kind.isClose then none else some t.line)

namespace Piece

mutual
/-- A token, what stands below it, and the bracket that closes it. -/
def shown : Piece → List (Tok × Option Nat)
  | mk k line ps => (k, some line) :: (shownAll ps ++ (k.closer?.map fun c => (c, none)).toList)
def shownAll : List Piece → List (Tok × Option Nat)
  | [] => []
  | p :: ps => shown p ++ shownAll ps
end

theorem shownAll_append (ps qs : List Piece) : shownAll (ps ++ qs) = shownAll ps ++ shownAll qs := by
  induction ps with
  | nil => rfl
  | cons p ps ih => rw [List.cons_append, shownAll, shownAll, ih, List.append_assoc]

end Piece

theorem Tok.isClose_of_closer {o c : Tok} (h : o.closer? = some c) : c.isClose = true := by
  cases o <;> simp [closer?] at h <;> subst h <;> rfl

theorem Tok.isOpen_eq_false_of_isClose {k : Tok} (h : k.isClose = true) : k.isOpen = false := by
  cases k <;> simp [isClose] at h <;> rfl

theorem Tok.closer_of_not_isOpen {k : Tok} (h : k.isOpen = false) : k.closer? = none := by
  rw [isOpen_iff_closer] at h
  simpa using h

namespace Bracket

/-! ## nested texts -/

/-- Every bracket is closed by one of its own kind. -/
inductive Nested : List Token → Prop
  | nil : Nested []
  | token {t : Token} {ts : List Token} (hopen : t.kind.isOpen = false) (hclose : t.kind.isClose = false)
    (hts : Nested ts) : Nested (t :: ts)
  | group {o c : Token} {ts us : List Token} (hc : o.kind.closer? = some c.kind) (hts : Nested ts)
    (hus : Nested us) : Nested (o :: (ts ++ c :: us))

/-- The brackets that a text leaves open, innermost first. -/
inductive Leaves : List Token → List Token → Prop
  | nested {ts : List Token} (hts : Nested ts) : Leaves ts []
  | opened {front os ts : List Token} {o : Token} (h : Leaves front os) (ho : o.kind.isOpen = true)
    (hts : Nested ts) : Leaves (front ++ o :: ts) (o :: os)

def opens (ts : List Token) : Nat := ts.countP fun t => t.kind.isOpen

def closes (ts : List Token) : Nat := ts.countP fun t => t.kind.isClose

/-- Nowhere in the text are more than `n` brackets open. -/
def Within (n : Nat) (ts : List Token) : Prop := ∀ front, front <+: ts → opens front ≤ closes front + n

/-- The first fault of a token list: what stands before it leaves brackets open within the limit and
the token there does not go on from it, or nothing is left to close the innermost open bracket. -/
inductive Faulty : List Token → CompileError → Prop
  | unmatched {front back : List Token} {t : Token} (hfront : Leaves front []) (hin : Within maxNesting front)
    (ht : t.kind.isClose = true) : Faulty (front ++ t :: back) { line := t.line, fault := .unmatchedCloser }
  | mismatched {front back os : List Token} {o t : Token} (hfront : Leaves front (o :: os))
    (hin : Within maxNesting front) (ht : t.kind.isClose = true) (hkind : o.kind.closer? ≠ some t.kind) :
    Faulty (front ++ t :: back) { line := t.line, fault := .mismatchedBracket }
  | tooDeep {front back os : List Token} {t : Token} (hfront : Leaves front os)
    (hin : Within maxNesting front) (ht : t.kind.isOpen = true) (hmany : os.length = maxNesting) :
    Faulty (front ++ t :: back) { line := t.line, fault := .tooDeep }
  | unterminated {ts os : List Token} {o : Token} (hts : Leaves ts (o :: os)) (hin : Within maxNesting ts) :
    Faulty ts { line := o.line, fault := .unterminatedBracket }

theorem Nested.append {ts us : List Token} (hts : Nested ts) (hus : Nested us) : Nested (ts ++ us) := by
  induction hts with
  | nil => exact hus
  | token hopen hclose _ ih => exact .token hopen hclose ih
  | @group o c ts vs hc hts _ _ ih =>
    have h : Nested (o :: (ts ++ c :: (vs ++ us))) := .group hc hts ih
    simpa using h

theorem Leaves.append {front os ts : List Token} (h : Leaves front os) (hts : Nested ts) :
    Leaves (front ++ ts) os := by
  cases h with
  | nested h => exact .nested (h.append hts)
  | opened h ho h' =>
    rw [List.append_assoc, List.cons_append]
    exact .opened h ho (h'.append hts)

theorem Leaves.close {front os : List Token} {o c : Token} (h : Leaves front (o :: os))
    (hc : o.kind.closer? = some c.kind) : Leaves (front ++ [c]) os := by
  cases h with
  | @opened front _ ts _ h ho hts =>
    have hgroup : Leaves (front ++ (o :: (ts ++ [c]))) os := h.append (.group hc hts .nil)
    simpa using hgroup

/-! ## counting -/

section

variable {n : Nat} {ts us front os : List Token}

@[simp] theorem opens_nil : opens [] = 0 := rfl

@[simp] theorem closes_nil : closes [] = 0 := rfl

@[simp] theorem opens_append (ts us : List Token) : opens (ts ++ us) = opens ts + opens us :=
  List.countP_append

@[simp] theorem closes_append (ts us : List Token) : closes (ts ++ us) = closes ts + closes us :=
  List.countP_append

@[simp] theorem opens_cons (t : Token) (ts : List Token) :
    opens (t :: ts) = opens ts + if t.kind.isOpen then 1 else 0 := List.countP_cons

@[simp] theorem closes_cons (t : Token) (ts : List Token) :
    closes (t :: ts) = closes ts + if t.kind.isClose then 1 else 0 := List.countP_cons

theorem isOpen_of_closer {o c : Token} (hc : o.kind.closer? = some c.kind) : o.kind.isOpen = true := by
  rw [Tok.isOpen_iff_closer, hc]
  rfl

theorem isClose_of_isOpen {o : Token} (ho : o.kind.isOpen = true) : o.kind.isClose = false := by
  cases h : o.kind.isClose with
  | false => rfl
  | true =>
    rw [Tok.isOpen_eq_false_of_isClose h] at ho
    exact nomatch ho

/-- A nested text closes as many brackets as it opens. -/
theorem Nested.opens_eq (h : Nested ts) : opens ts = closes ts := by
  induction h with
  | nil => rfl
  | token hopen hclose _ ih => simp [hopen, hclose, ih]
  | group hc _ _ ih ih' =>
    have ho := isOpen_of_closer hc
    have hclose := Tok.isClose_of_closer hc
    simp [ho, isClose_of_isOpen ho, hclose, Tok.isOpen_eq_false_of_isClose hclose, ih, ih']
    omega

theorem Leaves.opens_eq (h : Leaves front os) : opens front = closes front + os.length := by
  induction h with
  | nested hts => simpa using hts.opens_eq
  | opened _ ho hts ih =>
    simp only [opens_append, closes_append, opens_cons, closes_cons, ho, isClose_of_isOpen ho, ih, hts.opens_eq,
      List.length_cons, if_true, Bool.false_eq_true, if_false]
    omega

theorem Within.left (h : Within n (ts ++ us)) : Within n ts := fun front hfront =>
  h front (hfront.trans (List.prefix_append ts us))

/-- The text behind another one has as much room as that one leaves. -/
theorem Within.right {m : Nat} (ts : List Token) (h : Within n (ts ++ us)) (hm : closes ts + n ≤ opens ts + m) : Within m us := by
  intro front hfront
  have h' := h (ts ++ front) ((List.prefix_append_right_inj ts).mpr hfront)
  rw [opens_append, closes_append] at h'
  omega

/-- A token more is within the limit if the text with it is. -/
theorem Within.concat (h : Within n ts) {t : Token} (ht : opens (ts ++ [t]) ≤ closes (ts ++ [t]) + n) :
    Within n (ts ++ [t]) := by
  intro front hfront
  rcases List.prefix_concat_iff.mp hfront with rfl | hfront
  · exact ht
  · exact h front hfront

end

/-! ## grouping follows the open brackets -/

/-- Grouping goes over a nested text within the limit and stays on its level. -/
theorem group_of_nested {ts : List Token} (h : Nested ts) (opened : List Open) {n : Nat} (hin : Within n ts)
    (hn : opened.length + n ≤ maxNesting) (level : List Piece) :
    ∃ level', ∀ rest, group (ts ++ rest) opened level = group rest opened level' := by
  induction h generalizing opened n level with
  | nil => exact ⟨level, fun rest => rfl⟩
  | @token t ts hopen hclose _ ih =>
    have hts : Within n ts := Within.right [t] hin (by simp [hopen, hclose])
    obtain ⟨level', h⟩ := ih opened hts hn (Piece.leaf t :: level)
    refine ⟨level', fun rest => ?_⟩
    rw [← h rest]
    simp [group, hopen, hclose]
  | @group o c ts us hc hts _ ih ih' =>
    have ho := isOpen_of_closer hc
    have hclose := Tok.isClose_of_closer hc
    have hopens : 1 ≤ n := by simpa [ho, isClose_of_isOpen ho] using hin [o] ⟨ts ++ c :: us, rfl⟩
    have hin' : Within (n - 1) ts :=
      Within.left (Within.right [o] hin (by simp [ho, isClose_of_isOpen ho]; omega))
    have hin'' : Within n us := by
      apply Within.right (o :: ts ++ [c]) (by simpa using hin)
      simp [ho, isClose_of_isOpen ho, hclose, Tok.isOpen_eq_false_of_isClose hclose, hts.opens_eq]
    obtain ⟨inner, h⟩ := ih (⟨o, level⟩ :: opened) hin' (by simp; omega) []
    obtain ⟨level', h'⟩ := ih' opened hin'' hn (.mk o.kind o.line inner.reverse :: level)
    refine ⟨level', fun rest => ?_⟩
    have hroom : ¬ maxNesting ≤ opened.length := by omega
    calc group ((o :: (ts ++ c :: us)) ++ rest) opened level
        = group (ts ++ c :: (us ++ rest)) (⟨o, level⟩ :: opened) [] := by simp [group, ho, hroom]
      _ = group (c :: (us ++ rest)) (⟨o, level⟩ :: opened) inner := h _
      _ = group (us ++ rest) opened (.mk o.kind o.line inner.reverse :: level) := by
        simp [group, hclose, Tok.isOpen_eq_false_of_isClose hclose, hc]
      _ = group rest opened level' := h' rest

/-- **What a text leaves open is what grouping holds after it.** -/
theorem group_of_leaves {front os : List Token} (h : Leaves front os) (hin : Within maxNesting front) :
    ∃ opened level, opened.map Open.token = os ∧ ∀ rest, bracket (front ++ rest) = group rest opened level := by
  induction h with
  | nested hts =>
    obtain ⟨level, h⟩ := group_of_nested hts [] hin (by simp) []
    exact ⟨[], level, rfl, h⟩
  | @opened front os ts o hfront ho hts ih =>
    obtain ⟨opened, level, rfl, h⟩ := ih hin.left
    have hlen := hfront.opens_eq
    rw [List.length_map] at hlen
    have hin' : Within maxNesting ((front ++ [o]) ++ ts) := by simpa using hin
    have hroom : opened.length + 1 ≤ maxNesting := by
      have hle := hin' (front ++ [o]) (List.prefix_append _ _)
      simp [ho, isClose_of_isOpen ho] at hle
      omega
    have hin'' : Within (maxNesting - (opened.length + 1)) ts := by
      apply Within.right (front ++ [o]) hin'
      simp [ho, isClose_of_isOpen ho]
      omega
    obtain ⟨inner, h'⟩ := group_of_nested hts (⟨o, level⟩ :: opened) hin'' (by simp; omega) []
    refine ⟨⟨o, level⟩ :: opened, inner, rfl, fun rest => ?_⟩
    have hdeep : ¬ maxNesting ≤ opened.length := by omega
    calc bracket ((front ++ o :: ts) ++ rest) = bracket (front ++ o :: (ts ++ rest)) := by simp
      _ = group (o :: (ts ++ rest)) opened level := h _
      _ = group (ts ++ rest) (⟨o, level⟩ :: opened) [] := by simp [group, ho, hdeep]
      _ = group rest (⟨o, level⟩ :: opened) inner := h' rest

theorem bracket_of_nested {ts : List Token} (h : Nested ts) (hin : Within maxNesting ts) :
    ∃ ps, bracket ts = .ok ps := by
  obtain ⟨opened, level, hopened, hgroup⟩ := group_of_leaves (.nested h) hin
  rw [List.map_eq_nil_iff] at hopened
  refine ⟨level.reverse, ?_⟩
  rw [← List.append_nil ts, hgroup, hopened]
  rfl

theorem bracket_of_faulty {ts : List Token} {e : CompileError} (h : Faulty ts e) : bracket ts = .error e := by
  cases h with
  | unmatched hfront hin ht =>
    obtain ⟨opened, level, hopened, hgroup⟩ := group_of_leaves hfront hin
    rw [List.map_eq_nil_iff] at hopened
    rw [hgroup, hopened]
    simp [group, ht, Tok.isOpen_eq_false_of_isClose ht, faultAt]
  | mismatched hfront hin ht hkind =>
    obtain ⟨opened, level, hopened, hgroup⟩ := group_of_leaves hfront hin
    obtain ⟨o, opened, rfl, rfl, -⟩ := List.map_eq_cons_iff.mp hopened
    rw [hgroup]
    simp [group, ht, Tok.isOpen_eq_false_of_isClose ht, hkind, faultAt]
  | tooDeep hfront hin ht hmany =>
    obtain ⟨opened, level, rfl, hgroup⟩ := group_of_leaves hfront hin
    rw [List.length_map] at hmany
    rw [hgroup]
    simp [group, ht, hmany, faultAt]
  | unterminated hts hin =>
    obtain ⟨opened, level, hopened, hgroup⟩ := group_of_leaves hts hin
    obtain ⟨o, opened, rfl, rfl, -⟩ := List.map_eq_cons_iff.mp hopened
    rw [← List.append_nil ts, hgroup]
    rfl

/-! ## every text is nested or has a fault -/

theorem nested_or_faulty_from {front os : List Token} (h : Leaves front os) (hin : Within maxNesting front)
    (ts : List Token) : Nested (front ++ ts) ∧ Within maxNesting (front ++ ts) ∨ ∃ e, Faulty (front ++ ts) e := by
  induction ts generalizing front os with
  | nil =>
    rw [List.append_nil]
    cases h with
    | nested h => exact .inl ⟨h, hin⟩
    | opened h ho hts => exact .inr ⟨_, .unterminated (.opened h ho hts) hin⟩
  | cons t ts ih =>
    have hcount := h.opens_eq
    have hnext {os' : List Token} (h' : Leaves (front ++ [t]) os') (hin' : Within maxNesting (front ++ [t])) :
        Nested (front ++ t :: ts) ∧ Within maxNesting (front ++ t :: ts) ∨ ∃ e, Faulty (front ++ t :: ts) e := by
      simpa using ih h' hin'
    have hle := hin front (List.prefix_refl front)
    cases ho : t.kind.isOpen with
    | true =>
      by_cases hmany : os.length = maxNesting
      · exact .inr ⟨_, .tooDeep h hin ho hmany⟩
      · refine hnext (.opened h ho .nil) (hin.concat ?_)
        simp [ho, isClose_of_isOpen ho]
        omega
    | false =>
      have hin' : Within maxNesting (front ++ [t]) := by
        apply hin.concat
        simp [ho]
        omega
      cases hc : t.kind.isClose with
      | false => exact hnext (h.append (.token ho hc .nil)) hin'
      | true =>
        cases os with
        | nil => exact .inr ⟨_, .unmatched h hin hc⟩
        | cons o os =>
          by_cases hkind : o.kind.closer? = some t.kind
          · exact hnext (h.close hkind) hin'
          · exact .inr ⟨_, .mismatched h hin hc hkind⟩

/-- A text is properly nested within the limit, or it has a first fault. -/
theorem nested_or_faulty (ts : List Token) : Nested ts ∧ Within maxNesting ts ∨ ∃ e, Faulty ts e := by
  have hin : Within maxNesting [] := by
    intro front hfront
    rw [List.prefix_nil.mp hfront]
    simp
  exact nested_or_faulty_from (.nested .nil) hin ts

/-! ## what grouping keeps -/

/-- The tokens read so far: those before an open bracket, the bracket, and those of its level. -/
def shownOpen : List Open → List Piece → List (Tok × Option Nat)
  | [], level => Piece.shownAll level.reverse
  | o :: opened, level =>
    shownOpen opened o.before ++ (o.token.kind, some o.token.line) :: Piece.shownAll level.reverse

theorem shownOpen_cons (opened : List Open) (p : Piece) (level : List Piece) :
    shownOpen opened (p :: level) = shownOpen opened level ++ p.shown := by
  cases opened <;> simp [shownOpen, Piece.shownAll_append, Piece.shownAll]

theorem shown_of_group {ts : List Token} {opened : List Open} {level ps : List Piece}
    (h : group ts opened level = .ok ps) :
    Piece.shownAll ps = shownOpen opened level ++ ts.map Token.shown := by
  fun_induction group ts opened level with
  | case1 level =>
    cases h
    simp [shownOpen]
  | case2 o opened level => exact nomatch h
  | case3 t ts opened level ho hdeep => exact nomatch h
  | case4 t ts opened level ho hdeep ih =>
    rw [ih h]
    simp [shownOpen, Piece.shownAll, Token.shown, isClose_of_isOpen ho]
  | case5 t ts level ho hc => exact nomatch h
  | case6 t ts level ho hc o opened hkind ih =>
    rw [ih h, shownOpen_cons, Piece.shown, eq_of_beq hkind]
    simp [shownOpen, Token.shown, hc]
  | case7 t ts level ho hc o opened hkind => exact nomatch h
  | case8 t ts opened level ho hc ih =>
    rw [ih h, shownOpen_cons, Piece.leaf, Piece.shown, Tok.closer_of_not_isOpen (by simpa using ho)]
    simp [Piece.shownAll, Token.shown, hc]

end Bracket

/-- **Grouping succeeds exactly on the properly nested lists with at most `maxNesting` brackets open at
once, the forest written out is the list again, and any other list is refused at its first fault.** -/
theorem bracket_spec (ts : List Token) :
    ((∃ ps, bracket ts = .ok ps) ↔ Bracket.Nested ts ∧ Bracket.Within maxNesting ts) ∧
      (∀ ps, bracket ts = .ok ps → Piece.shownAll ps = ts.map Token.shown) ∧
      ∀ e, bracket ts = .error e ↔ Bracket.Faulty ts e := by
  refine ⟨⟨?_, ?_⟩, ?_, fun e => ⟨?_, Bracket.bracket_of_faulty⟩⟩
  · rintro ⟨ps, hps⟩
    rcases Bracket.nested_or_faulty ts with h | ⟨e, he⟩
    · exact h
    · rw [Bracket.bracket_of_faulty he] at hps
      exact nomatch hps
  · rintro ⟨h, hin⟩
    exact Bracket.bracket_of_nested h hin
  · intro ps hps
    have h := Bracket.shown_of_group hps
    simpa [Bracket.shownOpen, Piece.shownAll] using h
  · intro herror
    rcases Bracket.nested_or_faulty ts with ⟨h, hin⟩ | ⟨e', he'⟩
    · obtain ⟨ps, hps⟩ := Bracket.bracket_of_nested h hin
      rw [hps] at herror
      exact nomatch herror
    · have hsame := Bracket.bracket_of_faulty he'
      rw [herror] at hsame
      cases hsame
      exact he'

end ScriptEngine
