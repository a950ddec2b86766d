import ScriptEngine.Proofs.Grammar.Climbing
import ScriptEngine.Proofs.Grammar.Leaves
import ScriptEngine.Proofs.Grammar.Prefixes

/-!
# Reading signed operands

An expression over signed operands in which no `-` stands directly behind a `!` is read as its tree: the
operators before a name bind more tightly than every operator between operands, and nest in the order in
which they are written.  A `-` behind a `!` is taken for an operator between operands, so that nothing is
left for the `!` to stand before, and no text with one is read.

* `Fronted`           rows in which only the first piece may be a minus before its operand;
* `row_of_clear`      reading the row of an expression without a `-` behind a `!`;
* `Splits`            the parts of a row that has been read;
* `Bad`               rows with a `-` behind a `!`, at any depth of parentheses;
* `row_of_bad`        no such row is read;
* `parse_signed`      **which signed expressions are read, and as what.**
-/

namespace ScriptEngine.Precedence

/-! ## rows without misread signs -/

theorem leads_minus : Leads prefixLevel .minus := by
  intro lv hlv
  simp only [prefixLevel, levels, List.take_succ_cons, List.take_zero, List.mem_cons, List.not_mem_nil,
    or_false] at hlv
  rcases hlv with rfl | rfl | rfl | rfl | rfl | rfl | rfl | rfl | rfl | rfl | rfl | rfl <;> simp [Level.has]

theorem above_minus : Above 10 .minus := by
  unfold Above
  decide +kernel

theorem above_prefixLevel {k : Tok} (hk : k = .neg ∨ k = .not) : Above prefixLevel k := by
  unfold Above
  rcases hk with rfl | rfl <;> decide +kernel

/-- Nothing in the row binds more loosely than the level, but for a minus at its front where none can only
be a sign. -/
inductive Fronted (n : Nat) (sign : Bool) : List Piece → Prop
  | intro {first : Piece} {tail : List Piece} (hleads : Leads n first.kind)
    (hfirst : Above n first.kind ∨ first.kind = .minus ∧ sign = false)
    (htail : ∀ p ∈ tail, Above n p.kind) : Fronted n sign (first :: tail)

theorem Fronted.mono {m n : Nat} {sign : Bool} {ps : List Piece} (h : Fronted n sign ps) (hmn : m ≤ n) :
    Fronted m sign ps := by
  cases h with
  | intro hleads hfirst htail =>
    exact .intro (hleads.mono hmn) (hfirst.imp_left (·.mono hmn)) fun p hp => (htail p hp).mono hmn

/-- A minus at the front is no operator of the levels before the tenth. -/
theorem Fronted.above {n : Nat} {sign : Bool} {ps : List Piece} (h : Fronted n sign ps)
    (hn : sign = true ∨ n ≤ 10) : ∀ p ∈ ps, Above n p.kind := by
  cases h with
  | intro hleads hfirst htail =>
    intro p hp
    rcases List.mem_cons.mp hp with rfl | hp
    · rcases hfirst with hfirst | ⟨hminus, hsign⟩
      · exact hfirst
      · rw [hminus]
        rcases hn with hn | hn
        · simp [hsign] at hn
        · exact above_minus.mono hn
    · exact htail p hp

theorem Fronted.enclosed {e : Signed} {n : Nat} (hn : n ≤ chainLevel) (sign : Bool)
    (h : ∀ sign, Fronted e.level sign (e.row sign)) :
    Fronted n sign (Piece.enclosed (e.level < n) (e.row (sign && !(decide (e.level < n))))) := by
  by_cases hb : e.level < n
  · have hparen : Above n .lpar := (above_chain (by simp)).mono hn
    simp only [hb, decide_true, Piece.enclosed, if_true]
    exact .intro hparen.leads (.inl hparen) (by simp)
  · simp only [hb, decide_false, Piece.enclosed, Bool.not_false, Bool.and_true, Bool.false_eq_true, if_false]
    exact (h sign).mono (Nat.le_of_not_lt hb)

theorem not_infix_tail {p : Prefix} {ps : List Prefix} (h : ¬ [Prefix.not, .minus] <:+: p :: ps) :
    ¬ [Prefix.not, .minus] <:+: ps := fun hps => h (List.infix_cons hps)

/-- Where no `-` stands directly behind a `!`, every `-` but one at the front is a sign. -/
theorem kinds_of_clear {ps : List Prefix} (hps : ¬ [Prefix.not, .minus] <:+: ps) {sign : Bool}
    (hsign : sign = true ∨ ps.head? ≠ some .minus) : ∀ k ∈ Prefix.kinds sign ps, k = .neg ∨ k = .not := by
  induction ps generalizing sign with
  | nil => exact fun k hk => nomatch hk
  | cons p ps ih =>
    intro k hk
    rw [Prefix.kinds, List.mem_cons] at hk
    cases p with
    | minus =>
      have htrue : sign = true := by simpa using hsign
      rcases hk with rfl | hk
      · simp [Prefix.kind, htrue]
      · exact ih (not_infix_tail hps) (.inl rfl) k hk
    | not =>
      rcases hk with rfl | hk
      · simp [Prefix.kind]
      · refine ih (not_infix_tail hps) (.inr fun hhead => hps ?_) k hk
        obtain ⟨more, rfl⟩ := List.head?_eq_some_iff.mp hhead
        exact ⟨[], more, rfl⟩

theorem fronted_operand {ps : List Prefix} {s : Name} (hc : (Signed.operand ps s).Clear) (sign : Bool) :
    Fronted (Signed.operand ps s).level sign (Signed.row sign (.operand ps s)) := by
  cases ps with
  | nil => exact .intro (above_symbol s).leads (.inl (above_symbol s)) nofun
  | cons p ps =>
    rw [Signed.Clear] at hc
    have hname : Above prefixLevel (.symbol s) := (above_symbol s).mono (by decide)
    have hfirst : Leads prefixLevel (p.kind sign) ∧
        (Above prefixLevel (p.kind sign) ∨ p.kind sign = .minus ∧ sign = false) := by
      cases p with
      | minus =>
        cases sign with
        | false => exact ⟨leads_minus, .inr ⟨rfl, rfl⟩⟩
        | true => exact ⟨(above_prefixLevel (.inl rfl)).leads, .inl (above_prefixLevel (.inl rfl))⟩
      | not => exact ⟨(above_prefixLevel (.inr rfl)).leads, .inl (above_prefixLevel (.inr rfl))⟩
    refine .intro hfirst.1 hfirst.2 ?_
    intro q hq
    rcases List.mem_append.mp hq with hq | hq
    · obtain ⟨k, hk, rfl⟩ := List.mem_map.mp hq
      have hhead : (p == Prefix.minus) = true ∨ ps.head? ≠ some .minus := by
        cases p with
        | minus => exact .inl rfl
        | not =>
          right
          intro hhead
          obtain ⟨more, rfl⟩ := List.head?_eq_some_iff.mp hhead
          exact hc ⟨[], more, rfl⟩
      exact above_prefixLevel (kinds_of_clear (not_infix_tail hc) hhead k hk)
    · obtain rfl := List.mem_singleton.mp hq
      exact hname

theorem beforeSign_or_level_le (op : Operator) : op.kind.beforeSign = true ∨ op.rightLevel ≤ 10 := by
  cases op <;> decide

theorem fronted_row (e : Signed) (hc : e.Clear) (sign : Bool) : Fronted e.level sign (e.row sign) := by
  induction e generalizing sign with
  | operand ps s => exact fronted_operand hc sign
  | apply op left right ihl ihr =>
    have hleft := Fronted.enclosed (leftLevel_bounds op).2 sign (ihl hc.1)
    have hright := (Fronted.enclosed (rightLevel_bounds op).2 op.kind.beforeSign (ihr hc.2)).above
      (beforeSign_or_level_le op)
    rw [Signed.row, Signed.leftEnclosed, Signed.rightEnclosed]
    generalize Piece.enclosed _ _ = ps at hleft ⊢
    cases hleft.mono (leftLevel_bounds op).1 with
    | intro hleads hfirst htail =>
      refine .intro hleads hfirst ?_
      intro p hp
      rw [List.append_eq, List.mem_append, List.mem_cons] at hp
      rcases hp with hp | rfl | hp
      · exact htail p hp
      · exact above_operator op
      · exact (hright p hp).mono (rightLevel_bounds op).1

/-! ## reading -/

section

variable {row : List Piece → Nat → Nat → Except CompileError Tree}

theorem operand_ok {ps : List Piece} {n : Nat} {op : Piece} {t u : Tree} (h : row ps n op.line = .ok t)
    (ht : t.unlined = u) (hu : u.kind ≠ .empty) : operand row ps n op = .ok t := by
  have hkind : t.isEmpty = false := by
    rw [← ht, Tree.kind_unlined] at hu
    simpa [Tree.isEmpty] using hu
  simp [operand, h, hkind, Bind.bind, Except.bind]

end

theorem tree_kind_ne (e : Signed) (sign : Bool) : (e.tree sign).kind ≠ .empty := by
  cases e with
  | operand ps s =>
    cases ps with
    | nil => simp [Signed.tree, Prefix.kinds, Tree.kind]
    | cons p ps => cases p <;> cases sign <;> simp [Signed.tree, Prefix.kinds, Prefix.kind, Tree.kind]
  | apply op left right => cases op <;> simp [Signed.tree, Tree.kind, Operator.kind]

/-- The row of an expression, or the row in parentheses, is read within a budget of `d`. -/
def ReadsAs (e : Signed) (d : Nat) : Prop := ∀ {sign : Bool} {ps : List Piece} {level : Nat} (line : Nat),
  ps.map Piece.unlined = e.row sign → level ≤ e.level →
    ∃ t, row d ps level line = .ok t ∧ t.unlined = e.tree sign

theorem readsAs_operand (ps : List Prefix) (s : Name) (hc : (Signed.operand ps s).Clear) {d : Nat}
    (hd : ps.length < d) : ReadsAs (.operand ps s) d := by
  induction ps generalizing d with
  | nil =>
    intro sign qs level line hqs hlevel
    obtain ⟨d, rfl⟩ := Nat.exists_eq_succ_of_ne_zero (Nat.ne_of_gt (Nat.zero_lt_of_lt hd))
    obtain ⟨p, rfl, hp⟩ := List.map_eq_singleton_iff.mp hqs
    have hkind : p.kind = .symbol s := Piece.kind_of_unlined hp
    refine ⟨.mk (.symbol s) p.line [], ?_, by simp [Signed.tree, Prefix.kinds]⟩
    rw [Precedence.row, climb, hkind, atom_symbol hp]
    rfl
  | cons k ks ih =>
    intro sign qs level line hqs hlevel
    obtain ⟨d, rfl⟩ := Nat.exists_eq_succ_of_ne_zero (Nat.ne_of_gt (Nat.zero_lt_of_lt hd))
    have hfront := fronted_operand hc sign
    obtain ⟨first, tail, rfl, hfirst, htail⟩ := List.map_eq_cons_iff.mp hqs
    have hkind : first.kind = k.kind sign := Piece.kind_of_unlined hfirst
    have hne : tail ≠ [] := by
      rintro rfl
      simp at htail
    have hle : prefixLevel ≤ (Signed.operand ks s).level := by
      cases ks <;> simp [Signed.level, prefixLevel, chainLevel]
    obtain ⟨t, ht, htree⟩ := ih (fun h => hc (List.infix_cons h)) (Nat.lt_of_succ_lt_succ hd) first.line
      htail hle
    refine ⟨node first [t], ?_, by simp [node, hkind, htree, Signed.tree, Prefix.kinds]⟩
    have hoperand := operand_ok ht htree (tree_kind_ne _ _)
    have hat : atLevel (row d) (atom (row d) (elseIf d)) prefixLevel ⟨[.minus, .neg, .not], .before⟩ first
        tail = some (.ok (node first [t])) := by
      cases k <;> cases sign <;>
        simp [atLevel, Level.has, hkind, Prefix.kind, hoperand, Bind.bind, Except.bind]
    cases hfront with
    | intro hleads _ habove =>
      rw [Precedence.row]
      refine climb_eq line hne hlevel (show prefixLevel ≤ chainLevel by decide) (hkind ▸ hleads) ?_ rfl hat
      exact above_of_unlined htail habove

theorem ReadsAs.enclosed {e : Signed} {d n : Nat} (h : ∀ d, e.need ≤ d → ReadsAs e d)
    (hd : e.need + (decide (e.level < n)).toNat ≤ d) {sign : Bool} {ps : List Piece} (line : Nat)
    (hps : ps.map Piece.unlined =
      Piece.enclosed (e.level < n) (e.row (sign && !(decide (e.level < n))))) :
    ∃ t, row d ps n line = .ok t ∧ t.unlined = e.tree (sign && !(decide (e.level < n))) := by
  by_cases hb : e.level < n
  · simp only [hb, decide_true, Bool.toNat_true, Piece.enclosed, if_true] at hd hps ⊢
    obtain ⟨d, rfl⟩ := Nat.exists_eq_succ_of_ne_zero (show d ≠ 0 by omega)
    obtain ⟨p, rfl, hp⟩ := List.map_eq_singleton_iff.mp hps
    have hkind : p.kind = .lpar := Piece.kind_of_unlined hp
    obtain ⟨t, ht, htree⟩ := h d (by omega) p.line (Piece.inner_of_unlined hp) (Nat.zero_le _)
    refine ⟨t, ?_, htree⟩
    simp [Precedence.row, climb, hkind, Tok.isAtom, atom, inside, ht]
  · simp only [hb, decide_false, Bool.toNat_false, Piece.enclosed, Bool.not_false, Bool.and_true,
      Bool.false_eq_true, if_false] at hd hps ⊢
    exact h d hd line hps (Nat.le_of_not_lt hb)

/-- **Reading the row of an expression** in which no `-` stands directly behind a `!`. -/
theorem row_of_clear (e : Signed) (hc : e.Clear) {d : Nat} (hd : e.need ≤ d) : ReadsAs e d := by
  induction e generalizing d with
  | operand ps s => exact readsAs_operand ps s hc hd
  | apply op left right ihl ihr =>
    intro sign qs level line hqs hlevel
    rw [Signed.need] at hd
    obtain ⟨d, rfl⟩ := Nat.exists_eq_succ_of_ne_zero (show d ≠ 0 by omega)
    rw [Signed.row, List.map_eq_append_iff] at hqs
    obtain ⟨front, _, rfl, hfront, hqs⟩ := hqs
    obtain ⟨p, back, rfl, hp, hback⟩ := List.map_eq_cons_iff.mp hqs
    have hkind : p.kind = op.kind := Piece.kind_of_unlined hp
    have hright := above_of_unlined hback
      ((Fronted.enclosed (rightLevel_bounds op).2 op.kind.beforeSign (fronted_row right hc.2)).above
        (beforeSign_or_level_le op))
    have hleft := Fronted.enclosed (leftLevel_bounds op).2 sign (fronted_row left hc.1)
    obtain ⟨t, ht, htree⟩ := ReadsAs.enclosed (fun d hd => ihl hc.1 hd)
      (show left.need + _ ≤ d by rw [Signed.leftEnclosed, Signed.rightEnclosed] at hd; omega) p.line hfront
    obtain ⟨u, hu, hutree⟩ := ReadsAs.enclosed (fun d hd => ihr hc.2 hd)
      (show right.need + _ ≤ d by rw [Signed.leftEnclosed, Signed.rightEnclosed] at hd; omega) p.line hback
    refine ⟨node p [t, u], ?_, by simp [node, hkind, htree, hutree, Signed.tree, Signed.leftEnclosed,
      Signed.rightEnclosed]⟩
    rw [← Signed.leftEnclosed] at hleft
    rw [← hfront] at hleft
    generalize hfs : front.map Piece.unlined = fs at hleft
    cases hleft with
    | @intro first tail hleads _ htail =>
      obtain ⟨first, tail, rfl, rfl, rfl⟩ := List.map_eq_cons_iff.mp hfs
      rw [Precedence.row, climb_apply line hlevel hkind (Piece.kind_of_unlined rfl ▸ hleads)
        (above_of_unlined rfl htail) hright]
      split
      · simp [ht, hu, Bind.bind, Except.bind]
      · rw [operand_ok ht htree (tree_kind_ne _ _), operand_ok hu hutree (tree_kind_ne _ _)]
        rfl

/-! ## parts of a row that is read -/

/-- The kinds in the rows of signed expressions. -/
def inSigned : Tok → Bool
  | .assign | .plusEq | .minusEq | .mulEq | .divEq | .catEq | .or | .and | .eq | .neq | .lt | .lte | .gt
  | .gte | .plus | .minus | .cat | .mul | .div | .neg | .not | .lpar | .symbol _ => true
  | _ => false

theorem has_inSigned {i : Nat} {lv : Level} (hlv : levels[i]? = some lv) {k : Tok} (hk : inSigned k = true)
    (hhas : lv.has k = true) :
    lv.rule = .fromLeft ∧ i = 3 ∧ k ≠ .not ∧ k ≠ .lpar ∨
      lv.rule = .fromRight ∧ i ≤ 11 ∧ k ≠ .not ∧ k ≠ .lpar ∨
      lv.rule = .before ∧ i = prefixLevel ∧ k ≠ .lpar ∨ lv.rule = .chain := by
  have hi : i < 15 := (List.getElem?_eq_some_iff.mp hlv).1
  simp only [Level.has, List.contains_eq_mem, decide_eq_true_eq] at hhas
  interval_cases i <;> simp only [levels, List.getElem?_cons_zero, List.getElem?_cons_succ,
    Option.some.injEq] at hlv <;> subst hlv <;>
    simp only [List.mem_cons, List.not_mem_nil, or_false] at hhas <;>
    rcases hhas with rfl | rfl | rfl | rfl | rfl | rfl <;> simp [inSigned, prefixLevel] at hk ⊢

theorem level_of_chain {i : Nat} {lv : Level} (hlv : levels[i]? = some lv) (h : lv.rule = .chain) :
    i = chainLevel := by
  have hi : i < 15 := (List.getElem?_eq_some_iff.mp hlv).1
  interval_cases i <;> simp only [levels, List.getElem?_cons_zero, List.getElem?_cons_succ,
    Option.some.injEq] at hlv <;> subst hlv <;> first | rfl | cases h

section

variable {row : List Piece → Nat → Nat → Except CompileError Tree}
  {value : Piece → Except CompileError Tree}

/-- The parts of a row that is read at the level `i`. -/
inductive Splits (row : List Piece → Nat → Nat → Except CompileError Tree) (i : Nat) : List Piece → Prop
  | between {front back : List Piece} {op : Piece} {m n l : Nat} {t u : Tree} (hi : i ≤ 11)
    (hop : op.kind ≠ .not ∧ op.kind ≠ .lpar) (hm : m ≤ i + 1) (hn : n ≤ i + 1)
    (hten : i = 10 → m = 10 ∧ ∀ p ∈ back, p.kind ≠ .minus) (hleft : row front m l = .ok t)
    (hright : row back n l = .ok u) : Splits row i (front ++ op :: back)
  | before {op : Piece} {tail : List Piece} {l : Nat} {t : Tree} (hi : i = prefixLevel)
    (hop : op.kind ≠ .lpar) (hright : row tail i l = .ok t) (hne : t.isEmpty = false) :
    Splits row i (op :: tail)
  | call {front : List Piece} {p : Piece} {n l : Nat} {t u : Tree} (hi : i = chainLevel) (hp : p.kind = .lpar)
    (hleft : row front n l = .ok t) (hinner : row p.inner 0 p.line = .ok u) : Splits row i (front ++ [p])

theorem ok_of_operand {ps : List Piece} {n : Nat} {op : Piece} {t : Tree} (h : operand row ps n op = .ok t) :
    row ps n op.line = .ok t ∧ t.isEmpty = false := by
  unfold operand at h
  cases hr : row ps n op.line with
  | error e =>
    rw [hr] at h
    exact nomatch h
  | ok u =>
    rw [hr] at h
    cases hu : u.isEmpty with
    | false =>
      simp only [Bind.bind, Except.bind, hu, Bool.false_eq_true, if_false, Except.ok.injEq] at h
      subst h
      exact ⟨rfl, hu⟩
    | true => simp [Bind.bind, Except.bind, hu, faultAt] at h

theorem bind_ok {α β : Type} {x : Except CompileError α} {f : α → Except CompileError β} {b : β}
    (h : x >>= f = .ok b) : ∃ a, x = .ok a ∧ f a = .ok b := by
  cases x with
  | ok a => exact ⟨a, rfl, h⟩
  | error e => exact nomatch h

section

variable {i : Nat} {lv : Level} (hlv : levels[i]? = some lv) {first : Piece} {tail : List Piece}
  (hall : ∀ p ∈ first :: tail, inSigned p.kind = true) {t : Tree}

include hlv hall in
/-- Neither a separator nor an ellipsis is among the tokens of expressions with signs. -/
theorem has_eq_false (hlist : lv.rule = .list ∨ lv.rule = .rest) : ∀ p ∈ first :: tail, lv.has p.kind = false := by
  intro p hp
  by_contra hop
  have hrules := has_inSigned hlv (hall p hp) (by simpa using hop)
  rcases hlist with h | h <;> simp [h] at hrules

include hlv hall in
theorem splits_of_fromLeft (hrule : lv.rule = .fromLeft) (h : atLevel row value i lv first tail = some (.ok t)) :
    Splits row i (first :: tail) := by
  unfold atLevel at h
  simp only [hrule] at h
  obtain ⟨⟨front, op, back⟩, hsplit, h⟩ := Option.map_eq_some_iff.mp h
  obtain ⟨hps, hop, -⟩ := splitFirst?_eq_some hsplit
  have hmem : op ∈ first :: tail := by simp [hps]
  obtain ⟨u, hu, h⟩ := bind_ok h
  obtain ⟨v, hv, -⟩ := bind_ok h
  rcases has_inSigned hlv (hall op hmem) hop with ⟨-, rfl, hkind⟩ | ⟨hr, -⟩ | ⟨hr, -⟩ | hr
  · rw [hps]
    exact .between (by decide) hkind (Nat.le_refl _) (Nat.le_succ _) (fun h => absurd h (by decide)) hu hv
  all_goals simp [hrule] at hr

include hlv hall in
theorem splits_of_fromRight (hrule : lv.rule = .fromRight) (h : atLevel row value i lv first tail = some (.ok t)) :
    Splits row i (first :: tail) := by
  unfold atLevel at h
  simp only [hrule] at h
  obtain ⟨⟨front, op, back⟩, hsplit, h⟩ := Option.map_eq_some_iff.mp h
  obtain ⟨hps, hop, hback⟩ := splitLast?_eq_some hsplit
  have hmem : op ∈ first :: tail := by simp [hps]
  obtain ⟨u, hu, h⟩ := bind_ok h
  obtain ⟨v, hv, -⟩ := bind_ok h
  rcases has_inSigned hlv (hall op hmem) hop with ⟨hr, -⟩ | ⟨-, hi, hkind⟩ | ⟨hr, -⟩ | hr
  · simp [hrule] at hr
  · rw [hps, ← List.cons_append]
    refine .between hi hkind (Nat.le_succ _) (Nat.le_refl _) ?_ (ok_of_operand hu).1 (ok_of_operand hv).1
    rintro rfl
    refine ⟨rfl, fun p hp hminus => ?_⟩
    have hnot := hback p hp
    simp only [levels, List.getElem?_cons_zero, List.getElem?_cons_succ, Option.some.injEq] at hlv
    simp [← hlv, hminus, Level.has] at hnot
  all_goals simp [hrule] at hr

include hlv hall in
theorem splits_of_before (hrule : lv.rule = .before) (h : atLevel row value i lv first tail = some (.ok t)) :
    Splits row i (first :: tail) := by
  have hfirst := hall first List.mem_cons_self
  unfold atLevel at h
  simp only [hrule] at h
  split at h
  · rename_i hop
    rcases has_inSigned hlv hfirst hop with ⟨hr, -⟩ | ⟨hr, -⟩ | ⟨-, hi, hkind⟩ | hr
    · simp [hrule] at hr
    · simp [hrule] at hr
    · have h := Option.some.inj h
      split at h
      · rename_i hword
        simp [hword, inSigned] at hfirst
      · rename_i hword
        simp [hword, inSigned] at hfirst
      · rename_i hword
        simp [hword, inSigned] at hfirst
      · obtain ⟨u, hu, -⟩ := bind_ok h
        exact .before hi hkind (ok_of_operand hu).1 (ok_of_operand hu).2
    · simp [hrule] at hr
  · cases h

include hlv hall in
theorem splits_of_chain (hrule : lv.rule = .chain) (h : atLevel row value i lv first tail = some (.ok t)) :
    Splits row i (first :: tail) := by
  unfold atLevel at h
  simp only [hrule] at h
  split at h
  · rename_i last front hrev
    have hps := eq_of_reverse_eq hrev
    split at h
    · rename_i hkind
      obtain ⟨u, hu, h⟩ := bind_ok (Option.some.inj h)
      obtain ⟨v, hv, -⟩ := bind_ok h
      rw [hps]
      exact .call (level_of_chain hlv hrule) hkind (ok_of_operand hu).1 hv
    · rename_i hkind
      have hlast := hall last (by simp [hps])
      simp [hkind, inSigned] at hlast
    · split at h
      · rename_i dot owner more
        split at h
        · rename_i hdot
          have hkind := hall dot (by simp [hps])
          simp [eq_of_beq hdot, inSigned] at hkind
        · cases h
      · cases h
    · cases h
  · cases h

include hlv hall in
theorem splits_of_atLevel (h : atLevel row value i lv first tail = some (.ok t)) : Splits row i (first :: tail) := by
  cases hrule : lv.rule with
  | list =>
    have hnone := has_eq_false hlv hall (.inl hrule)
    simp [atLevel, hrule, listTree, cut_eq hnone] at h
  | rest =>
    have hnone := has_eq_false hlv hall (.inr hrule)
    unfold atLevel at h
    simp only [hrule] at h
    split at h
    · rename_i last front hrev
      have hlast : last ∈ first :: tail := by
        rw [← List.mem_reverse, hrev]
        exact List.mem_cons_self
      simp [hnone last hlast] at h
    · cases h
  | fromLeft => exact splits_of_fromLeft hlv hall hrule h
  | fromRight => exact splits_of_fromRight hlv hall hrule h
  | before => exact splits_of_before hlv hall hrule h
  | chain => exact splits_of_chain hlv hall hrule h

end

/-- A row that is read is a value, or it is split at a level at which it is not split before. -/
theorem splits_of_climb {ps : List Piece} (hne : ps ≠ []) {level line : Nat} {t : Tree}
    (hall : ∀ p ∈ ps, inSigned p.kind = true) (h : climb row value ps level line = .ok t) :
    (∃ p u, ps = [p] ∧ p.kind.isAtom = true ∧ value p = .ok u) ∨
      ∃ i, level ≤ i ∧ Splits row i ps ∧ (level ≤ 10 → 10 < i → ∀ p ∈ ps.tail, p.kind ≠ .minus) := by
  have hlevels (first : Piece) (tail : List Piece) (hall : ∀ p ∈ first :: tail, inSigned p.kind = true)
      (i : Nat) (lvs : List Level) (hlvs : lvs = levels.drop i)
      (h : fromLevel row value first tail i lvs = .ok t) :
      ∃ j, i ≤ j ∧ Splits row j (first :: tail) ∧ (i ≤ 10 → 10 < j → ∀ p ∈ tail, p.kind ≠ .minus) := by
    induction lvs generalizing i with
    | nil => cases h
    | cons lv lvs ih =>
      have hlv : levels[i]? = some lv := by
        rw [← List.head?_drop, ← hlvs]
        rfl
      unfold fromLevel at h
      split at h
      · rename_i r hat
        subst h
        exact ⟨i, Nat.le_refl i, splits_of_atLevel hlv hall hat, fun hle hlt => absurd hle (by omega)⟩
      · rename_i hat
        have hdrop : lvs = levels.drop (i + 1) := by
          rw [← List.tail_drop, ← hlvs]
          rfl
        obtain ⟨j, hij, hsplits, hskip⟩ := ih (i + 1) hdrop h
        refine ⟨j, by omega, hsplits, fun hle hlt => ?_⟩
        rcases Nat.lt_or_eq_of_le hle with hle | rfl
        · exact hskip hle hlt
        · -- the tenth level splits at every minus that is not at the front
          intro p hp hminus
          simp only [levels, List.getElem?_cons_zero, List.getElem?_cons_succ, Option.some.injEq] at hlv
          subst hlv
          have hnone := eq_false_of_splitLast? (Option.map_eq_none_iff.mp hat) p hp
          simp [hminus, Level.has] at hnone
  rcases ps with _ | ⟨p, _ | ⟨q, tail⟩⟩
  · exact absurd rfl hne
  · rw [climb] at h
    split at h
    · rename_i hatom
      exact .inl ⟨p, t, rfl, hatom, h⟩
    · exact .inr (hlevels p [] hall level _ rfl h)
  · exact .inr (hlevels p (q :: tail) hall level _ rfl h)

end

/-! ## rows that are never read -/

/-- A row that ends with a `!` is read at no level up to that of the `!`. -/
theorem row_of_trailing {d : Nat} {ps : List Piece} {n : Piece} (hlast : ps.getLast? = some n)
    (hn : n.kind = .not) (hall : ∀ p ∈ ps, inSigned p.kind = true) {level line : Nat}
    (hlevel : level ≤ prefixLevel) {t : Tree} : row d ps level line ≠ .ok t := by
  induction d generalizing ps level line t with
  | zero => rintro ⟨⟩
  | succ d ih =>
    intro h
    rw [row] at h
    have hne : ps ≠ [] := by
      rintro rfl
      cases hlast
    rcases splits_of_climb hne hall h with ⟨p, u, rfl, hatom, -⟩ | ⟨i, -, hsplits, -⟩
    · have hp : p = n := Option.some.inj hlast
      rw [hp, hn] at hatom
      cases hatom
    · cases hsplits with
      | @between front back op _ _ _ _ _ hi hop _ hlow _ _ hright =>
        rw [List.getLast?_append_cons, List.getLast?_cons] at hlast
        cases hback : back.getLast? with
        | none =>
          have hop' : op = n := by simpa [hback] using hlast
          exact hop.1 (hop' ▸ hn)
        | some m =>
          obtain rfl : m = n := by simpa [hback] using hlast
          have hmem (p : Piece) (hp : p ∈ back) : inSigned p.kind = true := hall p (by simp [hp])
          exact ih hback hmem (Nat.le_trans hlow (Nat.succ_le_succ hi)) hright
      | @before op tail _ _ hi hop hright hvalue =>
        cases d with
        | zero => cases hright
        | succ d =>
          cases tail with
          | nil =>
            obtain rfl := Except.ok.inj hright
            cases hvalue
          | cons q tail =>
            rw [List.getLast?_cons_cons] at hlast
            exact ih hlast (fun p hp => hall p (List.mem_cons_of_mem _ hp)) (Nat.le_of_eq hi) hright
      | call _ hp _ _ =>
        rw [List.getLast?_concat] at hlast
        obtain rfl := Option.some.inj hlast
        cases hn.symm.trans hp

/-- A row in which a minus stands directly behind a `!` is split at the minus or before it. -/
theorem row_of_pair {d : Nat} {front back : List Piece} {n m : Piece} (hn : n.kind = .not) (hm : m.kind = .minus)
    (hall : ∀ p ∈ front ++ n :: m :: back, inSigned p.kind = true) {level line : Nat} (hlevel : level ≤ 10)
    {t : Tree} : row d (front ++ n :: m :: back) level line ≠ .ok t := by
  induction d generalizing front back level line t with
  | zero => rintro ⟨⟩
  | succ d ih =>
    intro h
    rw [row] at h
    rcases splits_of_climb (by simp) hall h with ⟨p, u, hps, -⟩ | ⟨i, -, hsplits, hskip⟩
    · have hlength := congrArg List.length hps
      rw [List.length_append, List.length_cons, List.length_cons, List.length_singleton] at hlength
      omega
    · have hi : i ≤ 10 := by
        by_contra hi
        refine hskip hlevel (Nat.lt_of_not_le hi) m ?_ hm
        cases front <;> simp
      generalize hps : front ++ n :: m :: back = ps at hsplits hall
      cases hsplits with
      | @between front' back' op k l _ _ _ _ hop hk hl hten hleft hright =>
        have hleftAll (p : Piece) (hp : p ∈ front') : inSigned p.kind = true := hall p (by simp [hp])
        have hrightAll (p : Piece) (hp : p ∈ back') : inSigned p.kind = true := hall p (by simp [hp])
        rcases List.append_eq_append_iff.mp hps with ⟨more, rfl, hmore⟩ | ⟨more, rfl, hmore⟩
        · -- the operator stands behind the `!`
          cases more with
          | nil =>
            obtain ⟨rfl, -⟩ := List.cons.inj hmore
            exact hop.1 hn
          | cons n' more =>
            obtain ⟨rfl, htail⟩ := List.cons.inj hmore
            cases more with
            | nil =>
              refine row_of_trailing (n := n) ?_ hn hleftAll ?_ hleft
              · simp
              · rw [prefixLevel]
                omega
            | cons m' more =>
              obtain ⟨rfl, rfl⟩ := List.cons.inj htail
              refine ih hleftAll ?_ hleft
              rcases Nat.lt_or_eq_of_le hi with hi | rfl
              · omega
              · exact Nat.le_of_eq (hten rfl).1
        · -- the operator stands before the `!`
          cases more with
          | nil =>
            obtain ⟨rfl, -⟩ := List.cons.inj hmore
            exact hop.1 hn
          | cons op' more =>
            obtain ⟨rfl, rfl⟩ := List.cons.inj hmore
            rcases Nat.lt_or_eq_of_le hi with hi | rfl
            · exact ih hrightAll (by omega) hright
            · exact (hten rfl).2 m (by simp) hm
      | before hi' => simp [hi', prefixLevel] at hi
      | call hi' => simp [hi', chainLevel] at hi

/-- Neither is a row with a group in it whose inside is read by no budget. -/
theorem row_of_group {d : Nat} {ps : List Piece} {p : Piece} (hp : p ∈ ps) (hkind : p.kind = .lpar)
    (hinner : ∀ d line t, row d p.inner 0 line ≠ .ok t) (hall : ∀ p ∈ ps, inSigned p.kind = true)
    {level line : Nat} {t : Tree} : row d ps level line ≠ .ok t := by
  induction d generalizing ps level line t with
  | zero => rintro ⟨⟩
  | succ d ih =>
    intro h
    rw [row] at h
    rcases splits_of_climb (List.ne_nil_of_mem hp) hall h with ⟨q, u, rfl, -, hvalue⟩ | ⟨i, -, hsplits, -⟩
    · obtain rfl := List.mem_singleton.mp hp
      rw [atom, hkind] at hvalue
      exact hinner d _ _ hvalue
    · cases hsplits with
      | between hi hop _ _ _ hleft hright =>
        have hleftAll := fun q hq => hall q (List.mem_append_left _ hq)
        have hrightAll := fun q hq => hall q (List.mem_append_right _ (List.mem_cons_of_mem _ hq))
        rcases List.mem_append.mp hp with hp | hp
        · exact ih hp hleftAll hleft
        · rcases List.mem_cons.mp hp with rfl | hp
          · exact hop.2 hkind
          · exact ih hp hrightAll hright
      | before hi hop hright _ =>
        rcases List.mem_cons.mp hp with rfl | hp
        · exact hop hkind
        · exact ih hp (fun q hq => hall q (List.mem_cons_of_mem _ hq)) hright
      | call hi _ hleft hinside =>
        rcases List.mem_append.mp hp with hp | hp
        · exact ih hp (fun q hq => hall q (List.mem_append_left _ hq)) hleft
        · obtain rfl := List.mem_singleton.mp hp
          exact hinner d _ _ hinside

/-- Rows of the kinds in signed expressions in which a minus stands directly behind a `!`, at any depth of
parentheses. -/
inductive Bad : List Piece → Prop
  | pair {front back : List Piece} {n m : Piece} (hn : n.kind = .not) (hm : m.kind = .minus)
    (hall : ∀ p ∈ front ++ n :: m :: back, inSigned p.kind = true) : Bad (front ++ n :: m :: back)
  | group {ps : List Piece} {p : Piece} (hp : p ∈ ps) (hkind : p.kind = .lpar) (hinner : Bad p.inner)
    (hall : ∀ p ∈ ps, inSigned p.kind = true) : Bad ps

/-- **No row with a minus directly behind a `!` is read.** -/
theorem row_of_bad {ps : List Piece} (h : Bad ps) {d level line : Nat} (hlevel : level ≤ 10) {t : Tree} :
    row d ps level line ≠ .ok t := by
  induction h generalizing d level line t with
  | pair hn hm hall => exact row_of_pair hn hm hall hlevel
  | group hp hkind _ hall ih => exact row_of_group hp hkind (fun _ _ _ => ih (Nat.zero_le _)) hall

theorem Bad.of_unlined {ps qs : List Piece} (h : Bad qs) (hqs : ps.map Piece.unlined = qs) : Bad ps := by
  have hkinds {ps qs : List Piece} (hqs : ps.map Piece.unlined = qs)
      (hall : ∀ q ∈ qs, inSigned q.kind = true) : ∀ p ∈ ps, inSigned p.kind = true := by
    intro p hp
    rw [Piece.kind_of_unlined (p := p) rfl]
    exact hall _ (hqs ▸ List.mem_map_of_mem hp)
  induction h generalizing ps with
  | pair hn hm hall =>
    have hall' := hkinds hqs hall
    obtain ⟨front, _, rfl, -, hrest⟩ := List.map_eq_append_iff.mp hqs
    obtain ⟨n', _, rfl, hn', hrest⟩ := List.map_eq_cons_iff.mp hrest
    obtain ⟨m', back, rfl, hm', -⟩ := List.map_eq_cons_iff.mp hrest
    exact .pair (Piece.kind_of_unlined hn' ▸ hn) (Piece.kind_of_unlined hm' ▸ hm) hall'
  | group hq hkind _ hall ih =>
    have hall' := hkinds hqs hall
    obtain ⟨p, hp, rfl⟩ := List.mem_map.mp (hqs ▸ hq)
    exact .group hp (Piece.kind_of_unlined rfl ▸ hkind) (ih (Piece.inner_of_unlined rfl)) hall'

theorem Bad.append {ps : List Piece} (h : Bad ps) (front back : List Piece)
    (hall : ∀ p ∈ front ++ ps ++ back, inSigned p.kind = true) : Bad (front ++ ps ++ back) := by
  cases h with
  | @pair f b n m hn hm _ =>
    have heq : front ++ (f ++ n :: m :: b) ++ back = (front ++ f) ++ n :: m :: (b ++ back) := by simp
    rw [heq] at hall ⊢
    exact .pair hn hm hall
  | group hp hkind hinner _ =>
    exact .group (List.mem_append_left _ (List.mem_append_right _ hp)) hkind hinner hall

theorem inSigned_enclosed {ps : List Piece} (b : Bool) (h : ∀ p ∈ ps, inSigned p.kind = true) :
    ∀ p ∈ Piece.enclosed b ps, inSigned p.kind = true := by
  cases b with
  | false => exact h
  | true =>
    intro p hp
    obtain rfl := List.mem_singleton.mp hp
    rfl

theorem inSigned_row (e : Signed) (sign : Bool) : ∀ p ∈ e.row sign, inSigned p.kind = true := by
  induction e generalizing sign with
  | operand ps s =>
    intro p hp
    obtain ⟨k, rfl, rfl | rfl | rfl | rfl⟩ := Signed.mem_row_operand hp <;> rfl
  | apply op left right ihl ihr =>
    intro p hp
    rw [Signed.row, List.mem_append, List.mem_cons] at hp
    rcases hp with hp | rfl | hp
    · exact inSigned_enclosed _ (ihl _) p hp
    · cases op <;> rfl
    · exact inSigned_enclosed _ (ihr _) p hp

theorem Bad.enclosed {ps : List Piece} (h : Bad ps) (b : Bool) : Bad (Piece.enclosed b ps) := by
  cases b with
  | false => exact h
  | true =>
    refine .group (List.mem_singleton_self _) rfl h fun p hp => ?_
    obtain rfl := List.mem_singleton.mp hp
    rfl

theorem kinds_append (sign : Bool) (ps qs : List Prefix) :
    ∃ sign', Prefix.kinds sign (ps ++ qs) = Prefix.kinds sign ps ++ Prefix.kinds sign' qs := by
  induction ps generalizing sign with
  | nil => exact ⟨sign, rfl⟩
  | cons p ps ih =>
    obtain ⟨sign', h⟩ := ih (p == .minus)
    exact ⟨sign', by rw [List.cons_append, Prefix.kinds, h, Prefix.kinds, List.cons_append]⟩

theorem bad_row (e : Signed) (hc : ¬ e.Clear) (sign : Bool) : Bad (e.row sign) := by
  have hall := inSigned_row e sign
  induction e generalizing sign with
  | operand ps s =>
    obtain ⟨front, back, rfl⟩ := Classical.not_not.mp hc
    obtain ⟨sign', hkinds⟩ := kinds_append sign front (.not :: .minus :: back)
    rw [Signed.row, List.append_assoc, List.cons_append, List.cons_append, List.nil_append, hkinds] at hall ⊢
    -- behind a `!` a minus is never a sign
    have hsign : (Prefix.not == Prefix.minus) = false := rfl
    simp only [Prefix.kinds, hsign, Prefix.kind, List.map_append, List.map_cons, List.append_assoc,
      List.cons_append] at hall ⊢
    exact .pair rfl rfl hall
  | apply op left right ihl ihr =>
    rw [Signed.Clear, not_and_or] at hc
    rw [Signed.row] at hall ⊢
    rcases hc with hc | hc
    · have hbad := (ihl hc (sign && !Signed.leftEnclosed op left) (inSigned_row _ _)).enclosed
        (Signed.leftEnclosed op left)
      exact hbad.append [] _ hall
    · have hbad := (ihr hc (op.kind.beforeSign && !Signed.rightEnclosed op right) (inSigned_row _ _)).enclosed
        (Signed.rightEnclosed op right)
      rw [List.append_cons, ← List.append_nil (_ ++ Piece.enclosed _ _)] at hall ⊢
      exact hbad.append _ [] hall

end ScriptEngine.Precedence

namespace ScriptEngine

open Precedence

/-- **Which signed expressions are read, and as what.**  Where no `-` stands directly behind a `!`, the
operators before every name are nested in the order in which they are written, and bind more tightly than
the operators between operands; a text with a `-` directly behind a `!` is not read at all. -/
theorem parse_signed (e : Signed) (line : Nat) :
    e.Spells e.text line ∧ ∀ src, e.Spells src line →
      (e.Clear → e.need ≤ maxNesting → ∃ t, parse src line = .ok t ∧ t.unlined = e.tree false) ∧
      (¬ e.Clear → ∃ err, parse src line = .error err) := by
  refine ⟨e.spells_written line, ?_⟩
  rintro src ⟨ts, hlex, hkinds⟩
  have hplain := e.plain_row false
  have hrow {ps : List Piece} (hps : ps.map Piece.unlined = (e.row false).map Piece.unlined) :
      ps.map Piece.unlined = e.row false ∧ ∀ p ∈ ps, p.Plain := by
    refine ⟨hps.trans (e.unlined_row false), fun p hp => ?_⟩
    obtain ⟨q, hq, hqp⟩ := List.mem_map.mp (hps ▸ List.mem_map_of_mem hp)
    exact (hplain q hq).of_unlined hqp.symm
  rw [parse, hlex]
  constructor
  · intro hc hneed
    have hdepth := e.depth_row false
    obtain ⟨ps, hbracket, hps⟩ := bracket_grouped (fun p hp => (hplain p hp).grouped) (by omega) hkinds
    obtain ⟨hunlined, hplain'⟩ := hrow hps
    have hdepth' : Piece.depthAll ps < maxNesting := by
      rw [← Piece.depthAll_unlined, Piece.unlinedAll_eq, hunlined]
      omega
    obtain ⟨t, ht, htree⟩ := row_of_clear e hc hneed line hunlined (Nat.zero_le _)
    refine ⟨t, ?_, htree⟩
    simp [hbracket, Blocks.fix_plain line hplain' hdepth', ht, Bind.bind, Except.bind]
  · intro hc
    have hbad := bad_row e hc false
    cases hbracket : bracket ts with
    | error err => exact ⟨err, by simp [hbracket, Bind.bind, Except.bind]⟩
    | ok ps =>
      have hps := comes_bracket (fun p hp => (hplain p hp).grouped) hkinds
      rw [hbracket, comes_ok] at hps
      obtain ⟨hunlined, hplain'⟩ := hrow hps
      have hfix := Blocks.comes_fix line hplain'
      cases hqs : Blocks.fix line ps with
      | error err => exact ⟨err, by simp [hbracket, hqs, Bind.bind, Except.bind]⟩
      | ok qs =>
        rw [hqs, comes_ok] at hfix
        subst hfix
        cases hread : row maxNesting qs 0 line with
        | error err => exact ⟨err, by simp [hbracket, hqs, hread, Bind.bind, Except.bind]⟩
        | ok t => exact absurd hread (row_of_bad (hbad.of_unlined hunlined) (Nat.zero_le _))

/-- The text `a * - ! x` is read, and the text `! - x` is not. -/
theorem parse_signed_both :
    let a : Name := ⟨Bytes.ofString "a", by decide +kernel⟩
    let x : Name := ⟨Bytes.ofString "x", by decide +kernel⟩
    (∃ t, parse (Signed.apply .mul (.operand [] a) (.operand [.minus, .not] x)).text 1 = .ok t ∧
      t.unlined = .mk .mul 0 [.mk (.symbol a) 0 [], .mk .neg 0 [.mk .not 0 [.mk (.symbol x) 0 []]]]) ∧
    ∃ err, parse (Signed.operand [.not, .minus] x).text 1 = .error err := by
  intro a x
  obtain ⟨hspells, hread⟩ := parse_signed (.apply .mul (.operand [] a) (.operand [.minus, .not] x)) 1
  obtain ⟨hspells', hread'⟩ := parse_signed (.operand [.not, .minus] x) 1
  refine ⟨(hread _ hspells).1 ⟨?_, ?_⟩ ?_, (hread' _ hspells').2 ?_⟩
  · show ¬ [Prefix.not, .minus] <:+: []
    decide
  · show ¬ [Prefix.not, .minus] <:+: [.minus, .not]
    decide
  · show 1 + max (1 + 0) (3 + 0) ≤ maxNesting
    decide
  · show ¬ ¬ [Prefix.not, .minus] <:+: [.not, .minus]
    decide

end ScriptEngine
