import Mathlib.Data.List.TakeDrop
import Mathlib.Data.List.TakeWhile
import ScriptEngine.Proofs.Grammar.Rendering

/-!
# Reading the rows of expressions

The row of an expression is split at the operator of the expression: every operator that stands in it
without parentheses binds at least as tightly, and those that bind as tightly stand on the side to which
the level groups.  So reading a row reads its operands, and the parts of a call or of an index.

* `splitFirst?_at`, `splitLast?_at`, `cut_at`   where rows are split;
* `Above`, `Leads`   kinds at which no looser level splits a row, anywhere or at its front;
* `climb_apply`  a row is split at a binary operator;
* `Stands`       rows with the trees they stand for;
* `comes_climb`  one reading of a row, given the readings inside it;
* `parse_text`   **what an expression is written as is read as its tree.**
-/

namespace ScriptEngine.Precedence

/-! ## splitting -/

section

variable {p : Piece → Bool} {ps front back : List Piece} {op : Piece}

theorem splitFirst?_eq_none (h : ∀ x ∈ ps, p x = false) : splitFirst? p ps = none := by
  have hdrop : ps.dropWhile (fun x => !p x) = [] := by
    rw [List.dropWhile_eq_nil_iff]
    intro x hx
    simp [h x hx]
  simp [splitFirst?, List.span_eq_takeWhile_dropWhile, hdrop]

theorem splitFirst?_at (h : ∀ x ∈ front, p x = false) (hop : p op = true) :
    splitFirst? p (front ++ op :: back) = some (front, op, back) := by
  have hfront : ∀ x ∈ front, (fun x => !p x) x = true := by
    intro x hx
    simp [h x hx]
  simp [splitFirst?, List.span_eq_takeWhile_dropWhile, List.takeWhile_append_of_pos hfront,
    List.dropWhile_append_of_pos hfront, hop]

theorem splitLast?_eq_none (h : ∀ x ∈ ps, p x = false) : splitLast? p ps = none := by
  rw [splitLast?, splitFirst?_eq_none (by simpa using h)]

theorem splitLast?_at (h : ∀ x ∈ back, p x = false) (hop : p op = true) :
    splitLast? p (front ++ op :: back) = some (front, op, back) := by
  have hrev : (front ++ op :: back).reverse = back.reverse ++ op :: front.reverse := by simp
  rw [splitLast?, hrev, splitFirst?_at (by simpa using h) hop]
  simp

/-- The parts cut so far stay in front of those that are cut later. -/
theorem foldl_cut (parts : List (List Piece × Piece)) (part qs : List Piece) :
    qs.foldl (fun (parts, part) x => if p x then ((part.reverse, x) :: parts, []) else (parts, x :: part))
      (parts, part) =
    let r := qs.foldl (fun (parts, part) x =>
      if p x then ((part.reverse, x) :: parts, []) else (parts, x :: part)) ([], part)
    (r.1 ++ parts, r.2) := by
  induction qs generalizing parts part with
  | nil => rfl
  | cons q qs ih =>
    simp only [List.foldl_cons]
    by_cases hq : p q = true
    · simp only [hq, if_true]
      rw [ih ((part.reverse, q) :: parts), ih [(part.reverse, q)]]
      simp
    · simp only [hq, if_false, Bool.false_eq_true]
      rw [ih parts (q :: part)]

theorem foldl_cut_skip (parts : List (List Piece × Piece)) (part : List Piece) (h : ∀ x ∈ ps, p x = false) :
    ps.foldl (fun (parts, part) x => if p x then ((part.reverse, x) :: parts, []) else (parts, x :: part))
      (parts, part) = (parts, ps.reverse ++ part) := by
  induction ps generalizing part with
  | nil => rfl
  | cons q qs ih =>
    have hq : p q = false := h q List.mem_cons_self
    simp only [List.foldl_cons, hq, Bool.false_eq_true, if_false]
    rw [ih _ fun x hx => h x (List.mem_cons_of_mem _ hx)]
    simp

theorem cut_eq (h : ∀ x ∈ ps, p x = false) : cut p ps = ([], ps) := by
  simp [cut, foldl_cut_skip [] [] h]

theorem cut_at (h : ∀ x ∈ front, p x = false) (hop : p op = true) :
    cut p (front ++ op :: back) = ((front, op) :: (cut p back).1, (cut p back).2) := by
  simp only [cut, List.foldl_append, List.foldl_cons, foldl_cut_skip [] [] h, hop, if_true]
  rw [foldl_cut]
  simp

end

/-! ## levels -/

/-- No level before the first `n` ones has the kind as an operator. -/
def Above (n : Nat) (k : Tok) : Prop := ∀ lv ∈ levels.take n, lv.has k = false

theorem Above.mono {m n : Nat} {k : Tok} (h : Above n k) (hmn : m ≤ n) : Above m k := by
  intro lv hlv
  apply h lv
  rw [← Nat.min_eq_left hmn, ← List.take_take] at hlv
  exact List.mem_of_mem_take hlv

/-- No level before the first `n` ones splits a row at a first piece of the kind. -/
def Leads (n : Nat) (k : Tok) : Prop := ∀ lv ∈ levels.take n, lv.rule = .fromRight ∨ lv.has k = false

theorem Above.leads {n : Nat} {k : Tok} (h : Above n k) : Leads n k := fun lv hlv => .inr (h lv hlv)

theorem Leads.mono {m n : Nat} {k : Tok} (h : Leads n k) (hmn : m ≤ n) : Leads m k := by
  intro lv hlv
  apply h lv
  rw [← Nat.min_eq_left hmn, ← List.take_take] at hlv
  exact List.mem_of_mem_take hlv

theorem above_symbol (s : Bytes) : Above chainLevel (.symbol s) := by
  intro lv hlv
  simp only [chainLevel, levels, List.take_succ_cons, List.take_zero, List.mem_cons, List.not_mem_nil,
    or_false] at hlv
  rcases hlv with rfl | rfl | rfl | rfl | rfl | rfl | rfl | rfl | rfl | rfl | rfl | rfl | rfl <;>
    simp [Level.has]

theorem above_chain {k : Tok} (hk : k ∈ [Tok.lpar, .lbra, .dot]) : Above chainLevel k := by
  revert k
  unfold Above
  decide +kernel

theorem above_operator (op : Operator) : Above op.level op.kind := by
  unfold Above
  cases op <;> decide +kernel

/-- The level of an operator. -/
theorem exists_level (op : Operator) : ∃ lv more, levels.drop op.level = lv :: more ∧
    lv.has op.kind = true ∧ lv.rule = (if op.toRight then .fromLeft else .fromRight) ∧
    lv ∈ levels.take (op.level + 1) := by
  cases op <;> exact ⟨_, _, rfl, rfl, rfl, by simp [levels, Operator.level]⟩

section

variable {row : List Piece → Nat → Nat → Except CompileError Tree}
  {value : Piece → Except CompileError Tree} {lv : Level} {first : Piece} {tail : List Piece}

/-- A level that has no operator in a row passes it on. -/
theorem atLevel_eq_none (level : Nat) (hrule : lv.rule ≠ .chain)
    (hfirst : lv.rule = .fromRight ∨ lv.has first.kind = false) (htail : ∀ p ∈ tail, lv.has p.kind = false) :
    atLevel row value level lv first tail = none := by
  unfold atLevel
  by_cases hright : lv.rule = .fromRight
  · simp [hright, splitLast?_eq_none htail]
  have hnot : lv.has first.kind = false := hfirst.resolve_left hright
  have h : ∀ p ∈ first :: tail, lv.has p.kind = false := by
    intro p hp
    rcases List.mem_cons.mp hp with rfl | hp
    · exact hnot
    · exact htail p hp
  cases hr : lv.rule with
  | list => simp [listTree, cut_eq h]
  | fromLeft => simp [splitFirst?_eq_none h]
  | fromRight => exact absurd hr hright
  | before => simp [hnot]
  | rest =>
    cases hrev : (first :: tail).reverse with
    | nil => simp at hrev
    | cons last front =>
      have hlast : last ∈ first :: tail := by
        rw [← List.mem_reverse, hrev]
        exact List.mem_cons_self
      simp only [hrev, h last hlast, Bool.false_eq_true, if_false]
  | chain => exact absurd hr hrule

/-- A row is passed on to the first level that may have an operator in it. -/
theorem fromLevel_skip {i n : Nat} (hin : i ≤ n) (hn : n ≤ chainLevel)
    (hfirst : Leads n first.kind) (htail : ∀ p ∈ tail, Above n p.kind) :
    fromLevel row value first tail i (levels.drop i) = fromLevel row value first tail n (levels.drop n) := by
  have hrules : ∀ lv ∈ levels.take chainLevel, lv.rule ≠ .chain := by
    simp [levels, chainLevel]
  induction n, hin using Nat.le_induction with
  | base => rfl
  | succ n hin ih =>
    have hlt : n < levels.length := Nat.lt_of_lt_of_le hn (by decide)
    have hmem : levels[n] ∈ levels.take (n + 1) :=
      List.mem_iff_getElem.mpr ⟨n, by simp only [List.length_take]; omega, List.getElem_take⟩
    have hnone : atLevel row value n levels[n] first tail = none := by
      apply atLevel_eq_none
      · apply hrules
        exact List.mem_of_mem_take (by rwa [List.take_take, Nat.min_eq_left hn])
      · exact hfirst _ hmem
      · intro p hp
        exact htail p hp _ hmem
    rw [ih (by omega) (hfirst.mono (Nat.le_succ n)) fun p hp => (htail p hp).mono (Nat.le_succ n),
      List.drop_eq_getElem_cons hlt, fromLevel, hnone]

end

/-! ## rows of expressions -/

theorem above_enclosed {b : Bool} {n : Nat} (hn : n ≤ chainLevel) {ps : List Piece}
    (h : b = false → ∀ p ∈ ps, Above n p.kind) : ∀ p ∈ Piece.enclosed b ps, Above n p.kind := by
  cases b with
  | false => exact h rfl
  | true =>
    intro p hp
    obtain rfl := List.mem_singleton.mp hp
    exact (above_chain (by simp [Piece.kind])).mono hn

theorem above_operand {e : Expr} {n : Nat} (hn : n ≤ chainLevel) (h : ∀ p ∈ e.row, Above e.level p.kind) :
    ∀ p ∈ Piece.enclosed (e.level < n) e.row, Above n p.kind := by
  apply above_enclosed hn
  intro hb p hp
  exact (h p hp).mono (by simpa using hb)

theorem leftLevel_bounds (op : Operator) :
    op.level ≤ op.leftLevel ∧ op.leftLevel ≤ chainLevel := by
  cases op <;> decide

theorem rightLevel_bounds (op : Operator) :
    op.level ≤ op.rightLevel ∧ op.rightLevel ≤ chainLevel := by
  cases op <;> decide

/-- All operators in the row of an expression bind at least as tightly as the expression. -/
theorem above_row (e : Expr) : ∀ p ∈ e.row, Above e.level p.kind := by
  intro p hp
  cases e with
  | name s =>
    rw [Expr.row, List.mem_singleton] at hp
    subst hp
    exact above_symbol s
  | apply op left right =>
    rw [Expr.row, List.mem_append, List.mem_cons] at hp
    rcases hp with hp | rfl | hp
    · exact (above_operand (leftLevel_bounds op).2 (above_row left) p hp).mono (leftLevel_bounds op).1
    · exact above_operator op
    · exact (above_operand (rightLevel_bounds op).2 (above_row right) p hp).mono (rightLevel_bounds op).1
  | member owner s =>
    simp only [Expr.row, List.mem_append, List.mem_cons, List.not_mem_nil, or_false] at hp
    rcases hp with hp | rfl | rfl
    · exact above_operand (Nat.le_refl _) (above_row owner) p hp
    · exact above_chain (by simp [Piece.kind])
    · exact above_symbol s
  | call func args =>
    rw [Expr.row, List.mem_append, List.mem_singleton] at hp
    rcases hp with hp | rfl
    · exact above_operand (Nat.le_refl _) (above_row func) p hp
    · exact above_chain (by simp [Piece.kind])
  | index box key =>
    rw [Expr.row, List.mem_append, List.mem_singleton] at hp
    rcases hp with hp | rfl
    · exact above_operand (Nat.le_refl _) (above_row box) p hp
    · exact above_chain (by simp [Piece.kind])

theorem row_ne_nil (e : Expr) : e.row ≠ [] := by
  cases e <;> simp [Expr.row]

theorem enclosed_ne_nil (b : Bool) (e : Expr) : Piece.enclosed b e.row ≠ [] := by
  cases b with
  | false => exact row_ne_nil e
  | true => simp [Piece.enclosed]

theorem level_bounds (e : Expr) : 0 < e.level ∧ e.level ≤ chainLevel := by
  cases e with
  | apply op => cases op <;> simp [Expr.level, Operator.level, chainLevel]
  | _ => simp [Expr.level, chainLevel]

theorem tree_not_empty (e : Expr) : e.tree.kind ≠ .empty := by
  cases e with
  | apply op => cases op <;> simp [Expr.tree, Tree.kind, Operator.kind]
  | _ => simp [Expr.tree, Tree.kind]

/-- Rows, without lines, and the trees they stand for when they are read from a level on. -/
inductive Stands : Nat → List Piece → Tree → Prop
  | expr {level : Nat} (e : Expr) (h : level ≤ e.level) : Stands level e.row e.tree
  | enclosed {level : Nat} (e : Expr) : Stands level [.mk .lpar 0 e.row] e.tree
  | nothing : Stands 0 [] (.empty 0)
  | list (e e' : Expr) (es : List Expr) :
    Stands 0 (Expr.rowAll (e :: e' :: es)) (.mk .list 0 (Expr.treeAll (e :: e' :: es)))

theorem stands_operand {n : Nat} (e : Expr) : Stands n (Piece.enclosed (e.level < n) e.row) e.tree := by
  by_cases h : e.level < n
  · simpa [h, Piece.enclosed] using Stands.enclosed e
  · simpa [h, Piece.enclosed] using Stands.expr e (Nat.le_of_not_lt h)

theorem stands_args (es : List Expr) : Stands 0 (Expr.rowAll es) (Expr.argsTree es) := by
  rcases es with _ | ⟨e, _ | ⟨e', es⟩⟩
  · simpa [Expr.rowAll, Expr.argsTree] using Stands.nothing
  · simpa [Expr.rowAll, Expr.argsTree] using Stands.expr e (Nat.zero_le _)
  · simpa [Expr.argsTree] using Stands.list e e' es

/-! ## reading -/

section

variable {row : List Piece → Nat → Nat → Except CompileError Tree}
  {elseIf : Piece → Except CompileError Tree}

/-- Rows inside the one that is read are read as what they stand for. -/
def ReadsRows (row : List Piece → Nat → Nat → Except CompileError Tree) : Prop :=
  ∀ level ps t line, Stands level (ps.map Piece.unlined) t → Comes (·.unlined = t) (row ps level line)

theorem comes_operand (hrow : ReadsRows row) {ps : List Piece} {n : Nat} {e : Expr} (op : Piece)
    (hps : ps.map Piece.unlined = Piece.enclosed (e.level < n) e.row) :
    Comes (·.unlined = e.tree) (operand row ps n op) := by
  refine (hrow n ps e.tree op.line (hps ▸ stands_operand e)).bind ?_
  intro t ht
  have hkind : t.isEmpty = false := by
    have hne := tree_not_empty e
    rw [← ht, Tree.kind_unlined] at hne
    simpa [Tree.isEmpty] using hne
  simp [hkind, ht]

theorem comes_inside (hrow : ReadsRows row) {p q : Piece} {t : Tree} (hp : p.unlined = q)
    (hq : Stands 0 q.inner t) : Comes (·.unlined = t) (inside row p) :=
  hrow 0 p.inner t p.line (Piece.inner_of_unlined hp ▸ hq)

end

section

variable {row : List Piece → Nat → Nat → Except CompileError Tree}
  {value : Piece → Except CompileError Tree} {ps : List Piece} {level : Nat}

theorem above_of_unlined {qs : List Piece} {n : Nat} (hps : ps.map Piece.unlined = qs)
    (h : ∀ q ∈ qs, Above n q.kind) : ∀ p ∈ ps, Above n p.kind := by
  intro p hp
  rw [Piece.kind_of_unlined rfl]
  exact h _ (hps ▸ List.mem_map_of_mem hp)

/-- A row of several pieces is read at the first level that has an operator in it. -/
theorem climb_eq (line : Nat) {n : Nat} {first : Piece} {tail : List Piece} (htail : tail ≠ [])
    (hlevel : level ≤ n) (hn : n ≤ chainLevel) (hleads : Leads n first.kind)
    (habove : ∀ p ∈ tail, Above n p.kind) {lv : Level} {more : List Level}
    (hdrop : levels.drop n = lv :: more) {r : Except CompileError Tree}
    (hr : atLevel row value n lv first tail = some r) : climb row value (first :: tail) level line = r := by
  obtain ⟨second, tail, rfl⟩ := List.exists_cons_of_ne_nil htail
  rw [climb, fromLevel_skip hlevel hn hleads habove, hdrop, fromLevel, hr]
  simp

/-- **A row is split at a binary operator** if nothing to its left binds more loosely than its left operand
may, and nothing to its right more loosely than its right operand may. -/
theorem climb_apply (line : Nat) {op : Operator} {p first : Piece} {front back : List Piece}
    (hlevel : level ≤ op.level) (hkind : p.kind = op.kind) (hfirst : Leads op.leftLevel first.kind)
    (hfront : ∀ q ∈ front, Above op.leftLevel q.kind) (hback : ∀ q ∈ back, Above op.rightLevel q.kind) :
    climb row value (first :: front ++ p :: back) level line =
      if op.toRight then (do
        let left ← row (first :: front) op.leftLevel p.line
        let right ← row back op.rightLevel p.line
        .ok (node p [left, right]))
      else (do
        let left ← operand row (first :: front) op.leftLevel p
        let right ← operand row back op.rightLevel p
        .ok (node p [left, right])) := by
  obtain ⟨lv, more, hdrop, hop, hrule, hlv⟩ := exists_level op
  have hleft := leftLevel_bounds op
  have hright := rightLevel_bounds op
  have hlt := op.level_lt
  have hhas : lv.has p.kind = true := by rw [hkind, hop]
  have htail : ∀ q ∈ front ++ p :: back, Above op.level q.kind := by
    intro q hq
    rw [List.mem_append, List.mem_cons] at hq
    rcases hq with hq | rfl | hq
    · exact (hfront q hq).mono hleft.1
    · exact hkind ▸ above_operator op
    · exact (hback q hq).mono hright.1
  rw [List.cons_append]
  by_cases hto : op.toRight = true
  · simp only [hto, if_true] at hrule
    simp only [Operator.leftLevel, Operator.rightLevel, hto, if_true] at hfirst hfront ⊢
    have hsplit : splitFirst? (fun q => lv.has q.kind) (first :: front ++ p :: back) =
        some (first :: front, p, back) := by
      apply splitFirst?_at _ hhas
      intro q hq
      rcases List.mem_cons.mp hq with rfl | hq
      · exact (hfirst lv hlv).resolve_left (by simp [hrule])
      · exact hfront q hq lv hlv
    apply climb_eq line (by simp) hlevel (by rw [chainLevel]; omega) (hfirst.mono (Nat.le_succ _)) htail hdrop
    simp only [List.cons_append] at hsplit
    simp [atLevel, hrule, hsplit]
  · simp only [hto, Bool.false_eq_true, if_false] at hrule
    simp only [Operator.leftLevel, Operator.rightLevel, hto, Bool.false_eq_true, if_false] at hfirst hback ⊢
    have hsplit : splitLast? (fun q => lv.has q.kind) (front ++ p :: back) = some (front, p, back) := by
      apply splitLast?_at _ hhas
      intro q hq
      exact hback q hq lv hlv
    apply climb_eq line (by simp) hlevel (by rw [chainLevel]; omega) hfirst htail hdrop
    simp [atLevel, hrule, hsplit]

/-- A binary operator is where its expression is split. -/
theorem comes_apply (hrow : ReadsRows row) (line : Nat) {op : Operator} {left right : Expr}
    (hlevel : level ≤ op.level) (hps : ps.map Piece.unlined = (Expr.apply op left right).row) :
    Comes (·.unlined = (Expr.apply op left right).tree) (climb row value ps level line) := by
  rw [Expr.row, List.map_eq_append_iff] at hps
  obtain ⟨front, _, rfl, hfront, hps⟩ := hps
  obtain ⟨p, back, rfl, hp, hback⟩ := List.map_eq_cons_iff.mp hps
  have hkind : p.kind = op.kind := Piece.kind_of_unlined hp
  have hne : front ≠ [] := by
    rintro rfl
    exact enclosed_ne_nil _ left hfront.symm
  have htree {t u : Tree} (ht : t.unlined = left.tree) (hu : u.unlined = right.tree) :
      (node p [t, u]).unlined = (Expr.apply op left right).tree := by
    simp [node, Expr.tree, hkind, ht, hu]
  have hleft := above_of_unlined hfront (above_operand (leftLevel_bounds op).2 (above_row left))
  have hright := above_of_unlined hback (above_operand (rightLevel_bounds op).2 (above_row right))
  obtain ⟨first, front, rfl⟩ := List.exists_cons_of_ne_nil hne
  rw [climb_apply line hlevel hkind (hleft first List.mem_cons_self).leads
    (fun q hq => hleft q (List.mem_cons_of_mem _ hq)) hright]
  split
  · refine (hrow _ _ left.tree _ (hfront ▸ stands_operand left)).bind fun t ht => ?_
    refine (hrow _ _ right.tree _ (hback ▸ stands_operand right)).bind fun u hu => ?_
    exact htree ht hu
  · refine (comes_operand hrow p hfront).bind fun t ht => ?_
    refine (comes_operand hrow p hback).bind fun u hu => ?_
    exact htree ht hu

/-- The last piece of a chain says what is done to the rest. -/
theorem climb_chain (line : Nat) {e : Expr} (he : e.level = chainLevel) (hlevel : level ≤ chainLevel)
    (hps : ps.map Piece.unlined = e.row) {first : Piece} {tail : List Piece} (hcons : ps = first :: tail)
    (htail : tail ≠ []) {r : Except CompileError Tree}
    (hr : atLevel row value chainLevel ⟨[.lpar, .lbra], .chain⟩ first tail = some r) :
    climb row value ps level line = r := by
  have habove := above_of_unlined hps (above_row e)
  rw [he, hcons] at habove
  rw [hcons]
  exact climb_eq line htail hlevel (Nat.le_refl _) (habove first List.mem_cons_self).leads
    (fun p hp => habove p (List.mem_cons_of_mem _ hp)) rfl hr

/-- A bracket behind a value calls it or looks something up in it. -/
theorem comes_suffix (hrow : ReadsRows row) (line : Nat) {e base : Expr} {opener k : Tok}
    {inner : List Piece} {t : Tree} (hk : (opener, k) ∈ [(Tok.lpar, Tok.call), (.lbra, .index)])
    (hinner : Stands 0 inner t) (he : e.level = chainLevel)
    (herow : e.row = Piece.enclosed (base.level < chainLevel) base.row ++ [.mk opener 0 inner])
    (htree : e.tree = .mk k 0 [base.tree, t]) (hlevel : level ≤ chainLevel)
    (hps : ps.map Piece.unlined = e.row) :
    Comes (·.unlined = e.tree) (climb row value ps level line) := by
  have hwhole := hps
  rw [herow, List.map_eq_append_iff] at hps
  obtain ⟨front, _, rfl, hfront, hps⟩ := hps
  obtain ⟨p, rfl, hp⟩ := List.map_eq_singleton_iff.mp hps
  have hkind : p.kind = opener := Piece.kind_of_unlined hp
  have hne : front ≠ [] := by
    rintro rfl
    exact enclosed_ne_nil _ base hfront.symm
  obtain ⟨first, front, rfl⟩ := List.exists_cons_of_ne_nil hne
  have hat : atLevel row value chainLevel ⟨[.lpar, .lbra], .chain⟩ first (front ++ [p]) = some (do
      let left ← operand row (first :: front) chainLevel p
      let inner ← inside row p
      .ok (.mk k p.line [left, inner])) := by
    simp only [List.mem_cons, Prod.mk.injEq, List.not_mem_nil, or_false] at hk
    rcases hk with ⟨rfl, rfl⟩ | ⟨rfl, rfl⟩ <;> simp [atLevel, hkind]
  rw [climb_chain line he hlevel hwhole List.cons_append (by simp) hat]
  refine (comes_operand hrow p hfront).bind fun u hu => ?_
  refine (comes_inside hrow hp hinner).bind fun v hv => ?_
  simp [htree, hu, hv]

end

section

variable {row : List Piece → Nat → Nat → Except CompileError Tree}
  {elseIf : Piece → Except CompileError Tree} {ps : List Piece} {level : Nat}

theorem atom_symbol {p : Piece} {s : Bytes} (hp : p.unlined = .mk (.symbol s) 0 []) :
    atom row elseIf p = .ok (.mk (.symbol s) p.line []) := by
  have hkind : p.kind = .symbol s := Piece.kind_of_unlined hp
  simp [atom, hkind]

theorem comes_member (hrow : ReadsRows row) (line : Nat) {owner : Expr} {s : Name}
    (hlevel : level ≤ chainLevel) (hps : ps.map Piece.unlined = (Expr.member owner s).row) :
    Comes (·.unlined = (Expr.member owner s).tree) (climb row (atom row elseIf) ps level line) := by
  have hwhole := hps
  rw [Expr.row, List.map_eq_append_iff] at hps
  obtain ⟨front, _, rfl, hfront, hps⟩ := hps
  obtain ⟨dot, _, rfl, hdot, hps⟩ := List.map_eq_cons_iff.mp hps
  obtain ⟨p, rfl, hp⟩ := List.map_eq_singleton_iff.mp hps
  have hkind : p.kind = .symbol s := Piece.kind_of_unlined hp
  have hkind' : dot.kind = .dot := Piece.kind_of_unlined hdot
  have hne : front ≠ [] := by
    rintro rfl
    exact enclosed_ne_nil _ owner hfront.symm
  obtain ⟨first, front, rfl⟩ := List.exists_cons_of_ne_nil hne
  have hat : atLevel row (atom row elseIf) chainLevel ⟨[.lpar, .lbra], .chain⟩ first (front ++ [dot, p]) =
      some (do
        let left ← operand row (first :: front) chainLevel dot
        let right ← atom row elseIf p
        .ok (node dot [left, right])) := by
    obtain ⟨last, more, hrev⟩ := List.exists_cons_of_ne_nil (by simp : (first :: front).reverse ≠ [])
    have hback : first :: front = (last :: more).reverse := by rw [← hrev, List.reverse_reverse]
    have hps : (first :: (front ++ [dot, p])).reverse = p :: dot :: last :: more := by
      rw [← List.cons_append, List.reverse_append, hrev]
      rfl
    simp [atLevel, hps, hkind, hkind', hback]
  rw [climb_chain line rfl hlevel hwhole List.cons_append (by simp) hat]
  refine (comes_operand hrow dot hfront).bind fun t ht => ?_
  rw [atom_symbol hp]
  simp [Expr.tree, node, hkind', ht, Bind.bind, Except.bind]

/-! ## arguments -/

theorem treeAll_eq (es : List Expr) : Expr.treeAll es = es.map Expr.tree := by
  induction es with
  | nil => rw [Expr.treeAll, List.map_nil]
  | cons e es ih => rw [Expr.treeAll, ih, List.map_cons]

theorem cut_args {e : Expr} {es : List Expr} (hps : ps.map Piece.unlined = Expr.rowAll (e :: es)) :
    ∃ parts final most last, e :: es = most ++ [last] ∧ cut (fun p => levels[0].has p.kind) ps = (parts, final) ∧
      List.Forall₂ (fun part e => part.1.map Piece.unlined = e.row) parts most ∧
      final.map Piece.unlined = last.row := by
  have hclear {e : Expr} {ps : List Piece} (hps : ps.map Piece.unlined = e.row) :
      ∀ p ∈ ps, levels[0].has p.kind = false := by
    intro p hp
    apply above_of_unlined hps (above_row e) p hp
    have hpos := (level_bounds e).1
    exact List.mem_take_iff_getElem.mpr ⟨0, by simp only [levels, List.length_cons]; omega, rfl⟩
  induction es generalizing e ps with
  | nil =>
    rw [Expr.rowAll] at hps
    exact ⟨[], ps, [], e, rfl, cut_eq (hclear hps), .nil, hps⟩
  | cons e' es ih =>
    rw [Expr.rowAll, List.map_eq_append_iff] at hps
    · obtain ⟨front, _, rfl, hfront, hps⟩ := hps
      obtain ⟨p, back, rfl, hp, hback⟩ := List.map_eq_cons_iff.mp hps
      obtain ⟨parts, final, most, last, hes, hcut, hparts, hfinal⟩ := ih hback
      have hkind : p.kind = .comma := Piece.kind_of_unlined hp
      refine ⟨(front, p) :: parts, final, e :: most, last, by rw [hes]; rfl, ?_, .cons hfront hparts, hfinal⟩
      rw [cut_at (hclear hfront) (by rw [hkind]; rfl), hcut]
    · simp

theorem comes_listItems (hrow : ReadsRows row) {parts : List (List Piece × Piece)} {es : List Expr}
    (h : List.Forall₂ (fun part e => part.1.map Piece.unlined = e.row) parts es) :
    Comes (fun ts => ts.map Tree.unlined = es.map Expr.tree) (listItems row 0 parts) := by
  induction h with
  | nil => exact rfl
  | @cons part e parts es hpart _ ih =>
    rw [listItems, List.mapM_cons]
    refine (hrow 1 part.1 e.tree part.2.line (hpart ▸ .expr e (level_bounds e).1)).bind fun t ht => ?_
    refine ih.bind fun ts hts => ?_
    show (t :: ts).map Tree.unlined = _
    simp [ht, hts]

theorem comes_list (hrow : ReadsRows row) (value : Piece → Except CompileError Tree) (line : Nat)
    {e e' : Expr} {es : List Expr} (hps : ps.map Piece.unlined = Expr.rowAll (e :: e' :: es)) :
    Comes (·.unlined = .mk .list 0 (Expr.treeAll (e :: e' :: es))) (climb row value ps 0 line) := by
  obtain ⟨parts, final, most, last, hes, hcut, hparts, hfinal⟩ := cut_args hps
  cases hparts with
  | nil => simp at hes
  | @cons part first more most hpart hmore =>
    have hlen : 2 ≤ ps.length := by
      rw [← List.length_map Piece.unlined, hps, Expr.rowAll]
      · have hrow := List.length_pos_iff.mpr (row_ne_nil e)
        simp only [List.length_append, List.length_cons]
        omega
      · simp
    match ps, hlen with
    | p :: q :: tail, _ =>
    have hat : atLevel row value 0 levels[0] p (q :: tail) = some (do
        let items ← listItems row 0 (part :: more)
        let last ← row final 1 ((more.getLastD part).2).line
        .ok (.mk .list part.2.line (items ++ [last]))) := by
      simp only [atLevel, levels, listTree, List.getElem_cons_zero] at hcut ⊢
      rw [hcut]
    rw [climb_eq line (by simp) (Nat.le_refl 0) (Nat.zero_le _) (by simp [Leads]) (by simp [Above]) rfl hat]
    refine (comes_listItems hrow (.cons hpart hmore)).bind fun ts hts => ?_
    refine (hrow 1 final last.tree _ (hfinal ▸ .expr last (level_bounds last).1)).bind fun t ht => ?_
    simp [treeAll_eq, hes, hts, ht]

/-! ## rows within a budget -/

/-- **One reading of a row,** given the readings inside it. -/
theorem comes_climb (hrow : ReadsRows row) : ReadsRows (climb row (atom row elseIf)) := by
  intro level ps t line hps
  generalize hqs : ps.map Piece.unlined = qs at hps
  cases hps with
  | expr e hlevel =>
    cases e with
    | name s =>
      rw [Expr.row] at hqs
      obtain ⟨p, rfl, hp⟩ := List.map_eq_singleton_iff.mp hqs
      have hkind : p.kind = .symbol s := Piece.kind_of_unlined hp
      simp [climb, hkind, Tok.isAtom, atom_symbol hp, Expr.tree]
    | apply op left right => exact comes_apply hrow line hlevel hqs
    | member owner s => exact comes_member hrow line hlevel hqs
    | call func args =>
      have herow : (Expr.call func args).row =
          Piece.enclosed (func.level < chainLevel) func.row ++ [.mk .lpar 0 (Expr.rowAll args)] := by
        rw [Expr.row]
      have hetree : (Expr.call func args).tree = .mk .call 0 [func.tree, Expr.argsTree args] := by
        rw [Expr.tree]
      exact comes_suffix hrow line (by simp) (stands_args args) rfl herow hetree hlevel hqs
    | index box key =>
      have herow : (Expr.index box key).row =
          Piece.enclosed (box.level < chainLevel) box.row ++ [.mk .lbra 0 key.row] := by
        rw [Expr.row]
      have hetree : (Expr.index box key).tree = .mk .index 0 [box.tree, key.tree] := by
        rw [Expr.tree]
      have hkey : Stands 0 key.row key.tree := .expr key (Nat.zero_le _)
      exact comes_suffix hrow line (by simp) hkey rfl herow hetree hlevel hqs
  | enclosed e =>
    obtain ⟨p, rfl, hp⟩ := List.map_eq_singleton_iff.mp hqs
    have hkind : p.kind = .lpar := Piece.kind_of_unlined hp
    have hinside := comes_inside hrow hp (.expr e (Nat.zero_le _))
    simpa [climb, hkind, Tok.isAtom, atom] using hinside
  | nothing =>
    rw [List.map_eq_nil_iff] at hqs
    subst hqs
    simp [climb, Tree.empty]
  | list e e' es => exact comes_list hrow _ line hqs

end

/-- Rows of expressions are read as their trees within every budget that is large enough. -/
theorem readsRows (d : Nat) : ReadsRows (row d) := by
  induction d with
  | zero =>
    intro level ps t line _
    rw [row]
    exact comes_tooDeep line
  | succ d ih =>
    intro level ps t line hps
    rw [row]
    exact comes_climb ih level ps t line hps

end ScriptEngine.Precedence

namespace ScriptEngine

theorem Expr.signs_words (e : Expr) : signs none (e.words.map Word.kind) = e.words.map Word.kind := by
  obtain ⟨k, -, hsigns⟩ := e.unsigned_row none []
  rw [e.kinds_words]
  simpa [signs] using hsigns

/-- **What an expression is written as is read as its tree,** unless it is nested too deeply. -/
theorem parse_text (e : Expr) (line : Nat) :
    (∃ t, parse e.text line = .ok t ∧ t.unlined = e.tree) ∨
      ∃ err, parse e.text line = .error err ∧ err.fault.message = "expression too deeply nested" := by
  obtain ⟨ts, hlex, hkinds⟩ := lex_written e.words line
  rw [e.signs_words, e.kinds_words] at hkinds
  have hcomes : Comes (·.unlined = e.tree) (parse e.text line) := by
    unfold parse
    rw [Expr.text, hlex]
    refine (comes_bracket (fun p hp => (e.plain_row p hp).grouped) hkinds).bind fun ps hps => ?_
    have hplain (p : Piece) (hp : p ∈ ps) : p.Plain := by
      obtain ⟨q, hq, hqp⟩ := List.mem_map.mp (hps ▸ List.mem_map_of_mem hp)
      exact (e.plain_row q hq).of_unlined hqp.symm
    refine (Blocks.comes_fix line hplain).bind ?_
    rintro ps rfl
    rw [e.unlined_row] at hps
    exact Precedence.readsRows maxNesting 0 ps e.tree line (hps ▸ .expr e (Nat.zero_le _))
  cases hp : parse e.text line with
  | ok t =>
    rw [hp] at hcomes
    exact .inl ⟨t, rfl, hcomes⟩
  | error err =>
    rw [hp] at hcomes
    have hfault : err.fault = .tooDeep := hcomes
    exact .inr ⟨err, rfl, by rw [hfault]; rfl⟩

end ScriptEngine
