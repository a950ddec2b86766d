import Mathlib.Data.List.TakeWhile
import ScriptEngine.Grammar.Precedence
import ScriptEngine.Proofs.Grammar.Grouping

/-!
# The leaves of a tree

A row of pieces is split at operators, which are no values, and its parts are read in their order.  So
the leaves of the tree that is read are the values of the row.

* `Precedence.reads_atLevel`   what each rule of binding makes of a row;
* `Precedence.reads_row`       the leaves of a tree are the values of the row it was read from;
* `leaves_parse`               **the leaves of a tree are the values of the text.**
-/

namespace ScriptEngine

open Piece

/-! ## rows -/

namespace Precedence

/-- The leaves of the tree that is read are the values of a row. -/
def Reads (ps : List Piece) (r : Except CompileError Tree) : Prop :=
  Yields (fun t => t.leaves = valuesAll true ps) r

/-- An operator shows nothing of its own. -/
def Mute (p : Piece) : Prop := values true p = []

theorem leaves_node (k : Tok) (l : Nat) (t : Tree) (ts : List Tree) :
    (Tree.mk k l (t :: ts)).leaves = t.leaves ++ Tree.leavesAll ts := rfl

theorem splitFirst?_eq_some {p : Piece → Bool} {ps front back : List Piece} {op : Piece}
    (h : splitFirst? p ps = some (front, op, back)) :
    ps = front ++ op :: back ∧ p op = true ∧ ∀ x ∈ front, p x = false := by
  unfold splitFirst? at h
  rw [List.span_eq_takeWhile_dropWhile] at h
  have hall := List.takeWhile_append_dropWhile (p := fun x => !p x) (l := ps)
  split at h
  · rename_i front' x back' heq
    obtain ⟨rfl, rfl, rfl⟩ : front' = front ∧ x = op ∧ back' = back := by
      cases h
      exact ⟨rfl, rfl, rfl⟩
    obtain ⟨hfront, hback⟩ := Prod.mk.inj heq
    refine ⟨by rw [← hfront, ← hback, hall], ?_, fun x hx => ?_⟩
    · have hx := List.head?_dropWhile_not (fun x => !p x) ps
      rw [hback] at hx
      simpa using hx
    · rw [← hfront] at hx
      simpa using List.mem_takeWhile_imp hx
  · exact nomatch h

theorem splitLast?_eq_some {p : Piece → Bool} {ps front back : List Piece} {op : Piece}
    (h : splitLast? p ps = some (front, op, back)) :
    ps = front ++ op :: back ∧ p op = true ∧ ∀ x ∈ back, p x = false := by
  unfold splitLast? at h
  split at h
  · rename_i heq
    obtain ⟨hps, hop, hback⟩ := splitFirst?_eq_some heq
    cases h
    refine ⟨?_, hop, fun x hx => hback x (List.mem_reverse.mp hx)⟩
    rw [← List.reverse_reverse ps, hps, List.reverse_append, List.reverse_cons, List.append_assoc]
    rfl
  · exact nomatch h

theorem eq_false_of_splitLast? {p : Piece → Bool} {ps : List Piece} (h : splitLast? p ps = none) :
    ∀ x ∈ ps, p x = false := by
  unfold splitLast? splitFirst? at h
  rw [List.span_eq_takeWhile_dropWhile] at h
  split at h
  · exact nomatch h
  · rename_i hsplit
    split at hsplit
    · exact nomatch hsplit
    · rename_i hdrop
      intro x hx
      have hall := List.dropWhile_eq_nil_iff.mp (Prod.mk.inj hdrop).2 x (List.mem_reverse.mpr hx)
      simpa using hall

/-- The parts a row is cut into, with the separators after them, make up the row. -/
theorem cut_spec (p : Piece → Bool) (ps : List Piece) :
    ps = (cut p ps).1.flatMap (fun (part, sep) => part ++ [sep]) ++ (cut p ps).2 ∧
      ∀ x ∈ (cut p ps).1, p x.2 = true := by
  -- over the pieces still to come, behind the parts that have been cut
  have hfold (qs : List Piece) (parts : List (List Piece × Piece)) (part : List Piece)
      (hparts : ∀ x ∈ parts, p x.2 = true) :
      let r := qs.foldl (cutStep p) (parts, part)
      parts.reverse.flatMap (fun (part, sep) => part ++ [sep]) ++ (part.reverse ++ qs) =
          r.1.reverse.flatMap (fun (part, sep) => part ++ [sep]) ++ r.2.reverse ∧
        ∀ x ∈ r.1, p x.2 = true := by
    induction qs generalizing parts part with
    | nil => exact ⟨by simp, hparts⟩
    | cons q qs ih =>
      by_cases hq : p q = true
      · have := ih ((part.reverse, q) :: parts) [] (by
          intro x hx
          rcases List.mem_cons.mp hx with rfl | hx
          · exact hq
          · exact hparts x hx)
        simpa [cutStep, hq] using this
      · simpa [cutStep, hq] using ih parts (q :: part) hparts
  obtain ⟨heq, hall⟩ := hfold ps [] [] (fun _ hx => by cases hx)
  refine ⟨?_, fun x hx => hall x ?_⟩
  · simpa [cut_foldl] using heq
  · simpa [cut_foldl] using hx

section

variable {row : List Piece → Nat → Nat → Except CompileError Tree}
  {value elseIf : Piece → Except CompileError Tree}
  (hrow : ∀ ps level line, Reads ps (row ps level line))
  (hvalue : ∀ p, Reads [p] (value p)) (helse : ∀ p, p.kind = .kIf → Reads [p] (elseIf p))

include hrow in
theorem reads_blockTree (p : Piece) : Reads p.inner (blockTree row p) :=
  (hrow p.inner 0 p.line).bind fun t ht => yields_ok (by rw [leaves_node, ht]; exact List.append_nil _)

theorem valuesAll_singleton (p : Piece) : valuesAll true [p] = values true p := List.append_nil _

include hrow in
theorem reads_inside {p : Piece} (hp : p.kind.isOpen = true) : Reads [p] (inside row p) := by
  obtain ⟨k, l, ps⟩ := p
  refine (hrow ps 0 l).mono fun t ht => ?_
  rw [ht, valuesAll_singleton]
  exact (values_of_isOpen _ hp l ps).symm

include hrow in
theorem reads_func (l : Nat) (ps : List Piece) :
    Reads [.mk .kFunc l ps] (atom row elseIf (.mk .kFunc l ps)) := by
  rcases ps with _ | ⟨params, _ | ⟨body, _ | ⟨_, _⟩⟩⟩
  · exact yields_faultAt _ _
  · obtain ⟨k, m, a⟩ := params
    refine (reads_blockTree hrow _).bind fun t ht => yields_ok ?_
    rw [node, leaves_node, ht, valuesAll_singleton]
    exact List.append_nil _
  · obtain ⟨k, m, a⟩ := params
    obtain ⟨j, n, b⟩ := body
    refine (hrow a 0 m).bind fun t ht => ?_
    refine (reads_blockTree hrow _).bind fun u hu => yields_ok ?_
    rw [node, leaves_node, ht, valuesAll_singleton]
    exact congrArg (_ ++ ·) ((List.append_nil _).trans hu)
  · exact yields_faultAt _ _

include hrow helse in
theorem reads_control {k : Tok} (hk : k.isControl = true) (l : Nat) (ps : List Piece) :
    Reads [.mk k l ps] (match ps with
      | [head, body] => do
        let head ← inside row head
        .ok (node (.mk k l ps) [head, ← blockTree row body])
      | [head, body, other] => do
        let head ← inside row head
        let body ← blockTree row body
        let other ← if other.kind == .kIf then elseIf other else blockTree row other
        .ok (node (.mk k l ps) [head, body, other])
      | _ => faultAt l .malformedControl) := by
  have hvalues : valuesAll true [.mk k l ps] = parts true ps :=
    (valuesAll_singleton _).trans (values_of_isControl _ hk l ps)
  split
  · rename_i head body
    obtain ⟨i, m, a⟩ := head
    obtain ⟨j, n, b⟩ := body
    refine (hrow a 0 m).bind fun t ht => ?_
    refine (reads_blockTree hrow _).bind fun u hu => yields_ok ?_
    rw [hvalues, node, leaves_node, ht]
    exact congrArg (_ ++ ·) ((List.append_nil _).trans hu)
  · rename_i head body other
    obtain ⟨i, m, a⟩ := head
    obtain ⟨j, n, b⟩ := body
    obtain ⟨h, o, c⟩ := other
    refine (hrow a 0 m).bind fun t ht => ?_
    refine (reads_blockTree hrow _).bind fun u hu => ?_
    have hmade (v : Tree) (hv : v.leaves = if h == .kIf then parts true c else valuesAll true c) :
        (node (.mk k l [.mk i m a, .mk j n b, .mk h o c]) [t, u, v]).leaves =
          valuesAll true [.mk k l [.mk i m a, .mk j n b, .mk h o c]] := by
      rw [hvalues, node, leaves_node, ht]
      exact congrArg (_ ++ ·) (congrArg₂ (· ++ ·) hu ((List.append_nil _).trans hv))
    show Yields _ (ite (h == .kIf) _ _)
    split
    · rename_i hh
      rw [if_pos hh] at hmade
      obtain rfl := beq_iff_eq.mp hh
      exact (helse _ rfl).bind fun v hv => yields_ok (hmade v (hv.trans (valuesAll_singleton _)))
    · rename_i hh
      rw [if_neg hh] at hmade
      exact (reads_blockTree hrow _).bind fun v hv => yields_ok (hmade v hv)
  · exact yields_faultAt _ _

include hrow helse in
theorem reads_atom (p : Piece) : Reads [p] (atom row elseIf p) := by
  obtain ⟨k, l, ps⟩ := p
  cases k
  case kFunc => exact reads_func hrow l ps
  case kIf => exact reads_control hrow helse rfl l ps
  case kWhile => exact reads_control hrow helse rfl l ps
  case kFor => exact reads_control hrow helse rfl l ps
  case kForeach => exact reads_control hrow helse rfl l ps
  case kForindex => exact reads_control hrow helse rfl l ps
  case lpar => exact reads_inside hrow rfl
  case lbra | lcurl =>
    refine (reads_inside hrow rfl).bind fun t ht => yields_ok ?_
    rw [node, leaves_node, ht]
    exact List.append_nil _
  case symbol | number | text | nil | empty => exact yields_ok rfl
  all_goals exact yields_faultAt _ _

/-! ### levels -/

/-- Kinds that are no values and have nothing below them. -/
def isBare (k : Tok) : Bool :=
  !(Tree.isValue k || k.isOpen || k == .kFunc || k.isControl)

theorem mute_of_isBare {p : Piece} (hp : isBare p.kind = true) : Mute p := by
  obtain ⟨k, l, ps⟩ := p
  cases k <;> first | rfl | exact nomatch hp

/-- The operators of a level that is no chain show nothing of their own. -/
theorem mute_of_has {lv : Level} (hlv : lv ∈ levels) (hrule : lv.rule ≠ .chain) {p : Piece}
    (hp : lv.has p.kind = true) : Mute p := by
  have hbare : lv.ops.all isBare = true := by
    simp only [levels, List.mem_cons, List.not_mem_nil, or_false] at hlv
    rcases hlv with rfl | rfl | rfl | rfl | rfl | rfl | rfl | rfl | rfl | rfl | rfl | rfl | rfl | rfl
      | rfl
    all_goals first | exact absurd rfl hrule | rfl
  exact mute_of_isBare (List.all_eq_true.mp hbare _ (List.contains_iff_mem.mp hp))

include hrow in
theorem reads_operand (ps : List Piece) (level : Nat) (op : Piece) :
    Reads ps (operand row ps level op) := by
  refine (hrow ps level op.line).bind fun t ht => ?_
  split
  · exact yields_faultAt _ _
  · exact yields_ok ht

theorem reads_two {op : Piece} (hop : Mute op) {front back : List Piece}
    {a b : Except CompileError Tree} (ha : Reads front a) (hb : Reads back b) :
    Reads (front ++ op :: back) (do
      let left ← a
      let right ← b
      .ok (node op [left, right])) := by
  refine ha.bind fun t ht => hb.bind fun u hu => yields_ok ?_
  rw [node, leaves_node, ht, valuesAll_append, valuesAll_cons, hop]
  exact congrArg (_ ++ ·) ((List.append_nil _).trans hu)

include hrow in
theorem yields_listItems (level : Nat) (parts : List (List Piece × Piece))
    (hparts : ∀ x ∈ parts, Mute x.2) :
    Yields (fun ts => Tree.leavesAll ts =
        valuesAll true (parts.flatMap fun (part, sep) => part ++ [sep]))
      (listItems row level parts) := by
  unfold listItems
  induction parts with
  | nil => exact yields_ok rfl
  | cons x parts ih =>
    obtain ⟨part, sep⟩ := x
    rw [List.mapM_cons]
    refine (hrow part (level + 1) sep.line).bind fun t ht => ?_
    refine (ih fun y hy => hparts y (List.mem_cons_of_mem _ hy)).bind fun ts hts => yields_ok ?_
    have hsep : values true sep = [] := hparts _ List.mem_cons_self
    rw [List.flatMap_cons, valuesAll_append, valuesAll_append, valuesAll_singleton, hsep, ← hts,
      ← ht, List.append_nil]
    rfl

theorem leavesAll_append (ts us : List Tree) :
    Tree.leavesAll (ts ++ us) = Tree.leavesAll ts ++ Tree.leavesAll us := by
  induction ts with
  | nil => rfl
  | cons t ts ih =>
    show t.leaves ++ Tree.leavesAll (ts ++ us) = _
    rw [ih, ← List.append_assoc]
    rfl

include hrow in
theorem reads_listTree (level : Nat) (ps : List Piece) {lv : Level}
    (hops : ∀ p : Piece, lv.has p.kind = true → Mute p) :
    ∀ r, listTree row level ps lv = some r → Reads ps r := by
  intro r hr
  obtain ⟨hps, hseps⟩ := cut_spec (fun p => lv.has p.kind) ps
  unfold listTree at hr
  split at hr
  · exact nomatch hr
  · rename_i part sep more final heq
    rw [heq] at hps hseps
    obtain rfl := Option.some.inj hr
    refine (yields_listItems hrow level _ fun x hx => hops x.2 (hseps x hx)).bind fun ts hts => ?_
    refine (hrow final (level + 1) _).bind fun t ht => yields_ok ?_
    have hleaves : (Tree.mk .list sep.line (ts ++ [t])).leaves = Tree.leavesAll (ts ++ [t]) := by
      cases ts <;> rfl
    rw [hleaves, leavesAll_append, hts, hps, valuesAll_append]
    exact congrArg (_ ++ ·) ((List.append_nil _).trans ht)

/-- The last piece of a row, and those before it. -/
theorem eq_of_reverse_eq {ps front : List Piece} {last : Piece} (h : ps.reverse = last :: front) :
    ps = front.reverse ++ [last] := by
  rw [← List.reverse_reverse ps, h, List.reverse_cons]

include hrow hvalue in
theorem reads_chain (level : Nat) (front : List Piece) (last : Piece)
    {r : Except CompileError Tree} (hr : (match last.kind with
      | .lpar => some do
        let left ← operand row front.reverse level last
        let arguments ← inside row last
        .ok (.mk .call last.line [left, arguments])
      | .lbra => some do
        let left ← operand row front.reverse level last
        let key ← inside row last
        .ok (.mk .index last.line [left, key])
      | .symbol _ =>
        match front with
        | dot :: owner :: more =>
          if dot.kind == .dot then some do
            let left ← operand row (owner :: more).reverse level dot
            let right ← value last
            .ok (node dot [left, right])
          else none
        | _ => none
      | _ => none) = some r) : Reads (front.reverse ++ [last]) r := by
  -- what is in front, and the bracket behind it
  have hbracket (k : Tok) (hk : last.kind.isOpen = true) : Reads (front.reverse ++ [last]) (do
      let left ← operand row front.reverse level last
      let inner ← inside row last
      .ok (.mk k last.line [left, inner])) := by
    refine (reads_operand hrow _ level last).bind fun t ht => ?_
    refine (reads_inside hrow hk).bind fun u hu => yields_ok ?_
    rw [leaves_node, ht, valuesAll_append]
    exact congrArg (_ ++ ·) ((List.append_nil _).trans hu)
  split at hr
  · rename_i hk
    obtain rfl := Option.some.inj hr
    exact hbracket .call (by rw [hk]; rfl)
  · rename_i hk
    obtain rfl := Option.some.inj hr
    exact hbracket .index (by rw [hk]; rfl)
  · split at hr
    · split at hr
      · rename_i dot owner more hdot
        obtain rfl := Option.some.inj hr
        have hmute : Mute dot := mute_of_isBare (by rw [beq_iff_eq.mp hdot]; rfl)
        have htwo := reads_two hmute (reads_operand hrow (owner :: more).reverse level dot)
          (hvalue last)
        rw [List.reverse_cons, List.append_assoc]
        exact htwo
      · exact nomatch hr
    · exact nomatch hr
  · exact nomatch hr

include hrow hvalue in
theorem reads_atLevel (level : Nat) {lv : Level} (hlv : lv ∈ levels) (first : Piece)
    (tail : List Piece) {r : Except CompileError Tree}
    (hr : atLevel row value level lv first tail = some r) : Reads (first :: tail) r := by
  have hmute {p : Piece} (hrule : lv.rule ≠ .chain) (hp : lv.has p.kind = true) : Mute p :=
    mute_of_has hlv hrule hp
  unfold atLevel at hr
  cases hrule : lv.rule with
  | list =>
    rw [hrule] at hr
    exact reads_listTree hrow level _ (fun p => hmute (by rw [hrule]; exact Rule.noConfusion)) r hr
  | fromLeft =>
    rw [hrule] at hr
    obtain ⟨⟨front, op, back⟩, hsplit, rfl⟩ := Option.map_eq_some_iff.mp hr
    obtain ⟨hps, hop, -⟩ := splitFirst?_eq_some hsplit
    rw [hps]
    exact reads_two (hmute (by rw [hrule]; exact Rule.noConfusion) hop) (hrow _ _ _) (hrow _ _ _)
  | fromRight =>
    rw [hrule] at hr
    obtain ⟨⟨front, op, back⟩, hsplit, rfl⟩ := Option.map_eq_some_iff.mp hr
    obtain ⟨hps, hop, -⟩ := splitLast?_eq_some hsplit
    rw [hps, ← List.cons_append]
    exact reads_two (hmute (by rw [hrule]; exact Rule.noConfusion) hop)
      (reads_operand hrow _ _ _) (reads_operand hrow _ _ _)
  | before =>
    rw [hrule] at hr
    dsimp only at hr
    split at hr
    · rename_i hop
      obtain rfl := Option.some.inj hr
      have hfirst : values true first = [] := hmute (by rw [hrule]; exact Rule.noConfusion) hop
      have hright {x : Except CompileError Tree} (hx : Reads tail x) :
          Reads (first :: tail) (do .ok (node first [← x])) := by
        refine hx.bind fun t ht => yields_ok ?_
        rw [node, leaves_node, ht, valuesAll_cons, hfirst]
        exact List.append_nil _
      split
      · exact hright (hrow tail level first.line)
      · exact hright (hrow tail level first.line)
      · exact hright (hrow tail level first.line)
      · exact hright (reads_operand hrow tail level first)
    · cases hr
  | rest =>
    rw [hrule] at hr
    dsimp only at hr
    split at hr
    · rename_i last front hrev
      split at hr
      · rename_i hop
        obtain rfl := Option.some.inj hr
        have hlast : values true last = [] := hmute (by rw [hrule]; exact Rule.noConfusion) hop
        rw [eq_of_reverse_eq hrev]
        refine (reads_operand hrow _ level last).bind fun t ht => yields_ok ?_
        rw [node, leaves_node, ht, valuesAll_append, valuesAll_singleton, hlast]
        rfl
      · cases hr
    · cases hr
  | chain =>
    rw [hrule] at hr
    dsimp only at hr
    split at hr
    · rename_i last front hrev
      rw [eq_of_reverse_eq hrev]
      exact reads_chain hrow hvalue level front last hr
    · cases hr

include hrow hvalue in
theorem reads_fromLevel (first : Piece) (tail : List Piece) (level : Nat) (lvs : List Level)
    (hlvs : ∀ lv ∈ lvs, lv ∈ levels) :
    Reads (first :: tail) (fromLevel row value first tail level lvs) := by
  induction lvs generalizing level with
  | nil => exact yields_faultAt _ _
  | cons lv lvs ih =>
    unfold fromLevel
    split
    · rename_i r hr
      exact reads_atLevel hrow hvalue level (hlvs lv List.mem_cons_self) first tail hr
    · exact ih (level + 1) fun lv' h => hlvs lv' (List.mem_cons_of_mem _ h)

include hrow hvalue in
theorem reads_climb (ps : List Piece) (level line : Nat) :
    Reads ps (climb row value ps level line) := by
  have hlevels (lv : Level) (h : lv ∈ levels.drop level) : lv ∈ levels := List.mem_of_mem_drop h
  unfold climb
  split
  · exact yields_ok rfl
  · split
    · exact hvalue _
    · exact reads_fromLevel hrow hvalue _ _ _ _ hlevels
  · exact reads_fromLevel hrow hvalue _ _ _ _ hlevels

end

theorem reads_row_elseIf (d : Nat) : (∀ ps level line, Reads ps (row d ps level line)) ∧
    ∀ p, p.kind = .kIf → Reads [p] (elseIf d p) := by
  induction d with
  | zero => exact ⟨fun _ _ _ => yields_faultAt _ _, fun _ _ => yields_faultAt _ _⟩
  | succ d ih =>
    refine ⟨fun ps level line => ?_, fun p _ => reads_atom ih.1 ih.2 p⟩
    exact reads_climb ih.1 (fun p => reads_atom ih.1 ih.2 p) ps level line

/-- **The leaves of a tree are the values of the row it was read from**, in their order. -/
theorem reads_row (d : Nat) (ps : List Piece) (level line : Nat) : Reads ps (row d ps level line) :=
  (reads_row_elseIf d).1 ps level line

end Precedence

/-! ## the whole text -/

/-- **Parsing loses, adds and moves no value**: the leaves of the tree of a text, from left to right,
are the names, numbers, strings and `nil`s among the tokens of the text, each with its line. -/
theorem leaves_parse {src : Bytes} {firstLine : Nat} {t : Tree} (h : parse src firstLine = .ok t) :
    ∃ ts, lex src firstLine = .ok ts ∧ t.leaves =
      (ts.filter fun t => Tree.isValue t.kind).map fun t => (t.kind, t.line) := by
  unfold parse at h
  cases hlex : lex src firstLine with
  | error e =>
    rw [hlex] at h
    exact nomatch h
  | ok ts =>
    rw [hlex] at h
    refine ⟨ts, rfl, ?_⟩
    have hstages : Yields (fun t => t.leaves = Token.values ts) (do
        let pieces ← bracket ts
        let pieces ← Blocks.fix firstLine pieces
        Precedence.row maxNesting pieces 0 firstLine) := by
      refine (yields_bracket ts).bind fun ps hps => ?_
      refine (Blocks.keeps_fix firstLine ps).bind fun qs hqs => ?_
      refine (Precedence.reads_row maxNesting qs 0 firstLine).mono fun t ht => ?_
      rw [ht, hqs, hps]
    exact hstages t h

/-- An unbraced branch, an `else if`, a parameter list and an index. -/
theorem leaves_parse_branches :
    let src := Bytes.ofString "if (a) b = nil; else if (c) f = func(x) \x7b x[d] \x7d; else e"
    ∃ t, parse src 1 = .ok t ∧ ∃ ts, lex src 1 = .ok ts ∧ t.leaves =
      (ts.filter fun t => Tree.isValue t.kind).map fun t => (t.kind, t.line) := by
  have h : (parse (Bytes.ofString "if (a) b = nil; else if (c) f = func(x) \x7b x[d] \x7d; else e")
      1).isOk = true := by decide +kernel
  generalize hp : parse _ 1 = r at h
  cases r with
  | ok t => exact ⟨t, hp, leaves_parse hp⟩
  | error e => exact nomatch h

end ScriptEngine
