import Mathlib.Data.List.Forall2
import Mathlib.Data.List.TakeDrop
import ScriptEngine.Proofs.Grammar.Grouping
import ScriptEngine.Proofs.Grammar.Rendering

/-!
# Lines do not matter

Two results agree when both are there and related, or both report the same fault, or one of them reports
that something is nested too deeply.  Forests that differ in their lines only are read as trees that
differ in their lines only.

* `Agree`            results that agree;
* `Precedence.alike_climb`   one reading of rows that differ in their lines;
* `Precedence.alike_row`     **readings of rows that differ in their lines agree**, within whatever budgets.
-/

namespace ScriptEngine

/-! ## agreement -/

/-- Results that are related, or report the same fault, unless one reports that something is nested too
deeply. -/
inductive Agree {α β : Type} (R : α → β → Prop) : Except CompileError α → Except CompileError β → Prop
  | ok {a : α} {b : β} (h : R a b) : Agree R (.ok a) (.ok b)
  | error {e e' : CompileError} (h : e.fault = e'.fault) : Agree R (.error e) (.error e')
  | left {e : CompileError} {r : Except CompileError β} (h : e.fault = .tooDeep) : Agree R (.error e) r
  | right {e : CompileError} {r : Except CompileError α} (h : e.fault = .tooDeep) : Agree R r (.error e)

section

variable {α β γ δ : Type} {R R' : α → β → Prop} {S : γ → δ → Prop} {r : Except CompileError α}
  {r' : Except CompileError β}

theorem agree_faultAt (line line' : Nat) (fault : Fault) : Agree R (faultAt line fault) (faultAt line' fault) :=
  .error rfl

theorem Agree.bind {f : α → Except CompileError γ} {g : β → Except CompileError δ} (h : Agree R r r')
    (hf : ∀ a b, R a b → Agree S (f a) (g b)) : Agree S (r >>= f) (r' >>= g) := by
  cases h with
  | ok h => exact hf _ _ h
  | error h => exact .error h
  | left h => exact .left h
  | right h => exact .right h

theorem Agree.and_of_yields (h : Agree R r r') {P : α → Prop} {Q : β → Prop} (hP : Yields P r) (hQ : Yields Q r') :
    Agree (fun a b => R a b ∧ P a ∧ Q b) r r' := by
  cases h with
  | ok h => exact .ok ⟨h, hP _ rfl, hQ _ rfl⟩
  | error h => exact .error h
  | left h => exact .left h
  | right h => exact .right h

theorem Agree.comes {b : β} (h : Agree R r (.ok b)) : Comes (fun a => R a b) r := by
  cases h with
  | ok h => exact h
  | left h => exact h

theorem Comes.agree {P : α → Prop} {Q : β → Prop} (h : Comes P r) (h' : Comes Q r') :
    Agree (fun a b => P a ∧ Q b) r r' := by
  cases r with
  | error e => exact .left h
  | ok a =>
    cases r' with
    | error e => exact .right h'
    | ok b => exact .ok ⟨h, h'⟩

end

/-! ## rows that differ in their lines -/

namespace Precedence

/-- Trees that differ in their lines only, or the same fault. -/
def Alike : Except CompileError Tree → Except CompileError Tree → Prop := Agree fun t u => t.unlined = u.unlined

section

variable {f : Piece → Piece} {p : Piece → Bool}

theorem splitFirst?_map (ps : List Piece) : splitFirst? p (ps.map f) =
    (splitFirst? (p ∘ f) ps).map fun (front, op, back) => (front.map f, f op, back.map f) := by
  unfold splitFirst?
  rw [List.span_eq_takeWhile_dropWhile, List.span_eq_takeWhile_dropWhile, List.takeWhile_map, List.dropWhile_map]
  have hcomp : (fun x => !p x) ∘ f = fun x => !(p ∘ f) x := rfl
  rw [hcomp]
  cases ps.dropWhile fun x => !(p ∘ f) x <;> rfl

theorem splitLast?_map (ps : List Piece) : splitLast? p (ps.map f) =
    (splitLast? (p ∘ f) ps).map fun (front, op, back) => (front.map f, f op, back.map f) := by
  rw [splitLast?, splitLast?, ← List.map_reverse, splitFirst?_map]
  cases splitFirst? (p ∘ f) ps.reverse <;> simp

theorem cut_map (ps : List Piece) : cut p (ps.map f) =
    ((cut (p ∘ f) ps).1.map fun (part, sep) => (part.map f, f sep), (cut (p ∘ f) ps).2.map f) := by
  -- over the pieces still to come, behind the parts that have been cut
  have hfold (qs : List Piece) (parts : List (List Piece × Piece)) (part : List Piece) :
      let r := qs.foldl (cutStep (p ∘ f)) (parts, part)
      (qs.map f).foldl (cutStep p)
        (parts.map fun (part, sep) => (part.map f, f sep), part.map f) =
        (r.1.map fun (part, sep) => (part.map f, f sep), r.2.map f) := by
    induction qs generalizing parts part with
    | nil => rfl
    | cons q qs ih =>
      by_cases hq : p (f q) = true
      · simpa [cutStep, hq] using ih ((part.reverse, q) :: parts) []
      · simpa [cutStep, hq] using ih parts (q :: part)
  have h := hfold ps [] []
  simp only [List.map_nil] at h
  rw [cut_foldl, h]
  simp [cut_foldl]

end

theorem has_unlined (lv : Level) :
    (fun p : Piece => lv.has p.kind) ∘ Piece.unlined = fun p => lv.has p.kind := by
  funext p
  rw [Function.comp_apply, ← Piece.kind_of_unlined (p := p) rfl]

/-- Rows split at pieces that differ in their lines only, into rows that do. -/
def AlikeSplit (s t : List Piece × Piece × List Piece) : Prop :=
  s.1.map Piece.unlined = t.1.map Piece.unlined ∧ s.2.1.unlined = t.2.1.unlined ∧
    s.2.2.map Piece.unlined = t.2.2.map Piece.unlined

theorem alikeSplit_of_map {s t : Option (List Piece × Piece × List Piece)}
    (h : (s.map fun (front, op, back) => (front.map Piece.unlined, op.unlined, back.map Piece.unlined)) =
      t.map fun (front, op, back) => (front.map Piece.unlined, op.unlined, back.map Piece.unlined)) :
    Option.Rel AlikeSplit s t := by
  cases s with
  | none =>
    cases t with
    | none => exact .none
    | some t => exact nomatch h
  | some s =>
    cases t with
    | none => exact nomatch h
    | some t =>
      obtain ⟨h1, h2⟩ := Prod.mk.inj (Option.some.inj h)
      obtain ⟨h2, h3⟩ := Prod.mk.inj h2
      exact .some ⟨h1, h2, h3⟩

section

variable {row row' : List Piece → Nat → Nat → Except CompileError Tree}
  {value value' elseIf elseIf' : Piece → Except CompileError Tree} {ps qs : List Piece} {p q : Piece}
  (hrow : ∀ {ps qs : List Piece} (level line line' : Nat), ps.map Piece.unlined = qs.map Piece.unlined →
    Alike (row ps level line) (row' qs level line'))
  (hvalue : ∀ {p q : Piece}, p.unlined = q.unlined → Alike (value p) (value' q))
  (helse : ∀ {p q : Piece}, p.unlined = q.unlined → Alike (elseIf p) (elseIf' q))

theorem kind_eq_of_unlined (h : p.unlined = q.unlined) : p.kind = q.kind := by
  rw [Piece.kind_of_unlined h, ← Piece.kind_of_unlined (p := q) rfl]

theorem inner_eq_of_unlined (h : p.unlined = q.unlined) : p.inner.map Piece.unlined = q.inner.map Piece.unlined := by
  rw [Piece.inner_of_unlined h, Piece.inner_of_unlined (p := q) rfl]

/-- Forests that differ in their lines only have pieces that do. -/
theorem forall₂_unlined (h : ps.map Piece.unlined = qs.map Piece.unlined) :
    List.Forall₂ (fun p q => p.unlined = q.unlined) ps qs := by
  have hmap : List.Forall₂ Eq (ps.map Piece.unlined) (qs.map Piece.unlined) := by
    rw [h]
    exact List.forall₂_refl _
  rwa [List.forall₂_map_left_iff, List.forall₂_map_right_iff] at hmap

theorem node_unlined (h : p.unlined = q.unlined) {ts us : List Tree} (hts : ts.map Tree.unlined = us.map Tree.unlined) :
    (node p ts).unlined = (node q us).unlined := by
  rw [node, node, Tree.unlined_mk, Tree.unlined_mk, kind_eq_of_unlined h, hts]

include hrow in
theorem alike_inside (h : p.unlined = q.unlined) : Alike (inside row p) (inside row' q) :=
  hrow 0 p.line q.line (inner_eq_of_unlined h)

include hrow in
theorem alike_blockTree (h : p.unlined = q.unlined) : Alike (blockTree row p) (blockTree row' q) :=
  (alike_inside hrow h).bind fun _ _ ht => .ok (by simp [ht])

include hrow in
theorem alike_operand (level : Nat) (p q : Piece) (hps : ps.map Piece.unlined = qs.map Piece.unlined) :
    Alike (operand row ps level p) (operand row' qs level q) := by
  refine (hrow level p.line q.line hps).bind fun t u ht => ?_
  have hempty : t.isEmpty = u.isEmpty := by
    rw [Tree.isEmpty, Tree.isEmpty, ← t.kind_unlined, ht, u.kind_unlined]
  rw [hempty]
  split
  · exact agree_faultAt _ _ _
  · exact .ok ht

include hrow in
theorem alike_listItems (level : Nat) {parts parts' : List (List Piece × Piece)}
    (h : (parts.map fun (part, sep) => (part.map Piece.unlined, sep.unlined)) =
      parts'.map fun (part, sep) => (part.map Piece.unlined, sep.unlined)) :
    Agree (fun ts us => ts.map Tree.unlined = us.map Tree.unlined) (listItems row level parts)
      (listItems row' level parts') := by
  unfold listItems
  induction parts generalizing parts' with
  | nil =>
    rw [List.map_nil, eq_comm, List.map_eq_nil_iff] at h
    rw [h]
    exact .ok rfl
  | cons x parts ih =>
    cases parts' with
    | nil => exact nomatch h
    | cons y parts' =>
      rw [List.map_cons, List.map_cons, List.cons.injEq] at h
      rw [List.mapM_cons, List.mapM_cons]
      refine (hrow (level + 1) _ _ (Prod.mk.inj h.1).1).bind fun t u ht => ?_
      exact (ih h.2).bind fun ts us hts => .ok (by simp [ht, hts])

include hrow in
theorem alike_listTree (level : Nat) (lv : Level) (hps : ps.map Piece.unlined = qs.map Piece.unlined) :
    Option.Rel Alike (listTree row level ps lv) (listTree row' level qs lv) := by
  have hcut : cut (fun p => lv.has p.kind) (ps.map Piece.unlined) =
      cut (fun p => lv.has p.kind) (qs.map Piece.unlined) := by rw [hps]
  rw [cut_map, cut_map, has_unlined, Prod.mk.injEq] at hcut
  unfold listTree
  obtain ⟨hparts, hfinal⟩ := hcut
  generalize cut (fun p => lv.has p.kind) ps = c at hparts hfinal
  generalize cut (fun p => lv.has p.kind) qs = c' at hparts hfinal
  obtain ⟨parts, final⟩ := c
  obtain ⟨parts', final'⟩ := c'
  cases parts with
  | nil =>
    rw [List.map_nil, eq_comm, List.map_eq_nil_iff] at hparts
    obtain rfl : parts' = [] := hparts
    exact .none
  | cons x more =>
    cases parts' with
    | nil => exact nomatch hparts
    | cons y more' =>
      refine .some ((alike_listItems hrow level hparts).bind fun ts us hts => ?_)
      refine (hrow (level + 1) _ _ hfinal).bind fun t u ht => ?_
      exact .ok (by simp [ht, hts])

/-- Rows split in two by a binary operator. -/
theorem alike_split {s t : Option (List Piece × Piece × List Piece)} (h : Option.Rel AlikeSplit s t)
    {f g : List Piece × Piece × List Piece → Except CompileError Tree}
    (hf : ∀ x y, AlikeSplit x y → Alike (f x) (g y)) : Option.Rel Alike (s.map f) (t.map g) := by
  cases h with
  | none => exact .none
  | some h => exact .some (hf _ _ h)

theorem reverse_unlined (h : ps.map Piece.unlined = qs.map Piece.unlined) :
    ps.reverse.map Piece.unlined = qs.reverse.map Piece.unlined := by
  rw [List.map_reverse, List.map_reverse, h]

/-! ### one lemma for each rule of binding -/

variable {level : Nat} {lv : Level} {tail tail' : List Piece}

theorem unlined_cons (hp : p.unlined = q.unlined) (htail : tail.map Piece.unlined = tail'.map Piece.unlined) :
    (p :: tail).map Piece.unlined = (q :: tail').map Piece.unlined := by
  rw [List.map_cons, List.map_cons, hp, htail]

include hrow in
theorem alike_fromLeft (hrule : lv.rule = .fromLeft) (hp : p.unlined = q.unlined)
    (htail : tail.map Piece.unlined = tail'.map Piece.unlined) :
    Option.Rel Alike (atLevel row value level lv p tail) (atLevel row' value' level lv q tail') := by
  unfold atLevel
  simp only [hrule]
  have hsplit := congrArg (splitFirst? fun p => lv.has p.kind) (unlined_cons hp htail)
  rw [splitFirst?_map, splitFirst?_map, has_unlined] at hsplit
  refine alike_split (alikeSplit_of_map hsplit) fun x y ⟨hfront, hop, hback⟩ => ?_
  refine (hrow (level + 1) _ _ hfront).bind fun t u ht => (hrow level _ _ hback).bind fun t' u' ht' => ?_
  exact .ok (node_unlined hop (by simp [ht, ht']))

include hrow in
theorem alike_fromRight (hrule : lv.rule = .fromRight) (hp : p.unlined = q.unlined)
    (htail : tail.map Piece.unlined = tail'.map Piece.unlined) :
    Option.Rel Alike (atLevel row value level lv p tail) (atLevel row' value' level lv q tail') := by
  unfold atLevel
  simp only [hrule]
  have hsplit := congrArg (splitLast? fun p => lv.has p.kind) htail
  rw [splitLast?_map, splitLast?_map, has_unlined] at hsplit
  refine alike_split (alikeSplit_of_map hsplit) fun x y ⟨hfront, hop, hback⟩ => ?_
  refine (alike_operand hrow level _ _ (unlined_cons hp hfront)).bind fun t u ht => ?_
  refine (alike_operand hrow (level + 1) _ _ hback).bind fun t' u' ht' => ?_
  exact .ok (node_unlined hop (by simp [ht, ht']))

include hrow in
theorem alike_before (hrule : lv.rule = .before) (hp : p.unlined = q.unlined)
    (htail : tail.map Piece.unlined = tail'.map Piece.unlined) :
    Option.Rel Alike (atLevel row value level lv p tail) (atLevel row' value' level lv q tail') := by
  have hdone {r r' : Except CompileError Tree} (h : Alike r r') :
      Alike (r >>= fun t => .ok (node p [t])) (r' >>= fun t => .ok (node q [t])) :=
    h.bind fun t u ht => .ok (node_unlined hp (by simp [ht]))
  unfold atLevel
  simp only [hrule, kind_eq_of_unlined hp]
  split
  · refine .some ?_
    split
    · exact hdone (hrow level _ _ htail)
    · exact hdone (hrow level _ _ htail)
    · exact hdone (hrow level _ _ htail)
    · exact hdone (alike_operand hrow level _ _ htail)
  · exact .none

include hrow in
theorem alike_rest (hrule : lv.rule = .rest) (hp : p.unlined = q.unlined)
    (htail : tail.map Piece.unlined = tail'.map Piece.unlined) :
    Option.Rel Alike (atLevel row value level lv p tail) (atLevel row' value' level lv q tail') := by
  have hrev := reverse_unlined (unlined_cons hp htail)
  unfold atLevel
  simp only [hrule]
  generalize (p :: tail).reverse = rs at hrev
  generalize (q :: tail').reverse = rs' at hrev
  match rs, rs', hrev with
  | [], [], _ => exact .none
  | last :: front, last' :: front', hrev =>
    rw [List.map_cons, List.map_cons, List.cons.injEq] at hrev
    dsimp only
    simp only [kind_eq_of_unlined hrev.1]
    split
    · refine .some ((alike_operand hrow level _ _ (reverse_unlined hrev.2)).bind fun t u ht => ?_)
      exact .ok (node_unlined hrev.1 (by simp [ht]))
    · exact .none

include hrow in
/-- A call or an access by key: its owner in front, then what stands in its brackets. -/
theorem alike_applied (k : Tok) {last last' : Piece} {front front' : List Piece} (hlast : last.unlined = last'.unlined)
    (hfront : front.map Piece.unlined = front'.map Piece.unlined) : Alike
      (operand row front.reverse level last >>= fun t => inside row last >>= fun u => .ok (.mk k last.line [t, u]))
      (operand row' front'.reverse level last' >>= fun t => inside row' last' >>= fun u =>
        .ok (.mk k last'.line [t, u])) := by
  refine (alike_operand hrow level _ _ (reverse_unlined hfront)).bind fun t u ht => ?_
  exact (alike_inside hrow hlast).bind fun t' u' ht' => .ok (by simp [ht, ht'])

include hrow hvalue in
theorem alike_chain (hrule : lv.rule = .chain) (hp : p.unlined = q.unlined)
    (htail : tail.map Piece.unlined = tail'.map Piece.unlined) :
    Option.Rel Alike (atLevel row value level lv p tail) (atLevel row' value' level lv q tail') := by
  have hrev := reverse_unlined (unlined_cons hp htail)
  unfold atLevel
  simp only [hrule]
  generalize (p :: tail).reverse = rs at hrev
  generalize (q :: tail').reverse = rs' at hrev
  match rs, rs', hrev with
  | [], [], _ => exact .none
  | last :: front, last' :: front', hrev =>
    rw [List.map_cons, List.map_cons, List.cons.injEq] at hrev
    obtain ⟨hlast, hfront⟩ := hrev
    dsimp only
    simp only [kind_eq_of_unlined hlast]
    split
    · exact .some (alike_applied hrow .call hlast hfront)
    · exact .some (alike_applied hrow .index hlast hfront)
    · match front, front', hfront with
      | [], [], _ => exact .none
      | [_], [_], _ => exact .none
      | [_], _ :: _ :: _, hfront => simp at hfront
      | _ :: _ :: _, [_], hfront => simp at hfront
      | dot :: owner :: more, dot' :: owner' :: more', hfront =>
        rw [List.map_cons, List.map_cons (a := dot'), List.cons.injEq] at hfront
        dsimp only
        simp only [kind_eq_of_unlined hfront.1]
        split
        · refine .some ((alike_operand hrow level _ _ (reverse_unlined hfront.2)).bind fun t u ht => ?_)
          exact (hvalue hlast).bind fun t' u' ht' => .ok (node_unlined hfront.1 (by simp [ht, ht']))
        · exact .none
    · exact .none

include hrow hvalue in
/-- No rule of binding looks at lines. -/
theorem alike_atLevel (level : Nat) (lv : Level) {tail tail' : List Piece} (hp : p.unlined = q.unlined)
    (htail : tail.map Piece.unlined = tail'.map Piece.unlined) :
    Option.Rel Alike (atLevel row value level lv p tail) (atLevel row' value' level lv q tail') := by
  cases hrule : lv.rule with
  | list =>
    unfold atLevel
    simp only [hrule]
    exact alike_listTree hrow level lv (unlined_cons hp htail)
  | fromLeft => exact alike_fromLeft hrow hrule hp htail
  | fromRight => exact alike_fromRight hrow hrule hp htail
  | before => exact alike_before hrow hrule hp htail
  | rest => exact alike_rest hrow hrule hp htail
  | chain => exact alike_chain hrow hvalue hrule hp htail

/-! ### rows and values -/

include hrow helse in
theorem alike_atom (h : p.unlined = q.unlined) : Alike (atom row elseIf p) (atom row' elseIf' q) := by
  have hinner := forall₂_unlined (inner_eq_of_unlined h)
  have hinside := alike_inside hrow h
  unfold atom
  simp only [kind_eq_of_unlined h]
  split
  -- names, numbers, strings and `nil`
  iterate 5 exact .ok (by rw [Tree.unlined_mk, Tree.unlined_mk])
  · exact hinside
  · exact hinside.bind fun t u ht => .ok (node_unlined h (by simp [ht]))
  · exact hinside.bind fun t u ht => .ok (node_unlined h (by simp [ht]))
  · -- a function literal
    match p.inner, q.inner, hinner with
    | _, _, .nil => exact agree_faultAt _ _ _
    | _, _, .cons hbody .nil =>
      refine (alike_blockTree hrow hbody).bind fun t u ht => ?_
      exact .ok (node_unlined h (by simp [ht]))
    | _, _, .cons hparams (.cons hbody .nil) =>
      refine (alike_inside hrow hparams).bind fun t u ht => ?_
      refine (alike_blockTree hrow hbody).bind fun t' u' ht' => ?_
      exact .ok (node_unlined h (by simp [ht, ht']))
    | _, _, .cons _ (.cons _ (.cons _ _)) => exact agree_faultAt _ _ _
  · split
    · -- a control statement
      match p.inner, q.inner, hinner with
      | _, _, .nil => exact agree_faultAt _ _ _
      | _, _, .cons _ .nil => exact agree_faultAt _ _ _
      | _, _, .cons hhead (.cons hbody .nil) =>
        refine (alike_inside hrow hhead).bind fun t u ht => ?_
        refine (alike_blockTree hrow hbody).bind fun t' u' ht' => ?_
        exact .ok (node_unlined h (by simp [ht, ht']))
      | _, _, .cons hhead (.cons hbody (.cons hother .nil)) =>
        refine (alike_inside hrow hhead).bind fun t u ht => ?_
        refine (alike_blockTree hrow hbody).bind fun t' u' ht' => ?_
        have hdone {r r' : Except CompileError Tree} (hr : Alike r r') :
            Alike (r >>= fun t'' => .ok (node p [t, t', t''])) (r' >>= fun t'' => .ok (node q [u, u', t''])) :=
          hr.bind fun t'' u'' ht'' => .ok (node_unlined h (by simp [ht, ht', ht'']))
        simp only [kind_eq_of_unlined hother]
        split
        · exact hdone (helse hother)
        · exact hdone (alike_blockTree hrow hother)
      | _, _, .cons _ (.cons _ (.cons _ (.cons _ _))) => exact agree_faultAt _ _ _
    · exact agree_faultAt _ _ _

include hrow hvalue in
/-- **One reading of rows that differ in their lines only.** -/
theorem alike_climb (level line line' : Nat) (h : ps.map Piece.unlined = qs.map Piece.unlined) :
    Alike (climb row value ps level line) (climb row' value' qs level line') := by
  have hlevels {p q : Piece} {tail tail' : List Piece} (hp : p.unlined = q.unlined)
      (htail : tail.map Piece.unlined = tail'.map Piece.unlined) (i : Nat) (lvs : List Level) :
      Alike (fromLevel row value p tail i lvs) (fromLevel row' value' q tail' i lvs) := by
    induction lvs generalizing i with
    | nil => exact agree_faultAt _ _ _
    | cons lv lvs ih =>
      unfold fromLevel
      have hat := alike_atLevel hrow hvalue i lv hp htail
      generalize atLevel row value i lv p tail = s at hat
      generalize atLevel row' value' i lv q tail' = s' at hat
      cases hat with
      | none => exact ih (i + 1)
      | some hat => exact hat
  match ps, qs, h with
  | [], [], _ => exact .ok (by simp [Tree.empty])
  | [p], [q], h =>
    have hp : p.unlined = q.unlined := (List.cons.inj h).1
    rw [climb, climb, kind_eq_of_unlined hp]
    split
    · exact hvalue hp
    · exact hlevels hp rfl _ _
  | [_], _ :: _ :: _, h => simp at h
  | _ :: _ :: _, [_], h => simp at h
  | p :: p' :: tail, q :: q' :: tail', h =>
    exact hlevels (List.cons.inj h).1 (List.cons.inj h).2 _ _

end

theorem alike_row_elseIf (d e : Nat) :
    (∀ {ps qs : List Piece} (level line line' : Nat), ps.map Piece.unlined = qs.map Piece.unlined →
      Alike (row d ps level line) (row e qs level line')) ∧
    ∀ {p q : Piece}, p.unlined = q.unlined → Alike (elseIf d p) (elseIf e q) := by
  induction d generalizing e with
  | zero => exact ⟨fun _ _ _ _ => .left rfl, fun _ => .left rfl⟩
  | succ d ih =>
    cases e with
    | zero => exact ⟨fun _ _ _ _ => .right rfl, fun _ => .right rfl⟩
    | succ e =>
      obtain ⟨hrow, helse⟩ := ih e
      have hatom {p q : Piece} (h : p.unlined = q.unlined) := alike_atom hrow helse h
      exact ⟨fun level line line' h => alike_climb hrow hatom level line line' h, hatom⟩

/-- **Rows that differ in their lines only are read alike,** within whatever budgets. -/
theorem alike_row (d e : Nat) {ps qs : List Piece} (level line line' : Nat)
    (h : ps.map Piece.unlined = qs.map Piece.unlined) : Alike (row d ps level line) (row e qs level line') :=
  (alike_row_elseIf d e).1 level line line' h

end Precedence

end ScriptEngine
