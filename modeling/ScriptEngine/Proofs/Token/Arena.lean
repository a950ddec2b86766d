import Mathlib.Data.List.Infix
import Mathlib.Logic.Relation
import ScriptEngine.Token.Arena

/-!
# The rows of an arena
-/

namespace ScriptEngine

open Relation (TransGen ReflTransGen)

/-! ## neighbours in a list -/

section

variable {α : Type} {x y i : α} {l r : List α}

theorem pair_infix_cons : [x, y] <:+: i :: l ↔ x = i ∧ l.head? = some y ∨ [x, y] <:+: l := by
  rw [List.infix_cons_iff]
  refine or_congr_left ?_
  cases l with
  | nil => simp
  | cons j l => simp [eq_comm]

theorem pair_infix_append : [x, y] <:+: l ++ r ↔
    [x, y] <:+: l ∨ [x, y] <:+: r ∨ l.getLast? = some x ∧ r.head? = some y := by
  induction l with
  | nil => simp
  | cons j l ih =>
    rw [List.cons_append, pair_infix_cons, ih, pair_infix_cons]
    cases l with
    | nil =>
      simp only [List.nil_append, List.head?_nil, List.getLast?_singleton, Option.some.injEq, List.getLast?_nil]
      grind
    | cons k l =>
      rw [List.cons_append, List.getLast?_cons_cons, List.head?_cons, List.head?_cons, or_assoc]

theorem fst_mem_of_pair (h : [x, y] <:+: l) : x ∈ l := h.subset (.head _)

theorem snd_mem_of_pair (h : [x, y] <:+: l) : y ∈ l := h.subset (.tail _ (.head _))

theorem pair_infix_from (h : (l ++ i :: r).Nodup) : [i, y] <:+: l ++ i :: r ↔ r.head? = some y := by
  obtain ⟨-, hr, hl⟩ := List.nodup_append.mp h
  have hir := (List.nodup_cons.mp hr).1
  have hil : i ∉ l := fun hi => hl i hi i (.head _) rfl
  have hlast : l.getLast? ≠ some i := fun hi => hil (List.mem_of_getLast? hi)
  have hinl : ¬ [i, y] <:+: l := fun h => hil (fst_mem_of_pair h)
  have hinr : ¬ [i, y] <:+: r := fun h => hir (fst_mem_of_pair h)
  rw [pair_infix_append, pair_infix_cons]
  simp [hlast, hinl, hinr]

theorem pair_infix_to (h : (l ++ i :: r).Nodup) : [x, i] <:+: l ++ i :: r ↔ l.getLast? = some x := by
  obtain ⟨-, hr, hl⟩ := List.nodup_append.mp h
  have hir := (List.nodup_cons.mp hr).1
  have hil : i ∉ l := fun hi => hl i hi i (.head _) rfl
  have hhead : r.head? ≠ some i := fun hi => hir (List.mem_of_head? hi)
  have hinl : ¬ [x, i] <:+: l := fun h => hil (snd_mem_of_pair h)
  have hinr : ¬ [x, i] <:+: r := fun h => hir (snd_mem_of_pair h)
  rw [pair_infix_append, pair_infix_cons]
  simp [hhead, hinl, hinr]

theorem not_pair_infix_of_getLast? (h : l.Nodup) (hx : l.getLast? = some x) : ¬ [x, y] <:+: l := by
  obtain ⟨l, rfl⟩ := List.getLast?_eq_some_iff.mp hx
  rw [pair_infix_from h]
  simp

end

namespace Arena

variable {a : Arena} {rows : Nat → List Nat} {i j p q here : Nat} {l r : List Nat}

theorem node_change (a : Arena) (i j : Nat) (f : Node → Node) :
    (a.change i f).node j = if i = j ∧ i < a.size then f (a.node j) else a.node j := by
  unfold change node size
  rw [Array.getElem?_modify]
  by_cases h : i = j
  · subst h
    by_cases hi : i < a.nodes.size
    · simp [hi]
    · simp [hi]
  · simp [h]

theorem size_change (a : Arena) (i : Nat) (f : Node → Node) : (a.change i f).size = a.size :=
  Array.size_modify

@[simp]
theorem size_append (a : Arena) (p i : Nat) : (a.append p i).size = a.size := by
  unfold append
  cases (a.node p).last <;> simp only [size_change]

@[simp]
theorem size_unlink (a : Arena) (i : Nat) : (a.unlink i).size = a.size := by
  unfold unlink
  cases h : (a.node i).prev <;> cases h' : (a.node i).next <;> cases h'' : (a.node i).parent <;>
    simp only [h, h', h'', size_change]

@[simp]
theorem size_insertAfter (a : Arena) (here i : Nat) : (a.insertAfter here i).size = a.size := by
  unfold insertAfter
  cases (a.node here).next <;> cases (a.node here).parent <;> simp only [size_change]

@[simp]
theorem size_setKind (a : Arena) (i : Nat) (k : Tok) : (a.setKind i k).size = a.size := size_change a i _

@[simp]
theorem size_add (a : Arena) (t : Token) : (a.add t).size = a.size + 1 := Array.size_push _

theorem token_change (f : Node → Node) (hf : ∀ t, (f t).token = t.token) (j : Nat) :
    (a.change i f).token j = a.token j := by
  unfold token
  rw [node_change]
  split
  · exact hf _
  · rfl

@[simp]
theorem token_append (a : Arena) (p i j : Nat) : (a.append p i).token j = a.token j := by
  unfold append
  cases (a.node p).last <;> simp [token_change]

@[simp]
theorem token_unlink (a : Arena) (i j : Nat) : (a.unlink i).token j = a.token j := by
  unfold unlink
  cases h : (a.node i).prev <;> cases h' : (a.node i).next <;> cases h'' : (a.node i).parent <;>
    simp [h, h', h'', token_change]

@[simp]
theorem token_insertAfter (a : Arena) (here i j : Nat) : (a.insertAfter here i).token j = a.token j := by
  unfold insertAfter
  cases (a.node here).next <;> cases (a.node here).parent <;> simp [token_change]

theorem token_setKind (a : Arena) (i : Nat) (k : Tok) (j : Nat) :
    (a.setKind i k).token j = if i = j ∧ i < a.size then { a.token j with kind := k } else a.token j := by
  unfold setKind token
  rw [node_change]
  split <;> rfl

theorem node_of_size_le (h : a.size ≤ i) : a.node i = default := by
  unfold node
  rw [Array.getElem?_eq_none h, Option.getD_none]

theorem node_add (a : Arena) (t : Token) (j : Nat) :
    (a.add t).node j = if j = a.size then { token := t } else a.node j := by
  unfold add node size
  rw [Array.getElem?_push]
  split <;> rfl

theorem token_add (a : Arena) (t : Token) (j : Nat) : (a.add t).token j = if j = a.size then t else a.token j := by
  unfold token
  rw [node_add]
  split <;> rfl

theorem node_append (hi : i < a.size) (hp : p < a.size)
    (hl : ∀ l, (a.node p).last = some l → l < a.size ∧ l ≠ i) (j : Nat) :
    (a.append p i).node j =
      { token := a.token j
        prev := if j = i then (a.node p).last else (a.node j).prev
        next := if j = i then none else if (a.node p).last = some j then some i else (a.node j).next
        parent := if j = i then some p else (a.node j).parent
        first := if j = p ∧ (a.node p).last = none then some i else (a.node j).first
        last := if j = p then some i else (a.node j).last } := by
  unfold append token
  cases h : (a.node p).last with
  | none =>
    ext1 <;> simp only [node_change, size_change, hi, hp, apply_ite Node.token, apply_ite Node.prev,
      apply_ite Node.next, apply_ite Node.parent, apply_ite Node.first, apply_ite Node.last, ite_self] <;> grind
  | some l =>
    have := hl l h
    ext1 <;> simp only [node_change, size_change, hi, hp, apply_ite Node.token, apply_ite Node.prev,
      apply_ite Node.next, apply_ite Node.parent, apply_ite Node.first, apply_ite Node.last, ite_self] <;> grind

theorem node_unlink (hi : i < a.size) (hl : ∀ l, (a.node i).prev = some l → l < a.size ∧ l ≠ i)
    (hr : ∀ r, (a.node i).next = some r → r < a.size ∧ r ≠ i)
    (hp : ∀ p, (a.node i).parent = some p → p < a.size) (j : Nat) :
    (a.unlink i).node j =
      { token := a.token j
        prev := if j = i then none else if (a.node i).next = some j then (a.node i).prev else (a.node j).prev
        next := if j = i then none else if (a.node i).prev = some j then (a.node i).next else (a.node j).next
        parent := if j = i then none else (a.node j).parent
        first := if (a.node i).prev = none ∧ (a.node i).parent = some j then (a.node i).next else (a.node j).first
        last := if (a.node i).next = none ∧ (a.node i).parent = some j then (a.node i).prev else (a.node j).last } := by
  unfold unlink token
  cases h : (a.node i).prev <;> cases h' : (a.node i).next <;> cases h'' : (a.node i).parent <;>
    ext1 <;> simp only [h, h', h'', node_change, size_change, hi, apply_ite Node.token, apply_ite Node.prev,
      apply_ite Node.next, apply_ite Node.parent, apply_ite Node.first, apply_ite Node.last, ite_self] <;> grind

theorem node_insertAfter (hi : i < a.size) (hhere : here < a.size) (hne : i ≠ here)
    (hr : ∀ r, (a.node here).next = some r → r < a.size ∧ r ≠ i)
    (hp : ∀ p, (a.node here).parent = some p → p < a.size) (j : Nat) :
    (a.insertAfter here i).node j =
      { token := a.token j
        prev := if j = i then some here else if (a.node here).next = some j then some i else (a.node j).prev
        next := if j = i then (a.node here).next else if j = here then some i else (a.node j).next
        parent := if j = i then (a.node here).parent else (a.node j).parent
        first := (a.node j).first
        last := if (a.node here).next = none ∧ (a.node here).parent = some j then some i else (a.node j).last } := by
  unfold insertAfter token
  cases h : (a.node here).next <;> cases h'' : (a.node here).parent <;>
    ext1 <;> simp only [node_change, size_change, hi, hhere, apply_ite Node.token, apply_ite Node.prev,
      apply_ite Node.next, apply_ite Node.parent, apply_ite Node.first, apply_ite Node.last, ite_self] <;> grind

/-- The rows of an arena, by the token whose siblings stand in them, and what the links say of them. -/
structure Forest (a : Arena) (rows : Nat → List Nat) : Prop where
  first : ∀ p, (a.node p).first = (rows p).head?
  last : ∀ p, (a.node p).last = (rows p).getLast?
  next : ∀ i j, (a.node i).next = some j ↔ ∃ p, [i, j] <:+: rows p
  prev : ∀ i j, (a.node j).prev = some i ↔ ∃ p, [i, j] <:+: rows p
  parent : ∀ i p, (a.node i).parent = some p ↔ i ∈ rows p
  nodup : ∀ p, (rows p).Nodup
  range : ∀ p, ∀ i ∈ rows p, i < a.size ∧ p < a.size
  acyclic : ∀ i, ¬ TransGen (fun i p => i ∈ rows p) i i

namespace Forest

theorem owner_unique (h : a.Forest rows) (hp : i ∈ rows p) (hq : i ∈ rows q) : p = q :=
  Option.some.inj (((h.parent i p).mpr hp).symm.trans ((h.parent i q).mpr hq))

theorem ne_owner (h : a.Forest rows) (hp : i ∈ rows p) : i ≠ p := by
  rintro rfl
  exact h.acyclic i (.single hp)

theorem next_of (h : a.Forest rows) (hp : rows p = l ++ i :: r) : (a.node i).next = r.head? := by
  ext j
  rw [h.next, ← pair_infix_from (hp ▸ h.nodup p), ← hp]
  refine ⟨fun ⟨q, hq⟩ => ?_, fun hj => ⟨p, hj⟩⟩
  rwa [h.owner_unique (i := i) (q := q) (p := p) (by simp [hp]) (fst_mem_of_pair hq)]

theorem prev_of (h : a.Forest rows) (hp : rows p = l ++ i :: r) : (a.node i).prev = l.getLast? := by
  ext j
  rw [h.prev, ← pair_infix_to (hp ▸ h.nodup p), ← hp]
  refine ⟨fun ⟨q, hq⟩ => ?_, fun hj => ⟨p, hj⟩⟩
  rwa [h.owner_unique (i := i) (q := q) (p := p) (by simp [hp]) (snd_mem_of_pair hq)]

theorem parent_of (h : a.Forest rows) (hp : rows p = l ++ i :: r) : (a.node i).parent = some p :=
  (h.parent i p).mpr (by simp [hp])

theorem next_iff_prev (h : a.Forest rows) (i j : Nat) : (a.node i).next = some j ↔ (a.node j).prev = some i :=
  (h.next i j).trans (h.prev i j).symm

/-- The tokens `x` and `y` are neighbours in another row than that of `p`. -/
def Beyond (rows : Nat → List Nat) (p x y : Nat) : Prop := ∃ q, q ≠ p ∧ [x, y] <:+: rows q

theorem pairs_update {row : List Nat} {x y : Nat} :
    (∃ q, [x, y] <:+: Function.update rows p row q) ↔ [x, y] <:+: row ∨ Beyond rows p x y := by
  constructor
  · rintro ⟨q, hq⟩
    rcases eq_or_ne q p with rfl | hne
    · exact .inl (by simpa using hq)
    · exact .inr ⟨q, hne, by simpa [hne] using hq⟩
  · rintro (h | ⟨q, hne, hq⟩)
    · exact ⟨p, by simpa using h⟩
    · exact ⟨q, by simpa [hne] using hq⟩

theorem pairs_at {x y : Nat} (p : Nat) : (∃ q, [x, y] <:+: rows q) ↔ [x, y] <:+: rows p ∨ Beyond rows p x y := by
  rw [← pairs_update, Function.update_eq_self]

theorem not_beyond_fst (h : a.Forest rows) {x y : Nat} (hx : x ∈ rows p) : ¬ Beyond rows p x y :=
  fun ⟨_, hne, hq⟩ => hne (h.owner_unique (fst_mem_of_pair hq) hx)

theorem not_beyond_snd (h : a.Forest rows) {x y : Nat} (hy : y ∈ rows p) : ¬ Beyond rows p x y :=
  fun ⟨_, hne, hq⟩ => hne (h.owner_unique (snd_mem_of_pair hq) hy)

theorem mem_update {row : List Nat} {x : Nat} (q : Nat) :
    x ∈ Function.update rows p row q ↔ if q = p then x ∈ row else x ∈ rows q := by
  rcases eq_or_ne q p with rfl | hne
  · simp
  · simp [hne]

/-- A token that is put into a row keeps the rows free of cycles if the row is not below it. -/
theorem acyclic_of_more {more : Nat → List Nat} (h : a.Forest rows)
    (hmore : ∀ x q, x ∈ more q → x ∈ rows q ∨ x = i ∧ q = p)
    (hclear : ¬ ReflTransGen (fun i p => i ∈ rows p) p i) (x : Nat) :
    ¬ TransGen (fun i p => i ∈ more p) x x := by
  have hpath : ∀ y, ReflTransGen (fun i p => i ∈ more p) x y → ReflTransGen (fun i p => i ∈ rows p) x y ∨
      ReflTransGen (fun i p => i ∈ rows p) x i ∧ ReflTransGen (fun i p => i ∈ rows p) p y := by
    intro y hy
    induction hy with
    | refl => exact .inl .refl
    | tail _ hs ih =>
      rcases hmore _ _ hs, ih with ⟨hs | ⟨rfl, rfl⟩, ih | ⟨hxi, ih⟩⟩
      · exact .inl (ih.tail hs)
      · exact .inr ⟨hxi, ih.tail hs⟩
      · exact .inr ⟨ih, .refl⟩
      · exact absurd ih hclear
  intro hx
  obtain ⟨y, hy, hs⟩ := TransGen.tail'_iff.mp hx
  rcases hmore _ _ hs, hpath y hy with ⟨hs | ⟨rfl, rfl⟩, hy | ⟨hxi, hy⟩⟩
  · exact h.acyclic x (.tail' hy hs)
  · exact hclear ((hy.tail hs).trans hxi)
  · exact hclear hy
  · exact hclear hy

theorem of_links (h : a.Forest rows) {b : Arena} (hsize : a.size ≤ b.size)
    (hlinks : ∀ i, b.node i = { a.node i with token := b.token i }) : b.Forest rows := by
  constructor
  · simpa only [hlinks] using h.first
  · simpa only [hlinks] using h.last
  · simpa only [hlinks] using h.next
  · simpa only [hlinks] using h.prev
  · simpa only [hlinks] using h.parent
  · exact h.nodup
  · exact fun p i hi => ⟨(h.range p i hi).1.trans_le hsize, (h.range p i hi).2.trans_le hsize⟩
  · exact h.acyclic

theorem add (h : a.Forest rows) (t : Token) : (a.add t).Forest rows := by
  refine h.of_links (by simp) fun i => ?_
  unfold Arena.token
  rw [node_add]
  split
  · next hi => rw [hi, node_of_size_le le_rfl]; rfl
  · rfl

theorem setKind (h : a.Forest rows) (i : Nat) (k : Tok) : (a.setKind i k).Forest rows := by
  refine h.of_links (by simp) fun j => ?_
  unfold Arena.token Arena.setKind
  rw [node_change]
  split <;> rfl

theorem append (h : a.Forest rows) (hi : i < a.size) (hp : p < a.size) (hloose : ∀ q, i ∉ rows q)
    (hclear : ¬ ReflTransGen (fun i p => i ∈ rows p) p i) :
    (a.append p i).Forest (Function.update rows p (rows p ++ [i])) := by
  have hlast : ∀ l, (a.node p).last = some l → l < a.size ∧ l ≠ i := by
    intro l hl
    rw [h.last] at hl
    have hmem := List.mem_of_getLast? hl
    exact ⟨(h.range p l hmem).1, fun hli => hloose p (hli ▸ hmem)⟩
  have hnext : ∀ y, (a.node i).next ≠ some y := fun y hy =>
    have ⟨q, hq⟩ := (h.next i y).mp hy
    hloose q (fst_mem_of_pair hq)
  have hprev : ∀ x, (a.node i).prev ≠ some x := fun x hx =>
    have ⟨q, hq⟩ := (h.prev x i).mp hx
    hloose q (snd_mem_of_pair hq)
  have hend : ∀ x, (a.node p).last = some x → (a.node x).next = none := by
    intro x hx
    rw [h.last, List.getLast?_eq_some_iff] at hx
    obtain ⟨l, hl⟩ := hx
    exact h.next_of hl
  have hnode := node_append hi hp hlast
  have hpairs : ∀ x y, (∃ q, [x, y] <:+: Function.update rows p (rows p ++ [i]) q) ↔
      (∃ q, [x, y] <:+: rows q) ∨ (a.node p).last = some x ∧ y = i := by
    intro x y
    rw [pairs_update, pair_infix_append, pairs_at p, h.last]
    have : ¬ [x, y] <:+: [i] := fun h => by simpa using h.length_le
    grind
  constructor
  · intro q
    rw [hnode]
    rcases eq_or_ne q p with rfl | hne
    · rw [Function.update_self, h.last, h.first]
      cases rows q <;> simp
    · simp [hne, h.first]
  · intro q
    rw [hnode]
    rcases eq_or_ne q p with rfl | hne
    · simp
    · simp [hne, h.last]
  · intro x y
    rw [hnode, hpairs, ← h.next]
    grind
  · intro x y
    rw [hnode, hpairs, ← h.prev]
    grind
  · intro x q
    rw [hnode, mem_update]
    have := h.parent x q
    have := hloose q
    grind
  · intro q
    rcases eq_or_ne q p with rfl | hne
    · rw [Function.update_self]
      exact List.nodup_append.mpr ⟨h.nodup q, by simp, by
        simpa using fun x hx (hxi : x = i) => hloose q (hxi ▸ hx)⟩
    · simpa [hne] using h.nodup q
  · intro q x hx
    rw [mem_update] at hx
    rw [size_append]
    have := h.range q x
    grind
  · exact h.acyclic_of_more (fun x q hx => by rw [mem_update] at hx; grind) hclear

theorem unlink (h : a.Forest rows) (hp : rows p = l ++ i :: r) :
    (a.unlink i).Forest (Function.update rows p (l ++ r)) := by
  have hnd : (l ++ i :: r).Nodup := hp ▸ h.nodup p
  have hmem : i ∈ rows p := by simp [hp]
  have hl : ∀ x, l.getLast? = some x → x < a.size ∧ x ≠ i := fun x hx => by
    have := List.mem_of_getLast? hx
    exact ⟨(h.range p x (by simp [hp, this])).1, by grind⟩
  have hr : ∀ x, r.head? = some x → x < a.size ∧ x ≠ i := fun x hx => by
    have := List.mem_of_head? hx
    exact ⟨(h.range p x (by simp [hp, this])).1, by grind⟩
  have hparent : ∀ q, (a.node i).parent = some q → q < a.size := fun q hq =>
    (h.range q i ((h.parent i q).mp hq)).2
  have hprev := h.prev_of hp
  have hnext := h.next_of hp
  have hnode := node_unlink (h.range p i hmem).1 (hprev ▸ hl) (hnext ▸ hr) hparent
  rw [hprev, hnext, h.parent_of hp] at hnode
  have hpairs : ∀ x y, (∃ q, [x, y] <:+: Function.update rows p (l ++ r) q) ↔
      x ≠ i ∧ y ≠ i ∧ (if l.getLast? = some x then r.head? = some y else ∃ q, [x, y] <:+: rows q) := by
    intro x y
    obtain ⟨hndl, hndr, hlr⟩ := List.nodup_append.mp hnd
    have hxl := fst_mem_of_pair (x := x) (y := y) (l := l)
    have hyl := snd_mem_of_pair (x := x) (y := y) (l := l)
    have hxr := fst_mem_of_pair (x := x) (y := y) (l := r)
    have hyr := snd_mem_of_pair (x := x) (y := y) (l := r)
    have hlast := not_pair_infix_of_getLast? (y := y) (x := x) hndl
    have hbx := h.not_beyond_fst (p := p) (x := x) (y := y)
    have hby := h.not_beyond_snd (p := p) (x := x) (y := y)
    rw [pairs_update, pair_infix_append, pairs_at p, hp, pair_infix_append, pair_infix_cons, List.head?_cons]
    grind
  constructor
  · intro q
    rw [hnode]
    rcases eq_or_ne q p with rfl | hne
    · rw [Function.update_self, h.first, hp]
      cases l <;> simp
    · simp [hne, hne.symm, h.first]
  · intro q
    rw [hnode]
    rcases eq_or_ne q p with rfl | hne
    · rw [Function.update_self, h.last, hp]
      cases r <;> simp
    · simp [hne, hne.symm, h.last]
  · intro x y
    rw [hnode, hpairs, ← h.next]
    have := h.next_iff_prev x i
    grind
  · intro x y
    rw [hnode, hpairs, ← h.next]
    have := h.next_iff_prev x y
    have := h.next_iff_prev x i
    have := h.next_iff_prev i y
    grind
  · intro x q
    rw [hnode, mem_update]
    have := h.parent x q
    have := h.parent_of hp
    grind
  · intro q
    rcases eq_or_ne q p with rfl | hne
    · rw [Function.update_self]
      exact hnd.sublist (by simp)
    · simpa [hne] using h.nodup q
  · intro q x hx
    rw [mem_update] at hx
    rw [size_unlink]
    have := h.range q x
    grind
  · refine fun x hx => h.acyclic x (TransGen.mono (fun y q hy => ?_) x x hx)
    rw [mem_update] at hy
    grind

theorem insertAfter (h : a.Forest rows) (hp : rows p = l ++ here :: r) (hi : i < a.size)
    (hloose : ∀ q, i ∉ rows q) (hempty : rows i = []) :
    (a.insertAfter here i).Forest (Function.update rows p (l ++ here :: i :: r)) := by
  have hnd : (l ++ here :: r).Nodup := hp ▸ h.nodup p
  have hmem : here ∈ rows p := by simp [hp]
  have hne : i ≠ here := fun hih => hloose p (hih ▸ hmem)
  have hprev := h.prev_of hp
  have hnext := h.next_of hp
  have hr : ∀ x, r.head? = some x → x < a.size ∧ x ≠ i := fun x hx => by
    have hx : x ∈ rows p := by simp [hp, List.mem_of_head? hx]
    exact ⟨(h.range p x hx).1, fun hxi => hloose p (hxi ▸ hx)⟩
  have hparent : ∀ q, (a.node here).parent = some q → q < a.size := fun q hq =>
    (h.range q here ((h.parent here q).mp hq)).2
  have hinext : ∀ y, (a.node i).next ≠ some y := fun y hy =>
    have ⟨q, hq⟩ := (h.next i y).mp hy
    hloose q (fst_mem_of_pair hq)
  have hiprev : ∀ x, (a.node i).prev ≠ some x := fun x hx =>
    have ⟨q, hq⟩ := (h.prev x i).mp hx
    hloose q (snd_mem_of_pair hq)
  have hnode := node_insertAfter hi (h.range p here hmem).1 hne (hnext ▸ hr) hparent
  rw [hnext, h.parent_of hp] at hnode
  have hpairs : ∀ x y, (∃ q, [x, y] <:+: Function.update rows p (l ++ here :: i :: r) q) ↔
      x = here ∧ y = i ∨ x = i ∧ r.head? = some y ∨ x ≠ here ∧ (a.node x).next = some y := by
    intro x y
    obtain ⟨-, hndr, hlr⟩ := List.nodup_append.mp hnd
    have hxl := fst_mem_of_pair (x := x) (y := y) (l := l)
    have hxr := fst_mem_of_pair (x := x) (y := y) (l := r)
    have hbx := h.not_beyond_fst (p := p) (x := x) (y := y)
    rw [pairs_update, pair_infix_append, h.next, pairs_at p, hp, pair_infix_append, pair_infix_cons, pair_infix_cons,
      pair_infix_cons, List.head?_cons]
    grind
  constructor
  · intro q
    rw [hnode]
    rcases eq_or_ne q p with rfl | hne
    · rw [Function.update_self, h.first, hp]
      cases l <;> simp
    · simp [hne, h.first]
  · intro q
    rw [hnode]
    rcases eq_or_ne q p with rfl | hne
    · rw [Function.update_self, h.last, hp]
      cases r <;> simp
    · simp [hne, hne.symm, h.last]
  · intro x y
    rw [hnode, hpairs]
    grind
  · intro x y
    rw [hnode, hpairs]
    have := h.next_iff_prev x y
    have := h.next_iff_prev x i
    have := h.next_iff_prev here y
    grind
  · intro x q
    rw [hnode, mem_update]
    have := h.parent x q
    have := h.parent_of hp
    grind
  · intro q
    rcases eq_or_ne q p with rfl | hne
    · rw [Function.update_self]
      grind
    · simpa [hne] using h.nodup q
  · intro q x hx
    rw [mem_update] at hx
    rw [size_insertAfter]
    have := h.range p here hmem
    have := h.range q x
    grind
  · refine h.acyclic_of_more (i := i) (p := p) (fun x q hx => by rw [mem_update] at hx; grind) fun hpi => ?_
    rcases ReflTransGen.cases_tail hpi with rfl | ⟨q, -, hq⟩
    · exact List.not_mem_nil (hempty ▸ hmem)
    · exact List.not_mem_nil (hempty ▸ hq)

end Forest

/-! ## walks along the links -/

/-- The places on the way from a place along the links to the next sibling. -/
inductive Walk (a : Arena) : Option Nat → List Nat → Prop
  | stop : Walk a none []
  | step {i : Nat} {is : List Nat} (h : Walk a (a.node i).next is) : Walk a (some i) (i :: is)

theorem Walk.unique {here : Option Nat} {is js : List Nat} (h : a.Walk here is) (h' : a.Walk here js) : is = js := by
  induction h generalizing js with
  | stop => cases h'; rfl
  | step _ ih =>
    cases h' with
    | step h' => rw [ih h']

/-- What the links of an arena always say. -/
structure WellFormed (a : Arena) : Prop where
  /-- The walk along a row ends.  It starts and stops at the ends that the owner knows, and it passes each of
  the tokens that know the owner once. -/
  row : ∀ p, ∃ is, a.Walk (a.node p).first is ∧ (a.node p).last = is.getLast? ∧ is.Nodup ∧
    ∀ i, i ∈ is ↔ (a.node i).parent = some p
  /-- The walk from any token ends. -/
  ends : ∀ i, ∃ is, a.Walk (a.node i).next is
  inverse : ∀ i j, (a.node i).next = some j ↔ (a.node j).prev = some i
  /-- Neighbours stand in one row. -/
  together : ∀ i j, (a.node i).next = some j → ∃ p, (a.node i).parent = some p ∧ (a.node j).parent = some p
  /-- A token stands in one row at most. -/
  alone : ∀ p q is js i, a.Walk (a.node p).first is → a.Walk (a.node q).first js → i ∈ is → i ∈ js → p = q
  /-- No token stands below itself. -/
  acyclic : ∀ i, ¬ TransGen (fun i p => (a.node i).parent = some p) i i

namespace Forest

theorem walk (h : a.Forest rows) (hp : rows p = l ++ r) : a.Walk r.head? r := by
  induction r generalizing l with
  | nil => exact .stop
  | cons i r ih =>
    refine .step ?_
    rw [h.next_of hp]
    exact ih (l := l ++ [i]) (by simp [hp])

theorem walk_first (h : a.Forest rows) (p : Nat) : a.Walk (a.node p).first (rows p) :=
  h.first p ▸ h.walk (l := []) rfl

theorem wellFormed (h : a.Forest rows) : a.WellFormed where
  row p := ⟨rows p, h.walk_first p, h.last p, h.nodup p, fun i => (h.parent i p).symm⟩
  ends i := by
    cases hi : (a.node i).next with
    | none => exact ⟨[], .stop⟩
    | some j =>
      obtain ⟨p, l, r, hp⟩ := (h.next i j).mp hi
      exact ⟨j :: r, h.walk (p := p) (l := l ++ [i]) (r := j :: r) (by simp [← hp])⟩
  inverse := h.next_iff_prev
  together i j hij := by
    obtain ⟨p, hp⟩ := (h.next i j).mp hij
    exact ⟨p, (h.parent i p).mpr (fst_mem_of_pair hp), (h.parent j p).mpr (snd_mem_of_pair hp)⟩
  alone p q is js i hp hq hi hj := by
    obtain rfl := hp.unique (h.walk_first p)
    obtain rfl := hq.unique (h.walk_first q)
    exact h.owner_unique hi hj
  acyclic i hi := h.acyclic i (TransGen.mono (fun _ _ => (h.parent _ _).mp) i i hi)

end Forest

theorem forest_start (line : Nat) : (start line).Forest fun _ => [] := by
  have hnode : ∀ i, (start line).node i = { token := (start line).token i } := by
    intro i
    unfold start token node
    rcases i with _ | i <;> rfl
  constructor
  · exact fun p => by rw [hnode]; rfl
  · exact fun p => by rw [hnode]; rfl
  · exact fun i j => by rw [hnode]; simp
  · exact fun i j => by rw [hnode]; simp
  · exact fun i p => by rw [hnode]; simp
  · exact fun _ => .nil
  · exact fun p i hi => nomatch hi
  · exact fun i hi => by
      obtain ⟨p, -, hp⟩ := TransGen.tail'_iff.mp hi
      exact List.not_mem_nil hp

end Arena

end ScriptEngine
