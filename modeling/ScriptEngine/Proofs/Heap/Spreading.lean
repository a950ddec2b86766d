import Mathlib.Tactic.Tauto
import ScriptEngine.Proofs.Heap.Marking

/-!
# Marking and the order of the roots

Marking goes on through live cells that are not marked, so the cells it marks depend on which values are
to be looked at and not on their order.

* `Heap.Spreads`          the cells that marking comes to;
* `Heap.marked_markFrom`  they are the ones it marks;
* `Heap.mark_congr`       **marking from the same values in another order.**
-/

namespace ScriptEngine.Heap

def Unmarked (cells : Array Body) (marks : Array Bool) (a : Addr) : Prop :=
  a < marks.size ∧ (cells[a]?.getD .free).isFree = false ∧ ¬Marked marks a

/-- The cells that marking comes to: from the values to be looked at through unmarked live cells. -/
inductive Spreads (cells : Array Body) (marks : Array Bool) (work : List Value) : Addr → Prop
  | root {a} (ha : .obj a ∈ work) (h : Unmarked cells marks a) : Spreads cells marks work a
  | child {a b} (hb : Spreads cells marks work b) (ha : .obj a ∈ (cells[b]?.getD .free).children)
    (h : Unmarked cells marks a) : Spreads cells marks work a

section

variable {cells : Array Body} {marks : Array Bool} {work work' : List Value} {a : Addr}

theorem Spreads.mono (h : Spreads cells marks work a) (hw : ∀ b, .obj b ∈ work → .obj b ∈ work') :
    Spreads cells marks work' a := by
  induction h with
  | root ha h => exact .root (hw _ ha) h
  | child _ ha h ih => exact .child ih ha h

theorem spreads_nil : ¬Spreads cells marks [] a := by
  intro h
  induction h with
  | root ha _ => exact nomatch ha
  | child _ _ _ ih => exact ih

/-- A value from which marking does not go on. -/
theorem spreads_skip {v : Value} (hv : ∀ b, v = .obj b → ¬Unmarked cells marks b) :
    Spreads cells marks (v :: work) a ↔ Spreads cells marks work a := by
  constructor
  · intro h
    induction h with
    | root ha h =>
      rcases List.mem_cons.mp ha with e | ha
      · exact absurd h (hv _ e.symm)
      · exact .root ha h
    | child _ ha h ih => exact .child ih ha h
  · intro h
    exact h.mono fun b hb => List.mem_cons_of_mem v hb

theorem unmarked_set {b : Addr} (ha : a < marks.size) :
    Unmarked cells (marks.set a true) b ↔ Unmarked cells marks b ∧ b ≠ a := by
  unfold Unmarked
  rw [marked_set ha, Array.size_set]
  tauto

/-- Marking a cell goes on to the values it refers to. -/
theorem spreads_visit {c : Addr} (h : Unmarked cells marks a) :
    Spreads cells marks (.obj a :: work) c ↔
      c = a ∨ Spreads cells (marks.set a true h.1) ((cells[a]?.getD .free).children ++ work) c := by
  constructor
  · intro hc
    induction hc with
    | @root c hc hu =>
      by_cases e : c = a
      · exact .inl e
      · right
        apply Spreads.root
        · rcases List.mem_cons.mp hc with h | h
          · exact absurd (Value.obj.inj h) e
          · exact List.mem_append_right _ h
        · exact (unmarked_set h.1).mpr ⟨hu, e⟩
    | @child c b _ hc hu ih =>
      by_cases e : c = a
      · exact .inl e
      · right
        have hu' := (unmarked_set h.1).mpr ⟨hu, e⟩
        rcases ih with rfl | ih
        · exact .root (List.mem_append_left _ hc) hu'
        · exact .child ih hc hu'
  · rintro (rfl | hc)
    · exact .root List.mem_cons_self h
    · induction hc with
      | @root c hc hu =>
        have hu' := ((unmarked_set h.1).mp hu).1
        rcases List.mem_append.mp hc with hc | hc
        · exact .child (.root List.mem_cons_self h) hc hu'
        · exact .root (List.mem_cons_of_mem _ hc) hu'
      | child _ hc hu ih => exact .child ih hc ((unmarked_set h.1).mp hu).1

/-- **What marking marks**, whatever is marked before. -/
theorem marked_markFrom (n : Nat) :
    Marked (markFrom cells marks n work).1 a ↔ Marked marks a ∨ Spreads cells marks work a := by
  fun_induction markFrom cells marks n work with
  | case1 => simp [spreads_nil]
  | case2 marks n b work hlt c hfree ih =>
    rw [ih, spreads_skip]
    rintro _ ⟨⟩ hu
    exact Bool.false_ne_true (hu.2.1.symm.trans hfree)
  | case3 marks n b work hlt c hfree hmark ih =>
    rw [ih, spreads_skip]
    rintro _ ⟨⟩ hu
    exact hu.2.2 (Array.getElem?_eq_some_iff.mpr ⟨hlt, hmark⟩)
  | case4 marks n b work hlt c hfree hmark ih =>
    have hu : Unmarked cells marks b := by
      refine ⟨hlt, Bool.eq_false_of_not_eq_true hfree, ?_⟩
      intro hm
      exact hmark (Array.getElem?_eq_some_iff.mp hm).2
    rw [ih, marked_set hlt, spreads_visit hu]
    tauto
  | case5 marks n b work hge ih =>
    rw [ih, spreads_skip]
    rintro _ ⟨⟩ hu
    exact hge hu.1
  | case6 marks n work ih => rw [ih, spreads_skip (by rintro _ ⟨⟩)]
  | case7 marks n x work ih => rw [ih, spreads_skip (by rintro _ ⟨⟩)]
  | case8 marks n work ih => rw [ih, spreads_skip (by rintro _ ⟨⟩)]

theorem size_markFrom (n : Nat) : (markFrom cells marks n work).1.size = marks.size := by
  fun_induction markFrom cells marks n work with
  | case4 _ _ _ _ _ _ _ _ ih => rw [ih, Array.size_set]
  | _ => first | rfl | assumption

/-- **Marking depends on the objects among the roots** and not on their order, nor on how often one is
listed. -/
theorem mark_congr (h : Heap) {roots roots' : List Value}
    (hr : ∀ a, .obj a ∈ roots ↔ .obj a ∈ roots') :
    (h.mark roots).1 = (h.mark roots').1 := by
  have hmarks : (markFrom h.cells h.marks 0 roots).1 = (markFrom h.cells h.marks 0 roots').1 := by
    apply Array.ext
    · rw [size_markFrom, size_markFrom]
    · intro a hlt hlt'
      have hiff : Marked (markFrom h.cells h.marks 0 roots).1 a ↔
          Marked (markFrom h.cells h.marks 0 roots').1 a := by
        rw [marked_markFrom, marked_markFrom]
        exact or_congr_right ⟨fun hs => hs.mono fun b hb => (hr _).mp hb,
          fun hs => hs.mono fun b hb => (hr _).mpr hb⟩
      unfold Marked at hiff
      rw [Array.getElem?_eq_getElem hlt, Array.getElem?_eq_getElem hlt', Option.some_inj,
        Option.some_inj] at hiff
      exact Bool.eq_iff_iff.mpr hiff
  show ({ h with marks := _ } : Heap) = { h with marks := _ }
  rw [hmarks]

end

end ScriptEngine.Heap
