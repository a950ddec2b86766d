import ScriptEngine.Heap.Mark
import ScriptEngine.Proofs.Heap.Cells

/-!
# Marking marks what can be reached

* `Heap.Reaches`       the cells that can be reached from a list of values;
* `Heap.Marking`       the invariant of marking with values still to be looked at;
* `Heap.mark_spec`     marking from clear marks: the marked cells are the live ones that can be
  reached, and the count is their number.
-/

namespace ScriptEngine.Heap

/-- The cells that can be reached from a list of values, free cells included. -/
inductive Reaches (h : Heap) (roots : List Value) : Addr → Prop
  | root {a} (ha : .obj a ∈ roots) : Reaches h roots a
  | child {a b} (hb : Reaches h roots b) (ha : .obj a ∈ (h.body b).children) : Reaches h roots a

section

variable {marks : Array Bool} {a b : Addr}

theorem Marked.lt (hm : Marked marks a) : a < marks.size :=
  (Array.getElem?_eq_some_iff.mp hm).1

theorem marked_set (ha : a < marks.size) : Marked (marks.set a true) b ↔ b = a ∨ Marked marks b := by
  rw [Marked, Array.getElem?_set]
  by_cases hab : a = b
  · simp [hab]
  · rw [if_neg hab]
    exact ⟨.inr, fun e => e.resolve_left (Ne.symm hab)⟩

end

/-- Marking under way: the marked cells are live and can be reached, and what they and the roots
refer to is marked or in `work`. -/
structure Marking (h : Heap) (roots : List Value) (marks : Array Bool) (work : List Value) :
    Prop where
  size : marks.size = h.cells.size
  live : ∀ a, Marked marks a → h.body a ≠ .free
  reached : ∀ a, Marked marks a → h.Reaches roots a
  queued : ∀ a, .obj a ∈ work → h.Reaches roots a
  rooted : ∀ a, .obj a ∈ roots → h.body a ≠ .free → Marked marks a ∨ .obj a ∈ work
  closed : ∀ b, Marked marks b → ∀ a, .obj a ∈ (h.body b).children → h.body a ≠ .free →
    Marked marks a ∨ .obj a ∈ work

namespace Marking

variable {h : Heap} {roots : List Value} {marks : Array Bool} {v : Value} {work : List Value}

theorem start (hsize : marks.size = h.cells.size) (hclear : ∀ a, ¬Marked marks a) :
    Marking h roots marks roots where
  size := hsize
  live a ha := absurd ha (hclear a)
  reached a ha := absurd ha (hclear a)
  queued _ ha := .root ha
  rooted _ ha _ := .inr ha
  closed b hb := absurd hb (hclear b)

theorem skip (hm : Marking h roots marks (v :: work))
    (hv : ∀ a, v = .obj a → h.body a ≠ .free → Marked marks a) : Marking h roots marks work := by
  have settle (a : Addr) (hf : h.body a ≠ .free) (ha : Marked marks a ∨ .obj a ∈ v :: work) :
      Marked marks a ∨ .obj a ∈ work := by
    rcases ha with ha | ha
    · exact .inl ha
    · rcases List.mem_cons.mp ha with e | ha
      · exact .inl (hv a e.symm hf)
      · exact .inr ha
  exact { hm with
    queued := fun a ha => hm.queued a (List.mem_cons_of_mem v ha)
    rooted := fun a ha hf => settle a hf (hm.rooted a ha hf)
    closed := fun b hb a ha hf => settle a hf (hm.closed b hb a ha hf) }

/-- A live cell that is not marked is marked, and what it refers to is still to be looked at. -/
theorem visit {a : Addr} (hm : Marking h roots marks (.obj a :: work)) (ha : a < marks.size)
    (hf : h.body a ≠ .free) :
    Marking h roots (marks.set a true) ((h.body a).children ++ work) := by
  have reach : h.Reaches roots a := hm.queued a List.mem_cons_self
  have settle (c : Addr) (hc : Marked marks c ∨ .obj c ∈ Value.obj a :: work) :
      Marked (marks.set a true) c ∨ .obj c ∈ (h.body a).children ++ work := by
    rw [marked_set ha]
    rcases hc with hc | hc
    · exact .inl (.inr hc)
    · rcases List.mem_cons.mp hc with e | hc
      · exact .inl (.inl (Value.obj.inj e))
      · exact .inr (List.mem_append_right _ hc)
  refine ⟨by rw [Array.size_set, hm.size], ?_, ?_, ?_, ?_, ?_⟩
  · intro c hc
    rcases (marked_set ha).mp hc with rfl | hc
    · exact hf
    · exact hm.live c hc
  · intro c hc
    rcases (marked_set ha).mp hc with rfl | hc
    · exact reach
    · exact hm.reached c hc
  · intro c hc
    rcases List.mem_append.mp hc with hc | hc
    · exact .child reach hc
    · exact hm.queued c (List.mem_cons_of_mem _ hc)
  · exact fun c hc hcf => settle c (hm.rooted c hc hcf)
  · intro b hb c hc hcf
    rcases (marked_set ha).mp hb with rfl | hb
    · exact .inr (List.mem_append_left _ hc)
    · exact settle c (hm.closed b hb c hc hcf)

/-- Marking runs until nothing is left to be looked at. -/
theorem run (n : Nat) (hm : Marking h roots marks work) :
    Marking h roots (markFrom h.cells marks n work).1 [] := by
  fun_induction markFrom h.cells marks n work with
  | case1 => exact hm
  | case2 marks n a work hlt b hfree ih =>
    refine ih (hm.skip ?_)
    rintro _ ⟨⟩ hf
    exact absurd (isFree_iff.mp hfree) hf
  | case3 marks n a work hlt b hfree hmark ih =>
    refine ih (hm.skip ?_)
    rintro _ ⟨⟩ -
    exact Array.getElem?_eq_some_iff.mpr ⟨hlt, hmark⟩
  | case4 marks n a work hlt b hfree hmark ih =>
    exact ih (hm.visit hlt fun e => hfree (isFree_iff.mpr e))
  | case5 marks n a work hge ih =>
    refine ih (hm.skip ?_)
    rintro _ ⟨⟩ hf
    exact absurd (hm.size ▸ lt_size_of_body hf) hge
  | case6 marks n work ih => exact ih (hm.skip fun _ e => nomatch e)
  | case7 marks n x work ih => exact ih (hm.skip fun _ e => nomatch e)
  | case8 marks n work ih => exact ih (hm.skip fun _ e => nomatch e)

/-- When nothing is left, the marked cells are the live ones that can be reached. -/
theorem marked_iff (hm : Marking h roots marks []) (a : Addr) :
    Marked marks a ↔ h.Reaches roots a ∧ h.body a ≠ .free := by
  refine ⟨fun ha => ⟨hm.reached a ha, hm.live a ha⟩, ?_⟩
  rintro ⟨hr, hf⟩
  induction hr with
  | root ha => exact (hm.rooted _ ha hf).resolve_right (List.not_mem_nil)
  | @child a b _ ha ih =>
    -- a cell that refers to another is not free
    have hb : h.body b ≠ .free := by
      intro e
      rw [e] at ha
      exact nomatch ha
    exact (hm.closed b (ih hb) a ha hf).resolve_right (List.not_mem_nil)

end Marking

theorem count_true_set {marks : Array Bool} {a : Nat} (ha : a < marks.size)
    (hm : ¬marks[a] = true) : (marks.set a true).count true = marks.count true + 1 := by
  rw [Array.count_set ha, Bool.eq_false_iff.mpr hm, if_neg (by decide), if_pos (by decide)]
  rfl

theorem markFrom_count (cells : Array Body) (marks : Array Bool) (n : Nat) (work : List Value) :
    (markFrom cells marks n work).2 + marks.count true
      = n + (markFrom cells marks n work).1.count true := by
  fun_induction markFrom cells marks n work with
  | case4 marks n a work hlt b hfree hmark ih =>
    rw [count_true_set hlt hmark] at ih
    omega
  | _ => first | rfl | assumption

/-- **Marking from clear marks** marks the live cells that can be reached, and counts them. -/
theorem mark_spec {h : Heap} (hsize : h.marks.size = h.cells.size)
    (hclear : ∀ a, ¬Marked h.marks a) (roots : List Value) :
    (∀ a, Marked (h.mark roots).1.marks a ↔ h.Reaches roots a ∧ h.body a ≠ .free) ∧
      (h.mark roots).1.marks.size = h.cells.size ∧
      (h.mark roots).2 = (h.mark roots).1.marks.count true := by
  have hstart : Marking h roots h.marks roots := .start hsize hclear
  have hm := hstart.run 0
  refine ⟨hm.marked_iff, hm.size, ?_⟩
  have hzero : h.marks.count true = 0 := by
    rw [Array.count_eq_zero]
    intro hmem
    obtain ⟨a, ha⟩ := Array.mem_iff_getElem?.mp hmem
    exact hclear a ha
  have hcount := markFrom_count h.cells h.marks 0 roots
  rw [hzero, Nat.zero_add] at hcount
  exact hcount

end ScriptEngine.Heap
