import Mathlib.Tactic
import ScriptEngine.Heap.Pool

/-!
# Cells

What a cell holds after an operation on the heap.

* `Heap.body_modify_self`, `Heap.body_modify_of_ne`   after changing an object;
* `Heap.body_install`                                 after putting one into a cell.
-/

namespace ScriptEngine.Heap

theorem isFree_iff {b : Body} : b.isFree = true ↔ b = .free := by
  cases b <;> simp [Body.isFree]

theorem lt_size_of_body {h : Heap} {a : Addr} (ha : h.body a ≠ .free) : a < h.cells.size := by
  by_contra hge
  exact ha (by rw [body, Array.getElem?_eq_none (Nat.le_of_not_lt hge)]; rfl)

theorem body_modify_self {h : Heap} {a : Addr} (ha : a < h.cells.size) (f : Body → Body) :
    (h.modify a f).body a = f (h.body a) := by
  rw [body, modify, Array.getElem?_modify, if_pos rfl, body, Array.getElem?_eq_getElem ha]
  rfl

theorem body_modify_of_ne (h : Heap) {a b : Addr} (hab : b ≠ a) (f : Body → Body) :
    (h.modify b f).body a = h.body a := by
  rw [body, modify, Array.getElem?_modify, if_neg hab, body]

theorem body_install (h : Heap) {a : Addr} (ha : a < h.cells.size) (b : Body) (x : Addr) :
    (h.install a b).body x = if x = a then b else h.body x := by
  rw [body, install]
  dsimp only
  rw [Array.getElem?_setIfInBounds]
  by_cases hxa : a = x
  · subst hxa
    rw [if_pos rfl, if_pos ha, if_pos rfl]
    rfl
  · rw [if_neg hxa, if_neg (Ne.symm hxa)]
    rfl

/-! ## marks -/

def Marked (marks : Array Bool) (a : Addr) : Prop := marks[a]? = some true

def isMarked (h : Heap) (a : Addr) : Bool := h.marks[a]?.getD false

theorem isMarked_iff {h : Heap} {a : Addr} : h.isMarked a = true ↔ Marked h.marks a := by
  rw [isMarked, Marked]
  cases h.marks[a]? with
  | none => simp
  | some b => simp

end ScriptEngine.Heap
