import ScriptEngine.Heap.Pool

/-!
# Marking

Marking follows the values an object refers to with a list of values still to be looked at.  It
ends because each round either shortens that list or marks a cell that was not marked.
-/

namespace ScriptEngine.Heap

/-- Marking a cell that is not marked leaves fewer unmarked ones. -/
theorem count_false_set_lt {marks : Array Bool} {a : Nat} (h : a < marks.size)
    (hm : ¬marks[a] = true) : (marks.set a true).count false < marks.count false := by
  have h0 : marks[a] = false := Bool.eq_false_iff.mpr hm
  have hp : 0 < marks.count false := Array.count_pos_iff.mpr (h0 ▸ Array.getElem_mem h)
  rw [Array.count_set h, h0, if_pos (by decide), if_neg (by decide)]
  omega

/-- Marks what can be reached from `work`: the marks, and how many cells were newly marked. -/
def markFrom (cells : Array Body) (marks : Array Bool) (count : Nat) (work : List Value) :
    Array Bool × Nat :=
  match work with
  | [] => (marks, count)
  | .obj a :: work =>
    if h : a < marks.size then
      let b := cells[a]?.getD .free
      if b.isFree then markFrom cells marks count work
      else if hm : marks[a] = true then markFrom cells marks count work
      else markFrom cells (marks.set a true) (count + 1) (b.children ++ work)
    else markFrom cells marks count work
  | .nil :: work => markFrom cells marks count work
  | .num _ :: work => markFrom cells marks count work
  | .done :: work => markFrom cells marks count work
termination_by (marks.count false, work.length)
decreasing_by
  all_goals first
    | exact Prod.Lex.right _ (Nat.lt_succ_self _)
    | exact Prod.Lex.left _ _ (count_false_set_lt h hm)

/-- Marks what can be reached from `roots`. -/
def mark (h : Heap) (roots : List Value) : Heap × Nat :=
  let (marks, count) := markFrom h.cells h.marks 0 roots
  ({ h with marks }, count)

end ScriptEngine.Heap
