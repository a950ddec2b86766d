import Mathlib.Algebra.GroupWithZero.Nat
import ScriptEngine.Code.Draft
import ScriptEngine.Proofs.Code.Assembly

/-!
# Where instructions begin

How many words an instruction takes depends on its own word only, and not on its operand.  So aiming a
jump does not move any instruction, and the places where instructions begin are known before all jumps
are aimed.

* `spans`            how many words the instructions take, one after the other;
* `Whole`, `Begins`  words that spell whole instructions, and the places where one begins;
* `spans_words`      structured code takes the same number of words wherever its jumps lead;
* `Runs`             the runs of a line table start where instructions begin;
* `lineAt_addOp`     an instruction is found on the line it was written on.
-/

namespace ScriptEngine

def spans : List UInt16 → List Nat
  | [] => []
  | w :: ws =>
    if Op.operandCount w = 0 then 1 :: spans ws
    else
      match ws with
      | [] => [2]
      | _ :: ws => 2 :: spans ws

/-- The last instruction has its operand. -/
def Whole (ws : List UInt16) : Prop := (spans ws).sum = ws.length

/-- An instruction begins behind the first `k` words. -/
def Begins (ws : List UInt16) (k : Nat) : Prop :=
  ∃ before n behind, spans ws = before ++ n :: behind ∧ before.sum = k

variable {ws ws' : List UInt16} {k : Nat}

theorem whole_nil : Whole [] := rfl

theorem spans_short {w : UInt16} (h : Op.operandCount w = 0) (ws : List UInt16) :
    spans (w :: ws) = 1 :: spans ws := by
  cases ws <;> simp [spans, h]

theorem spans_long {w : UInt16} (h : Op.operandCount w ≠ 0) (x : UInt16) (ws : List UInt16) :
    spans (w :: x :: ws) = 2 :: spans ws := by
  rw [spans, if_neg h]

theorem spans_append (h : Whole ws) (ws' : List UInt16) : spans (ws ++ ws') = spans ws ++ spans ws' := by
  unfold Whole at h
  fun_induction spans ws with
  | case1 => rfl
  | case2 w ws hw ih =>
    rw [List.sum_cons, List.length_cons] at h
    rw [List.cons_append, spans_short hw, ih (by omega)]
    rfl
  | case3 w hw => simp at h
  | case4 w hw x ws ih =>
    rw [List.sum_cons, List.length_cons, List.length_cons] at h
    rw [List.cons_append, List.cons_append, spans_long hw, ih (by omega)]
    rfl

theorem Whole.append (h : Whole ws) (h' : Whole ws') : Whole (ws ++ ws') := by
  unfold Whole at *
  rw [spans_append h, List.sum_append, List.length_append, h, h']

theorem Begins.left (h : Begins ws k) (hw : Whole ws) (ws' : List UInt16) : Begins (ws ++ ws') k := by
  obtain ⟨before, n, behind, hs, hk⟩ := h
  refine ⟨before, n, behind ++ spans ws', ?_, hk⟩
  rw [spans_append hw, hs, List.append_assoc]
  rfl

theorem Begins.right (h : Begins ws' k) (hw : Whole ws) : Begins (ws ++ ws') (ws.length + k) := by
  obtain ⟨before, n, behind, hs, hk⟩ := h
  refine ⟨spans ws ++ before, n, behind, ?_, ?_⟩
  · rw [spans_append hw, hs, List.append_assoc]
  · rw [List.sum_append, hw, hk]

/-! ## instructions -/

theorem Op.operandCount_word (op : Op) : Op.operandCount op.word = if op.hasOperand then 1 else 0 := by
  rw [Op.operandCount, Op.ofWord?_word]

theorem spans_operand {op : Op} (ho : op.hasOperand = true) (x : UInt16) (ws : List UInt16) :
    spans (op.word :: x :: ws) = 2 :: spans ws :=
  spans_long (by rw [Op.operandCount_word, if_pos ho]; exact Nat.one_ne_zero) x ws

theorem spans_item (i : Item) (ws : List UInt16) : spans (i.words ++ ws) = i.op.length :: spans ws := by
  unfold Item.words Op.length
  split
  · rename_i ho
    exact spans_operand ho _ ws
  · rename_i ho
    exact spans_short (by rw [Op.operandCount_word, if_neg ho]) ws

theorem spans_flatMap (l : List Item) (ws : List UInt16) :
    spans (l.flatMap Item.words ++ ws) = l.map (·.op.length) ++ spans ws := by
  induction l with
  | nil => rfl
  | cons i l ih =>
    rw [List.flatMap_cons, List.append_assoc, spans_item, ih]
    rfl

theorem sum_lengths (l : List Item) : (l.map (·.op.length)).sum = (l.flatMap Item.words).length := by
  induction l with
  | nil => rfl
  | cons i l ih =>
    rw [List.map_cons, List.sum_cons, ih, List.flatMap_cons, List.length_append, Item.length_words]

theorem whole_flatMap (l : List Item) : Whole (l.flatMap Item.words) := by
  have h := spans_flatMap l []
  rw [List.append_nil, show spans [] = [] from rfl, List.append_nil] at h
  rw [Whole, h, sum_lengths]

/-! ## structured code -/

/-- How many words the instructions of structured code take. -/
def Asm.spans (x : Asm) : List Nat := (x.items 0 fun _ _ => 0).map (·.op.length)

theorem Asm.lengths_drops (a b k : Nat) :
    (drops a k).map (·.op.length) = (drops b k).map (·.op.length) := by
  induction k generalizing a b with
  | zero => rfl
  | succ k ih => exact congrArg (_ :: ·) (ih _ _)

/-- Neither its place nor where its jumps lead makes a difference. -/
theorem Asm.lengths_items (x : Asm) (a b : Nat) (T U : Targets) :
    (x.items a T).map (·.op.length) = (x.items b U).map (·.op.length) := by
  induction x generalizing a b T U with
  | skip | instr => rfl
  | seq x y hx hy =>
    simp only [items, List.map_append]
    rw [hx a b T U, hy _ _ T U]
  | bypass j x hx =>
    simp only [items, List.map_append, List.map_cons, List.map_nil]
    rw [hx _ _ T U]
  | branch x y hx hy =>
    simp only [items, List.map_append, List.map_cons, List.map_nil]
    rw [hx _ _ T U, hy _ _ T U]
  | loop pre head exit body update post hpre hhead hbody hupdate hpost =>
    simp only [items, List.map_append, List.map_cons, List.map_nil]
    rw [hpre _ _ T U, hhead _ _ T U, hbody _ _ (T.into _ _) (U.into _ _), hupdate _ _ T U, hpost _ _ T U]
    have hexit (m n m' n' : Nat) : (exitItems exit m n).map (·.op.length) =
        (exitItems exit m' n').map (·.op.length) := by
      cases exit <;> rfl
    rw [hexit]
  | leave out k =>
    simp only [items, List.map_append, List.map_cons, List.map_nil]
    rw [lengths_drops a b k]

theorem spans_words (x : Asm) (a : Nat) (T : Targets) (ws : List UInt16) :
    spans (x.words a T ++ ws) = x.spans ++ spans ws := by
  rw [Asm.words, spans_flatMap, Asm.spans, x.lengths_items a 0 T]

theorem Asm.spans_words_eq (x : Asm) (a b : Nat) (T U : Targets) :
    ScriptEngine.spans (x.words a T) = ScriptEngine.spans (x.words b U) := by
  have h (a : Nat) (T : Targets) := spans_words x a T []
  simp only [List.append_nil] at h
  rw [h a T, h b U]

/-! ## lines -/

/-- Between two drafts words were added that spell whole instructions, and each further run of lines
starts with one of these. -/
structure Runs (ws : List UInt16) (d d' : Draft) : Prop where
  whole : Whole ws
  starts : ∀ run ∈ d'.lines, run ∈ d.lines ∨ ∃ k, Begins ws k ∧ run.1 = d.words.size + k

section

variable {d d' d'' : Draft}

theorem Runs.refl (d : Draft) : Runs [] d d := ⟨whole_nil, fun _ h => .inl h⟩

theorem Runs.trans (h : Runs ws d d') (h' : Runs ws' d' d'')
    (hsize : d'.words.size = d.words.size + ws.length) : Runs (ws ++ ws') d d'' where
  whole := h.whole.append h'.whole
  starts run hrun := by
    rcases h'.starts run hrun with hrun | ⟨k, hk, e⟩
    · rcases h.starts run hrun with hrun | ⟨k, hk, e⟩
      · exact .inl hrun
      · exact .inr ⟨k, hk.left h.whole ws', e⟩
    · exact .inr ⟨ws.length + k, hk.right h.whole, by rw [e, hsize, Nat.add_assoc]⟩

theorem Runs.alike (h : Runs ws d d') (hspans : spans ws' = spans ws) (hlen : ws'.length = ws.length)
    (hlines : d''.lines = d'.lines) : Runs ws' d d'' where
  whole := by
    rw [Whole, hspans, hlen]
    exact h.whole
  starts run hrun := by
    unfold Begins
    rw [hspans]
    exact h.starts run (hlines ▸ hrun)

theorem mem_lines_addOp {line : Nat} {op : Op} {run : Nat × Nat} (h : run ∈ (Gen.Draft.addOp d line op).lines) :
    run ∈ d.lines ∨ run = (d.words.size, line) := by
  unfold Gen.Draft.addOp at h
  dsimp only at h
  split at h
  · split at h
    · exact .inl h
    · exact Array.mem_push.mp h
  · exact Array.mem_push.mp h

/-- A run of lines starts with an instruction that is added. -/
theorem runs_addOp (d : Draft) (line : Nat) (i : Item) {d' : Draft}
    (hlines : d'.lines = (Gen.Draft.addOp d line i.op).lines) : Runs i.words d d' where
  whole := by
    have h := whole_flatMap [i]
    rwa [List.flatMap_singleton] at h
  starts run hrun := by
    rcases mem_lines_addOp (hlines ▸ hrun) with hrun | rfl
    · exact .inl hrun
    · have hspans := spans_item i []
      rw [List.append_nil] at hspans
      exact .inr ⟨0, ⟨[], _, _, hspans, rfl⟩, rfl⟩

end

namespace Code

variable {κ : Type} {c c' : Code κ} {d : Draft} {line ip ip' : Nat} {op : Op}

/-- The line of a word is that of the last run before it. -/
theorem lineAt_eq (c : Code κ) (ip : Nat) : c.lineAt ip =
    match c.lines.toList.reverse.find? fun run => run.1 ≤ ip with
    | some run => run.2
    | none => (c.lines[0]?.map (·.2)).getD 0 := by
  have hfind : c.lines.findRev? (fun run => run.1 ≤ ip) =
      c.lines.toList.reverse.find? fun run => run.1 ≤ ip := by
    rw [Array.findRev?_eq_find?_reverse, ← Array.find?_toList, Array.toList_reverse]
  exact congrArg (fun r : Option (Nat × Nat) => match r with
    | some run => run.2
    | none => (c.lines[0]?.map Prod.snd).getD 0) hfind

/-- Two words between which no run starts are on one line. -/
theorem lineAt_congr (h : ∀ run ∈ c.lines, run.1 ≤ ip ↔ run.1 ≤ ip') : c.lineAt ip = c.lineAt ip' := by
  have hfind (l : List (Nat × Nat)) (hl : ∀ run ∈ l, run ∈ c.lines) :
      l.find? (fun run => run.1 ≤ ip) = l.find? fun run => run.1 ≤ ip' := by
    induction l with
    | nil => rfl
    | cons run l ih =>
      have hrun := h run (hl run List.mem_cons_self)
      rw [List.find?_cons, List.find?_cons, ih fun run hrun => hl run (List.mem_cons_of_mem _ hrun),
        decide_eq_decide.mpr hrun]
  rw [lineAt_eq, lineAt_eq, hfind _ fun run hrun => Array.mem_toList_iff.mp (List.mem_reverse.mp hrun)]

/-- **An instruction is found on the line it was written on.** -/
theorem lineAt_addOp (hc : c.lines = (Gen.Draft.addOp d line op).lines)
    (hd : ∀ run ∈ d.lines, run.1 < d.words.size) : c.lineAt d.words.size = line := by
  obtain ⟨run, hback, hline⟩ : ∃ run, c.lines.back? = some run ∧ run.2 = line := by
    rw [hc]
    unfold Gen.Draft.addOp
    dsimp only
    split
    · rename_i run hrun
      split
      · rename_i he
        exact ⟨run, hrun, eq_of_beq he⟩
      · exact ⟨_, Array.back?_push, rfl⟩
    · exact ⟨_, Array.back?_push, rfl⟩
  have hfirst : run.1 ≤ d.words.size := by
    rcases mem_lines_addOp (hc ▸ Array.mem_of_back? hback) with hrun | rfl
    · exact Nat.le_of_lt (hd run hrun)
    · exact Nat.le_refl _
  have hhead : c.lines.toList.reverse.head? = some run := by
    rw [List.head?_reverse, Array.getLast?_toList]
    exact hback
  obtain ⟨rest, hrest⟩ := List.head?_eq_some_iff.mp hhead
  rw [lineAt_eq, hrest, List.find?_cons, decide_eq_true hfirst]
  exact hline

theorem lineAt_before (hc' : c'.lines = (Gen.Draft.addOp d line op).lines) (hc : c.lines = d.lines)
    (hne : d.lines ≠ #[]) (hlt : ip < d.words.size) : c'.lineAt ip = c.lineAt ip := by
  by_cases he : c'.lines = c.lines
  · rw [lineAt, lineAt, he]
  · have hpush : c'.lines = c.lines.push (d.words.size, line) := by
      rw [hc', hc] at he ⊢
      unfold Gen.Draft.addOp at he ⊢
      dsimp only at he ⊢
      split at he
      · split at he
        · exact absurd rfl he
        · rename_i hline
          rw [if_neg hline]
      · rfl
    have hskip : decide (d.words.size ≤ ip) = false := decide_eq_false (Nat.not_le.mpr hlt)
    have hzero : 0 < c.lines.size := Array.size_pos_iff.mpr (hc ▸ hne)
    rw [lineAt_eq, lineAt_eq, hpush, Array.toList_push, List.reverse_append, List.reverse_singleton,
      List.singleton_append, List.find?_cons, hskip, Array.getElem?_push_lt hzero,
      Array.getElem?_eq_getElem hzero]

end Code

end ScriptEngine
