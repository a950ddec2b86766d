import Mathlib
import ScriptEngine.Proofs.Code.Courses

/-!
# The line table

The line table of a unit holds a run for each change of the line only, and runs are added while the
line moves forwards and backwards.  Read against the log of the unit it is complete.

* `Draft.Charts`      a draft whose line table gives the instructions of a log their lines;
* `Gen.Course.charts` every course keeps the line table complete;
* `Compiled.lines_chart` **every word of a unit is on the line that was set when its instruction was
  written**, the runs start in rising order from the first word on, and neighbours differ in line.
-/

namespace ScriptEngine

variable {d d' : Draft} {log : List (Item × Nat)} {line : Nat}

/-- A draft whose line table gives the instructions of a log their lines. -/
structure Draft.Charts (d : Draft) (log : List (Item × Nat)) : Prop where
  row : Item.Row 0 (log.map Prod.fst) d.words.size
  below : ∀ run ∈ d.lines, run.1 < d.words.size
  start : 0 < d.words.size → d.lines.toList.head?.map Prod.fst = some 0
  rising : d.lines.toList.Pairwise fun a b => a.1 < b.1
  apart : d.lines.toList.IsChain fun a b => a.2 ≠ b.2
  found : ∀ c : Code Const, c.lines = d.lines → ∀ e ∈ log, ∀ k < e.1.op.length,
    c.lineAt (e.1.place + k) = e.2

theorem Draft.charts_empty : ({} : Draft).Charts [] where
  row := rfl
  below _ hrun := absurd hrun (Array.not_mem_empty _)
  start h := absurd h (Nat.lt_irrefl 0)
  rising := .nil
  apart := .nil
  found _ _ _ he := absurd he List.not_mem_nil

/-- Only the number of words and the line table count. -/
theorem Draft.Charts.congr (h : d.Charts log) (hsize : d'.words.size = d.words.size)
    (hlines : d'.lines = d.lines) : d'.Charts log where
  row := hsize ▸ h.row
  below := by
    rw [hlines, hsize]
    exact h.below
  start := by
    rw [hlines, hsize]
    exact h.start
  rising := hlines ▸ h.rising
  apart := hlines ▸ h.apart
  found c hc := h.found c (hc.trans hlines)

/-- An instruction on the line of the last run adds none, and any other one adds a run. -/
theorem lines_addOp (d : Draft) (line : Nat) (op : Op) :
    (Gen.Draft.addOp d line op).lines = d.lines ∧ (∃ run ∈ d.lines, run.2 = line) ∨
      (Gen.Draft.addOp d line op).lines = d.lines.push (d.words.size, line) ∧
        ∀ run, d.lines.back? = some run → run.2 ≠ line := by
  unfold Gen.Draft.addOp
  dsimp only
  split
  · rename_i run hback
    split
    · rename_i he
      exact .inl ⟨rfl, run, Array.mem_of_back? hback, eq_of_beq he⟩
    · rename_i hne
      refine .inr ⟨rfl, fun run' hback' => ?_⟩
      obtain rfl := Option.some.inj (hback.symm.trans hback')
      exact fun he => hne (beq_iff_eq.mpr he)
  · rename_i hback
    refine .inr ⟨rfl, fun run hback' => ?_⟩
    rw [hback] at hback'
    cases hback'

/-- **An instruction that is added is on its line**, and those before it stay on theirs. -/
theorem Draft.Charts.add (h : d.Charts log) (i : Item) (hplace : i.place = d.words.size)
    (hsize : d'.words.size = d.words.size + i.op.length)
    (hlines : d'.lines = (Gen.Draft.addOp d line i.op).lines) : d'.Charts (log ++ [(i, line)]) := by
  have hbelow : ∀ run ∈ d'.lines, run.1 ≤ d.words.size := by
    intro run hrun
    rcases mem_lines_addOp (hlines ▸ hrun) with hrun | rfl
    · exact Nat.le_of_lt (h.below run hrun)
    · exact Nat.le_refl _
  have hlength : 0 < i.op.length := Op.length_pos i.op
  have hrow : Item.Row 0 ((log ++ [(i, line)]).map Prod.fst) d'.words.size := by
    rw [List.map_append]
    exact h.row.append ⟨hplace, hsize.symm ▸ hplace ▸ rfl⟩
  have hfound : ∀ c : Code Const, c.lines = d'.lines → ∀ e ∈ log ++ [(i, line)],
      ∀ k < e.1.op.length, c.lineAt (e.1.place + k) = e.2 := by
    intro c hc e he k hk
    have hc' := hc.trans hlines
    rcases List.mem_append.mp he with he | he
    · -- an instruction before
      have hbounds := (h.row.bounds (List.mem_map_of_mem he)).2
      have hsome : d.lines ≠ #[] := by
        intro hnil
        have hhead := h.start (by omega)
        rw [hnil] at hhead
        cases hhead
      have hbefore := Code.lineAt_before (c := { c with lines := d.lines }) hc' rfl hsome
        (show e.1.place + k < d.words.size by omega)
      rw [hbefore]
      exact h.found _ rfl e he k hk
    · obtain rfl := List.mem_singleton.mp he
      show c.lineAt (i.place + k) = line
      rw [hplace, ← Code.lineAt_addOp hc' h.below]
      refine Code.lineAt_congr fun run hrun => ?_
      have := hbelow run (hc ▸ hrun)
      omega
  rcases lines_addOp d line i.op with ⟨hsame, run, hrun, -⟩ | ⟨hpush, hback⟩
  · have hsame := hlines.trans hsame
    refine ⟨hrow, fun run hrun => ?_, fun _ => ?_, hsame ▸ h.rising, hsame ▸ h.apart, hfound⟩
    · exact Nat.lt_of_le_of_lt (hbelow run hrun) (by omega)
    · rw [hsame]
      exact h.start (Nat.lt_of_le_of_lt (Nat.zero_le _) (h.below run hrun))
  · have hpush := hlines.trans hpush
    refine ⟨hrow, fun run hrun => ?_, fun _ => ?_, ?_, ?_, hfound⟩
    · exact Nat.lt_of_le_of_lt (hbelow run hrun) (by omega)
    · rw [hpush, Array.toList_push]
      rcases Nat.eq_zero_or_pos d.words.size with hzero | hpos
      · have hnone : d.lines.toList = [] := List.eq_nil_iff_forall_not_mem.mpr fun run hrun => by
          have := h.below run (Array.mem_toList_iff.mp hrun)
          omega
        rw [hnone, hzero]
        rfl
      · have hhead := h.start hpos
        cases hl : d.lines.toList with
        | nil =>
          rw [hl] at hhead
          cases hhead
        | cons run rest =>
          rw [hl] at hhead
          exact hhead
    · rw [hpush, Array.toList_push, List.pairwise_append]
      refine ⟨h.rising, List.pairwise_singleton _ _, fun run hrun new hnew => ?_⟩
      obtain rfl := List.mem_singleton.mp hnew
      exact h.below run (Array.mem_toList_iff.mp hrun)
    · rw [hpush, Array.toList_push, List.isChain_append]
      refine ⟨h.apart, .singleton _, fun run hrun new hnew => ?_⟩
      obtain rfl := Option.some.inj hnew
      exact hback run (by rwa [← Array.getLast?_toList])

namespace Gen

variable {α : Type} {x : Gen α} {s t : State} {a : α} {before : List (Item × Nat)}

/-- **Every course keeps the line table complete.** -/
theorem Course.charts (h : Course x s a t log) (hs : s.draft.Charts before) :
    t.draft.Charts (before ++ log) := by
  induction h generalizing before with
  | bind _ _ ihx ihf =>
    rw [← List.append_assoc]
    exact ihf (ihx hs)
  | aim =>
    rw [List.append_nil]
    exact hs.congr Array.size_setIfInBounds rfl
  | const _ h =>
    rw [List.append_nil]
    rcases constIndex_ok h with rfl | rfl
    · exact hs
    · exact hs.congr rfl rfl
  | @emit op _ ho _ =>
    have hlength : op.length = 1 := if_neg (by rw [ho]; exact Bool.false_ne_true)
    refine hs.add _ rfl ?_ rfl
    rw [size_added, hlength]
  | @emitArg op _ _ ho _ =>
    have hlength : op.length = 2 := if_pos ho
    refine hs.add _ rfl ?_ rfl
    rw [size_pushed, size_added, hlength]
  | literal =>
    refine hs.add _ rfl ?_ rfl
    rw [size_pushed, size_added]
    rfl
  | _ =>
    rw [List.append_nil]
    exact hs.congr rfl rfl

end Gen

theorem Code.Logged.charts {c : Code Const} (h : c.Logged log) :
    ∃ d : Draft, d.Charts log ∧ Inscribed d.words (log.map Prod.fst) ∧ c.words = d.words ∧ c.lines = d.lines := by
  cases h with
  | mk empty course =>
    have hcharts := course.charts (empty ▸ Draft.charts_empty)
    have hinscribed := course.inscribed (by rw [empty]; exact inscribed_nil)
    exact ⟨_, hcharts, hinscribed, rfl, rfl⟩

variable {src : Bytes} {file : String} {firstLine : Nat} {c : Code Const}

theorem Compiled.assembled (h : Compiled src file firstLine c) : c.Assembled := by
  have hall := compile_assembled src file firstLine
  induction h with
  | text h =>
    rw [h] at hall
    cases hall
    assumption
  | made h hu hc =>
    rw [h] at hall
    cases hall with
    | error h => exact h _ hu _ hc
  | inside _ hd ih => exact ih.inside _ hd

/-- **Every word of a unit is on the line that was set when its instruction was written.**  The
instructions that the words spell are those of the log; the runs of the line table start in rising
order, the first of them with the first word, and runs next to one another are on different lines. -/
theorem Compiled.lines_chart (h : Compiled src file firstLine c) :
    ∃ log l, c.Logged log ∧ Decoded c.words l ∧ l.map Item.head = log.map (fun e => e.1.head) ∧
      (∀ e ∈ log, ∀ k < e.1.op.length, c.lineAt (e.1.place + k) = e.2) ∧
      c.lines.toList.Pairwise (fun a b => a.1 < b.1) ∧
      c.lines.toList.head?.map Prod.fst = some 0 ∧
      c.lines.toList.IsChain fun a b => a.2 ≠ b.2 := by
  obtain ⟨log, hlog⟩ := h.logged
  obtain ⟨d, hd, hinscribed, hwords, hlines⟩ := hlog.charts
  obtain ⟨l, hl, -⟩ := h.assembled.decoded
  obtain ⟨i, hi, -⟩ := hl.first
  have hpos : 0 < c.words.size := by
    have := (hl.row.bounds hi).2
    have := Op.length_pos i.op
    omega
  have hheads : l.map Item.head = log.map (fun e => e.1.head) := by
    rw [hl.inscribed.agree (hwords ▸ hinscribed), List.map_map]
    rfl
  rw [hwords] at hpos
  rw [hlines]
  exact ⟨log, l, hlog, hl, hheads, hd.found c hlines, hd.rising, hd.start hpos, hd.apart⟩

/-! A call whose arguments are on lines of their own. -/

namespace Spread

def source : Bytes := Bytes.ofString "f(\na,\nb)"

def unit : Code Const where
  words := #[40, 1, 40, 2, 40, 3, 35, 2, 39]
  consts := #[.name (Bytes.ofString "arg"), .name (Bytes.ofString "f"), .name (Bytes.ofString "a"),
    .name (Bytes.ofString "b")]
  lines := #[(0, 1), (2, 2), (4, 3), (6, 1)]
  file := "sample"
  params := #[]
  optional := #[]
  rest := some 0
  needsRest := true

theorem compile_source : ScriptEngine.compile source "sample" 1 = .ok unit := by
  cbv

/-- The lines go forwards to the arguments, and back to the call. -/
theorem lines_chart_unit : ∃ log l, unit.Logged log ∧ Decoded unit.words l ∧
    l.map Item.head = log.map (fun e => e.1.head) ∧
    (∀ e ∈ log, ∀ k < e.1.op.length, unit.lineAt (e.1.place + k) = e.2) ∧
    unit.lines.toList.Pairwise (fun a b => a.1 < b.1) ∧ unit.lines.toList.head?.map Prod.fst = some 0 ∧
    unit.lines.toList.IsChain fun a b => a.2 ≠ b.2 :=
  Compiled.lines_chart (.text compile_source)

end Spread

end ScriptEngine
