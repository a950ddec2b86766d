import ScriptEngine.Proofs.Code.Loops
import ScriptEngine.Proofs.Machine.Bounds
import ScriptEngine.Proofs.Machine.Fresh

/-!
# Loops leave the stacks as they were

In a unit whose loops are only left from their bodies, the heights of both stacks at a place of a call
are those of the place's shape.  So they are the same behind a loop as before it, and where its next
round is prepared as at the start of its first one.

* `Context.Runs`               the call a context runs, and its code;
* `Context.Ready.heights`      the heights of the stacks at a place of tame code;
* `Machine.loops_restore`      **a loop leaves the stacks as they were.**
-/

namespace ScriptEngine

/-- The context runs a call of the unit `c` at the word `ip`, with its operands above `bp` and its marks
above `markBase`. -/
structure Context.Runs (x : Context) (c : Code Const) (bp markBase ip : Nat) : Prop where
  call : ∃ f, x.frames.back? = some f ∧ f.code.words = c.words ∧ f.bp = bp ∧ f.markBase = markBase ∧
    f.ip = ip

/-- **The heights of the stacks at a place of tame code** are those of its shape. -/
theorem Context.Ready.heights {x : Context} (h : x.Ready) {c : Code Const} {y : Asm} (hc : c.Spells y)
    (ht : y.Tame) {bp markBase ip : Nat} (hr : x.Runs c bp markBase ip) :
    ∃ t, y.Shaped ip t ∧ x.stack.size = bp + t.height ∧ x.marks.size = t.marks.length + markBase := by
  obtain ⟨f, hf, hwords, rfl, rfl, rfl⟩ := hr.call
  obtain ⟨hne, hcalls⟩ := h.goes
  rw [back?_eq_head?] at hf
  rw [← length_fromTop x.marks]
  generalize fromTop x.frames = frames, fromTop x.marks = marks at hf hcalls ⊢
  cases hcalls with
  | nil => exact nomatch hf
  | @cons f _ _ rest _ t _ standing height marked base _ =>
    obtain rfl := Option.some.inj hf
    rw [hwords] at standing
    obtain ⟨u, hu, rfl⟩ := standing.shape kept_eq (hc.typing ht)
    refine ⟨u, hu, height, ?_⟩
    rw [marked, List.length_append, List.length_map, base]

namespace Machine

/-- **A loop leaves the stacks as they were.**  Take any run of a request, on any engine a host can come
to, and a unit in which no jump leaves the head or the update of a loop.  When a call of the unit is
behind a loop, both stacks are as high as when it came to the loop; and when it is where the next round
is prepared, as high as at the start of the first one. -/
theorem loops_restore {lib : Library} (hlib : lib.Calm) {w : World} (hw : w.Reached lib) {cx : CtxId}
    (hcx : w.InUse cx) (q : Request) {c : Code Const} {x : Asm} (hc : c.Spells x) (ht : x.Tame)
    {l : Asm.Span} (hl : l ∈ x.loops 0) (m n : Nat) :
    let run := fun k => (step lib)^[k] ⟨w.enter, [], .begin cx q⟩
    ∀ sub bp markBase, (run m).mode = .running sub → (run n).mode = .running sub →
      let before := (run m).world.ctx sub
      let behind := (run n).world.ctx sub
      (before.Runs c bp markBase l.entry ∧ behind.Runs c bp markBase l.exit ∨
        before.Runs c bp markBase l.top ∧ behind.Runs c bp markBase l.next) →
      behind.stack.size = before.stack.size ∧ behind.marks.size = before.marks.size := by
  intro run sub bp markBase hm hn before behind hruns
  have hready (k : Nat) (hk : (run k).mode = .running sub) : ((run k).world.ctx sub).Ready := by
    have hworks := (((hw.fit hlib).steady hcx q).run hlib k).works
    rw [hk] at hworks
    exact hworks.2
  -- the two places have one shape
  have hsame {a b : Nat} {u : Shape} (ha : x.Shaped a u) (hb : x.Shaped b u)
      (hbefore : before.Runs c bp markBase a) (hbehind : behind.Runs c bp markBase b) :
      behind.stack.size = before.stack.size ∧ behind.marks.size = before.marks.size := by
    obtain ⟨s, hs, hstack, hmarks⟩ := (hready m hm).heights hc ht hbefore
    obtain ⟨t, ht', hstack', hmarks'⟩ := (hready n hn).heights hc ht hbehind
    obtain rfl := hs.unique ha
    obtain rfl := ht'.unique hb
    exact ⟨hstack'.trans hstack.symm, hmarks'.trans hmarks.symm⟩
  have hlevel := hc.turns.level_unit l hl
  rcases hruns with ⟨hbefore, hbehind⟩ | ⟨hbefore, hbehind⟩
  · obtain ⟨u, ha, hb⟩ := hlevel.whole
    exact hsame ha hb hbefore hbehind
  · obtain ⟨u, ha, hb⟩ := hlevel.round
    exact hsame ha hb hbefore hbehind

end Machine

/-! ## a small loop -/

namespace Sample

def body : Asm :=
  .seq (.seq (.const .func 1 (.code inner)) (.seq .skip (.instr .fcall 0 none)))
    (.seq (.op .pop) (.seq (.leave true 0) (.seq .skip .skip)))

def asm : Asm := .seq (.loop .skip .skip none body .skip .skip) (.seq (.op .pushNil) .skip)

def block : Tree :=
  .mk .list 1 [.mk .call 1 [.mk .kFunc 1 [], .empty 1], .mk .kBreak 1 [.empty 1]]

def tree : Tree := .mk .kFor 1 [.mk .list 1 [.empty 1, .empty 1, .empty 1], .mk .lcurl 1 [block]]

theorem spells : unit.Spells asm := by
  have hcall : Lowering.expr 3 [none] (.mk .call 1 [.mk .kFunc 1 [], .empty 1])
      (.seq (.const .func 1 (.code inner)) (.seq .skip (.instr .fcall 0 none))) :=
    .call (.placed (.plain .func) .nil (Nat.zero_le _))
  have hbreak : Lowering.stmt 3 [none] (.mk .kBreak 1 [.empty 1]) (.leave true 0) :=
    .leave (.inl ⟨rfl, rfl⟩) (.innermost rfl nofun)
  have hbody : Lowering.Block (Lowering.expr 3) (Lowering.stmt 3) [none] (.mk .lcurl 1 [block]) body :=
    .braced (.some (List.cons_ne_nil _ _) (.expr rfl hcall (.stmt rfl hbreak .nil)))
  have hhead : Lowering.Header (.mk .list 1 [.empty 1, .empty 1, .empty 1]) 3 none
      [.empty 1, .empty 1, .empty 1] := fun _ => rfl
  have hloop : Lowering.stmt 4 [] tree (.loop .skip .skip none body .skip .skip) :=
    .fors hhead (.none rfl) (.none rfl) hbody (.none rfl)
  have hlowered : Lowering.Statements (Lowering.expr 4) (Lowering.stmt 4) [] tree true asm :=
    .some (List.cons_ne_nil _ _) (.stmt rfl hloop .nil)
  refine ⟨⟨4, tree, hlowered⟩, by decide +kernel, by decide, by decide, ?_⟩
  simp [asm, body, Asm.Uses, Asm.const, Asm.op, unit]

theorem tame : asm.Tame := by
  simp [asm, body, Asm.Tame, Asm.Closed, Asm.const, Asm.op]

theorem runs (k ip : Nat) (h : (((run k).world.ctx 0).frames.back?.map fun f =>
    (f.code.words, f.bp, f.markBase, f.ip)) = some (unit.words, 0, 0, ip)) :
    ((run k).world.ctx 0).Runs unit 0 0 ip := by
  obtain ⟨f, hf, hat⟩ := Option.map_eq_some_iff.mp h
  simp only [Prod.mk.injEq] at hat
  exact ⟨f, hf, hat⟩

end Sample

/-- The loop is left from its body with both stacks as at its start. -/
theorem Machine.loops_restore_sample :
    let before := (Sample.run 1).world.ctx 0
    let behind := (Sample.run 10).world.ctx 0
    before.Runs Sample.unit 0 0 0 ∧ behind.Runs Sample.unit 0 0 12 ∧
      behind.stack.size = before.stack.size ∧ behind.marks.size = before.marks.size := by
  have hbefore := Sample.runs 1 0 (by decide +kernel)
  have hbehind := Sample.runs 10 12 (by decide +kernel)
  have hloop : ⟨0, 1, 9, 12⟩ ∈ Sample.asm.loops 0 := List.mem_cons_self
  have hfirst : (Sample.run 1).mode = .running 0 := mode_of_running? (by decide +kernel)
  have hlast : (Sample.run 10).mode = .running 0 := mode_of_running? (by decide +kernel)
  exact ⟨hbefore, hbehind, loops_restore Library.calm_core Sample.reached Sample.inUse
    (.call Sample.engine.1 #[] .nil .nil) Sample.spells Sample.tame hloop 1 10 0 0 0 hfirst hlast
    (.inl ⟨hbefore, hbehind⟩)⟩

end ScriptEngine
