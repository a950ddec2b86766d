import ScriptEngine.Proofs.Machine.Calmness
import ScriptEngine.Proofs.Machine.Neatness
import ScriptEngine.Proofs.Natives.Core

/-!
# What holds of all that a native can do

The core natives are put together of a few means: they read objects and frames, make and change
objects, compile, and make and free children.  A property of activities that holds of these, and of
what is put together of them, holds of every core native.

* `Manner`         such a property, which closures may break;
* `Habit`          one that they do not break;
* `Manner.start`, `Manner.resume`   it holds of the core natives but those that bind code;
* `Habit.start`    it holds of them all;
* `Library.calm_core`             for one, they leave the stacks alone.
-/

namespace ScriptEngine

open Act (ctx)

/-- A property of activities on a context that a native cannot break but by making closures.  The failures
it is allowed to end with are given; those a native comes up with, which have no trace yet, are among them. -/
structure Manner (cx : CtxId) (ok : Failure → Prop) (P : (α : Type) → Act α → Prop) : Prop where
  allows {e : Failure} (h : e.External) (trace : e.trace = []) : ok e
  done {α : Type} (a : α) : P α (pure a)
  throws {α : Type} {e : Failure} (h : ok e) : P α (throw e)
  next {α β : Type} {x : Act α} {f : α → Act β} (hx : P α x) (hf : ∀ a, P β (f a)) : P β (x >>= f)
  heap : P Heap Act.heap
  /-- A native looks at the frames of a context only. -/
  context {β : Type} {f : Context → Act β} (hf : ∀ c, P β (f c))
    (hframes : ∀ c c' : Context, c'.frames = c.frames → f c' = f c) : P β (ctx cx >>= f)
  printed (text : Bytes) : P PUnit (modify fun w => { w.leave with printed := text :: w.printed })
  entered : P PUnit (modify World.enter)
  newStr (bs : Bytes) : P Value (Act.newStr cx bs)
  newVec (items : Array Value) : P Value (Act.newVec cx items)
  newHash : P Value (Act.newHash cx)
  newFunc (target scope : Value) : P Value (Act.newFunc cx target scope)
  modifyVec (v : Value) (f : Array Value → Array Value) : P Bool (Act.modifyVec v f)
  hashGet (box key : Value) : P (Option Value) (Act.hashGet box key)
  hashDelete (box key : Value) : P (Option Value) (Act.hashDelete box key)
  compile (src : Bytes) (file : String) (firstLine : Nat) :
    P (Except CompileError Value) (Act.compile cx src file firstLine)
  subContext : P CtxId (Act.subContext cx)
  freeChild : P Unit (Act.freeChild cx)
  rethrow {α : Type} {e : Failure} (h : ok e) : P α (Act.rethrow cx e)

/-- A property of activities on a context that a native cannot break. -/
structure Habit (cx : CtxId) (ok : Failure → Prop) (P : (α : Type) → Act α → Prop) : Prop
    extends Manner cx ok P where
  newClosure (ns next : Value) : P Value (Act.newClosure cx ns next)

namespace Natives

/-- The natives that bind code, and so make closures. -/
inductive Binds : Behaviour → Prop
  | compile : Binds (.plain Natives.compile)
  | bind : Binds (.plain Natives.bind)

theorem mild_startIn (h : Heap) (who : String) (v : Value) (len : Nat) :
    Mild (startIn h who v len) := by
  unfold startIn
  refine (h.mild_indexOf v).bind fun x => ?_
  extract_lets a b
  split
  · exact mild_error not_false
  · exact mild_ok _

theorem mild_countIn (h : Heap) (v : Value) (most : Nat) : Mild (countIn h v most) := by
  unfold countIn
  split
  · exact mild_ok _
  · exact (h.mild_numOf v).bind fun _ => mild_ok _

theorem mild_argumentList (h : Heap) (v : Value) : Mild (argumentList h v) := by
  unfold argumentList
  split
  · exact mild_ok _
  · split
    · exact mild_ok _
    · exact mild_error not_false

end Natives

namespace Manner

variable {cx : CtxId} {ok : Failure → Prop} {P : (α : Type) → Act α → Prop} {α β : Type}

theorem ite (_ : Manner cx ok P) {p : Prop} [Decidable p] {x y : Act α} (hx : P α x) (hy : P α y) :
    P α (if p then x else y) := by
  split
  · exact hx
  · exact hy

section

variable (hP : Manner cx ok P)
include hP

theorem fail {c : Cause} (hc : ¬ c.Internal) : P α (Act.fail c) := hP.throws (hP.allows hc rfl)

theorem ofExcept {r : Except Cause α} (hr : Mild r) : P α (Act.ofExcept r) := by
  cases r with
  | ok a => exact hP.done a
  | error c => exact hP.fail (hr c rfl)

theorem read {f : Heap → Except Cause α} (hf : ∀ h, Mild (f h)) : P α (Act.read f) :=
  hP.next hP.heap fun h => hP.ofExcept (hf h)

theorem discard {x : Act α} (hx : P α x) : P PUnit (discard x) := hP.next hx fun _ => hP.done _

theorem map {f : α → β} {x : Act α} (hx : P α x) : P β (f <$> x) := hP.next hx fun _ => hP.done _

theorem check {p : Prop} [Decidable p] {c : Cause} {x : Act α} (hc : ¬ c.Internal) (hx : P α x) :
    P α (if p then Act.fail c >>= fun (_ : PUnit) => x else x) :=
  hP.ite (hP.next (hP.fail hc) fun _ => hx) hx

theorem forM {f : α → Act Unit} (hf : ∀ a, P Unit (f a)) (as : List α) : P PUnit (as.forM f) := by
  induction as with
  | nil => exact hP.done _
  | cons a as ih => exact hP.next (hf a) fun _ => ih

theorem newText (s : String) : P Value (Act.newText cx s) := hP.newStr _

/-! ## natives that answer at once -/

variable (me : Value) (args : Array Value)

theorem print : P Value (Natives.print cx me args) :=
  hP.next hP.heap fun _ => hP.next (hP.printed _) fun _ => hP.next hP.entered fun _ => hP.newStr _

theorem size : P Value (Natives.size cx me args) := by
  refine hP.next hP.heap fun h => ?_
  split
  · exact hP.done _
  · exact hP.done _
  · exact hP.done _
  · exact hP.ite (hP.done _) (hP.fail id)

theorem append : P Value (Natives.append cx me args) :=
  hP.next (hP.modifyVec _ _) fun _ => hP.ite (hP.done _) (hP.fail id)

theorem setsize : P Value (Natives.setsize cx me args) := by
  refine hP.next (hP.read fun h => h.mild_indexOf _) fun x => hP.check id (hP.check id ?_)
  exact hP.next (hP.modifyVec _ _) fun _ => hP.ite (hP.done _) (hP.fail id)

theorem subvec : P Value (Natives.subvec cx me args) := by
  refine hP.next hP.heap fun h => ?_
  split
  · exact hP.fail id
  · refine hP.next (hP.ofExcept (Natives.mild_startIn h _ _ _)) fun start => ?_
    exact hP.next (hP.ofExcept (Natives.mild_countIn h _ _)) fun n => hP.newVec _

theorem keys : P Value (Natives.keys cx me args) := by
  refine hP.next hP.heap fun h => ?_
  split
  · exact hP.newVec _
  · exact hP.fail id

theorem delete : P Value (Natives.delete cx me args) :=
  hP.next (hP.discard (hP.hashDelete _ _)) fun _ => hP.done _

theorem contains : P Value (Natives.contains cx me args) :=
  hP.next hP.heap fun _ =>
    hP.ite (hP.next (hP.hashGet _ _) fun _ => hP.done _) (hP.fail id)

theorem typeOf : P Value (Natives.typeOf cx me args) := by
  refine hP.next hP.heap fun h => ?_
  split
  · exact hP.newText _
  · exact hP.newText _

theorem int : P Value (Natives.int cx me args) := by
  refine hP.next hP.heap fun h => ?_
  split
  · exact hP.done _
  · exact hP.done _

theorem num : P Value (Natives.num cx me args) := by
  refine hP.next hP.heap fun h => ?_
  split
  · exact hP.done _
  · exact hP.done _

theorem streq : P Value (Natives.streq cx me args) := by
  refine hP.next hP.heap fun h => ?_
  split
  · exact hP.done _
  · exact hP.done _

theorem substr : P Value (Natives.substr cx me args) := by
  refine hP.next hP.heap fun h => ?_
  split
  · exact hP.fail id
  · refine hP.next (hP.ofExcept (Natives.mild_startIn h _ _ _)) fun start => ?_
    exact hP.next (hP.ofExcept (Natives.mild_countIn h _ _)) fun n => hP.newStr _

theorem chr : P Value (Natives.chr cx me args) :=
  hP.next (hP.read fun h => h.mild_numOf _) fun _ => hP.ite (hP.newStr _) (hP.fail id)

theorem id : P Value (Natives.id cx me args) := by
  refine hP.next hP.heap fun h => ?_
  split
  · exact hP.newText _
  · exact hP.fail not_false

theorem die : P Value (Natives.die cx me args) := by
  refine hP.next hP.heap fun h => ?_
  split
  · exact hP.throws (hP.allows not_false rfl)
  · exact hP.throws (hP.allows not_false rfl)

theorem closure : P Value (Natives.closure cx me args) := by
  refine hP.next hP.heap fun h => ?_
  split
  · exact hP.fail not_false
  · rename_i scope _
    have hfound (n : Nat) : P Value (do
        return (h.scopes (← Act.chainBound) scope)[n]?.getD .nil) :=
      hP.next (hP.next hP.heap fun _ => hP.done _) fun _ => hP.done _
    exact hP.ite (hP.next (hP.done _) hfound)
      (hP.next (hP.map (hP.ofExcept (h.mild_numOf _))) hfound)

theorem callerStart (n : Native) : P Reply (Natives.callerStart cx n me args) := by
  have hfound (n : Nat) : P Reply (Natives.callerAt cx n) := by
    refine hP.context (fun c => ?_) fun c c' hc => ?_
    · split
      · exact hP.done _
      · exact hP.done _
      · exact hP.next (hP.newText _) fun _ => hP.next (hP.newVec _) fun _ => hP.done _
    · rw [Context.frameAt, Context.frameAt, hc]
  rw [Natives.callerStart_eq]
  exact hP.ite (hP.next (hP.done _) hfound) (hP.next (hP.map (hP.read fun h => h.mild_numOf _)) hfound)

/-! ## natives that wait -/

theorem report (errors : Value) (e : Failure) : P Unit (Natives.report cx errors e) := by
  have happend (v : Value) : P PUnit (Functor.discard (Act.vecPush errors v)) :=
    hP.discard (hP.modifyVec _ _)
  refine hP.next (hP.newText _) fun message => hP.next (happend message) fun _ => ?_
  refine hP.forM (fun p => ?_) _
  exact hP.next (hP.newText _) fun file => hP.next (happend file) fun _ => happend _

theorem callStart (n : Native) : P Reply (Natives.callStart cx n me args) := by
  refine hP.next hP.heap fun h => hP.next (hP.ofExcept (Natives.mild_argumentList h _)) fun _ => ?_
  exact hP.check not_false (hP.next hP.subContext fun _ => hP.done _)

theorem callEnd (n : Native) (wait : Wait) {r : Except Failure Value}
    (hr : ∀ e, r = .error e → ok e) : P Reply (Natives.callEnd cx n wait r) := by
  refine hP.next hP.freeChild fun _ => ?_
  split
  · exact hP.done _
  · rename_i e
    refine hP.next hP.heap fun h => ?_
    exact hP.ite (hP.next (hP.report _ e) fun _ => hP.done _) (hP.rethrow (hr e rfl))

/-! ## all of them -/

theorem plain {f : CtxId → Value → Array Value → Act Value} (hf : P Value (f cx me args)) (n : Native) :
    P Reply ((Behaviour.plain f).start cx n me args) := hP.next hf fun _ => hP.done _

/-- **Every core native** starts in that manner, or binds code. -/
theorem start {name : String} {b : Behaviour} (hb : Library.core.native name = some b) (n : Native) :
    Natives.Binds b ∨ P Reply (b.start cx n me args) := by
  have hmem : (name, b) ∈ Natives.core := by
    obtain ⟨pre, post, h, -⟩ := List.lookup_eq_some_iff.mp hb
    exact h ▸ List.mem_append_right _ List.mem_cons_self
  simp only [Natives.core, List.mem_cons, Prod.mk.injEq, List.not_mem_nil, or_false] at hmem
  rcases hmem with ⟨-, rfl⟩ | ⟨-, rfl⟩ | ⟨-, rfl⟩ | ⟨-, rfl⟩ | ⟨-, rfl⟩ | ⟨-, rfl⟩ | ⟨-, rfl⟩ |
    ⟨-, rfl⟩ | ⟨-, rfl⟩ | ⟨-, rfl⟩ | ⟨-, rfl⟩ | ⟨-, rfl⟩ | ⟨-, rfl⟩ | ⟨-, rfl⟩ | ⟨-, rfl⟩ |
    ⟨-, rfl⟩ | ⟨-, rfl⟩ | ⟨-, rfl⟩ | ⟨-, rfl⟩ | ⟨-, rfl⟩ | ⟨-, rfl⟩
  · exact .inr (hP.plain _ _ (hP.print me args) n)
  · exact .inr (hP.plain _ _ (hP.size me args) n)
  · exact .inr (hP.plain _ _ (hP.append me args) n)
  · exact .inr (hP.plain _ _ (hP.setsize me args) n)
  · exact .inr (hP.plain _ _ (hP.subvec me args) n)
  · exact .inr (hP.plain _ _ (hP.keys me args) n)
  · exact .inr (hP.plain _ _ (hP.delete me args) n)
  · exact .inr (hP.plain _ _ (hP.contains me args) n)
  · exact .inr (hP.plain _ _ (hP.typeOf me args) n)
  · exact .inr (hP.plain _ _ (hP.die me args) n)
  · exact .inr (hP.callStart me args n)
  · exact .inl .compile
  · exact .inl .bind
  · exact .inr (hP.plain _ _ (hP.closure me args) n)
  · exact .inr (hP.callerStart me args n)
  · exact .inr (hP.plain _ _ (hP.int me args) n)
  · exact .inr (hP.plain _ _ (hP.num me args) n)
  · exact .inr (hP.plain _ _ (hP.streq me args) n)
  · exact .inr (hP.plain _ _ (hP.substr me args) n)
  · exact .inr (hP.plain _ _ (hP.chr me args) n)
  · exact .inr (hP.plain _ _ (hP.id me args) n)

theorem resume {name : String} {b : Behaviour} (hb : Library.core.native name = some b)
    (n : Native) (wait : Wait) {r : Except Failure Value} (hr : ∀ e, r = .error e → ok e) :
    P Reply (b.resume cx n wait r) := by
  rcases Natives.resume_cases hb with h | rfl
  · rw [h]
    cases r with
    | ok v => exact hP.done _
    | error e => exact hP.throws (hr e rfl)
  · exact hP.callEnd n wait hr

end

end Manner

namespace Habit

section

variable {cx : CtxId} {ok : Failure → Prop} {P : (α : Type) → Act α → Prop} (hP : Habit cx ok P)
include hP

theorem bindTo (code ns next : Value) : P Value (Act.bindTo cx code ns next) :=
  hP.next (hP.newClosure ns next) fun scope => hP.newFunc code scope

theorem bindToCaller (code : Value) : P Value (Act.bindToCaller cx code) := by
  refine hP.next hP.heap fun h => hP.check id (hP.context (fun c => ?_) fun c c' hc => ?_)
  · split
    · exact hP.bindTo ..
    · exact hP.next hP.newHash fun ns => hP.bindTo ..
  · rw [hc]

theorem bindFunction (code ns : Value) : P Value (Act.bindFunction cx code ns) :=
  hP.next hP.heap fun _ => hP.check id (hP.check id (hP.bindTo code ns .nil))

variable (me : Value) (args : Array Value)

theorem compiled : P Value (Natives.compile cx me args) := by
  refine hP.next hP.heap fun h => ?_
  split
  · exact hP.fail not_false
  · refine hP.next (hP.compile _ _ _) fun r => ?_
    split
    · exact hP.bindToCaller _
    · exact hP.fail not_false

theorem bind : P Value (Natives.bind cx me args) := by
  refine hP.next hP.heap fun h => ?_
  split
  · exact hP.fail not_false
  · refine hP.check not_false (hP.ite (hP.bindTo ..) ?_)
    split
    · exact hP.bindTo ..
    · exact hP.fail not_false

/-- The natives that bind code start as the habit says. -/
theorem binds {b : Behaviour} (hb : Natives.Binds b) (n : Native) : P Reply (b.start cx n me args) := by
  cases hb with
  | compile => exact hP.plain _ _ (hP.compiled me args) n
  | bind => exact hP.plain _ _ (hP.bind me args) n

/-- **Every core native** starts as the habit says. -/
theorem start {name : String} {b : Behaviour} (hb : Library.core.native name = some b)
    (n : Native) : P Reply (b.start cx n me args) :=
  (hP.toManner.start me args hb n).elim (fun h => hP.binds me args h n) fun h => h

end

end Habit

/-! ## natives are calm -/

/-- None of a native's means touches the operands, the frames or the marks of a context at work. -/
theorem habit_calm (cx : CtxId) (outer : List CtxId) :
    Habit cx Failure.External fun _ x => Act.Calm (cx :: outer) x where
  allows h _ := h
  done := Act.calm_pure
  throws := Act.calm_throw
  next := Act.Calm.bind
  heap := Act.calm_heap
  context hf _ := (Act.calm_ctx cx).bind hf
  printed _ := Act.calm_modify fun w => w.still_leave.trans (.of_eq rfl rfl rfl fun ht => ht)
  entered := Act.calm_modify World.still_enter
  newStr := Act.calm_newStr
  newVec := Act.calm_newVec
  newHash := Act.calm_newHash
  newClosure := Act.calm_newClosure
  newFunc := Act.calm_newFunc
  modifyVec := Act.calm_modifyVec
  hashGet := Act.calm_hashGet
  hashDelete := Act.calm_hashDelete
  compile := Act.calm_compile
  subContext := Act.calm_subContext
  freeChild := Act.calm_freeChild
  rethrow h := Act.calm_rethrow h

/-- **The core library is calm.** -/
theorem Library.calm_core : Library.core.Calm where
  start hb cx outer n me args := (habit_calm cx outer).start me args hb n
  resume hb cx outer n wait _ hr := (habit_calm cx outer).resume hb n wait hr
  get h := nomatch h
  set h := nomatch h

end ScriptEngine
