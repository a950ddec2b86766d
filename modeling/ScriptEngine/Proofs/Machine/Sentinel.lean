import ScriptEngine.Proofs.Machine.Cleanly
import ScriptEngine.Proofs.Machine.Placement

/-!
# Instructions and the end of an iteration

An instruction that iterates leaves the end on top when there are no further items, and the instruction
directly behind it is the test that takes the end away again.  Every other instruction of a clean engine
leaves a clean one behind.

* `World.Brink`            the end is on top, and the test for it comes next;
* `Act.Executed`           an activity has left a clean engine behind, or one with the end on top;
* `Act.ends_perform`       instructions that jump;
* `Act.executed_iterate`   instructions that iterate;
* `Act.cleanly_perform`    all others;
* `Act.executed_exec`      **an instruction of a clean engine**;
* `Act.run_exec_brink`     **the test for the end**, when it is there.
-/

namespace ScriptEngine

open World (ctx_modifyCtx_self modifyCtx_congr modifyCtx_modifyCtx)

/-! ## places -/

namespace World

variable {w : World} {cx : CtxId} {ip : Nat}

/-- The innermost frame of a context, if there is one, may go on at the place. -/
def Lands (w : World) (cx : CtxId) (ip : Nat) : Prop :=
  ∀ f, (w.ctx cx).frames.back? = some f → f.code.Starts ip

theorem Lands.congr {w' : World} (h : w.Lands cx ip) (hf : (w'.ctx cx).frames = (w.ctx cx).frames) :
    w'.Lands cx ip := by
  rwa [Lands, hf]

theorem Clean.untemped (hw : w.Clean) : (w.untemped cx).Clean :=
  hw.modifyCtx ((hw.ctx cx).withTemps (Array.forall_mem_empty _))

theorem Clean.moved (hw : w.Clean) (h : w.Lands cx ip) : (w.moved cx ip).Clean := by
  refine hw.modifyCtx ((hw.ctx cx).withFrames fun g hg => ?_)
  obtain ⟨j, hj⟩ := Array.mem_iff_getElem?.mp hg
  rw [Act.movedTo, Array.getElem?_modify] at hj
  split at hj
  · rename_i hlast
    obtain ⟨f, hf, rfl⟩ := Option.map_eq_some_iff.mp hj
    have hclean := (hw.ctx cx).frames f (Array.mem_of_getElem? hf)
    have hback : (w.ctx cx).frames.back? = some f := by
      rw [Array.back?_eq_getElem?, hlast, hf]
    exact ⟨hclean.func, hclean.locals, hclean.closure, hclean.code, h f hback⟩
  · exact (hw.ctx cx).frames g (Array.mem_of_getElem? hj)

theorem back?_untemped : ((w.untemped cx).ctx cx).frames.back? = (w.ctx cx).frames.back? :=
  congrArg Array.back? (field_modifyCtx Context.frames (f := fun c => { c with temps := #[] }) (fun _ => rfl) cx)

theorem back?_moved {f : Frame} (hf : (w.ctx cx).frames.back? = some f) (ip : Nat) :
    ((w.moved cx ip).ctx cx).frames.back? = some { f with ip } := by
  rw [moved, ctx_modifyCtx_self (stands_of_back? hf).lt]
  rw [back?_eq_head?] at hf ⊢
  obtain ⟨fs, hframes⟩ := List.head?_eq_some_iff.mp hf
  dsimp only
  rw [Act.fromTop_movedTo hframes]
  rfl

theorem lands_of_back? {f : Frame} (hf : (w.ctx cx).frames.back? = some f) (hip : f.code.Starts ip) :
    w.Lands cx ip := by
  intro g hg
  obtain rfl := Option.some.inj (hf.symm.trans hg)
  exact hip

theorem topped_moved {vs : Array Value} : (w.moved cx ip).topped cx vs = (w.topped cx vs).moved cx ip := by
  rw [moved, topped, topped, moved, modifyCtx_modifyCtx, modifyCtx_modifyCtx]

/-- The innermost frame of the context is at a test for the end behind an instruction that iterates. -/
def AtTest (w : World) (cx : CtxId) : Prop :=
  ∃ f, (w.ctx cx).frames.back? = some f ∧ f.code.Tests f.ip

/-- **The end is there**: it is on top of the operands of a context whose next instruction is the test for it,
and nowhere else. -/
def Brink (w : World) (cx : CtxId) : Prop :=
  ∃ u : World, u.Clean ∧ u.AtTest cx ∧ w = u.topped cx #[.done]

end World

namespace Act

variable {lib : Library} {w : World} {cx : CtxId} {code : Loaded} {op : Op} {arg : Nat}

/-! ## what an instruction leads to -/

def ReplyClean : Except Failure Reply → Prop
  | .ok r => r.Clean
  | .error e => e.value.Clean

def Outcome.Clean : Outcome → Prop
  | next => True
  | returned v => v.Clean
  | native _ _ r => ReplyClean r

/-- An activity on a context has left a clean engine behind, or with `last` one with the end on top. -/
inductive Executed {α : Type} (cx : CtxId) (ok : α → Prop) (last : α) : EStateM.Result Failure World α → Prop
  | clean {r : EStateM.Result Failure World α} (h : Ends (fun a _ => ok a) r) : Executed cx ok last r
  | brink {w : World} (h : w.Brink cx) : Executed cx ok last (.ok last w)

section

variable {α β : Type} {P : α → World → Prop} {ok : β → Prop} {last : β} {x : Act α} {f : α → Act β}

theorem Executed.bind (hx : Ends P (x.run w))
    (hf : ∀ a w', w'.Clean → P a w' → Executed cx ok last ((f a).run w')) :
    Executed cx ok last ((x >>= f).run w) := by
  cases hr : x.run w with
  | ok a w' =>
    rw [hr] at hx
    rw [run_bind_of_ok hr]
    cases hx with
    | done hw ha => exact hf a w' hw ha
  | error e w' =>
    rw [hr] at hx
    rw [run_bind_of_error hr]
    cases hx with
    | failed hw he => exact .clean (.failed hw he)

theorem Ends.ite {p : Prop} [Decidable p] {P : β → World → Prop} {y z : Act β} (hy : Ends P (y.run w))
    (hz : Ends P (z.run w)) : Ends P ((if p then y else z).run w) := by
  split
  · exact hy
  · exact hz

end

theorem Ends.discard {α : Type} {Q : World → Prop} {x : Act α} (hx : Ends (fun _ w' => Q w') (x.run w)) :
    Ends (fun _ w' => Q w') ((discard x : Act PUnit).run w) := hx.bind fun _ _ hw h => .done hw h

theorem Ends.next {P : Unit → World → Prop} {x : Act Unit} (hx : Ends P (x.run w)) :
    Ends (fun o _ => Outcome.Clean o) ((do x; return Outcome.next).run w) :=
  hx.bind fun _ _ hw _ => .done hw trivial

theorem Cleanly.next {x : Act Unit} (hx : Cleanly Any x) :
    Cleanly Outcome.Clean (do x; return Outcome.next) := hx.bind fun _ _ => cleanly_pure trivial

theorem Executed.next {x : Act Unit} (hx : Executed cx Any () (x.run w)) :
    Executed cx Outcome.Clean .next ((do x; return Outcome.next).run w) := by
  generalize hr : x.run w = r at hx
  cases hx with
  | clean h => exact .clean (Ends.next (hr ▸ h))
  | brink h =>
    rw [run_bind_of_ok hr]
    exact .brink h

/-! ## operands -/

theorem ends_peek (hw : w.Clean) (d : Nat) : Ends (fun v w' => v.Clean ∧ w' = w) ((peek cx d).run w) := by
  show Ends _ (EStateM.run (ite _ _ _) w)
  split
  · exact .done hw ⟨Value.clean_item (hw.ctx cx).stack _, rfl⟩
  · exact .failed hw Value.clean_nil

theorem ends_read {α : Type} (hw : w.Clean) (f : Heap → Except Cause α) :
    Ends (fun _ w' => w' = w) ((read f).run w) := by
  show Ends _ (EStateM.run (ofExcept (f w.heap)) w)
  cases f w.heap with
  | ok a => exact .done hw rfl
  | error c => exact .failed hw Value.clean_nil

theorem ends_pop (hw : w.Clean) :
    Ends (fun _ w' => (w'.ctx cx).frames = (w.ctx cx).frames) ((pop cx).run w) := by
  rw [pop, run_ctx_bind]
  split
  · refine .done (hw.modifyCtx ((hw.ctx cx).withStack fun v hv => ?_))
      (World.field_modifyCtx Context.frames (f := fun c => { c with stack := c.stack.pop }) (fun _ => rfl) cx)
    exact (hw.ctx cx).stack v (mem_of_mem_pop hv)
  · exact .failed hw Value.clean_nil

theorem ends_jump (hw : w.Clean) (h : w.Lands cx arg) : Ends (fun _ _ => True) ((jump cx arg).run w) :=
  .done (hw.moved h) trivial

/-! ## instructions that jump -/

theorem ends_jumpIf (hw : w.Clean) (h : w.Lands cx arg) (want : Bool) :
    Ends (fun _ _ => True) ((jumpIf cx want arg).run w) := by
  unfold jumpIf
  refine (ends_peek hw 0).bind fun v w₁ hw₁ hv => ?_
  obtain ⟨-, rfl⟩ := hv
  refine (ends_read hw₁ _).bind fun b w₂ hw₂ hs => ?_
  subst hs
  exact Ends.ite (ends_jump hw₂ h) (.done hw₂ trivial)

/-- **Jumps** go to places where instructions start. -/
theorem ends_perform (hop : op.isJump = true) (hw : w.Clean) (h : w.Lands cx arg) :
    Ends (fun o _ => Outcome.Clean o) ((perform lib cx code op arg).run w) := by
  cases op with
  | jmp => exact (ends_jump hw h).next
  | jmpLoop => exact (ends_jump hw h).bind fun _ _ hw₁ _ => .done hw₁.poll trivial
  | jifNotPop =>
    refine (ends_pop hw).bind fun v w₁ hw₁ hf => (ends_read hw₁ _).bind fun b w₂ hw₂ hs => ?_
    subst hs
    exact Ends.ite (ends_jump hw₂ (h.congr hf)).next (.done hw₂ trivial)
  | jifEnd =>
    refine (ends_peek hw 0).bind fun v w₁ hw₁ hv => ?_
    obtain ⟨-, rfl⟩ := hv
    refine Ends.ite ?_ (.done hw₁ trivial)
    exact (ends_pop hw₁).discard.bind fun _ w₂ hw₂ hf => (ends_jump hw₂ (h.congr hf)).next
  | jifTrue | jifNot => exact (ends_jumpIf hw h _).next
  | _ => exact nomatch hop

/-! ## instructions that iterate -/

/-- The next item of a vector, or the end. -/
theorem executed_iterate (hw : w.Clean) (ht : w.AtTest cx) (values : Bool) :
    Executed cx Any () ((iterate cx values).run w) := by
  unfold iterate
  refine Executed.bind (ends_peek hw 1) fun box w₁ hw₁ hs => ?_
  obtain ⟨hbox, rfl⟩ := hs
  refine Executed.bind (ends_peek hw₁ 0) fun v w₂ hw₂ hs => ?_
  obtain ⟨-, rfl⟩ := hs
  rw [run_heap_bind]
  cases hitems : w₂.heap.vec? box with
  | none => exact .clean (.failed hw₂ Value.clean_nil)
  | some items =>
    dsimp only
    split
    · show Executed cx Any () (EStateM.run (ite _ _ _) w₂)
      split
      · exact .clean (.failed hw₂ Value.clean_nil)
      · have hpushed : (w₂.modifyCtx cx fun c => { c with stack := c.stack.push .done }) = w₂.topped cx #[.done] :=
          modifyCtx_congr (congrArg (fun vs => ({ w₂.ctx cx with stack := vs } : Context)) Array.push_eq_append)
        exact .brink ⟨w₂, hw₂, ht, hpushed⟩
    · refine .clean (Cleanly.ends ?_ w₂ hw₂)
      refine (cleanly_replaceTop 1 (Value.clean_num _)).bind fun _ _ => cleanly_push ?_
      split
      · exact Value.clean_item (hw₂.heap.items hitems) _
      · exact Value.clean_num _

/-! ## all other instructions -/

theorem cleanly_arith {f : Float → Float → Value} (hf : ∀ a b, (f a b).Clean) :
    Cleanly Any (arith cx f) := by
  unfold arith
  refine (cleanly_peek 0).bind fun y _ => (cleanly_readAny _).bind fun b _ => ?_
  refine (cleanly_peek 1).bind fun x _ => (cleanly_readAny _).bind fun a _ => ?_
  exact cleanly_replaceTop 2 (hf a b)

theorem cleanly_equality (want : Bool) : Cleanly Any (equality cx want) :=
  (cleanly_peek 1).bind fun _ _ => (cleanly_peek 0).bind fun _ _ => cleanly_heap.bind fun _ _ =>
    cleanly_replaceTop 2 (Value.clean_num _)

theorem cleanly_returnFrom : Cleanly Outcome.Clean (returnFrom cx) := by
  unfold returnFrom
  refine cleanly_pop.bind fun v hv => cleanly_frame.bind fun f _ => ?_
  refine (cleanly_modifyCtx fun c hc => ?_).bind fun _ _ => (cleanly_ctx cx).bind fun c _ => ?_
  · exact ⟨fun u hu => hc.stack u (mem_of_mem_shrink hu), hc.temps, fun g hg => hc.frames g (mem_of_mem_pop hg),
      hc.error⟩
  · exact Cleanly.ite (cleanly_pure hv) (cleanly_push hv).next

/-- The failure of a native is handed on as a result. -/
theorem cleanly_attempt {x : Act Reply} (hx : Cleanly Reply.Clean x) (base : Nat) (n : Native) :
    Cleanly Outcome.Clean (do
      let r ← tryCatch (do return .ok (← x)) fun e => pure (.error e)
      return Outcome.native base n r) := by
  refine ⟨fun w hw => ?_⟩
  have hends := hx.ends w hw
  cases hr : x.run w with
  | ok a w' =>
    rw [hr] at hends
    rw [run_bind_of_ok (run_attempt_ok hr)]
    cases hends with
    | done hw' ha => exact .done hw' ha
  | error e w' =>
    rw [hr] at hends
    rw [run_bind_of_ok (run_attempt_error hr)]
    cases hends with
    | failed hw' he => exact .done hw' he

section

variable (hlib : lib.Clean)
include hlib

theorem cleanly_callAt (base fidx : Nat) {me : Value} (hme : me.Clean) (named : Bool) :
    Cleanly Outcome.Clean (callAt lib cx base fidx me named) := by
  unfold callAt
  refine (cleanly_ctx cx).bind fun c hc => cleanly_heap.bind fun h hh => ?_
  have hfunc := Value.clean_item hc.stack fidx
  have hargs : ∀ v ∈ c.stack.extract (fidx + 1) c.stack.size, v.Clean := fun v hv =>
    hc.stack v (mem_of_mem_extract hv)
  dsimp only
  split
  · exact cleanly_attempt (cleanly_startNative hlib _ hme hargs) ..
  · rename_i code scope hcallee
    obtain ⟨hcode, hscope⟩ := hh.callee hcallee
    have hframe {locals : Value} (hlocals : locals.Clean) : Cleanly Outcome.Clean (do
        cut cx base
        pushFrame cx (c.stack[fidx]?.getD .nil) code locals scope base
        return Outcome.next) :=
      (cleanly_cut base).bind fun _ _ => (cleanly_pushFrame hfunc hcode hlocals hscope base).next
    refine cleanly_newHash.bind fun locals hlocals => Cleanly.ite ?_ ?_
    · exact (cleanly_bindNamed hcode locals _ hme).bind fun _ _ => hframe hlocals
    · exact (cleanly_bindArgs hcode locals hargs hme).bind fun _ _ => hframe hlocals
  · exact cleanly_fail _
  · exact cleanly_fail _

theorem cleanly_callWith (argc : Nat) (method named : Bool) :
    Cleanly Outcome.Clean (callWith lib cx argc method named) := by
  unfold callWith
  refine (cleanly_ctx cx).bind fun c hc => Cleanly.check ?_
  refine Cleanly.ite (cleanly_callAt hlib _ _ ?_ named) (cleanly_callAt hlib _ _ Value.clean_nil named)
  exact Value.clean_item hc.stack _

theorem cleanly_perform (hcode : code.Clean) (hjump : op.isJump = false) (hit : op.iterates = false) :
    Cleanly Outcome.Clean (perform lib cx code op arg) := by
  have hpeek (depth : Nat) : Cleanly Value.Clean (peek cx depth) := cleanly_peek depth
  have hpush {v : Value} (hv : v.Clean) : Cleanly Outcome.Clean (do push cx v; return Outcome.next) :=
    (cleanly_push hv).next
  have htop (n : Nat) {v : Value} (hv : v.Clean) : Cleanly Outcome.Clean (do replaceTop cx n v; return Outcome.next) :=
    (cleanly_replaceTop n hv).next
  have hnum (x : Float) : (Value.ofFloat x).Clean := Value.clean_num _
  have hbool (b : Bool) : (Value.ofBool b).Clean := Value.clean_num _
  have hconst := hcode.const arg
  unfold perform
  cases op with
  | nop => exact cleanly_pure trivial
  | pop => exact cleanly_pop.discard.next
  | dup => exact (hpeek 0).bind fun v hv => hpush hv
  | dup2 =>
    refine (hpeek 1).bind fun a ha => (hpeek 0).bind fun b hb => ?_
    exact (cleanly_push ha).bind fun _ _ => hpush hb
  | pushConst => exact hpush hconst
  | pushOne | pushZero => exact hpush (Value.clean_num _)
  | pushNil => exact hpush Value.clean_nil
  | newVec => exact (cleanly_newVec (Array.forall_mem_empty _)).bind fun v hv => hpush hv
  | vappend =>
    refine (hpeek 0).bind fun v hv => (hpeek 1).bind fun box _ => ?_
    exact (cleanly_vecPush box hv).discard.bind fun _ _ => cleanly_pop.discard.next
  | newHash => exact cleanly_newHash.bind fun v hv => hpush hv
  | happend =>
    refine (hpeek 0).bind fun v hv => (hpeek 1).bind fun k hk => (hpeek 2).bind fun box _ => ?_
    exact (cleanly_hashSet box hk hv).bind fun _ _ => (cleanly_ctx cx).bind fun c _ => (cleanly_cut _).next
  | mark =>
    refine cleanly_options.bind fun _ _ => (cleanly_ctx cx).bind fun _ _ => Cleanly.check ?_
    exact Cleanly.next (cleanly_modifyCtx fun c hc => ⟨hc.stack, hc.temps, hc.frames, hc.error⟩)
  | unmark => exact Cleanly.next (cleanly_modifyCtx fun c hc => ⟨hc.stack, hc.temps, hc.frames, hc.error⟩)
  | cutBack =>
    refine (cleanly_ctx cx).bind fun c _ => ?_
    split
    · exact (cleanly_cut _).next
    · exact cleanly_pure trivial
  | cutBackPop =>
    refine (cleanly_ctx cx).bind fun c _ => ?_
    split
    · refine (cleanly_modifyCtx fun c hc => ?_).bind fun _ _ => (cleanly_cut _).next
      exact ⟨hc.stack, hc.temps, hc.frames, hc.error⟩
    · exact cleanly_pure trivial
  | not => exact (hpeek 0).bind fun v _ => (cleanly_readAny _).bind fun b _ => htop 1 (hbool _)
  | neg => exact (hpeek 0).bind fun v _ => (cleanly_readAny _).bind fun b _ => htop 1 (hnum _)
  | plus | minus | mul | div => exact (cleanly_arith fun _ _ => hnum _).next
  | lt | lte | gt | gte => exact (cleanly_arith fun _ _ => hbool _).next
  | cat =>
    refine (hpeek 0).bind fun b _ => (hpeek 1).bind fun a _ => ?_
    exact (cleanly_concat a b).bind fun v hv => htop 2 hv
  | eq | neq => exact (cleanly_equality _).next
  | fcall | mcall | fcallh | mcallh => exact cleanly_callWith hlib ..
  | ret => exact cleanly_returnFrom
  | loadSym => exact (cleanly_lookupSym ..).bind fun v hv => hpush hv
  | setSym => exact (hpeek 0).bind fun v hv => (cleanly_setSym _ hconst hv).next
  | setLocal => exact (hpeek 0).bind fun v hv => cleanly_frame.bind fun f _ => (cleanly_setHashed _ _ _ hconst hv).next
  | member =>
    refine (hpeek 0).bind fun obj hobj => (cleanly_member hlib hobj ..).bind fun r hr => ?_
    cases r with
    | some v => exact htop 1 (hr v rfl)
    | none => exact cleanly_heap.bind fun h _ => (cleanly_fail (α := Unit) _).next
  | setMember =>
    refine (hpeek 0).bind fun v hv => (hpeek 1).bind fun obj hobj => ?_
    exact (cleanly_setMember hlib hobj _ _ hconst hv).bind fun _ _ => htop 2 hv
  | extract =>
    refine (hpeek 1).bind fun box hbox => (hpeek 0).bind fun key _ => ?_
    exact (cleanly_extract hbox key).bind fun v hv => htop 2 hv
  | insert =>
    refine (hpeek 0).bind fun v hv => (hpeek 1).bind fun key hkey => (hpeek 2).bind fun box _ => ?_
    exact (cleanly_insert box hkey hv).bind fun _ _ => htop 3 hv
  | slice =>
    refine (hpeek 0).bind fun stop _ => (hpeek 1).bind fun start _ => (hpeek 2).bind fun box _ => ?_
    exact (cleanly_slice box start stop).bind fun v hv => htop 3 hv
  | func =>
    refine cleanly_frame.bind fun f hf => (cleanly_newClosure hf.locals hf.closure).bind fun scope hscope => ?_
    exact (cleanly_newFunc hconst hscope).bind fun v hv => hpush hv
  | jmp | jmpLoop | jifNotPop | jifEnd | jifTrue | jifNot => exact nomatch hjump
  | each | index => exact nomatch hit

end

/-! ## one instruction -/

/-- The operation of an instruction, when the frame has been moved on already. -/
theorem executed_perform (hlib : lib.Clean) (hcode : code.Clean) (hw : w.Clean)
    (hjump : op.isJump = true → w.Lands cx arg) (hit : op.iterates = true → w.AtTest cx) :
    Executed cx Outcome.Clean .next ((perform lib cx code op arg).run w) := by
  by_cases hj : op.isJump = true
  · exact .clean (ends_perform hj hw (hjump hj))
  · by_cases hi : op.iterates = true
    · cases op with
      | each | index => exact (executed_iterate hw (hit hi) _).next
      | _ => exact nomatch hi
    · exact .clean ((cleanly_perform hlib hcode (Bool.not_eq_true _ ▸ hj) (Bool.not_eq_true _ ▸ hi)).ends w hw)

/-- There is no frame, or its code has come to its end. -/
theorem ends_exec_of_none (lib : Library) (hw : w.Clean)
    (hf : ∀ f, (w.ctx cx).frames.back? = some f → f.code.words[f.ip]? = none) :
    Ends (fun o _ => Outcome.Clean o) ((exec lib cx).run w) := by
  unfold exec
  show Ends _ (EStateM.run (frame cx >>= _) (w.untemped cx))
  cases hback : (w.ctx cx).frames.back? with
  | none =>
    have hframe : (frame cx).run (w.untemped cx) = .error { cause := .noFrame } (w.untemped cx) := by
      rw [frame, run_ctx_bind, World.back?_untemped, hback]
      rfl
    rw [run_bind_of_error hframe]
    exact .failed hw.untemped Value.clean_nil
  | some f =>
    have hframe : (frame cx).run (w.untemped cx) = .ok f (w.untemped cx) := by
      rw [frame, run_ctx_bind, World.back?_untemped, hback]
      rfl
    rw [run_bind_of_ok hframe, hf f hback]
    exact .failed hw.untemped Value.clean_nil

/-- **An instruction of a clean engine** leaves a clean engine behind, or has put the end on top and the test
for it comes next. -/
theorem executed_exec (hlib : lib.Clean) (hw : w.Clean) :
    Executed cx Outcome.Clean .next ((exec lib cx).run w) := by
  by_cases hword : ∃ f x, (w.ctx cx).frames.back? = some f ∧ f.code.words[f.ip]? = some x
  · obtain ⟨f, x, hback, hx⟩ := hword
    have hf := (hw.ctx cx).frames f (Array.mem_of_back? hback)
    obtain ⟨i, hat, rfl⟩ := hf.code.item hf.starts hx
    obtain ⟨fs, hframes⟩ := List.head?_eq_some_iff.mp ((back?_eq_head? _).symm.trans hback)
    rw [run_exec hframes hat.place hat.within]
    have hfresh : ((w.untemped cx).ctx cx).frames.back? = some f := World.back?_untemped.trans hback
    have hmoved := World.back?_moved hfresh (f.ip + i.op.length)
    have hclean := hw.untemped.moved (World.lands_of_back? hfresh hat.next)
    exact executed_perform hlib hf.code hclean (fun hj => World.lands_of_back? hmoved (hat.jump hj))
      fun hi => ⟨_, hmoved, hat.tests hi⟩
  · refine .clean (ends_exec_of_none lib hw fun f hback => ?_)
    cases hx : f.code.words[f.ip]? with
    | none => rfl
    | some x => exact absurd ⟨f, x, hback, hx⟩ hword

/-- The test for the end, when the end is there, takes it away and jumps. -/
theorem run_jifEnd_of_done (hcx : cx < w.contexts.size) :
    (perform lib cx code .jifEnd arg).run (w.topped cx #[.done]) = .ok .next (w.moved cx arg) := by
  have hstack : ((w.topped cx #[.done]).ctx cx).stack = (w.ctx cx).stack ++ #[.done] :=
    World.stack_topped hcx
  have hpop : (discard (pop cx) : Act Unit).run (w.topped cx #[.done]) = .ok () w := by
    show EStateM.run (pop cx >>= fun _ => pure ()) (w.topped cx #[.done]) = _
    rw [run_bind_of_ok (run_pop hstack)]
    have hback : (w.topped cx #[.done]).stacked cx (w.ctx cx).stack = w := by
      rw [World.topped, World.stacked, modifyCtx_modifyCtx]
      exact World.stacked_of_eq rfl
    rw [hback]
    rfl
  unfold perform
  dsimp only
  rw [run_bind_of_ok (run_peek₁ hstack), if_pos (beq_self_eq_true _), run_bind_of_ok hpop]
  rfl

/-- **The test for the end** comes next when the end is there, and leaves a clean engine behind. -/
theorem run_exec_brink (lib : Library) (h : w.Brink cx) : ∃ w', (exec lib cx).run w = .ok .next w' ∧ w'.Clean := by
  obtain ⟨u, hu, ⟨f, hback, pre, i, k, post, hdecoded, -, hop, hplace⟩, rfl⟩ := h
  have hk : k ∈ pre ++ i :: k :: post := List.mem_append_right _ (List.mem_cons_of_mem _ List.mem_cons_self)
  have hnext : f.code.Starts (f.ip + k.op.length) :=
    Loaded.starts_of_decoded hdecoded (hplace ▸ hdecoded.row.behind hk)
  have hjump : f.code.Starts k.arg :=
    Loaded.starts_of_decoded hdecoded (.inr (hdecoded.lands k hk (by rw [hop]; rfl)))
  -- the frame is moved on below the end
  have hfresh : ((u.untemped cx).ctx cx).frames.back? = some f := World.back?_untemped.trans hback
  have hmoved := World.back?_moved hfresh (f.ip + k.op.length)
  have hclean := hu.untemped.moved (World.lands_of_back? hfresh hnext)
  have hrun : (exec lib cx).run (u.topped cx #[.done]) = (perform lib cx f.code k.op k.arg).run
      (((u.untemped cx).moved cx (f.ip + k.op.length)).topped cx #[.done]) := by
    have hframes : ((u.topped cx #[.done]).ctx cx).frames = (u.ctx cx).frames :=
      World.field_modifyCtx Context.frames (f := fun c => { c with stack := c.stack ++ #[.done] }) (fun _ => rfl) cx
    obtain ⟨fs, hfs⟩ := List.head?_eq_some_iff.mp ((back?_eq_head? _).symm.trans hback)
    rw [run_exec (hframes ▸ hfs) hplace (hdecoded.within hk), World.topped_moved, ← World.untemped_topped]
    rfl
  generalize (u.untemped cx).moved cx (f.ip + k.op.length) = u₁ at hmoved hclean hrun
  refine ⟨u₁.moved cx k.arg, hrun.trans ?_, hclean.moved (World.lands_of_back? hmoved hjump)⟩
  rw [hop]
  exact run_jifEnd_of_done (World.stands_of_back? hmoved).lt

end Act

end ScriptEngine
