import ScriptEngine.Proofs.Machine.Lasting
import ScriptEngine.Proofs.Machine.Sessions

/-!
# What lasts along a session

No move of a host and no step of the machine undoes anything: each cell stays in its pool, and all code
there is has lines that start where its instructions begin.  A step that comes up with a failure comes up
with one that has no trace.

* `Act.lasting_perform`, `Act.lasting_exec`   an instruction;
* `Act.lasting_beginCall`, `Act.lasting_finish`, ...   the parts of a request;
* `Mode.fault?`                 the failure a mode carries;
* `Machine.lasting_step`        a step of the machine;
* `Host.Next.lasts`             a move;
* `Host.Reached.lined`          **all code of an engine that a host has come to has its lines**.
-/

namespace ScriptEngine

namespace Act

variable {told : Failure → Prop} {lib : Library} {cx : CtxId}

/-! ## instructions -/

theorem lasting_iterate (values : Bool) : Lasting told (iterate cx values) := by
  unfold iterate
  refine (lasting_peek 1).bind fun box => (lasting_peek 0).bind fun count => lasting_heap.bind fun h => ?_
  split
  · exact lasting_fail _
  · exact Lasting.ite (lasting_push _) ((lasting_replaceTop ..).bind fun _ => lasting_push _)

theorem lasting_arith (f : Float → Float → Value) : Lasting told (arith cx f) := by
  refine (lasting_peek 0).bind fun y => (lasting_read _).bind fun b => ?_
  refine (lasting_peek 1).bind fun x => (lasting_read _).bind fun a => ?_
  exact lasting_replaceTop ..

theorem lasting_equality (want : Bool) : Lasting told (equality cx want) := by
  refine (lasting_peek 1).bind fun a => (lasting_peek 0).bind fun b => ?_
  exact lasting_heap.bind fun h => lasting_replaceTop ..

theorem lasting_jumpIf (want : Bool) (target : Nat) : Lasting told (jumpIf cx want target) :=
  (lasting_peek 0).bind fun _ => (lasting_read _).bind fun _ =>
    Lasting.ite (lasting_jump _) (lasting_return _)

theorem lasting_returnFrom : Lasting told (returnFrom cx) (Outcome.Untold told) := by
  unfold returnFrom
  refine lasting_pop.bind fun v => lasting_frame.bind fun f => ?_
  refine (lasting_modifyCtx ..).bind fun _ => (lasting_ctx cx).bind fun c => ?_
  exact Lasting.ite (lasting_pure (Outcome.untold_returned v)) ((lasting_push v).next)

/-- The failure of a native is handed on as a result. -/
theorem lasting_attempt {x : Act Reply} (hx : Lasting told x) (base : Nat) (n : Native) :
    Lasting told (do
      let r ← tryCatch (do return .ok (← x)) fun e => pure (.error e)
      return Outcome.native base n r) (Outcome.Untold told) := by
  refine ⟨fun w => ?_⟩
  have hl := hx.lasted w
  cases hr : x.run w with
  | ok a w' =>
    rw [hr] at hl
    rw [run_bind_of_ok (run_attempt_ok hr)]
    cases hl with
    | done lasts _ => exact .done lasts fun _ _ _ h => nomatch h
  | error e w' =>
    rw [hr] at hl
    rw [run_bind_of_ok (run_attempt_error hr)]
    cases hl with
    | failed lasts he =>
      refine .done lasts ?_
      rintro _ _ _ ⟨⟩
      exact he

section

variable (hlib : lib.Lasting)
include hlib

theorem lasting_callAt (base fidx : Nat) (me : Value) (named : Bool) :
    Lasting told (callAt lib cx base fidx me named) (Outcome.Untold told) := by
  have hframe (func : Value) (code : Loaded) (locals scope : Value) : Lasting told (do
      cut cx base
      pushFrame cx func code locals scope base
      return Outcome.next) (Outcome.Untold told) :=
    (lasting_cut base).bind fun _ => (lasting_pushFrame ..).next
  unfold callAt
  refine (lasting_ctx cx).bind fun c => lasting_heap.bind fun h => ?_
  dsimp only
  split
  · exact lasting_attempt (lasting_startNative hlib ..) ..
  · refine lasting_newHash.bind fun locals => Lasting.ite ?_ ?_
    · exact (lasting_bindNamed ..).bind fun _ => hframe ..
    · exact (lasting_bindArgs ..).bind fun _ => hframe ..
  · exact lasting_fail _
  · exact lasting_fail _

theorem lasting_callWith (argc : Nat) (method named : Bool) :
    Lasting told (callWith lib cx argc method named) (Outcome.Untold told) := by
  unfold callWith
  refine (lasting_ctx cx).bind fun c => Lasting.check ?_
  exact Lasting.ite (lasting_callAt hlib ..) (lasting_callAt hlib ..)

theorem lasting_perform (code : Loaded) (op : Op) (arg : Nat) :
    Lasting told (perform lib cx code op arg) (Outcome.Untold told) := by
  have hpeek (depth : Nat) : Lasting told (peek cx depth) := lasting_peek depth
  have hpush (v : Value) : Lasting told (push cx v) := lasting_push v
  have htop (n : Nat) (v : Value) : Lasting told (replaceTop cx n v) := lasting_replaceTop n v
  have hread {α : Type} (f : Heap → Except Cause α) : Lasting told (read f) := lasting_read f
  unfold perform
  cases op with
  | nop => exact lasting_pure Outcome.untold_next
  | pop => exact lasting_pop.discard.next
  | dup => exact (hpeek 0).bind fun v => (hpush v).next
  | dup2 =>
    refine (hpeek 1).bind fun a => (hpeek 0).bind fun b => ?_
    exact (hpush a).bind fun _ => (hpush b).next
  | pushConst | pushOne | pushZero | pushNil => exact (hpush _).next
  | newVec => exact (lasting_newVec _).bind fun v => (hpush v).next
  | vappend =>
    refine (hpeek 0).bind fun v => (hpeek 1).bind fun box => ?_
    exact (lasting_modifyVec ..).discard.bind fun _ => lasting_pop.discard.next
  | newHash => exact lasting_newHash.bind fun v => (hpush v).next
  | happend =>
    refine (hpeek 0).bind fun v => (hpeek 1).bind fun k => (hpeek 2).bind fun box => ?_
    exact (lasting_hashSet ..).bind fun _ => (lasting_ctx cx).bind fun c => (lasting_cut _).next
  | mark =>
    exact lasting_options.bind fun _ => (lasting_ctx cx).bind fun _ =>
      Lasting.check (lasting_modifyCtx ..).next
  | unmark => exact (lasting_modifyCtx ..).next
  | cutBack =>
    refine (lasting_ctx cx).bind fun c => ?_
    split
    · exact (lasting_cut _).next
    · exact lasting_pure Outcome.untold_next
  | cutBackPop =>
    refine (lasting_ctx cx).bind fun c => ?_
    split
    · exact (lasting_modifyCtx ..).bind fun _ => (lasting_cut _).next
    · exact lasting_pure Outcome.untold_next
  | not => exact (hpeek 0).bind fun v => (hread _).bind fun b => (htop ..).next
  | neg => exact (hpeek 0).bind fun v => (hread _).bind fun b => (htop ..).next
  | plus | minus | mul | div | lt | lte | gt | gte => exact (lasting_arith _).next
  | cat =>
    refine (hpeek 0).bind fun b => (hpeek 1).bind fun a => ?_
    exact (lasting_concat a b).bind fun v => (htop ..).next
  | eq | neq => exact (lasting_equality _).next
  | jmp => exact (lasting_jump _).next
  | jmpLoop => exact (lasting_jump _).bind fun _ => (lasting_modify World.lasts_poll).next
  | jifNotPop =>
    refine lasting_pop.bind fun v => (hread _).bind fun b => ?_
    exact Lasting.ite (lasting_jump _).next (lasting_pure Outcome.untold_next)
  | jifEnd =>
    refine (hpeek 0).bind fun v => Lasting.ite ?_ (lasting_pure Outcome.untold_next)
    exact lasting_pop.discard.bind fun _ => (lasting_jump _).next
  | jifTrue | jifNot => exact (lasting_jumpIf ..).next
  | fcall | mcall | fcallh | mcallh => exact lasting_callWith hlib ..
  | ret => exact lasting_returnFrom
  | loadSym => exact (lasting_lookupSym ..).bind fun v => (hpush v).next
  | setSym => exact (hpeek 0).bind fun v => (lasting_setSym ..).next
  | setLocal => exact (hpeek 0).bind fun v => lasting_frame.bind fun f => (lasting_setHashed ..).next
  | member =>
    refine (hpeek 0).bind fun obj => (lasting_member hlib ..).bind fun r => ?_
    cases r with
    | some v => exact (htop ..).next
    | none => exact lasting_heap.bind fun h => (lasting_fail (α := Unit) _).next
  | setMember =>
    refine (hpeek 0).bind fun v => (hpeek 1).bind fun obj => ?_
    exact (lasting_setMember hlib ..).bind fun _ => (htop ..).next
  | extract =>
    refine (hpeek 1).bind fun box => (hpeek 0).bind fun key => ?_
    exact (lasting_extract box key).bind fun v => (htop ..).next
  | insert =>
    refine (hpeek 0).bind fun v => (hpeek 1).bind fun key => (hpeek 2).bind fun box => ?_
    exact (lasting_insert box key v).bind fun _ => (htop ..).next
  | slice =>
    refine (hpeek 0).bind fun stop => (hpeek 1).bind fun start => (hpeek 2).bind fun box => ?_
    exact (lasting_slice box start stop).bind fun v => (htop ..).next
  | func =>
    refine lasting_frame.bind fun f => (lasting_newClosure ..).bind fun scope => ?_
    exact (lasting_newFunc ..).bind fun v => (hpush v).next
  | each | index => exact (lasting_iterate _).next

theorem lasting_exec : Lasting told (exec lib cx) (Outcome.Untold told) := by
  unfold exec
  refine (lasting_modifyCtx ..).bind fun _ => lasting_frame.bind fun f => ?_
  split
  · exact lasting_fail _
  · refine (lasting_jump _).bind fun _ => ?_
    split
    · exact lasting_perform hlib ..
    · exact lasting_fail _

/-! ## requests -/

theorem lasting_beginCall (func : Value) (args : Array Value) (me locals : Value) :
    Lasting told (beginCall lib cx func args me locals) := by
  have hframe (func : Value) (code : Loaded) (locals scope : Value) : Lasting told (do
      bindArgs cx code locals args me
      cut cx 0
      pushFrame cx func code locals scope 0
      return Begun.frame) :=
    (lasting_bindArgs ..).bind fun _ => (lasting_cut 0).bind fun _ =>
      (lasting_pushFrame ..).bind fun _ => lasting_return _
  unfold beginCall
  refine (lasting_push func).bind fun _ => ?_
  rw [forM_toList]
  refine (lasting_forM fun a _ => lasting_push a).bind fun _ => ?_
  refine (lasting_push me).bind fun _ => (lasting_push locals).bind fun _ => lasting_heap.bind fun h => ?_
  cases h.callee func with
  | native n => exact (lasting_startNative hlib ..).bind fun _ => lasting_return _
  | script code scope =>
    exact lasting_heap.bind fun h => Lasting.ite (hframe ..) (lasting_newHash.bind fun ns => hframe ..)
  | bare code =>
    have hbound (ns : Value) : Lasting told (do
        let bound ← newFunc cx func .nil
        bindArgs cx code ns args me
        cut cx 0
        pushFrame cx bound code ns .nil 0
        return Begun.frame) := (lasting_newFunc ..).bind fun bound => hframe ..
    exact lasting_heap.bind fun h => Lasting.ite (hbound _) (lasting_newHash.bind fun ns => hbound ns)
  | none =>
    exact lasting_heap.bind fun h => Lasting.ite (lasting_fail _) (lasting_newHash.bind fun ns => lasting_fail _)

end

theorem lasting_prepareCall : Lasting told (prepareCall cx) :=
  lasting_freeChild.bind fun _ => lasting_modifyCtx ..

theorem lasting_settle (height : Nat) (v : Value) : Lasting told (do cut cx height; push cx v : Act Unit) :=
  (lasting_cut height).bind fun _ => lasting_push v

theorem lasting_prepareResume (height : Nat) (v : Value) : Lasting told (prepareResume cx height v) :=
  lasting_freeChild.bind fun _ => (lasting_modifyCtx ..).bind fun _ => lasting_settle height v

theorem lasting_finish (r : Except Failure Value) : Lasting told (finish cx r) := by
  cases r with
  | ok v => exact (lasting_modifyCtx ..).bind fun _ => lasting_freeChild.bind fun _ => lasting_return _
  | error e => exact (lasting_ctx cx).bind fun c => (lasting_modifyCtx ..).bind fun _ => lasting_return _

end Act

/-! ## the machine -/

def Mode.fault? : Mode → Option Failure
  | .replied _ _ _ (.error e) | .ended _ (.error e) | .outcome (.error e) => some e
  | _ => none

namespace Machine

variable {lib : Library} {w w' : World} {waiting : List Waiting}

/-- From a state on, nothing is undone, and a failure that has come up has no trace unless there was one
before. -/
structure Lasting (m m' : Machine) : Prop where
  heap : m.world.heap.Lasts m'.world.heap
  fresh : m.mode.fault? = none → ∀ e, m'.mode.fault? = some e → e.trace = []

theorem Lasting.quiet {m m' : Machine} (h : m.world.heap.Lasts m'.world.heap) (hq : m'.mode.fault? = none) :
    Lasting m m' := ⟨h, fun _ _ he => nomatch hq.symm.trans he⟩

theorem Lasting.known {m m' : Machine} {e : Failure} (h : m.world.heap.Lasts m'.world.heap)
    (hm : m.mode.fault? = some e) : Lasting m m' := ⟨h, fun hq => nomatch hq.symm.trans hm⟩

theorem Lasting.raised {m m' : Machine} {e : Failure} (h : m.world.heap.Lasts m'.world.heap)
    (hm : m'.mode.fault? = some e) (he : e.trace = []) : Lasting m m' :=
  ⟨h, fun _ _ he' => Option.some.inj (hm.symm.trans he') ▸ he⟩

theorem trace_of_told {e : Failure} (he : e.trace = [] ∨ False) : e.trace = [] := he.resolve_right id

theorem lasting_start (hlib : lib.Lasting) (w : World) (waiting : List Waiting) (cx : CtxId) (q : Request) :
    Lasting ⟨w, waiting, .begin cx q⟩ (start lib w waiting cx q) := by
  unfold start
  cases q with
  | call func args me locals =>
    have hbegin : Act.Lasting (fun _ => False) (do
        Act.prepareCall cx
        Act.beginCall lib cx func args me locals) :=
      Act.lasting_prepareCall.bind fun _ => Act.lasting_beginCall hlib func args me locals
    have hl := hbegin.lasted w
    dsimp only
    generalize EStateM.run (do
        Act.prepareCall cx
        Act.beginCall lib cx func args me locals) w = r at hl ⊢
    cases hl with
    | @done b w' lasts _ => cases b <;> exact .quiet lasts rfl
    | failed lasts he => exact .raised lasts rfl (trace_of_told he)
  | resume v =>
    dsimp only
    split
    · rename_i height _
      have hx : Act.Lasting (fun _ => False) (Act.prepareResume cx height v) := Act.lasting_prepareResume height v
      have hl := hx.lasted (w.modifyCtx cx fun c => { c with resumeAt := none })
      generalize (Act.prepareResume cx height v).run _ = r at hl ⊢
      cases hl with
      | done lasts _ => exact .quiet lasts rfl
      | failed lasts he => exact .raised lasts rfl (trace_of_told he)
    · exact .raised (.refl _) rfl rfl

theorem lasting_running (hlib : lib.Lasting) (w : World) (waiting : List Waiting) (cx : CtxId) :
    Lasting ⟨w, waiting, .running cx⟩ (step lib ⟨w, waiting, .running cx⟩) := by
  have hx : Act.Lasting (fun _ => False) (Act.exec lib cx) (Act.Outcome.Untold fun _ => False) :=
    Act.lasting_exec hlib
  have hl := hx.lasted w
  unfold step
  dsimp only
  generalize (Act.exec lib cx).run w = r at hl ⊢
  cases hl with
  | @done o w' lasts ho =>
    cases o with
    | next | returned v => exact .quiet lasts rfl
    | native base n r =>
      cases r with
      | ok r => exact .quiet lasts rfl
      | error e => exact .raised lasts rfl (trace_of_told (ho base n e rfl))
  | failed lasts he => exact .raised lasts rfl (trace_of_told he)

theorem lasting_reply (lib : Library) (w : World) (waiting : List Waiting) (cx : CtxId) (n : Native) (site : Site)
    (r : Except Failure Reply) :
    Lasting ⟨w, waiting, .replied cx n site r⟩ (step lib ⟨w, waiting, .replied cx n site r⟩) := by
  cases r with
  | error e =>
    cases site with
    | request => exact .known (.refl _) rfl
    | instruction base => exact .known (.refl _) rfl
  | ok reply =>
    cases reply with
    | run sub q wait =>
      unfold step delegate
      dsimp only
      split
      · exact .quiet (.refl _) rfl
      · exact .raised (.refl _) rfl rfl
    | halt => exact .quiet (.refl _) rfl
    | done v =>
      cases site with
      | request => exact .quiet (.refl _) rfl
      | instruction base =>
        have hx : Act.Lasting (fun _ => False) (do Act.cut cx base; Act.push cx v : Act Unit) :=
          Act.lasting_settle base v
        have hl := hx.lasted w
        unfold step settle
        dsimp only
        generalize EStateM.run (do Act.cut cx base; Act.push cx v : Act Unit) w = r at hl ⊢
        cases hl with
        | done lasts _ => exact .quiet lasts rfl
        | failed lasts he => exact .raised lasts rfl (trace_of_told he)

theorem lasting_ended (lib : Library) (w : World) (waiting : List Waiting) (cx : CtxId)
    (r : Except Failure Value) :
    Lasting ⟨w, waiting, .ended cx r⟩ (step lib ⟨w, waiting, .ended cx r⟩) := by
  cases r with
  | error e => exact .known (.refl _) rfl
  | ok v =>
    have hx : Act.Lasting (fun _ => False) (Act.finish cx (.ok v)) := Act.lasting_finish (.ok v)
    have hl := hx.lasted w
    have hok (r : Except Failure Value) (w' : World) (h : (Act.finish cx (.ok v)).run w = .ok r w') :
        r = .ok v := by
      obtain ⟨_, w₁, -, h⟩ := run_bind_ok h
      obtain ⟨_, w₂, -, h⟩ := run_bind_ok h
      cases h
      rfl
    unfold step
    dsimp only
    cases hr : (Act.finish cx (.ok v)).run w with
    | ok r w' =>
      rw [hr] at hl
      obtain rfl := hok r w' hr
      cases hl with
      | done lasts _ => exact .quiet lasts rfl
    | error e w' =>
      rw [hr] at hl
      cases hl with
      | failed lasts he => exact .raised lasts rfl (trace_of_told he)

theorem lasting_wake (hlib : lib.Lasting) (w : World) (waiting : List Waiting) (who : Waiting)
    (r : Except Failure Value) :
    Lasting ⟨w, who :: waiting, .outcome r⟩ (wake lib w waiting who r) := by
  unfold wake
  split
  · rename_i b hb
    -- a native knows of the failure it is woken with
    have hl := (hlib.resume hb (fun e => r = .error e) who.cx who.native who.wait r fun _ h => h).lasted w
    generalize (b.resume who.cx who.native who.wait r).run w = r' at hl ⊢
    cases hl with
    | done lasts _ => exact .quiet lasts rfl
    | failed lasts he =>
      refine ⟨lasts, fun hnone e h => ?_⟩
      cases h
      refine he.resolve_right fun hr => ?_
      rw [hr] at hnone
      exact nomatch hnone
  · exact .raised (.refl _) rfl rfl

/-- **A step undoes nothing**, and a failure it comes up with has no trace. -/
theorem lasting_step (hlib : lib.Lasting) (m : Machine) : Lasting m (m.step lib) := by
  obtain ⟨w, waiting, mode⟩ := m
  cases mode with
  | begin cx q => exact lasting_start hlib ..
  | running cx => exact lasting_running hlib ..
  | replied cx n site r => exact lasting_reply ..
  | ended cx r => exact lasting_ended ..
  | outcome r =>
    cases waiting with
    | nil => exact ⟨.refl _, fun h e he => nomatch h.symm.trans he⟩
    | cons who waiting => exact lasting_wake hlib ..

end Machine

/-! ## the host -/

namespace Host

variable {s s' : State} {told : Failure → Prop} {cx : CtxId}

theorem lasting_deed (d : Deed) : Act.Lasting told (d.act cx) := by
  cases d with
  | newStr bs => exact (Act.lasting_newStr bs).discard
  | newVec items => exact (Act.lasting_newVec items).discard
  | newHash => exact Act.lasting_newHash.discard
  | newNative n => exact (Act.lasting_newNative n).discard
  | newGhost g => exact Act.Lasting.discard (Act.lasting_alloc .ghost trivial)
  | intern name => exact (Act.lasting_intern name).discard
  | hashSet box key v => exact Act.lasting_hashSet box key v
  | hashGet box key => exact (Act.lasting_hashGet box key).discard
  | hashDelete box key => exact (Act.lasting_hashDelete box key).discard
  | addSym ns name v => exact Act.lasting_addSym ns name v
  | register ns names =>
    exact Act.lasting_forM fun name _ => (Act.lasting_newNative _).bind fun f => Act.lasting_addSym ns name f
  | vecPush box item => exact (Act.lasting_modifyVec box _).discard
  | vecSet box i item => exact (Act.lasting_vecSet box i item).discard
  | member obj name =>
    exact Act.Lasting.discard ((Act.lasting_intern _).bind fun _ => (Act.lasting_hashKey _).bind fun _ =>
      Act.lasting_member Library.lasting_core ..)
  | setMember obj name v =>
    exact (Act.lasting_intern _).bind fun _ => (Act.lasting_hashKey _).bind fun _ =>
      Act.lasting_setMember Library.lasting_core ..
  | extract box key => exact (Act.lasting_extract box key).discard
  | insert box key v => exact Act.lasting_insert box key v
  | compile src file firstLine => exact (Act.lasting_compile src file firstLine).discard
  | bindFunction code ns => exact ((habit_lasting told cx).bindFunction code ns).discard
  | bindToCaller code => exact ((habit_lasting told cx).bindToCaller code).discard
  | subContext => exact Act.lasting_subContext.discard
  | freeChild => exact Act.lasting_freeChild
  | recordError e | keepTemp v | clearTemps => exact Act.lasting_modifyCtx ..
  | pin v => exact Act.lasting_modify fun _ => .refl _
  | save v => exact Act.lasting_modify fun w => by unfold World.save; split <;> exact .refl _
  | release key => exact Act.lasting_modify fun w => by unfold World.unsave; split <;> exact .refl _
  | pause => exact Act.lasting_modify fun w => w.lasts_leave.trans (World.lasts_enter _)
  | collectNow => exact Act.lasting_modify World.lasts_collectNow
  | collect => exact Act.lasting_modify World.lasts_collect

theorem lasts_after {x : Act Unit} (hx : Act.Lasting (fun _ => False) x) (w : World) :
    w.heap.Lasts (World.after (x.run w)).heap := by
  have hl := hx.lasted w
  generalize x.run w = r at hl ⊢
  cases hl with
  | done lasts _ => exact lasts
  | failed lasts _ => exact lasts

theorem Tends.lasts {held : List CtxId} {l : Matter} {w w' : World} (h : Tends held l w w') : w.heap.Lasts w'.heap := by
  cases h with
  | newContext w =>
    rw [w.heap_newContext]
    exact .refl _
  | @drop w x _ _ _ =>
    rw [World.freeContext, World.heap_freeChain]
    exact .refl _
  | enter w => exact w.lasts_enter
  | leave w => exact w.lasts_leave
  | deed _ _ _ => exact lasts_after (lasting_deed _) _

theorem Next.lasts (h : Next s s') : s.world.heap.Lasts s'.world.heap := by
  obtain ⟨_, h⟩ := h
  cases h with
  | tend hat h =>
    rw [hat.world]
    exact h.lasts
  | begin _ _ => exact .refl _
  | step m => exact (Machine.lasting_step Library.lasting_core m).heap
  | finish w r => exact .refl _
  | @offer w w' _ cx func args me locals _ _ _ hrun =>
    have hoffer : Act.Lasting (fun _ => False) (Host.offer cx func args me locals) :=
      Act.lasting_prepareCall.bind fun _ => Act.lasting_forM fun v _ => Act.lasting_push v
    have hl := lasts_after hoffer w
    rwa [hrun] at hl
  | work _ _ => exact lasts_after (lasting_deed _) _
  | visit _ _ _ _ | answer _ _ => exact .refl _

theorem lasts_moves (h : Relation.ReflTransGen Next s s') : s.world.heap.Lasts s'.world.heap := by
  induction h with
  | refl => exact .refl _
  | tail _ hn ih => exact ih.trans hn.lasts

/-- **All code of an engine that a host has come to** has lines that start where its instructions begin. -/
theorem Reached.lined (h : Reached s) : s.world.heap.Lined := by
  obtain ⟨options, h⟩ := h
  refine (lasts_moves h).lined ?_
  have hname (h : Heap) (name : String) : h.Lined → (h.intern (Bytes.ofString name)).2.Lined :=
    (h.lasts_intern _).lined
  exact hname _ _ (hname _ _ (hname _ _ (Heap.lined_new options.poolBlock)))

end Host

end ScriptEngine
