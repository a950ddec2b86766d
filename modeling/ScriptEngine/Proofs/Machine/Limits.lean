import ScriptEngine.Proofs.Machine.Customs

/-!
# Limits

Operands, frames and marks of a context and the nesting of contexts are limited.  Only four things make
one of them grow by one, and each of them fails where there is no room.

* `World.Limited`           every context is within the limits;
* `World.custom_limited`    whatever is done on a context keeps that;
* `World.Exceeds`           an instruction that would go beyond them;
* `Act.fails_exec`          it fails, and so the run on the context is over;
* `Host.limits_hold`        the main result.
-/

namespace ScriptEngine

open World (ctx_modifyCtx_self ctx_modifyCtx_of_ne ctx_of_ge size_modifyCtx)

/-! ## contexts within the limits -/

theorem Context.limited_new (o : Options) : ({} : Context).Limited o :=
  ⟨Nat.zero_le _, Nat.zero_le _, Nat.zero_le _, Nat.zero_le _, nofun⟩

theorem Context.Limited.of_eq {o : Options} {c c' : Context} (h : c.Limited o) (hstack : c'.stack = c.stack)
    (hframes : c'.frames = c.frames) (hmarks : c'.marks = c.marks) (hnesting : c'.nesting ≤ o.maxNesting)
    (hresume : c'.resumeAt = c.resumeAt) : c'.Limited o :=
  ⟨hstack ▸ h.stack, hframes ▸ h.frames, hmarks ▸ h.marks, hnesting, hresume ▸ h.resumeAt⟩

namespace World

variable {w : World} {o : Options} {cx : CtxId}

/-- All contexts are within the limits. -/
def Limited (o : Options) (w : World) : Prop := w.options = o ∧ ∀ c, (w.ctx c).Limited o

theorem limited_new (o : Options) : (World.new o).Limited o := ⟨rfl, fun _ => Context.limited_new o⟩

/-- What holds of all contexts still holds when one of them changes accordingly. -/
theorem forall_ctx_modifyCtx {P : Context → Prop} (h : ∀ c, P (w.ctx c)) {g : Context → Context}
    (hg : P (g (w.ctx cx))) (c : CtxId) : P ((w.modifyCtx cx g).ctx c) := by
  by_cases hc : cx = c
  · subst hc
    by_cases hlt : cx < w.contexts.size
    · rw [ctx_modifyCtx_self hlt]
      exact hg
    · have hge := Nat.le_of_not_lt hlt
      rw [ctx_of_ge (by rw [size_modifyCtx]; exact hge), ← ctx_of_ge hge]
      exact h cx
  · rw [ctx_modifyCtx_of_ne hc]
    exact h c

theorem options_childless (w : World) (cx : CtxId) : (w.childless cx).options = w.options := by
  rw [childless_eq_shelve]
  rfl

theorem options_newContext (w : World) : w.newContext.2.options = w.options := by
  unfold World.newContext
  split <;> rfl

theorem Limited.modifyCtx (h : w.Limited o) {g : Context → Context} (hg : (g (w.ctx cx)).Limited o) :
    (w.modifyCtx cx g).Limited o := ⟨h.1, forall_ctx_modifyCtx h.2 hg⟩

theorem Limited.freeChain (h : w.Limited o) (n : Nat) (d : Option CtxId) : (World.freeChain n d w).Limited o := by
  refine ⟨?_, fun c => ?_⟩
  · rw [show World.freeChain n d w = _ from freeChain_shelve w n d w]
    exact h.1
  · rcases ctx_freeChain_or n d w c with hc | hc
    · rw [hc]
      exact h.2 c
    · rw [hc]
      exact Context.limited_new o

theorem Limited.childless (h : w.Limited o) (cx : CtxId) : (w.childless cx).Limited o := by
  cases hd : (w.ctx cx).child with
  | none =>
    rw [childless_of_none hd]
    exact h
  | some d =>
    rw [childless_of_some hd]
    exact (h.modifyCtx ((h.2 cx).of_eq rfl rfl rfl (h.2 cx).nesting rfl)).freeChain _ _

theorem Limited.newContext (h : w.Limited o) : w.newContext.2.Limited o := by
  refine ⟨(options_newContext w).trans h.1, fun c => ?_⟩
  rw [ctx_newContext]
  exact h.2 c

theorem Limited.adopt (h : w.Limited o) (cx sub : CtxId) {n : Nat} (hn : n ≤ o.maxNesting) :
    (w.adopt cx sub n).Limited o := by
  have hsub : (w.modifyCtx sub fun c => { c with parent := some cx, nesting := n }).Limited o :=
    h.modifyCtx ((h.2 sub).of_eq rfl rfl rfl hn rfl)
  exact hsub.modifyCtx ((hsub.2 cx).of_eq rfl rfl rfl (hsub.2 cx).nesting rfl)

/-- **Whatever is done on a context** keeps all contexts within the limits. -/
theorem custom_limited (cx : CtxId) (o : Options) : Custom cx (World.Limited o) where
  rest h v hv := ⟨hv.trans h.1, h.2⟩
  uncache h := by
    refine ⟨h.1, fun c => ?_⟩
    rw [ctx_uncached]
    exact (h.2 c).of_eq rfl rfl rfl (h.2 c).nesting rfl
  edit h _ _ hlimited := h.modifyCtx (h.1 ▸ hlimited (h.1 ▸ h.2 cx))
  error h _ := h.modifyCtx ((h.2 cx).of_eq rfl rfl rfl (h.2 cx).nesting rfl)
  freeChild h := h.childless cx
  subContext h hroom := (h.childless cx).newContext.adopt _ _ (h.1 ▸ hroom)

end World

/-! ## no room for a frame -/

namespace Act

variable {α β : Type} {cx : CtxId} {x : Act α} {f : α → Act β} {w : World}

/-- An activity that fails on a context that has as many frames as it may have. -/
structure Stuck (cx : CtxId) (x : Act α) : Prop where
  fails : ∀ w : World, w.options.maxCallDepth ≤ (w.ctx cx).frames.size → ∃ e w', x.run w = .error e w'

/-- An activity that pops no frame. -/
structure Stacking (cx : CtxId) (x : Act α) : Prop where
  options : ∀ w, (World.after (x.run w)).options = w.options
  frames : ∀ w, ((World.after (x.run w)).ctx cx).frames = (w.ctx cx).frames

theorem Neat.stacking (hx : Neat x) : Stacking cx x :=
  ⟨fun w => (hx.firm w).options, fun w => ((hx.firm w).kept cx).frames⟩

theorem stacking_modifyCtx {g : Context → Context} (hg : ∀ c, (g c).frames = c.frames) :
    Stacking cx (modifyCtx cx g) := ⟨fun _ => rfl, fun _ => World.field_modifyCtx Context.frames hg cx⟩

theorem Stuck.bind (hx : Stuck cx x) : Stuck cx (x >>= f) := by
  refine ⟨fun w hw => ?_⟩
  obtain ⟨e, w', h⟩ := hx.fails w hw
  exact ⟨e, w', run_bind_of_error h⟩

/-- What comes before the frame is pushed may fail as well. -/
theorem Stacking.stuck (hx : Stacking cx x) (hf : ∀ a, Stuck cx (f a)) : Stuck cx (x >>= f) := by
  refine ⟨fun w hw => ?_⟩
  have hoptions := hx.options w
  have hframes := hx.frames w
  cases hr : x.run w with
  | ok a w₁ =>
    rw [hr] at hoptions hframes
    rw [run_bind_of_ok hr]
    refine (hf a).fails w₁ ?_
    rw [show w₁.options = w.options from hoptions, show (w₁.ctx cx).frames = _ from hframes]
    exact hw
  | error e w₁ => exact ⟨e, w₁, run_bind_of_error hr⟩

theorem stuck_ite {p : Prop} [Decidable p] {y : Act α} (hx : Stuck cx x) (hy : Stuck cx y) :
    Stuck cx (if p then x else y) := by
  split
  · exact hx
  · exact hy

theorem Stuck.not_ok (hx : Stuck cx x) (hw : w.options.maxCallDepth ≤ (w.ctx cx).frames.size) {a : α} {w' : World} :
    x.run w ≠ .ok a w' := by
  obtain ⟨e, w'', h⟩ := hx.fails w hw
  rw [h]
  exact nofun

theorem stuck_pushFrame (func : Value) (code : Loaded) (locals scope : Value) (bp : Nat) :
    Stuck cx (pushFrame cx func code locals scope bp) := by
  refine ⟨fun w hw => ?_⟩
  rw [run_pushFrame_eq, if_pos hw]
  exact ⟨_, _, rfl⟩

/-- Where operands are cut and a frame is pushed. -/
theorem stuck_frame (height : Nat) (func : Value) (code : Loaded) (locals scope : Value) (bp : Nat) (a : β) :
    Stuck cx (do
      cut cx height
      pushFrame cx func code locals scope bp
      return a) :=
  (stacking_modifyCtx (g := fun c => { c with stack := c.stack.shrink height }) fun _ => rfl).stuck
    fun _ => (stuck_pushFrame ..).bind

theorem fails_callAt (lib : Library) {base fidx : Nat} (me : Value) (named : Bool) {code : Loaded} {scope : Value}
    (hcallee : w.heap.callee ((w.ctx cx).stack[fidx]?.getD .nil) = .script code scope)
    (hw : w.options.maxCallDepth ≤ (w.ctx cx).frames.size) :
    ∃ e w', (callAt lib cx base fidx me named).run w = .error e w' := by
  rw [callAt, run_ctx_bind]
  dsimp only
  rw [run_heap_bind]
  rw [hcallee]
  refine Stuck.fails (neat_newHash.stacking.stuck fun locals => stuck_ite ?_ ?_) w hw
  · exact (neat_bindNamed ..).stacking.stuck fun _ => stuck_frame ..
  · exact (neat_bindArgs ..).stacking.stuck fun _ => stuck_frame ..

theorem fails_callWith (lib : Library) {argc : Nat} (method named : Bool) {code : Loaded} {scope : Value}
    (hcallee : w.heap.callee ((w.ctx cx).stack[(w.ctx cx).stack.size - argc - 1]?.getD .nil) = .script code scope)
    (hw : w.options.maxCallDepth ≤ (w.ctx cx).frames.size) :
    ∃ e w', (callWith lib cx argc method named).run w = .error e w' := by
  have hcheck {p : Prop} [Decidable p] {y : PUnit → Act Outcome} {z : Act Outcome}
      (hz : ∃ e w', z.run w = .error e w') :
      ∃ e w', (if p then fail .stackUnderflow >>= y else z).run w = .error e w' := by
    split
    · exact ⟨_, _, rfl⟩
    · exact hz
  unfold callWith
  show ∃ e w', EStateM.run (ite _ _ _) w = .error e w'
  cases method with
  | true => exact hcheck (fails_callAt lib _ named hcallee hw)
  | false => exact hcheck (fails_callAt lib _ named hcallee hw)

end Act

/-! ## instructions that would go beyond the limits -/

def Op.callArgs : Op → Nat → Option Nat
  | .fcall, n | .mcall, n => some n
  | .fcallh, _ | .mcallh, _ => some 1
  | _, _ => none

def Context.instruction? (c : Context) : Option (Op × Nat) := do
  let f ← c.frames.back?
  let w ← f.code.words[f.ip]?
  let op ← Op.ofWord? w
  return (op, if 0 < Op.operandCount w then (f.code.words[f.ip + 1]?.getD 0).toNat else 0)

theorem Context.instruction?_of_item {c : Context} {f : Frame} {fs : List Frame} {i : Item}
    (hframes : fromTop c.frames = f :: fs) (hplace : i.place = f.ip) (hin : i.In f.code.words) :
    c.instruction? = some (i.op, i.arg) := by
  have hback : c.frames.back? = some f := by rw [back?_eq_head?, hframes]; rfl
  have hword : f.code.words[f.ip]? = some i.op.word := hplace ▸ hin.word
  have harg : (if 0 < Op.operandCount i.op.word then (f.code.words[f.ip + 1]?.getD 0).toNat else 0) = i.arg := by
    rw [← hin.arg, hplace, Op.operandCount_word, Op.argAt]
    cases i.op.hasOperand <;> rfl
  unfold Context.instruction?
  rw [hback]
  show (f.code.words[f.ip]? >>= _) = _
  rw [hword]
  show (Op.ofWord? i.op.word >>= _) = _
  rw [Op.ofWord?_word, harg]
  rfl

/-- An instruction of a context that would go beyond the limits: with one mark more, one frame more, or
more operands than it takes. -/
inductive World.Exceeds (w : World) (cx : CtxId) : Op → Nat → Prop
  | mark {arg : Nat} (full : w.options.maxMarks ≤ (w.ctx cx).marks.size) : Exceeds w cx .mark arg
  | call {op : Op} {arg n : Nat} {code : Loaded} {scope : Value} (args : op.callArgs arg = some n)
    (callee : w.heap.callee ((w.ctx cx).stack[(w.ctx cx).stack.size - n - 1]?.getD .nil) = .script code scope)
    (full : w.options.maxCallDepth ≤ (w.ctx cx).frames.size) : Exceeds w cx op arg
  | operands {op : Op} {arg : Nat} (plain : op.isPlain = true) (args : op.callArgs arg = none)
    (full : w.options.maxStack < (w.ctx cx).stack.size - op.takes arg + op.gives) : Exceeds w cx op arg

/-- The context while its instruction is executed: the innermost frame is at the next one already. -/
def Context.moveOn (ip : Nat) (c : Context) : Context :=
  { c with temps := #[], frames := c.frames.modify (c.frames.size - 1) ({ · with ip }) }

/-- What is done before an instruction is no matter to that. -/
theorem World.Exceeds.congr {w : World} {cx : CtxId} {op : Op} {arg : Nat} (h : w.Exceeds cx op arg)
    {g : Context → Context} (hg : (w.modifyCtx cx g).ctx cx = g (w.ctx cx)) (hstack : ∀ c, (g c).stack = c.stack)
    (hmarks : ∀ c, (g c).marks = c.marks) (hframes : ∀ c, (g c).frames.size = c.frames.size) :
    (w.modifyCtx cx g).Exceeds cx op arg := by
  cases h with
  | mark full => exact .mark (by rw [hg, hmarks]; exact full)
  | call args callee full => exact .call args (by rw [hg, hstack]; exact callee) (by rw [hg, hframes]; exact full)
  | operands plain args full => exact .operands plain args (by rw [hg, hstack]; exact full)

namespace Act

variable {lib : Library} {cx : CtxId} {outer : List CtxId} {w : World} {o : Options}

theorem fails_perform (hw : w.Fit (cx :: outer)) (hl : w.Limited o) (hframes : (w.ctx cx).frames ≠ #[])
    (code : Loaded) {op : Op} {arg : Nat} (htakes : op.takes arg ≤ (w.ctx cx).stack.size)
    (h : w.Exceeds cx op arg) : ∃ e w', (perform .core cx code op arg).run w = .error e w' := by
  cases h with
  | mark full =>
    rw [perform_mark]
    exact ⟨_, _, run_bind_of_error ((run_mark_eq cx w).trans (if_pos full))⟩
  | @call _ _ n _ _ args callee full =>
    unfold perform
    cases op with
    | fcall | mcall | fcallh | mcallh =>
      cases args
      exact fails_callWith .core _ _ callee full
    | _ => exact nomatch args
  | operands plain args full =>
    cases hr : (perform .core cx code op arg).run w with
    | error e w' => exact ⟨e, w', rfl⟩
    | ok a w' =>
      have hno : op ≠ .fcall ∧ op ≠ .mcall ∧ op ≠ .fcallh ∧ op ≠ .mcallh := by
        refine ⟨?_, ?_, ?_, ?_⟩ <;> (rintro rfl; exact nomatch args)
      have hled := (steps_perform Library.calm_core code arg plain hno).levelled w hw
        (Nat.sub_add_cancel htakes).symm hframes
      have hI := World.custom_limited cx o
      have hperform := mirrors_perform hI.mirror hI.core code op arg
      rw [Outcome.leaves_self] at hperform
      have hkept := hI.keeps hperform hl
      rw [hr] at hled hkept
      cases hled with
      | done _ level _ =>
        have hsize : (w'.ctx cx).stack.size ≤ o.maxStack := (hkept.2 cx).stack
        rw [level.size] at hsize
        rw [hl.1] at full
        exact absurd hsize (Nat.not_le.mpr full)

/-- **The instruction of a ready context** fails if it would go beyond the limits. -/
theorem fails_exec (hw : w.Fit (cx :: outer)) (hl : w.Limited o) (hready : (w.ctx cx).Ready) {op : Op} {arg : Nat}
    (hat : (w.ctx cx).instruction? = some (op, arg)) (h : w.Exceeds cx op arg) :
    ∃ e w', (exec .core cx).run w = .error e w' := by
  obtain ⟨f, fs, rest, i, t, hframes, hplace, hin, -, hpoised⟩ := hready.poised
  rw [Context.instruction?_of_item hframes hplace hin] at hat
  cases hat
  rw [run_exec hframes hplace hin, World.modifyCtx_modifyCtx]
  show ∃ e w', (perform .core cx f.code i.op i.arg).run
    (w.modifyCtx cx (Context.moveOn (f.ip + i.op.length))) = .error e w'
  generalize f.ip + i.op.length = ip at hpoised ⊢
  have hctx := ctx_modifyCtx_self hw.lt (Context.moveOn ip)
  have hsize (c : Context) : (c.moveOn ip).frames.size = c.frames.size := Array.size_modify
  have hmoved := hpoised ((w.ctx cx).moveOn ip) (fromTop_modify_last hframes _) rfl rfl rfl
  refine fails_perform (hw.modifyCtx (f := Context.moveOn ip) (fun _ => rfl) (fun _ => rfl) fun _ => rfl)
    (hl.modifyCtx ?_) ?_ f.code ?_ (h.congr hctx (fun _ => rfl) (fun _ => rfl) hsize)
  · exact { hl.2 cx with frames := Nat.le_trans (Nat.le_of_eq (hsize _)) (hl.2 cx).frames }
  · rw [hctx]
    exact Poised.frames_ne hmoved.frames
  · rw [hctx]
    exact hmoved.enough_takes

end Act

/-! ## the start of a call -/

/-- A call on a context without frames that would go beyond the limits. -/
inductive World.CallExceeds (w : World) (func : Value) (args : Array Value) : Prop
  | operands (full : w.options.maxStack < args.size + 3)
  | script {code : Loaded} {scope : Value} (callee : w.heap.callee func = .script code scope)
    (full : w.options.maxCallDepth = 0)
  | bare {code : Loaded} (callee : w.heap.callee func = .bare code) (full : w.options.maxCallDepth = 0)

theorem World.CallExceeds.congr {w w' : World} {func : Value} {args : Array Value} (h : w.CallExceeds func args)
    (hheap : w'.heap = w.heap) (hoptions : w'.options = w.options) : w'.CallExceeds func args := by
  cases h with
  | operands full => exact .operands (by rw [hoptions]; exact full)
  | script callee full => exact .script (by rw [hheap]; exact callee) (by rw [hoptions]; exact full)
  | bare callee full => exact .bare (by rw [hheap]; exact callee) (by rw [hoptions]; exact full)

namespace Act

variable {cx : CtxId} {outer : List CtxId} {w w' : World} {o : Options} {func me locals : Value}
  {args : Array Value}

/-- A value on top of the operands. -/
structure Pushed (cx : CtxId) (n : Nat) (w w' : World) : Prop where
  size : (w'.ctx cx).stack.size = (w.ctx cx).stack.size + n
  heap : w'.heap = w.heap
  options : w'.options = w.options
  contexts : w'.contexts.size = w.contexts.size
  room : 0 < n → (w'.ctx cx).stack.size ≤ w.options.maxStack

theorem Pushed.trans {m n : Nat} {w'' : World} (h : Pushed cx m w w') (h' : Pushed cx n w' w'') :
    Pushed cx (m + n) w w'' := by
  refine ⟨by rw [h'.size, h.size, Nat.add_assoc], h'.heap.trans h.heap, h'.options.trans h.options,
    h'.contexts.trans h.contexts, fun hpos => ?_⟩
  cases n with
  | zero =>
    rw [h'.size]
    exact h.room hpos
  | succ n =>
    rw [← h.options]
    exact h'.room (Nat.succ_pos n)

theorem pushed_push {v : Value} (hlt : cx < w.contexts.size) (h : (push cx v).run w = .ok () w') :
    Pushed cx 1 w w' := by
  rw [run_push_eq] at h
  split at h
  · exact nomatch h
  · rename_i hroom
    cases h
    have hsize : ((w.modifyCtx cx fun c => { c with stack := c.stack.push v }).ctx cx).stack.size =
        (w.ctx cx).stack.size + 1 := by
      rw [ctx_modifyCtx_self hlt]
      exact Array.size_push ..
    refine ⟨hsize, rfl, rfl, size_modifyCtx .., fun _ => ?_⟩
    rw [hsize]
    exact Nat.lt_of_not_le hroom

theorem pushed_all (vs : List Value) (hlt : cx < w.contexts.size)
    (h : (vs.forM fun v => push cx v).run w = .ok () w') : Pushed cx vs.length w w' := by
  induction vs generalizing w with
  | nil =>
    cases h
    exact ⟨rfl, rfl, rfl, rfl, fun h => nomatch h⟩
  | cons v vs ih =>
    obtain ⟨_, w₁, h₁, h₂⟩ := run_bind_ok h
    have hp := pushed_push hlt h₁
    rw [List.length_cons, Nat.add_comm]
    exact hp.trans (ih (by rw [hp.contexts]; exact hlt) h₂)

theorem stuck_bound (func : Value) (code : Loaded) (locals scope : Value) (args : Array Value) (me : Value) :
    Stuck cx (do
      bindArgs cx code locals args me
      cut cx 0
      pushFrame cx func code locals scope 0
      return Begun.frame) := (neat_bindArgs ..).stacking.stuck fun _ => stuck_frame ..

theorem fails_beginCall (hlt : cx < w.contexts.size) (h : w.CallExceeds func args) (hempty : (w.ctx cx).stack = #[]) :
    ∃ e w', (beginCall .core cx func args me locals).run w = .error e w' := by
  cases hr : (beginCall .core cx func args me locals).run w with
  | error e w' => exact ⟨e, w', rfl⟩
  | ok b w' =>
    obtain ⟨_, w₁, h₁, hr⟩ := run_bind_ok hr
    obtain ⟨_, w₂, h₂, hr⟩ := run_bind_ok hr
    obtain ⟨_, w₃, h₃, hr⟩ := run_bind_ok hr
    obtain ⟨_, w₄, h₄, hr⟩ := run_bind_ok hr
    rw [forM_toList] at h₂
    have hp₁ := pushed_push hlt h₁
    have hp₂ := pushed_all args.toList (by rw [hp₁.contexts]; exact hlt) h₂
    have hp₂ := hp₁.trans hp₂
    have hp₃ := hp₂.trans (pushed_push (by rw [hp₂.contexts]; exact hlt) h₃)
    have hp := hp₃.trans (pushed_push (by rw [hp₃.contexts]; exact hlt) h₄)
    obtain ⟨_, _, hheap, hr⟩ := run_bind_ok hr
    cases hheap
    have hfull (full : w.options.maxCallDepth = 0) : w₄.options.maxCallDepth ≤ (w₄.ctx cx).frames.size := by
      rw [hp.options, full]
      exact Nat.zero_le _
    cases h with
    | operands full =>
      have hroom := hp.room (by omega)
      rw [hp.size, hempty, Array.length_toList] at hroom
      simp only [List.size_toArray, List.length_nil] at hroom
      omega
    | script callee full =>
      rw [hp.heap, callee] at hr
      refine absurd hr (Stuck.not_ok (neat_heap.stacking.stuck fun h => stuck_ite ?_ ?_) (hfull full))
      · exact stuck_bound ..
      · exact neat_newHash.stacking.stuck fun ns => stuck_bound ..
    | @bare code callee full =>
      rw [hp.heap, callee] at hr
      have hbound (ns : Value) : Stuck cx (do
          let bound ← newFunc cx func .nil
          bindArgs cx code ns args me
          cut cx 0
          pushFrame cx bound code ns .nil 0
          return Begun.frame) := (neat_newFunc ..).stacking.stuck fun bound => stuck_bound ..
      refine absurd hr (Stuck.not_ok (neat_heap.stacking.stuck fun h => stuck_ite ?_ ?_) (hfull full))
      · exact hbound _
      · exact neat_newHash.stacking.stuck fun ns => hbound ns

end Act

/-! ## runs -/

namespace Machine

variable {w : World} {waiting : List Waiting} {c : CtxId} {o : Options}

theorem step_ended_error (lib : Library) (w : World) (waiting : List Waiting) (c : CtxId) (e : Failure) :
    ∃ e' w', step lib ⟨w, waiting, .ended c (.error e)⟩ = ⟨w', waiting, .outcome (.error e')⟩ := ⟨_, _, rfl⟩

/-- **An instruction that would go beyond the limits** ends the run. -/
theorem over_of_exceeds (hm : Steady ⟨w, waiting, .running c⟩) (hl : w.Limited o) {op : Op} {arg : Nat}
    (hat : (w.ctx c).instruction? = some (op, arg)) (h : w.Exceeds c op arg) :
    ∃ e w', step .core (step .core ⟨w, waiting, .running c⟩) = ⟨w', waiting, .outcome (.error e)⟩ := by
  obtain ⟨e, w', hr⟩ := Act.fails_exec hm.works.1 hl hm.works.2 hat h
  have hstep : step .core ⟨w, waiting, .running c⟩ = ⟨w', waiting, .ended c (.error e)⟩ := by
    unfold step
    dsimp only
    rw [hr]
  rw [hstep]
  exact step_ended_error ..

/-- **A call that would go beyond the limits** ends at once. -/
theorem over_of_callExceeds {func me locals : Value} {args : Array Value}
    (hm : Steady ⟨w, waiting, .begin c (.call func args me locals)⟩) (h : w.CallExceeds func args) :
    ∃ e w', step .core (step .core ⟨w, waiting, .begin c (.call func args me locals)⟩) =
      ⟨w', waiting, .outcome (.error e)⟩ := by
  obtain ⟨⟨hw, hheld⟩, hwaits, -⟩ := hm
  obtain ⟨w₁, hrun, hw₁, -⟩ := run_prepareCall (hw.join hheld) hwaits
  obtain rfl : (w.childless c).modifyCtx c (fun d => { d.clearStacks with error := none }) = w₁ := by
    have hprepare : (Act.prepareCall c).run w = .ok () _ := run_bind_of_ok (World.run_freeChild w c)
    rw [hprepare] at hrun
    exact (EStateM.Result.ok.inj hrun).2
  have hlt := hw₁.lt
  have hempty : (((w.childless c).modifyCtx c fun d => { d.clearStacks with error := none }).ctx c).stack = #[] := by
    rw [size_modifyCtx] at hlt
    rw [ctx_modifyCtx_self hlt]
    rfl
  have hheap : (w.childless c).heap = w.heap := by
    rw [World.childless_eq_shelve]
    rfl
  obtain ⟨e, w', hr⟩ : ∃ e w', (Act.beginCall .core c func args me locals).run
      ((w.childless c).modifyCtx c fun d => { d.clearStacks with error := none }) = .error e w' :=
    Act.fails_beginCall hlt (h.congr hheap (World.options_childless w c)) hempty
  have hstep : step .core ⟨w, waiting, .begin c (.call func args me locals)⟩ = ⟨w', waiting, .ended c (.error e)⟩ := by
    show start .core w waiting c (.call func args me locals) = _
    unfold start
    dsimp only
    rw [run_bind_of_ok hrun, hr]
  rw [hstep]
  exact step_ended_error ..

end Machine

namespace Host

open Relation (ReflTransGen)

variable {s s' : State} {o : Options}

theorem Next.limited (h : Next s s') (hs : s.Good) (hl : s.world.Limited o) : s'.world.Limited o := by
  obtain ⟨_, h⟩ := h
  exact h.keeps hs (World.custom_limited 0 o).toFormal
    (fun cx _ => ⟨_, World.custom_limited cx o, hl, fun _ h => h⟩) (fun _ => hl.newContext)
    (fun _ _ _ _ => hl.freeChain _ _) hl

theorem limited_moves (h : ReflTransGen Next s s') (hs : s.Good) (hl : s.world.Limited o) : s'.world.Limited o := by
  induction h with
  | refl => exact hl
  | tail h hn ih => exact hn.limited (along_moves h hs).2 ih

/-- **The limits hold**, whatever they are: in every state that a host and its scripts come to, every
context is within them.  An instruction or a call that would go beyond them ends the run with an error,
and so does the making of a child that would be nested too deep. -/
theorem limits_hold (o : Options) (h : ReflTransGen Next (.idle (.new o)) s) :
    (∀ c, (s.world.ctx c).stack.size ≤ o.maxStack ∧ (s.world.ctx c).frames.size ≤ o.maxCallDepth ∧
      (s.world.ctx c).marks.size ≤ o.maxMarks ∧ (s.world.ctx c).nesting ≤ o.maxNesting) ∧
    (∀ w waiting c op arg, s = .busy ⟨w, waiting, .running c⟩ → (w.ctx c).instruction? = some (op, arg) →
      w.Exceeds c op arg → ∃ e w', (Machine.step .core)^[2] ⟨w, waiting, .running c⟩ = ⟨w', waiting, .outcome (.error e)⟩) ∧
    (∀ w waiting c func args me locals, s = .busy ⟨w, waiting, .begin c (.call func args me locals)⟩ →
      w.CallExceeds func args → ∃ e w', (Machine.step .core)^[2] ⟨w, waiting, .begin c (.call func args me locals)⟩ =
        ⟨w', waiting, .outcome (.error e)⟩) ∧
    ∀ c, o.maxNesting ≤ (s.world.ctx c).nesting →
      (Act.subContext c).run s.world = .error { cause := .nestingTooDeep } s.world := by
  have hl : s.world.Limited o := limited_moves h (good_new o) (World.limited_new o)
  have hgood : s.Good := Reached.good ⟨o, h⟩
  refine ⟨fun c => ?_, ?_, ?_, fun c hc => ?_⟩
  · exact ⟨(hl.2 c).stack, (hl.2 c).frames, (hl.2 c).marks, (hl.2 c).nesting⟩
  · rintro w waiting c op arg rfl hat he
    exact Machine.over_of_exceeds hgood.ready.1 hl hat he
  · rintro w waiting c func args me locals rfl he
    exact Machine.over_of_callExceeds hgood.ready.1 he
  · rw [World.run_subContext, if_pos (by rw [hl.1]; exact hc)]

/-- With no room for anything a context is made, and a call of nothing is tried on it. -/
theorem limits_hold_without_room :
    let o : Options := { maxStack := 0, maxCallDepth := 0, maxMarks := 0, maxNesting := 0 }
    let w := (World.new o).newContext.2
    ((w.ctx 0).stack.size ≤ 0 ∧ (w.ctx 0).nesting ≤ 0) ∧
      ∃ e w', (Machine.step .core)^[2] ⟨w, [], .begin 0 (.call .nil #[] .nil .nil)⟩ =
        ⟨w', [], .outcome (.error e)⟩ := by
  intro o w
  have hnew : Next (.idle (.new o)) (.idle w) := .newContext _
  have hbegin : Next (.idle w) (.busy ⟨w, [], .begin 0 (.call .nil #[] .nil .nil)⟩) :=
    .begin ⟨Nat.zero_lt_one, Array.not_mem_empty 0⟩
      ⟨Heap.live_nil, fun v hv => absurd hv (Array.not_mem_empty v), Heap.live_nil, Heap.live_nil⟩
  obtain ⟨hwithin, -, hcall, -⟩ := limits_hold o ((ReflTransGen.single hnew).tail hbegin)
  have hfull : w.CallExceeds .nil #[] := .operands (Nat.zero_lt_succ 2)
  exact ⟨⟨(hwithin 0).1, (hwithin 0).2.2.2⟩, hcall w [] 0 .nil #[] .nil .nil rfl hfull⟩

end Host

end ScriptEngine
