import ScriptEngine.Machine.Step
import ScriptEngine.Proofs.Machine.Calmness
import ScriptEngine.Proofs.Machine.Neatness

/-!
# What instructions do to the stacks

An instruction that finds the operands, the marks and the frame it needs leaves a context that is
ready for the next one, or that waits for a native; and it never fails because one of them is missing.

* `Act.Steps`          an activity that leaves some number of operands;
* `Act.Performed`      what an instruction has led to;
* `Act.performed_perform`   every operation, from a poised context;
* `Act.performed_exec`      **one instruction of a ready context.**
-/

namespace ScriptEngine

open World (ctx_modifyCtx_self)

namespace Act

/-- The operand stack of a context has come to `n` operands and nothing else of it has changed, or
there was a failure that is not internal and left the frames alone. -/
inductive Levelled {α : Type} (cx : CtxId) (outer : List CtxId) (w : World) (n : Nat)
    (Q : α → Prop) : EStateM.Result Failure World α → Prop
  | done {a : α} {w' : World} (moves : w.Moves cx outer w')
    (level : Context.Level n (w.ctx cx) (w'.ctx cx)) (ha : Q a) : Levelled cx outer w n Q (.ok a w')
  | failed {e : Failure} {w' : World} (moves : w.Moves cx outer w')
    (frames : (w'.ctx cx).frames = (w.ctx cx).frames) (he : e.External) : Levelled cx outer w n Q (.error e w')

/-- From `k` operands the activity comes to `n`, in a context that has a frame. -/
structure Steps {α : Type} (cx : CtxId) (outer : List CtxId) (k n : Nat) (Q : α → Prop)
    (x : Act α) : Prop where
  levelled : ∀ w, w.Fit (cx :: outer) → (w.ctx cx).stack.size = k → (w.ctx cx).frames ≠ #[] →
    Levelled cx outer w n Q (x.run w)

section

variable {α β : Type} {cx : CtxId} {outer : List CtxId} {k m n : Nat} {Q : α → Prop} {Q' : β → Prop}
  {x : Act α} {f : α → Act β}

theorem Steps.bind (hx : Steps cx outer k m Q x) (hf : ∀ a, Q a → Steps cx outer m n Q' (f a)) :
    Steps cx outer k n Q' (x >>= f) := by
  refine ⟨fun w hw hk hframes => ?_⟩
  have hled := hx.levelled w hw hk hframes
  cases hr : x.run w with
  | ok a w' =>
    rw [hr] at hled
    rw [run_bind_of_ok hr]
    cases hled with
    | done moves level ha =>
      have hnext := (hf a ha).levelled w' moves.fit level.size (by rw [level.frames]; exact hframes)
      cases hr' : (f a).run w' with
      | ok b w'' =>
        rw [hr'] at hnext
        cases hnext with
        | done moves' level' hb => exact .done (moves.trans moves') (level.trans level') hb
      | error e w'' =>
        rw [hr'] at hnext
        cases hnext with
        | failed moves' frames he => exact .failed (moves.trans moves') (frames.trans level.frames) he
  | error e w' =>
    rw [hr] at hled
    rw [run_bind_of_error hr]
    cases hled with
    | failed moves frames he => exact .failed moves frames he

theorem steps_pure {a : α} (ha : Q a) : Steps cx outer k k Q (pure a) :=
  ⟨fun _ hw hk _ => .done (.refl hw) ⟨hk, rfl, rfl, rfl⟩ ha⟩

theorem steps_fail {c : Cause} (hc : ¬ c.Internal) : Steps cx outer k n Q (fail c : Act α) :=
  ⟨fun _ hw _ _ => .failed (.refl hw) rfl hc⟩

/-- What is calm leaves the operands as they are. -/
theorem Calm.steps (hx : Calm (cx :: outer) x) : Steps cx outer k k (fun _ => True) x := by
  refine ⟨fun w hw hk _ => ?_⟩
  have hled := hx.led w hw
  cases hr : x.run w with
  | ok a w' =>
    rw [hr] at hled
    cases hled with
    | done h => exact .done h.moves (hk ▸ h.head.level) trivial
  | error e w' =>
    rw [hr] at hled
    cases hled with
    | failed h he => exact .failed h.moves h.head.frames he

theorem Steps.discard (hx : Steps cx outer k n Q x) :
    Steps cx outer k n (fun _ => True) (discard x : Act PUnit) := hx.bind fun _ _ => steps_pure trivial

theorem Steps.next {x : Act Unit} {Q : Unit → Prop} (hx : Steps cx outer k n Q x) :
    Steps cx outer k n (· = Outcome.next) (x >>= fun _ => pure Outcome.next) :=
  hx.bind fun _ _ => steps_pure rfl

/-! ## operands and frames -/

theorem steps_modifyCtx {f : Context → Context}
    (hf : ∀ c, c.stack.size = k → (f c).stack.size = n ∧ f c = { c with stack := (f c).stack }) :
    Steps cx outer k n (fun _ => True) (modifyCtx cx f) := by
  refine ⟨fun w hw hk _ => ?_⟩
  -- only on contexts of that size does the change matter
  have hself := ctx_modifyCtx_self hw.lt f
  obtain ⟨hsize, heq⟩ := hf (w.ctx cx) hk
  have hrun : w.modifyCtx cx f = w.modifyCtx cx fun c => { c with stack := (f (w.ctx cx)).stack } := by
    unfold World.modifyCtx
    congr 1
    refine Array.ext_getElem? fun i => ?_
    rw [Array.getElem?_modify, Array.getElem?_modify]
    split
    · rename_i hi
      subst hi
      have hctx : w.contexts[cx]? = some (w.ctx cx) := by
        rw [World.ctx, Array.getElem?_eq_getElem hw.lt]
        rfl
      rw [hctx]
      exact congrArg some heq
    · rfl
  show Levelled cx outer w n _ (.ok () (w.modifyCtx cx f))
  refine .done ?_ ?_ trivial
  · rw [hrun]
    exact hw.moves_modifyCtx (fun _ => rfl) (fun _ => rfl) (fun _ => rfl) fun _ => rfl
  · rw [hself, heq]
    exact ⟨hsize, rfl, rfl, rfl⟩

theorem steps_push (v : Value) : Steps cx outer k (k + 1) (fun _ => True) (push cx v) := by
  have hpush : Steps cx outer k (k + 1) (fun _ => True)
      (modifyCtx cx fun c => { c with stack := c.stack.push v }) :=
    steps_modifyCtx fun c hc => ⟨by rw [Array.size_push, hc], rfl⟩
  unfold push
  refine (Calm.steps calm_options).bind fun o _ => (Calm.steps (calm_ctx cx)).bind fun c _ => ?_
  show Steps cx outer k (k + 1) _ (ite _ _ _)
  split
  · exact (steps_fail (n := k) (Q := fun _ => True) id).bind fun _ _ => hpush
  · exact hpush

theorem steps_pop : Steps cx outer (k + 1) k (fun _ => True) (pop cx) := by
  refine ⟨fun w hw hk hframes => ?_⟩
  unfold pop
  rw [run_ctx_bind]
  split
  · have hpop : Steps cx outer (k + 1) k (fun _ => True)
        (modifyCtx cx fun c => { c with stack := c.stack.pop }) :=
      steps_modifyCtx fun c hc => ⟨by rw [Array.size_pop, hc]; rfl, rfl⟩
    exact (hpop.bind fun _ _ => steps_pure trivial).levelled w hw hk hframes
  · rename_i h
    rw [Array.back?_eq_none_iff] at h
    rw [h] at hk
    cases hk

theorem steps_peek {depth : Nat} (h : depth < k) :
    Steps cx outer k k (fun _ => True) (peek cx depth) := by
  refine ⟨fun w hw hk hframes => ?_⟩
  unfold peek
  show Levelled _ _ _ _ _ (EStateM.run (ite _ _ _) w)
  rw [if_pos (by rw [hk]; exact h)]
  exact .done (.refl hw) ⟨hk, rfl, rfl, rfl⟩ trivial

/-- One of the top `n` operands, where `n` is a numeral. -/
theorem steps_operand {depth : Nat} (h : Nat.ble (depth + 1) n = true) :
    Steps cx outer (k + n) (k + n) (fun _ => True) (peek cx depth) :=
  steps_peek (Nat.lt_of_lt_of_le (Nat.le_of_ble_eq_true h) (Nat.le_add_left n k))

theorem steps_cut (h : n ≤ k) : Steps cx outer k n (fun _ => True) (cut cx n) :=
  steps_modifyCtx fun c hc => ⟨by rw [Array.size_shrink, hc, Nat.min_eq_left h], rfl⟩

theorem steps_replaceTop (v : Value) :
    Steps cx outer (k + n) (k + 1) (fun _ => True) (replaceTop cx n v) := by
  unfold replaceTop
  have hcut : Steps cx outer (k + n) k (fun _ => True)
      (modifyCtx cx fun c => { c with stack := c.stack.shrink (c.stack.size - n) }) :=
    steps_modifyCtx fun c hc => ⟨by
      rw [Array.size_shrink, hc, Nat.add_sub_cancel, Nat.min_eq_left (Nat.le_add_right _ _)], rfl⟩
  exact hcut.bind fun _ _ => steps_push v

theorem steps_frame : Steps cx outer k k (fun _ => True) (frame cx) := by
  refine ⟨fun w hw hk hframes => ?_⟩
  unfold frame
  rw [run_ctx_bind]
  split
  · exact .done (.refl hw) ⟨hk, rfl, rfl, rfl⟩ trivial
  · rename_i h
    exact absurd (Array.back?_eq_none_iff.mp h) hframes

theorem steps_read {f : Heap → Except Cause α} (hf : ∀ h, Mild (f h)) :
    Steps cx outer k k (fun _ => True) (read f) := (calm_read hf).steps

/-! ## instructions that replace operands -/

theorem steps_arith (f : Float → Float → Value) :
    Steps cx outer (k + 2) (k + 1) (fun _ => True) (arith cx f) := by
  refine (steps_peek (by omega)).bind fun y _ => (steps_read fun h => h.mild_numOf y).bind fun b _ => ?_
  refine (steps_peek (by omega)).bind fun x _ => (steps_read fun h => h.mild_numOf x).bind fun a _ => ?_
  exact steps_replaceTop _

theorem steps_equality (want : Bool) :
    Steps cx outer (k + 2) (k + 1) (fun _ => True) (equality cx want) := by
  refine (steps_peek (by omega)).bind fun a _ => (steps_peek (by omega)).bind fun b _ => ?_
  exact (Calm.steps calm_heap).bind fun h _ => steps_replaceTop _

theorem steps_iterate (values : Bool) :
    Steps cx outer (k + 2) (k + 3) (fun _ => True) (iterate cx values) := by
  unfold iterate
  refine (steps_peek (by omega)).bind fun box _ => (steps_peek (by omega)).bind fun count _ => ?_
  refine (Calm.steps calm_heap).bind fun h _ => ?_
  split
  · exact steps_fail id
  · split
    · exact steps_push _
    · exact (steps_replaceTop (k := k + 1) (n := 1) _).bind fun _ _ => steps_push _

theorem steps_lookupSym (sym : Value) (hash : UInt32) :
    Steps cx outer k k (fun _ => True) (lookupSym cx sym hash) := by
  unfold lookupSym
  refine steps_frame.bind fun f _ => ?_
  refine (Calm.steps (calm_heap.bind fun _ => calm_pure _)).bind fun n _ => ?_
  refine (Calm.steps calm_heap).bind fun h _ => ?_
  split
  · exact steps_pure trivial
  · split
    · exact steps_pure trivial
    · exact steps_fail id

theorem steps_setSym (sym : Value) (hash : UInt32) (v : Value) :
    Steps cx outer k k (fun _ => True) (setSym cx sym hash v) := by
  unfold setSym
  refine steps_frame.bind fun f _ => ?_
  refine (Calm.steps (calm_heap.bind fun _ => calm_pure _)).bind fun n _ => ?_
  refine (Calm.steps calm_heap).bind fun h _ => ?_
  dsimp only
  split
  · exact (calm_setHashed ..).steps
  · exact (calm_setHashed ..).steps

variable {lib : Library}

/-- Instructions that replace operands by others and are no calls. -/
theorem steps_perform (hlib : lib.Calm) (code : Loaded) {op : Op} (arg : Nat)
    (hp : op.isPlain = true) (hno : op ≠ .fcall ∧ op ≠ .mcall ∧ op ≠ .fcallh ∧ op ≠ .mcallh) :
    Steps cx outer (k + op.takes arg) (k + op.gives) (· = Outcome.next)
      (perform lib cx code op arg) := by
  unfold perform
  cases op with
  | mark | unmark | cutBack | cutBackPop | ret => exact nomatch hp
  | jmp | jmpLoop | jifNotPop | jifEnd | jifTrue | jifNot => exact nomatch hp
  | fcall => exact absurd rfl hno.1
  | mcall => exact absurd rfl hno.2.1
  | fcallh => exact absurd rfl hno.2.2.1
  | mcallh => exact absurd rfl hno.2.2.2
  | nop => exact steps_pure rfl
  | pop => exact steps_pop.discard.next
  | dup => exact (steps_operand rfl).bind fun v _ => (steps_push v).next
  | dup2 =>
    refine (steps_operand rfl).bind fun a _ => (steps_operand rfl).bind fun b _ => ?_
    exact (steps_push a).bind fun _ _ => (steps_push b).next
  | pushConst | pushOne | pushZero | pushNil => exact (steps_push _).next
  | newVec => exact (calm_newVec _).steps.bind fun v _ => (steps_push v).next
  | vappend =>
    refine (steps_operand rfl).bind fun v _ => (steps_operand rfl).bind fun box _ => ?_
    exact (calm_modifyVec _ _).discard.steps.bind fun _ _ => steps_pop.discard.next
  | newHash => exact calm_newHash.steps.bind fun v _ => (steps_push v).next
  | happend =>
    refine (steps_operand rfl).bind fun v _ => (steps_operand rfl).bind fun key _ => ?_
    refine (steps_operand rfl).bind fun box _ => (calm_hashSet ..).steps.bind fun _ _ => ?_
    refine ⟨fun w hw hk hframes => ?_⟩
    have hcut : Steps cx outer (k + 3) (k + 1) (· = Outcome.next)
        (cut cx (k + 1) >>= fun _ => pure Outcome.next) := (steps_cut (by omega)).next
    show Levelled _ _ _ _ _
      ((cut cx ((w.ctx cx).stack.size - 2) >>= fun _ => pure Outcome.next).run w)
    rw [hk]
    exact hcut.levelled w hw hk hframes
  | not =>
    refine (steps_operand rfl).bind fun v _ => (steps_read fun h => h.mild_truth v).bind fun b _ => ?_
    exact (steps_replaceTop _).next
  | neg =>
    refine (steps_operand rfl).bind fun v _ => (steps_read fun h => h.mild_numOf v).bind fun b _ => ?_
    exact (steps_replaceTop _).next
  | plus | minus | mul | div | lt | lte | gt | gte => exact (steps_arith _).next
  | cat =>
    refine (steps_operand rfl).bind fun b _ => (steps_operand rfl).bind fun a _ => ?_
    exact (calm_concat a b).steps.bind fun v _ => (steps_replaceTop v).next
  | eq | neq => exact (steps_equality _).next
  | loadSym => exact (steps_lookupSym ..).bind fun v _ => (steps_push v).next
  | setSym => exact (steps_operand rfl).bind fun v _ => (steps_setSym ..).next
  | setLocal =>
    refine (steps_operand rfl).bind fun v _ => steps_frame.bind fun f _ => ?_
    exact (calm_setHashed ..).steps.next
  | member =>
    refine (steps_operand rfl).bind fun obj _ => (calm_member hlib ..).steps.bind fun r _ => ?_
    cases r with
    | some v => exact (steps_replaceTop v).next
    | none =>
      exact (Calm.steps calm_heap).bind fun h _ =>
        (steps_fail (n := k) (Q := fun _ => False) id).bind fun _ h => h.elim
  | setMember =>
    refine (steps_operand rfl).bind fun v _ => (steps_operand rfl).bind fun obj _ => ?_
    exact (calm_setMember hlib ..).steps.bind fun _ _ => (steps_replaceTop v).next
  | extract =>
    refine (steps_operand rfl).bind fun box _ => (steps_operand rfl).bind fun key _ => ?_
    exact (calm_extract box key).steps.bind fun v _ => (steps_replaceTop v).next
  | insert =>
    refine (steps_operand rfl).bind fun v _ => (steps_operand rfl).bind fun key _ => ?_
    refine (steps_operand rfl).bind fun box _ => (calm_insert box key v).steps.bind fun _ _ => ?_
    exact (steps_replaceTop v).next
  | slice =>
    refine (steps_operand rfl).bind fun stop _ => (steps_operand rfl).bind fun start _ => ?_
    refine (steps_operand rfl).bind fun box _ => (calm_slice box start stop).steps.bind fun v _ => ?_
    exact (steps_replaceTop v).next
  | func =>
    refine steps_frame.bind fun f _ => (calm_newClosure ..).steps.bind fun scope _ => ?_
    exact (calm_newFunc ..).steps.bind fun v _ => (steps_push v).next
  | each | index => exact (steps_iterate _).next

end

/-! ## instructions -/

def ReplyExternal (r : Except Failure Reply) : Prop := ∀ e, r = .error e → e.External

/-- What an instruction has led to: the next one can be executed, the outermost call has returned, or
a native was called whose result can be put in its place.  The frames were `frames` when the instruction
had been fetched; it leaves all but the innermost one alone, and all of them if it fails, unless its
result finds no room, which is what `full` says. -/
inductive Performed (cx : CtxId) (outer : List CtxId) (frames : List Frame) (full : Prop) (w : World) :
    EStateM.Result Failure World Outcome → Prop
  | next {w' : World} (moves : w.Moves cx outer w') (ready : (w'.ctx cx).Ready)
    (below : (fromTop (w'.ctx cx).frames).tail <:+ frames) : Performed cx outer frames full w (.ok .next w')
  | returned {v : Value} {w' : World} (moves : w.Moves cx outer w') (none : (w'.ctx cx).frames = #[]) :
    Performed cx outer frames full w (.ok (.returned v) w')
  | native {base : Nat} {n : Native} {r : Except Failure Reply} {w' : World}
    (moves : w.Moves cx outer w') (parked : (w'.ctx cx).Parked base)
    (same : fromTop (w'.ctx cx).frames = frames) (hr : ReplyExternal r) :
    Performed cx outer frames full w (.ok (.native base n r) w')
  | failed {e : Failure} {w' : World} (moves : w.Moves cx outer w')
    (same : full ∨ fromTop (w'.ctx cx).frames = frames) (he : e.External) :
    Performed cx outer frames full w (.error e w')

section

variable {cx : CtxId} {outer : List CtxId} {w w' : World} {lib : Library} {f : Frame}
  {fs frames : List Frame} {full : Prop} {rest : List Nat} {op : Op} {arg : Nat} {t : Shape}

theorem Performed.after {r : EStateM.Result Failure World Outcome} (hm : w.Moves cx outer w')
    (h : Performed cx outer frames full w' r) : Performed cx outer frames full w r := by
  cases h with
  | next moves ready below => exact .next (hm.trans moves) ready below
  | returned moves none => exact .returned (hm.trans moves) none
  | native moves parked same hr => exact .native (hm.trans moves) parked same hr
  | failed moves same he => exact .failed (hm.trans moves) same he

/-- What follows an activity that leaves the stacks alone. -/
theorem performed_bind_calm {α : Type} {x : Act α} {g : α → Act Outcome}
    (hx : Calm (cx :: outer) x) (hw : w.Fit (cx :: outer)) (hf : fromTop (w.ctx cx).frames = frames)
    (hg : ∀ a w', w.Keeps (cx :: outer) w' → Performed cx outer frames full w' ((g a).run w')) :
    Performed cx outer frames full w ((x >>= g).run w) := by
  have hled := hx.led w hw
  cases hr : x.run w with
  | ok a w' =>
    rw [hr] at hled
    rw [run_bind_of_ok hr]
    cases hled with
    | done h => exact (hg a w' h).after h.moves
  | error e w' =>
    rw [hr] at hled
    rw [run_bind_of_error hr]
    cases hled with
    | failed h he => exact .failed h.moves (.inr (h.head.frames ▸ hf)) he

theorem performed_bind_steps {α : Type} {k n : Nat} {Q : α → Prop} {x : Act α} {g : α → Act Outcome}
    (hx : Steps cx outer k n Q x) (hw : w.Fit (cx :: outer)) (hk : (w.ctx cx).stack.size = k)
    (hf : fromTop (w.ctx cx).frames = f :: fs)
    (hg : ∀ a w', w.Moves cx outer w' → Context.Level n (w.ctx cx) (w'.ctx cx) →
      Performed cx outer (f :: fs) full w' ((g a).run w')) :
    Performed cx outer (f :: fs) full w ((x >>= g).run w) := by
  have hled := hx.levelled w hw hk (Poised.frames_ne hf)
  cases hr : x.run w with
  | ok a w' =>
    rw [hr] at hled
    rw [run_bind_of_ok hr]
    cases hled with
    | done moves level _ => exact (hg a w' moves level).after moves
  | error e w' =>
    rw [hr] at hled
    rw [run_bind_of_error hr]
    cases hled with
    | failed moves same he => exact .failed moves (.inr (same ▸ hf)) he

/-- The stacks of the context are changed, and the next instruction can be executed. -/
theorem performed_modifyCtx (hw : w.Fit (cx :: outer)) {g : Context → Context}
    (hchild : ∀ c, (g c).child = c.child) (hparent : ∀ c, (g c).parent = c.parent)
    (hnesting : ∀ c, (g c).nesting = c.nesting) (hresume : ∀ c, (g c).resumeAt = c.resumeAt)
    (hready : (g (w.ctx cx)).Ready) (hbelow : (fromTop (g (w.ctx cx)).frames).tail <:+ frames) :
    Performed cx outer frames full w ((modifyCtx cx g >>= fun _ => pure Outcome.next).run w) := by
  have hctx := ctx_modifyCtx_self hw.lt g
  exact .next (hw.moves_modifyCtx hchild hparent hnesting hresume) (hctx ▸ hready) (hctx ▸ hbelow)

/-! ### calls -/

theorem typed_of_callee {h : Heap} (ht : h.Typed) {func scope : Value} {code : Loaded}
    (hc : h.callee func = .script code scope) : code.Typed := by
  unfold Heap.callee at hc
  split at hc
  · rename_i target scope' hf
    split at hc
    · rename_i code' hcode
      cases hc
      have hbody := ht.bodyOf target
      rw [hcode] at hbody
      exact hbody
    · exact nomatch hc
    · exact nomatch hc
  · exact nomatch hc
  · exact nomatch hc
  · exact nomatch hc

/-- A native that is started may fail; the failure is handed on. -/
theorem led_attempt {x : Act Reply} (hx : Calm (cx :: outer) x) (hw : w.Fit (cx :: outer)) :
    ∃ r w', EStateM.run (tryCatch (do return .ok (← x)) fun e => pure (.error e) :
      Act (Except Failure Reply)) w = .ok r w' ∧ w.Keeps (cx :: outer) w' ∧ ReplyExternal r := by
  have hled := hx.led w hw
  cases hr : x.run w with
  | ok a w' =>
    rw [hr] at hled
    cases hled with
    | done h => exact ⟨.ok a, w', run_attempt_ok hr, h, nofun⟩
  | error e w' =>
    rw [hr] at hled
    cases hled with
    | failed h he => exact ⟨.error e, w', run_attempt_error hr, h, fun _ h => by cases h; exact he⟩

/-- The frame of a call takes the place of its operands. -/
theorem performed_pushFrame (hw : w.Fit (cx :: outer)) (h : Poised (w.ctx cx) f fs rest op arg t)
    (hp : op.isPlain = true) (hg : op.gives = 1) {base : Nat}
    (hbase : base = (w.ctx cx).stack.size - op.takes arg) (func locals scope : Value)
    {code : Loaded} (hcode : code.Typed) :
    Performed cx outer (f :: fs) full w ((do
      cut cx base
      pushFrame cx func code locals scope base
      return Outcome.next).run w) := by
  have hle : base ≤ (w.ctx cx).stack.size := hbase ▸ Nat.sub_le _ _
  refine performed_bind_steps (steps_cut hle) hw rfl h.frames fun _ w₁ moves level => ?_
  have hf : fromTop (w₁.ctx cx).frames = f :: fs := level.frames ▸ h.frames
  unfold pushFrame
  show Performed cx outer (f :: fs) full w₁ (EStateM.run (ite _ _ _ >>= fun _ => _) w₁)
  split
  · exact .failed (.refl moves.fit) (.inr hf) id
  · refine performed_modifyCtx moves.fit (fun _ => rfl) (fun _ => rfl) (fun _ => rfl) (fun _ => rfl) ?_ ?_
    rotate_left
    · rw [fromTop_push, List.tail_cons, hf]
    refine h.called hp hg (g := ⟨func, code, 0, locals, scope, base, (w₁.ctx cx).marks.size⟩) hcode rfl
      hbase ?_ (level.size.trans hbase) ?_ level.marks level.resumeAt
    · show (w₁.ctx cx).marks.size = _
      rw [level.marks]
    · show (w₁.ctx cx).frames.push _ = _
      rw [level.frames]

theorem performed_callAt (hlib : lib.Calm) (hw : w.Fit (cx :: outer))
    (h : Poised (w.ctx cx) f fs rest op arg t) (hp : op.isPlain = true) (hg : op.gives = 1)
    (hpos : 0 < op.takes arg) {base : Nat} (hbase : base = (w.ctx cx).stack.size - op.takes arg) (fidx : Nat) (me : Value)
    (named : Bool) : Performed cx outer (f :: fs) full w ((callAt lib cx base fidx me named).run w) := by
  rw [callAt, run_ctx_bind]
  dsimp only
  rw [run_heap_bind]
  split
  · rename_i n _
    obtain ⟨r, w', hrun, hkeeps, hr⟩ := led_attempt (calm_startNative hlib n me _) hw
    rw [run_bind_of_ok hrun]
    refine .native hkeeps.moves ?_ (hkeeps.head.frames ▸ h.frames) hr
    rw [hbase]
    exact h.parked hp hg hpos hkeeps.head
  · rename_i code scope hcallee
    have hcode := typed_of_callee hw.typed hcallee
    refine performed_bind_calm calm_newHash hw h.frames fun locals w₁ hk => ?_
    have hf : fromTop (w₁.ctx cx).frames = f :: fs := hk.head.frames ▸ h.frames
    have hframe {w₂ : World} (hk₂ : w.Keeps (cx :: outer) w₂) : Performed cx outer (f :: fs) full w₂ ((do
        cut cx base
        pushFrame cx ((w.ctx cx).stack[fidx]?.getD .nil) code locals scope base
        return Outcome.next).run w₂) :=
      performed_pushFrame hk₂.fit (h.same hk₂.head) hp hg
        (show base = _ by rw [hk₂.head.stack]; exact hbase) ((w.ctx cx).stack[fidx]?.getD .nil) locals scope hcode
    split
    · exact performed_bind_calm (calm_bindNamed ..) hk.fit hf fun _ w₂ hk₂ => hframe (hk.trans hk₂)
    · exact performed_bind_calm (calm_bindArgs ..) hk.fit hf fun _ w₂ hk₂ => hframe (hk.trans hk₂)
  · exact .failed (.refl hw) (.inr h.frames) id
  · exact .failed (.refl hw) (.inr h.frames) id

theorem performed_callWith (hlib : lib.Calm) (hw : w.Fit (cx :: outer))
    (h : Poised (w.ctx cx) f fs rest op arg t) (hp : op.isPlain = true) (hg : op.gives = 1)
    {argc : Nat} {method : Bool} (htakes : op.takes arg = argc + 1 + if method then 1 else 0)
    (named : Bool) : Performed cx outer (f :: fs) full w ((callWith lib cx argc method named).run w) := by
  have hpos : 0 < op.takes arg := by omega
  have henough := h.enough_takes
  rw [htakes] at henough
  unfold callWith
  show Performed cx outer (f :: fs) full w (EStateM.run (ite _ _ _) w)
  cases method with
  | true =>
    rw [if_neg (Nat.not_lt.mpr henough)]
    refine performed_callAt hlib hw h hp hg hpos ?_ _ _ named
    rw [htakes, ← Nat.sub_sub, ← Nat.sub_sub]
    rfl
  | false =>
    rw [if_neg (Nat.not_lt.mpr henough)]
    refine performed_callAt hlib hw h hp hg hpos ?_ _ _ named
    rw [htakes]
    exact (Nat.sub_sub ..)

/-! ### jumps -/

/-- A jump when the operands are those of its target. -/
theorem performed_jump (hw : w.Fit (cx :: outer)) {c : Context} (h : Poised c f fs rest op arg t)
    {u : Shape} (ht : op.target t = some u) (hm : u.marks = t.marks)
    (hl : Context.Level (f.bp + u.height) c (w.ctx cx)) :
    Performed cx outer (f :: fs) full w ((jump cx arg >>= fun _ => pure Outcome.next).run w) := by
  have hf : fromTop (w.ctx cx).frames = f :: fs := hl.frames ▸ h.frames
  have hmoved := fromTop_modify_last hf fun g => { g with ip := arg }
  refine performed_modifyCtx hw (fun _ => rfl) (fun _ => rfl) (fun _ => rfl) (fun _ => rfl) ?_ ?_
  · exact h.jumped ht hm hl.size hmoved hl.marks hl.resumeAt
  · rw [hmoved]
    exact List.suffix_cons ..

/-- No jump is made, and the operands are those of the next instruction. -/
theorem performed_stay (hw : w.Fit (cx :: outer)) {c : Context} (h : Poised c f fs rest op arg t)
    {u : Shape} (ht : op.next arg t = some u) (hm : u.marks = t.marks)
    (hl : Context.Level (f.bp + u.height) c (w.ctx cx)) :
    Performed cx outer (f :: fs) full w ((pure Outcome.next : Act Outcome).run w) :=
  .next (.refl hw) (h.remarked ht hl.size hl.frames (by rw [hl.marks, hm]; exact h.marks) hl.resumeAt)
    (h.tail_suffix hl.frames)

theorem performed_jumpIf (hw : w.Fit (cx :: outer)) (h : Poised (w.ctx cx) f fs rest op arg t)
    (hj : op = .jifTrue ∨ op = .jifNot) (want : Bool) :
    Performed cx outer (f :: fs) full w ((jumpIf cx want arg >>= fun _ => pure Outcome.next).run w) := by
  have htakes : op.takes arg = 1 ∧ op.target t = some t ∧
      op.next arg t = some ⟨t.height - 1 + 1, t.marks⟩ := by
    rcases hj with rfl | rfl <;> exact ⟨rfl, rfl, rfl⟩
  obtain ⟨htakes, htarget, hnext⟩ := htakes
  have hpos := h.takes
  have hsize := h.height
  rw [htakes] at hpos
  have hread : Steps cx outer (w.ctx cx).stack.size (w.ctx cx).stack.size (fun _ => True) (do
      let v ← peek cx 0
      read fun h => h.truth v) :=
    (steps_peek (by omega)).bind fun v _ => steps_read fun h => h.mild_truth v
  have hsplit : (jumpIf cx want arg >>= fun _ => pure Outcome.next) =
      ((do let v ← peek cx 0; read fun h => h.truth v) >>= fun b =>
        (if b == want then jump cx arg else pure ()) >>= fun _ => pure Outcome.next) := by
    simp only [jumpIf, bind_assoc]
  rw [hsplit]
  refine performed_bind_steps hread hw rfl h.frames fun b w₁ moves level => ?_
  split
  · exact performed_jump moves.fit h htarget rfl (hsize ▸ level)
  · refine performed_stay moves.fit h hnext rfl ?_
    rw [show f.bp + (t.height - 1 + 1) = (w.ctx cx).stack.size by omega]
    exact level

theorem performed_jifNotPop (hw : w.Fit (cx :: outer))
    (h : Poised (w.ctx cx) f fs rest .jifNotPop arg t) (code : Loaded) :
    Performed cx outer (f :: fs) full w ((perform lib cx code .jifNotPop arg).run w) := by
  have hpos : 1 ≤ t.height := h.takes
  have hsize := h.height
  have hread : Steps cx outer (w.ctx cx).stack.size ((w.ctx cx).stack.size - 1) (fun _ => True) (do
      let v ← pop cx
      read fun h => h.truth v) := by
    rw [show (w.ctx cx).stack.size = (w.ctx cx).stack.size - 1 + 1 by omega, Nat.add_sub_cancel]
    exact steps_pop.bind fun v _ => steps_read fun h => h.mild_truth v
  have hsplit : perform lib cx code .jifNotPop arg =
      ((do let v ← pop cx; read fun h => h.truth v) >>= fun b =>
        (if !b then jump cx arg else pure ()) >>= fun _ => pure Outcome.next) := by
    simp only [perform, bind_assoc]
    refine congrArg _ (funext fun v => congrArg _ (funext fun b => ?_))
    cases b <;> rfl
  have hlevel : f.bp + (t.height - 1) = (w.ctx cx).stack.size - 1 := by omega
  rw [hsplit]
  refine performed_bind_steps hread hw rfl h.frames fun b w₁ moves level => ?_
  split
  · exact performed_jump moves.fit h rfl rfl (hlevel ▸ level)
  · exact performed_stay moves.fit h rfl rfl (hlevel ▸ level)

theorem performed_jifEnd (hw : w.Fit (cx :: outer))
    (h : Poised (w.ctx cx) f fs rest .jifEnd arg t) (code : Loaded) :
    Performed cx outer (f :: fs) full w ((perform lib cx code .jifEnd arg).run w) := by
  have hpos : 1 ≤ t.height := h.takes
  have hsize := h.height
  unfold perform
  refine performed_bind_steps (steps_peek (by omega)) hw rfl h.frames fun v w₁ moves level => ?_
  split
  · have hpop : Steps cx outer (w.ctx cx).stack.size ((w.ctx cx).stack.size - 1) (fun _ => True)
        (discard (pop cx) : Act PUnit) := by
      rw [show (w.ctx cx).stack.size = (w.ctx cx).stack.size - 1 + 1 by omega, Nat.add_sub_cancel]
      exact steps_pop.discard
    refine performed_bind_steps hpop moves.fit level.size (level.frames ▸ h.frames)
      fun _ w₂ moves₂ level₂ => ?_
    refine performed_jump moves₂.fit h (u := ⟨t.height - 1, t.marks⟩) rfl rfl ?_
    rw [show f.bp + (t.height - 1) = (w.ctx cx).stack.size - 1 by omega]
    exact level.trans level₂
  · refine performed_stay moves.fit h (u := ⟨t.height - 1 + 1, t.marks⟩) rfl rfl ?_
    rw [show f.bp + (t.height - 1 + 1) = (w.ctx cx).stack.size by omega]
    exact level

/-! ### returning -/

theorem run_frame (h : fromTop (w.ctx cx).frames = f :: fs) : (frame cx).run w = .ok f w := by
  have hback : (w.ctx cx).frames.back? = some f := by
    rw [back?_eq_head?, h]
    rfl
  rw [frame, run_ctx_bind]
  rw [hback]
  rfl

/-- A return drops the operand, the frame and what belongs to the frame. -/
theorem run_returnFrom (hw : w.Fit (cx :: outer)) (hf : fromTop (w.ctx cx).frames = f :: fs) {v : Value}
    (hv : (w.ctx cx).stack.back? = some v) : (returnFrom cx).run w =
      (if fs.isEmpty then pure (.returned v) else push cx v >>= fun _ => pure .next : Act Outcome).run
        (w.modifyCtx cx fun c => { c with
          frames := c.frames.pop
          stack := c.stack.pop.shrink f.bp
          marks := c.marks.shrink f.markBase }) := by
  have hpop : (pop cx).run w = .ok v (w.modifyCtx cx fun c => { c with stack := c.stack.pop }) := by
    rw [pop, run_ctx_bind]
    rw [hv]
    rfl
  have hpopped := ctx_modifyCtx_self hw.lt fun c => { c with stack := c.stack.pop }
  have hdrop : (modifyCtx cx fun c => { c with
      frames := c.frames.pop
      stack := c.stack.shrink f.bp
      marks := c.marks.shrink f.markBase }).run (w.modifyCtx cx fun c => { c with stack := c.stack.pop }) =
      .ok () (w.modifyCtx cx fun c => { c with
        frames := c.frames.pop
        stack := c.stack.pop.shrink f.bp
        marks := c.marks.shrink f.markBase }) :=
    congrArg (EStateM.Result.ok ()) (World.modifyCtx_modifyCtx _ _)
  have hctx := ctx_modifyCtx_self hw.lt fun c => { c with
      frames := c.frames.pop
      stack := c.stack.pop.shrink f.bp
      marks := c.marks.shrink f.markBase }
  have hempty : (w.ctx cx).frames.pop.isEmpty = fs.isEmpty := by
    rw [Bool.eq_iff_iff, Array.isEmpty_iff, List.isEmpty_iff, ← fromTop_eq_nil, fromTop_pop, hf, List.tail_cons]
  unfold returnFrom
  rw [run_bind_of_ok hpop, run_bind_of_ok (run_frame (by rw [hpopped]; exact hf))]
  generalize w.modifyCtx cx (fun c => { c with
      frames := c.frames.pop
      stack := c.stack.pop.shrink f.bp
      marks := c.marks.shrink f.markBase }) = w' at hdrop hctx ⊢
  have hread : (Act.ctx cx).run w' = .ok (w'.ctx cx) w' := rfl
  rw [run_bind_of_ok hdrop, run_bind_of_ok hread, hctx, hempty]

theorem performed_returnFrom (hw : w.Fit (cx :: outer)) (h : Poised (w.ctx cx) f fs rest .ret arg t)
    (hfull : w.options.maxStack < (w.ctx cx).stack.size → full) :
    Performed cx outer (f :: fs) full w ((returnFrom cx).run w) := by
  have hpos : 1 ≤ t.height := h.takes
  have hsize := h.height
  obtain ⟨v, hv⟩ : ∃ v, (w.ctx cx).stack.back? = some v :=
    ⟨_, Array.back?_eq_getElem? ▸ Array.getElem?_eq_getElem (by omega)⟩
  rw [run_returnFrom hw h.frames hv]
  have hmoves := hw.moves_modifyCtx (f := fun c => { c with
      frames := c.frames.pop
      stack := c.stack.pop.shrink f.bp
      marks := c.marks.shrink f.markBase }) (fun _ => rfl) (fun _ => rfl) (fun _ => rfl) fun _ => rfl
  have hctx := ctx_modifyCtx_self hw.lt fun c => { c with
      frames := c.frames.pop
      stack := c.stack.pop.shrink f.bp
      marks := c.marks.shrink f.markBase }
  have hoptions : (w.modifyCtx cx fun c => { c with
      frames := c.frames.pop
      stack := c.stack.pop.shrink f.bp
      marks := c.marks.shrink f.markBase }).options = w.options := rfl
  refine Performed.after hmoves ?_
  generalize w.modifyCtx cx (fun c => { c with
      frames := c.frames.pop
      stack := c.stack.pop.shrink f.bp
      marks := c.marks.shrink f.markBase }) = w' at hmoves hctx hoptions
  have hbp : (w'.ctx cx).stack.size = f.bp := by
    rw [hctx, Array.size_shrink, Array.size_pop]
    omega
  have hframes : fromTop (w'.ctx cx).frames = fs := by
    rw [hctx, fromTop_pop, h.frames, List.tail_cons]
  split
  · rename_i hempty
    exact .returned (.refl hmoves.fit) (fromTop_eq_nil.mp (hframes.trans (List.isEmpty_iff.mp hempty)))
  · rename_i hne
    unfold push
    show Performed cx outer (f :: fs) full w' (EStateM.run (ite _ _ _ >>= fun _ => _) w')
    split
    · rename_i hover
      rw [hoptions, hbp] at hover
      exact .failed (.refl hmoves.fit) (.inl (hfull (by omega))) id
    · refine performed_modifyCtx hmoves.fit (fun _ => rfl) (fun _ => rfl) (fun _ => rfl) (fun _ => rfl) ?_ ?_
      · refine h.returned (fun h0 => hne ?_) (by rw [Array.size_push, hbp]) (by rw [hctx]) (by rw [hctx])
          (by rw [hctx])
        rw [← hframes, hctx, h0]
        rfl
      · rw [hframes]
        exact (List.tail_suffix _).trans (List.suffix_cons ..)

/-! ### every instruction -/

/-- **Every operation**, from a context that has what it needs. -/
theorem performed_perform (hlib : lib.Calm) (hw : w.Fit (cx :: outer))
    (h : Poised (w.ctx cx) f fs rest op arg t) (hfull : w.options.maxStack < (w.ctx cx).stack.size → full)
    (code : Loaded) : Performed cx outer (f :: fs) full w ((perform lib cx code op arg).run w) := by
  have hplain (hp : op.isPlain = true)
      (hno : op ≠ .fcall ∧ op ≠ .mcall ∧ op ≠ .fcallh ∧ op ≠ .mcallh) :
      Performed cx outer (f :: fs) full w ((perform lib cx code op arg).run w) := by
    have htakes := h.enough_takes
    have hsteps : Steps cx outer ((w.ctx cx).stack.size - op.takes arg + op.takes arg) _ _ _ :=
      steps_perform hlib code arg hp hno
    rw [Nat.sub_add_cancel htakes] at hsteps
    have hled := hsteps.levelled w hw rfl (Poised.frames_ne h.frames)
    cases hr : (perform lib cx code op arg).run w with
    | ok o w' =>
      rw [hr] at hled
      cases hled with
      | done moves level ho =>
        subst ho
        exact .next moves (h.plain hp level) (h.tail_suffix level.frames)
    | error e w' =>
      rw [hr] at hled
      cases hled with
      | failed moves same he => exact .failed moves (.inr (same ▸ h.frames)) he
  cases op with
  | mark =>
    unfold perform
    show Performed cx outer (f :: fs) full w (EStateM.run (ite _ _ _) w)
    split
    · exact .failed (.refl hw) (.inr h.frames) id
    · exact performed_modifyCtx hw (fun _ => rfl) (fun _ => rfl) (fun _ => rfl) (fun _ => rfl) h.mark (h.tail_suffix rfl)
  | unmark =>
    exact performed_modifyCtx hw (fun _ => rfl) (fun _ => rfl) (fun _ => rfl) (fun _ => rfl) h.unmark (h.tail_suffix rfl)
  | cutBack =>
    obtain ⟨x, hx, hready⟩ := h.cutBack
    unfold perform
    rw [run_ctx_bind]
    rw [hx]
    exact performed_modifyCtx hw (fun _ => rfl) (fun _ => rfl) (fun _ => rfl) (fun _ => rfl) hready
      (h.tail_suffix rfl)
  | cutBackPop =>
    obtain ⟨x, hx, hready⟩ := h.cutBackPop
    unfold perform
    rw [run_ctx_bind]
    rw [hx]
    have hmoves : w.Moves cx outer (w.modifyCtx cx fun c => { c with marks := c.marks.pop }) :=
      hw.moves_modifyCtx (fun _ => rfl) (fun _ => rfl) (fun _ => rfl) fun _ => rfl
    refine Performed.after hmoves ?_
    refine performed_modifyCtx hmoves.fit (fun _ => rfl) (fun _ => rfl) (fun _ => rfl) (fun _ => rfl) ?_ ?_
    · rw [ctx_modifyCtx_self hw.lt]
      exact hready
    · rw [ctx_modifyCtx_self hw.lt]
      exact h.tail_suffix rfl
  | jmp => exact performed_jump hw h rfl rfl ⟨h.height, rfl, rfl, rfl⟩
  | jmpLoop =>
    have hjump : Performed cx outer (f :: fs) full w
        ((jump cx arg >>= fun _ => pure Outcome.next).run w) :=
      performed_jump hw h rfl rfl ⟨h.height, rfl, rfl, rfl⟩
    cases hjump with
    | next moves ready below =>
      have hpoll := moves.fit.still (World.still_poll _)
      exact .next (moves.trans hpoll.moves) (hpoll.head.ready ready) (hpoll.head.frames ▸ below)
  | jifNotPop => exact performed_jifNotPop hw h code
  | jifEnd => exact performed_jifEnd hw h code
  | jifTrue => exact performed_jumpIf hw h (.inl rfl) true
  | jifNot => exact performed_jumpIf hw h (.inr rfl) false
  | fcall => exact performed_callWith hlib hw h rfl rfl rfl false
  | mcall => exact performed_callWith hlib hw h rfl rfl rfl false
  | fcallh => exact performed_callWith hlib hw h rfl rfl rfl true
  | mcallh => exact performed_callWith hlib hw h rfl rfl rfl true
  | ret => exact performed_returnFrom hw h hfull
  | _ => exact hplain rfl ⟨Op.noConfusion, Op.noConfusion, Op.noConfusion, Op.noConfusion⟩

/-- **One instruction**: the frame is moved on, and then the operation is performed. -/
theorem run_exec (hframes : fromTop (w.ctx cx).frames = f :: fs) {i : Item} (hplace : i.place = f.ip)
    (hin : i.In f.code.words) :
    (exec lib cx).run w = (perform lib cx f.code i.op i.arg).run
      ((w.modifyCtx cx fun c => { c with temps := #[] }).modifyCtx cx fun c => { c with
        frames := c.frames.modify (c.frames.size - 1) ({ · with ip := f.ip + i.op.length }) }) := by
  have hword : f.code.words[f.ip]? = some i.op.word := hplace ▸ hin.word
  have hnext : f.ip + 1 + Op.operandCount i.op.word = f.ip + i.op.length := by
    rw [Op.operandCount_word, Op.length]
    split <;> rfl
  have harg : (if 0 < Op.operandCount i.op.word then (f.code.words[f.ip + 1]?.getD 0).toNat else 0) =
      i.arg := by
    rw [← hin.arg, hplace, Op.operandCount_word, Op.argAt]
    cases i.op.hasOperand <;> rfl
  have hkept : ((w.modifyCtx cx fun c => { c with temps := #[] }).ctx cx).frames = (w.ctx cx).frames :=
    World.field_modifyCtx Context.frames (f := fun c => { c with temps := #[] }) (fun _ => rfl) cx
  rw [← hkept] at hframes
  unfold exec
  show EStateM.run (frame cx >>= _) (w.modifyCtx cx fun c => { c with temps := #[] }) = _
  rw [run_bind_of_ok (run_frame hframes), hword]
  dsimp only
  rw [hnext, harg, Op.ofWord?_word]
  rfl

/-- **One instruction of a ready context.** -/
theorem performed_exec (hlib : lib.Calm) (hw : w.Fit (cx :: outer)) (h : (w.ctx cx).Ready) :
    ∃ (f : Frame) (fs : List Frame) (i : Item), fromTop (w.ctx cx).frames = f :: fs ∧ i.place = f.ip ∧ i.In f.code.words ∧
      Performed cx outer ({ f with ip := f.ip + i.op.length } :: fs)
        (w.options.maxStack < (w.ctx cx).stack.size) w ((exec lib cx).run w) := by
  have hk : w.Keeps (cx :: outer) (w.modifyCtx cx fun c => { c with temps := #[] }) :=
    hw.still (World.still_modifyCtx cx fun _ => rfl)
  obtain ⟨f, fs, rest, i, t, hframes, hplace, hin, -, hpoised⟩ := h.poised
  refine ⟨f, fs, i, hframes, hplace, hin, ?_⟩
  rw [run_exec hframes hplace hin]
  have hoptions : (w.modifyCtx cx fun c => { c with temps := #[] }).options = w.options := rfl
  generalize w.modifyCtx cx (fun c => { c with temps := #[] }) = w₁ at hk hoptions
  -- the frame is at the next instruction already
  have hmoves : w₁.Moves cx outer (w₁.modifyCtx cx fun c => { c with
      frames := c.frames.modify (c.frames.size - 1) ({ · with ip := f.ip + i.op.length }) }) :=
    hk.fit.moves_modifyCtx (fun _ => rfl) (fun _ => rfl) (fun _ => rfl) fun _ => rfl
  have hctx := ctx_modifyCtx_self hk.fit.lt fun c => { c with
      frames := c.frames.modify (c.frames.size - 1) ({ · with ip := f.ip + i.op.length }) }
  have hsame := hk.head
  have hat : Poised ((w₁.modifyCtx cx fun c => { c with
      frames := c.frames.modify (c.frames.size - 1) ({ · with ip := f.ip + i.op.length }) }).ctx cx)
      { f with ip := f.ip + i.op.length } fs rest i.op i.arg t := by
    rw [hctx]
    refine hpoised _ ?_ hsame.stack hsame.marks hsame.resumeAt
    exact fromTop_modify_last (hsame.frames ▸ hframes) _
  refine Performed.after (hk.moves.trans hmoves) (performed_perform hlib hmoves.fit hat (fun hfull => ?_) f.code)
  rw [hctx, show (w₁.modifyCtx cx _).options = w.options from hoptions] at hfull
  exact hsame.stack ▸ hfull

end

end Act

end ScriptEngine
