import ScriptEngine.Proofs.Machine.Bounds
import ScriptEngine.Proofs.Machine.Tracing

/-!
# A run goes by strokes

Whatever the machine does in a step comes down to strokes.  The instructions that store under a name
find the string of a registered name in the code, with its hash; the others take the hash of a key
that is there.  So every state of a run is consistent, and so is each between two of them.

* `Act.manner_plain`     what a native does that binds no code;
* `Act.traced_startNative`   what any native does;
* `Act.traced_callAt`    a call;
* `Act.traced_perform`   an instruction;
* `Machine.along_step`   a step.
-/

namespace ScriptEngine

open World (Along Consistent Sound Extends Kept kept_nil kept_of_stack kept_of_temps kept_of_frame)

theorem World.Consistent.proper_bodyOf {w : World} (hc : w.Consistent) {v : Value} {code : Loaded}
    (hb : w.heap.bodyOf v = .code code) : code.Proper w.heap := by
  cases v with
  | obj a => exact hc.heap.proper a code hb
  | _ => exact nomatch hb

namespace Act

section

variable {α β : Type} {w : World} {cx : CtxId} {used : CtxId → Prop}

theorem Traced.both {P Q : α → World → Prop} {x : Act α} (ht : Traced w P (x.run w))
    (hs : Safe used Q (x.run w)) :
    Traced w (fun a w' => P a w' ∧ w'.Sound used ∧ Q a w') (x.run w) := by
  generalize x.run w = r at ht hs
  cases ht with
  | done hv ha =>
    cases hs with
    | done hs hq => exact .done hv ⟨ha, hs, hq⟩
  | failed hv => exact .failed hv

theorem Plain.both {Q : α → World → Prop} {x : Act α} (hx : Plain x) (hc : w.Consistent)
    (hs : Safe used Q (x.run w)) : Traced w (fun a w' => w'.Sound used ∧ Q a w') (x.run w) :=
  ((hx.traced w hc).both hs).mono fun _ _ _ h => h.2

theorem plain_ite {p : Prop} [Decidable p] {x y : Act α} (hx : Plain x) (hy : Plain y) :
    Plain (if p then x else y) := by
  split
  · exact hx
  · exact hy

theorem live_ne {h : Heap} {v : Value} (hv : h.Live v) (a : Addr) (e : v = .obj a) :
    h.body a ≠ .free := by
  subst e
  exact hv.body_ne

/-! ## natives -/

/-- None of a native's means stores under a key whose hash is given. -/
theorem manner_plain (cx : CtxId) : Manner cx (fun _ => True) fun _ x => Plain x where
  allows _ _ := trivial
  done := plain_pure
  throws _ := plain_throw _
  next := Plain.bind
  heap := plain_heap
  context hf _ := (plain_ctx cx).bind hf
  printed _ := plain_modify fun w _ => (World.along_leave w).trans (World.along_same (by constructor <;> rfl))
  entered := plain_modify fun w _ => World.along_enter w
  newStr := plain_newStr
  newVec := plain_newVec
  newHash := plain_newHash
  newFunc := plain_newFunc
  modifyVec := plain_modifyVec
  hashGet := plain_hashGet
  hashDelete := plain_hashDelete
  compile := plain_compile
  subContext := plain_subContext
  freeChild := plain_freeChild
  rethrow _ := plain_rethrow _

theorem traced_newClosure (hc : w.Consistent) (hs : w.Sound used) (hcx : used cx) {ns next : Value}
    (hns : w.heap.Live ns) (hnext : w.heap.Live next) :
    Traced w (fun _ _ => True) ((newClosure cx ns next).run w) := by
  have hchildren : ∀ c ∈ (Body.closure ns next).children, w.heap.Live c := by
    intro c hmem
    rcases List.mem_pair.mp hmem with rfl | rfl
    · exact hns
    · exact hnext
  refine .done (World.along_alloc hc cx rfl (fun _ _ => trivial) fun ns' next' e => ?_) trivial
  cases e
  exact (hs.obtain (hs.known cx hcx) .closure hchildren).live _ (List.mem_cons_of_mem _ List.mem_cons_self)

theorem traced_bindTo (hc : w.Consistent) (hs : w.Sound used) (hcx : used cx) (code : Value) {ns next : Value}
    (hns : w.heap.Live ns) (hnext : w.heap.Live next) :
    Traced w (fun _ _ => True) ((bindTo cx code ns next).run w) :=
  (traced_newClosure hc hs hcx hns hnext).next hc fun scope => plain_newFunc code scope

/-- Code is bound to the scope of a frame, which is live, or to a new namespace. -/
theorem traced_bindToCaller (hc : w.Consistent) (hs : w.Sound used) (hcx : used cx) (code : Value) :
    Traced w (fun _ _ => True) ((bindToCaller cx code).run w) := by
  unfold bindToCaller
  show Traced w _ ((ite _ _ _ : Act Value).run w)
  split
  · exact .failed (.refl w)
  · rw [run_ctx_bind]
    split
    · rename_i f hf
      have hk := kept_of_frame (Array.mem_of_back? hf)
      exact traced_bindTo hc hs hcx code (hs.live_kept hk.2.1) (hs.live_kept hk.2.2)
    · refine (plain_newHash.both hc (safe_newHash hs hcx)).bind fun ns w₁ h₁ ⟨hs₁, _, _, hns⟩ => ?_
      exact traced_bindTo (h₁.consistent hc) hs₁ hcx code (hs₁.live_kept (kept_of_temps hns)) Heap.live_nil

theorem traced_bindFunction (hc : w.Consistent) (hs : w.Sound used) (hcx : used cx) (code : Value) {ns : Value}
    (hns : w.heap.Live ns) : Traced w (fun _ _ => True) ((bindFunction cx code ns).run w) := by
  unfold bindFunction
  show Traced w _ ((ite _ _ _ : Act Value).run w)
  split
  · exact .failed (.refl w)
  · show Traced w _ ((ite _ _ _ : Act Value).run w)
    split
    · exact .failed (.refl w)
    · exact traced_bindTo hc hs hcx code hns Heap.live_nil

/-- Compiled code is bound to the scope of the frame that is there after compiling. -/
theorem traced_compiled (hc : w.Consistent) (hs : w.Sound used) (hcx : used cx) (me : Value)
    (args : Array Value) : Traced w (fun _ _ => True) ((Natives.compile cx me args).run w) := by
  unfold Natives.compile
  rw [run_heap_bind]
  split
  · exact traced_fail
  · refine ((plain_compile ..).both hc (safe_compile hs hcx _ _ _)).bind fun r w₁ h₁ ⟨hs₁, _⟩ => ?_
    split
    · exact traced_bindToCaller (h₁.consistent hc) hs₁ hcx _
    · exact .failed (.refl w₁)

/-- The scope that a function is bound to is that of a live function, or none. -/
theorem traced_bind (hc : w.Consistent) (hs : w.Sound used) (hcx : used cx) (me : Value) {args : Array Value}
    (hargs : ∀ v ∈ args, w.Kept v) : Traced w (fun _ _ => True) ((Natives.bind cx me args).run w) := by
  have hns := hs.live_kept (Natives.kept_argument hargs 1)
  unfold Natives.bind
  rw [run_heap_bind]
  split
  · exact traced_fail
  · show Traced w _ ((ite _ _ _ : Act Value).run w)
    split
    · exact .failed (.refl w)
    · show Traced w _ ((ite _ _ _ : Act Value).run w)
      split
      · exact traced_bindTo hc hs hcx _ hns Heap.live_nil
      · split
        · rename_i hfunc
          have hk := (Natives.kept_argument hargs 2).of_bodyOf (Heap.bodyOf_of_func? hfunc) trivial
            (List.mem_cons_of_mem _ List.mem_cons_self)
          exact traced_bindTo hc hs hcx _ hns (hs.live_kept hk)
        · exact traced_fail

theorem traced_startNative (hc : w.Consistent) (hs : w.Sound used) (hcx : used cx) (n : Native) (me : Value)
    {args : Array Value} (hargs : ∀ v ∈ args, w.Kept v) :
    Traced w (fun _ _ => True) ((startNative .core cx n me args).run w) := by
  unfold startNative
  split
  · rename_i b hb
    rcases (manner_plain cx).start me args hb n with hbinds | hplain
    · cases hbinds with
      | compile => exact (traced_compiled hc hs hcx me args).next hc fun _ => plain_pure _
      | bind => exact (traced_bind hc hs hcx me hargs).next hc fun _ => plain_pure _
    · exact hplain.traced w hc
  · exact traced_fail

theorem traced_attempt {ok : α → World → Prop} {x : Act α} (ht : Traced w ok (x.run w)) :
    Traced w (fun _ _ => True)
      ((tryCatch (do return .ok (← x)) fun e => pure (.error e) : Act (Except Failure α)).run w) := by
  show Traced w _ (EStateM.tryCatch (EStateM.map Except.ok x) _ w)
  rw [EStateM.tryCatch, EStateM.map]
  cases hr : x w with
  | ok a w' =>
    rw [show x.run w = .ok a w' from hr] at ht
    cases ht with
    | done h _ => exact .done h trivial
  | error e w' =>
    rw [show x.run w = .error e w' from hr] at ht
    cases ht with
    | failed h => exact .done h trivial

theorem plain_member (obj sym : Value) (hash : UInt32) (interned : Bool) :
    Plain (member .core cx obj sym hash interned) := by
  unfold member
  refine plain_heap.bind fun h => ?_
  split
  · exact plain_hashMember ..
  · exact plain_fail _
  · exact plain_fail _

/-- Assigning to a member that a name of the code names. -/
theorem traced_setMember (hc : w.Consistent) (obj v : Value) {code : Loaded} {i : Nat}
    (hi : code.NameAt w.heap i) :
    Traced w (fun _ _ => True)
      ((setMember .core cx obj (code.const i) (code.constHash i) true v).run w) := by
  unfold setMember
  rw [run_heap_bind]
  split
  · exact traced_setConst hc obj v hi
  · exact traced_fail
  · exact traced_fail

/-! ## calls -/

theorem plain_isBound (code : Loaded) (locals : Value) (i : Nat) : Plain (isBound code locals i) :=
  plain_heap.bind fun _ => plain_pure _

/-- Binding named arguments.  Their keys are there, since their hash is not the one that is written
to. -/
theorem traced_bindNamed (hc : w.Consistent) (hs : w.Sound used) {code : Loaded}
    (hcode : code.Proper w.heap) {locals named me : Value}
    (hlocals : w.heap.bodyOf locals = .hash .empty) (hnamed : w.Kept named) (hme : w.Kept me) :
    Traced w (fun _ _ => True) ((bindNamed cx code locals named me).run w) := by
  unfold bindNamed
  refine ((plain_bindMe locals me).both hc (safe_bindMe hs locals (hs.live_kept hme))).bind
    fun _ w₁ h₁ ⟨hs₁, he₁⟩ => ?_
  have hc₁ := h₁.consistent hc
  refine (traced_forM (I := fun w' => w.Along w' ∧ w'.Sound used ∧ w.Extends w' ∧ Aside locals w w') hc₁
    ⟨h₁, hs₁, he₁⟩ fun e hmem w' hc' ⟨h', hs', he'⟩ => ?_).bind fun _ w₂ h₂ ⟨hvia, _⟩ => ?_
  · have hkey := (live_entry hs' he'.1 hlocals hnamed he'.2 hmem).1
    exact ((traced_hashSet hc' locals e.val (live_ne hkey)).both
      (safe_bindEntry hs' hlocals hnamed he' hmem)).mono
        fun _ w'' h'' ⟨_, hs'', he''⟩ => ⟨h'.trans h'', hs'', he''⟩
  have hc₂ := h₂.consistent hc₁
  have hcode₂ := hvia.proper hc hcode
  refine ((plain_forM (fun i => ?_) _).walk hc₂ fun w' h => h.proper hc₂ hcode₂).bind
    fun _ w₃ h₃ hcode₃ => ?_
  · refine (plain_isBound ..).bind fun bound => ?_
    exact plain_ite (plain_heap.bind fun _ => plain_fail _) (plain_pure _)
  have hc₃ := h₃.consistent hc₂
  refine (traced_forM (I := fun w' => code.Proper w'.heap) hc₃ hcode₃
    fun p hp w' hc' hcode' => ?_).bind fun _ w₄ h₄ hcode₄ => ?_
  · show Traced w' _ ((ite _ _ _ : Act Unit).run w')
    split
    · exact traced_bindConst hc' locals _ (hcode'.optional p (Array.mem_toList_iff.mp hp)) hcode'
    · exact traced_pure hcode'
  split
  · rename_i i hi
    split
    · exact traced_bindRest (h₄.consistent hc₃) locals _ hcode₄ hi
    · exact traced_pure trivial
  · exact traced_pure trivial

/-- Starting the frame of a function that is bound to its code. -/
theorem traced_frameAt {x : α} (hc : w.Consistent) (base : Nat) {func target scope locals : Value}
    {code : Loaded} (hbound : w.heap.bodyOf func = .func target scope)
    (htarget : w.heap.bodyOf target = .code code) :
    Traced w (fun _ _ => True) (EStateM.run (do
      cut cx base
      pushFrame cx func code locals scope base
      return x) w) := by
  have hcut : Traced w (fun _ w' => w'.heap = w.heap) ((cut cx base).run w) :=
    .done (World.along_touch w cx rfl rfl) rfl
  refine hcut.bind fun _ w₁ h₁ he => ?_
  rw [← he] at hbound htarget
  exact (traced_pushFrame base ⟨target, scope, hbound, htarget⟩).next (h₁.consistent hc) fun _ =>
    plain_pure _

theorem traced_callAt (hc : w.Consistent) (hs : w.Sound used) (hcx : used cx) (base fidx : Nat)
    {me : Value} (hme : w.Kept me) (named : Bool) :
    Traced w (fun _ _ => True) ((callAt .core cx base fidx me named).run w) := by
  have hfunc : w.Kept ((w.ctx cx).stack[fidx]?.getD .nil) := kept_operand fidx
  have hargs : ∀ v ∈ (w.ctx cx).stack.extract (fidx + 1) (w.ctx cx).stack.size, w.Kept v :=
    fun v hv => kept_of_stack (mem_of_mem_extract hv)
  rw [callAt, run_ctx_bind]
  dsimp only
  rw [run_heap_bind]
  split
  · exact (traced_attempt (traced_startNative hc hs hcx _ _ hargs)).next hc fun _ => plain_pure _
  · rename_i code scope hcallee
    obtain ⟨target, hbound, htarget⟩ := bodyOf_of_callee hcallee
    have hkt : w.Kept target := hfunc.of_bodyOf hbound trivial List.mem_cons_self
    have hcode : code.Proper w.heap := hc.proper_bodyOf htarget
    have hkeeps : KeepsCode w code := ⟨target, hkt, htarget⟩
    refine (plain_newHash.both hc (safe_newHash hs hcx)).bind
      fun locals w₁ h₁ hnew => ?_
    obtain ⟨hs₁, he₁, hempty, -⟩ := hnew
    have hc₁ := h₁.consistent hc
    have hcode₁ := h₁.proper hc hcode
    -- the function and its code are kept while arguments are bound
    have hframe {w' : World} (h' : w₁.Along w') (he : w₁.Extends w') :
        Traced w' (fun _ _ => True) (EStateM.run (do
          cut cx base
          pushFrame cx ((w.ctx cx).stack[fidx]?.getD .nil) code locals scope base
          return Outcome.next) w') :=
      traced_frameAt (h'.consistent hc₁) base ((he₁.trans he).bodyOf hfunc hbound trivial)
        ((he₁.trans he).bodyOf hkt htarget trivial)
    split
    · have hnamed : w.Kept (((w.ctx cx).stack.extract (fidx + 1) (w.ctx cx).stack.size)[0]?.getD
          .nil) := by
        cases hi : ((w.ctx cx).stack.extract (fidx + 1) (w.ctx cx).stack.size)[0]? with
        | none => exact kept_nil
        | some v => exact hargs v (Array.mem_of_getElem? hi)
      refine ((traced_bindNamed hc₁ hs₁ hcode₁ hempty (he₁.kept hnamed) (he₁.kept hme)).both
        (safe_bindNamed hs₁ hcx (hkeeps.mono he₁) hempty (he₁.kept hnamed) (he₁.kept hme))).bind ?_
      exact fun _ w₂ h₂ hbound => hframe h₂ hbound.2.2
    · refine ((traced_bindArgs hc₁ hcode₁ locals _ me).both
        (safe_bindArgs hs₁ hcx (hkeeps.mono he₁) locals (fun v hv => he₁.kept (hargs v hv))
          (he₁.kept hme))).bind ?_
      exact fun _ w₂ h₂ hbound => hframe h₂ hbound.2.2
  · exact traced_fail
  · exact traced_fail

theorem traced_callWith (hc : w.Consistent) (hs : w.Sound used) (hcx : used cx) (argc : Nat)
    (method named : Bool) :
    Traced w (fun _ _ => True) ((callWith .core cx argc method named).run w) := by
  unfold callWith
  show Traced w _ ((ite _ _ _ : Act Outcome).run w)
  split
  · split
    · exact .failed (.refl w)
    · exact traced_callAt hc hs hcx _ _ (kept_operand _) named
  · split
    · exact .failed (.refl w)
    · exact traced_callAt hc hs hcx _ _ kept_nil named

/-! ## instructions -/

theorem Plain.thence {x : Act Unit} (hx : Plain x) : Plain (x >>= fun _ => pure Outcome.next) :=
  hx.bind fun _ => plain_pure _

theorem Traced.thence {ok : Unit → World → Prop} {x : Act Unit} (hc : w.Consistent)
    (hx : Traced w ok (x.run w)) :
    Traced w (fun _ _ => True) ((x >>= fun _ => pure Outcome.next).run w) :=
  hx.next hc fun _ => plain_pure _

theorem plain_arith (f : Float → Float → Value) : Plain (arith cx f) :=
  (plain_peek 0).bind fun _ => (plain_read _).bind fun _ => (plain_peek 1).bind fun _ =>
    (plain_read _).bind fun _ => plain_replaceTop 2 _

theorem plain_equality (want : Bool) : Plain (equality cx want) :=
  (plain_peek 1).bind fun _ => (plain_peek 0).bind fun _ => plain_heap.bind fun _ =>
    plain_replaceTop 2 _

theorem plain_jumpIf (want : Bool) (target : Nat) : Plain (jumpIf cx want target) :=
  (plain_peek 0).bind fun _ => (plain_read _).bind fun _ =>
    plain_ite (plain_jump target) (plain_pure _)

theorem plain_iterate (values : Bool) : Plain (iterate cx values) := by
  unfold iterate
  refine (plain_peek 1).bind fun box => (plain_peek 0).bind fun count => plain_heap.bind fun h => ?_
  split
  · exact plain_fail _
  · exact plain_ite (plain_push _) ((plain_replaceTop 1 _).bind fun _ => plain_push _)

theorem plain_returnFrom : Plain (returnFrom cx) := by
  refine plain_pop.bind fun v => plain_frame.bind fun f => ?_
  have hrest : Plain (do
      if (← ctx cx).frames.isEmpty then return Outcome.returned v
      push cx v
      return Outcome.next) :=
    (plain_ctx cx).bind fun c => plain_ite (plain_pure _) (plain_push v).thence
  refine Plain.bind (plain_modifyCtx (fun _ => rfl) fun c g hg => ?_) fun _ => hrest
  exact ⟨g, mem_of_mem_pop hg, rfl, rfl⟩

/-- Instructions that neither store under a value as a key, nor call, nor make a closure. -/
theorem plain_perform {code : Loaded} {op : Op}
    (hop : op ∉ [.happend, .fcall, .mcall, .fcallh, .mcallh, .setSym, .setLocal, .setMember, .func]) (arg : Nat) :
    Plain (perform .core cx code op arg) := by
  have hmarks (f : Context → Array Nat) : Plain (modifyCtx cx fun c => { c with marks := f c }) :=
    plain_touch (fun _ => rfl) fun _ => rfl
  unfold perform
  cases op with
  | nop => exact (plain_pure ()).thence
  | pop => exact plain_pop.discard.thence
  | dup => exact (plain_peek 0).bind fun v => (plain_push v).thence
  | dup2 =>
    exact (plain_peek 1).bind fun a => (plain_peek 0).bind fun b =>
      (plain_push a).bind fun _ => (plain_push b).thence
  | pushConst | pushOne | pushZero | pushNil => exact (plain_push _).thence
  | newVec => exact (plain_newVec #[]).bind fun v => (plain_push v).thence
  | vappend =>
    exact (plain_peek 0).bind fun v => (plain_peek 1).bind fun box =>
      (plain_vecPush box v).discard.bind fun _ => plain_pop.discard.thence
  | newHash => exact plain_newHash.bind fun v => (plain_push v).thence
  | mark =>
    refine plain_options.bind fun o => (plain_ctx cx).bind fun c => ?_
    exact plain_ite ((plain_fail _).bind fun _ => (hmarks _).thence) (hmarks _).thence
  | unmark => exact (hmarks _).thence
  | cutBack =>
    refine (plain_ctx cx).bind fun c => ?_
    split
    · exact (plain_cut _).thence
    · exact plain_pure _
  | cutBackPop =>
    refine (plain_ctx cx).bind fun c => ?_
    split
    · exact (hmarks _).bind fun _ => (plain_cut _).thence
    · exact plain_pure _
  | not | neg =>
    exact (plain_peek 0).bind fun v => (plain_read _).bind fun b => (plain_replaceTop 1 _).thence
  | plus | minus | mul | div | lt | lte | gt | gte => exact (plain_arith _).thence
  | cat =>
    exact (plain_peek 0).bind fun b => (plain_peek 1).bind fun a => (plain_concat a b).bind fun v =>
      (plain_replaceTop 2 v).thence
  | eq | neq => exact (plain_equality _).thence
  | jmp => exact (plain_jump arg).thence
  | jmpLoop => exact (plain_jump arg).bind fun _ => (plain_modify fun w _ => World.along_poll w).thence
  | jifNotPop =>
    refine plain_pop.bind fun v => (plain_read _).bind fun b => ?_
    exact plain_ite (plain_jump arg).thence (plain_pure _)
  | jifEnd =>
    refine (plain_peek 0).bind fun v => ?_
    exact plain_ite (plain_pop.discard.bind fun _ => (plain_jump arg).thence) (plain_pure _)
  | jifTrue | jifNot => exact (plain_jumpIf _ arg).thence
  | ret => exact plain_returnFrom
  | loadSym => exact (plain_lookupSym _ _).bind fun v => (plain_push v).thence
  | member =>
    refine (plain_peek 0).bind fun obj => (plain_member obj _ _ true).bind fun r => ?_
    split
    · exact (plain_replaceTop 1 _).thence
    · exact plain_heap.bind fun _ => (plain_fail _).thence
  | extract =>
    exact (plain_peek 1).bind fun box => (plain_peek 0).bind fun key => (plain_extract box key).bind
      fun v => (plain_replaceTop 2 v).thence
  | insert =>
    exact (plain_peek 0).bind fun v => (plain_peek 1).bind fun key => (plain_peek 2).bind fun box =>
      (plain_insert box key v).bind fun _ => (plain_replaceTop 3 v).thence
  | slice =>
    exact (plain_peek 0).bind fun stop => (plain_peek 1).bind fun start => (plain_peek 2).bind fun box =>
      (plain_slice box start stop).bind fun v => (plain_replaceTop 3 v).thence
  | each | index => exact (plain_iterate _).thence
  | _ => exact absurd (by decide) hop

/-- Instructions that store under a name of the code find the string of that name. -/
theorem traced_storing (hc : w.Consistent) (hs : w.Sound used) {code : Loaded} {op : Op} {arg : Nat}
    (hop : op ∈ [.happend, .setSym, .setLocal, .setMember]) (hname : op.takesName = true → code.NameAt w.heap arg) :
    Traced w (fun _ _ => True) ((perform .core cx code op arg).run w) := by
  have hpeek (depth : Nat) : Traced w (fun v w' => w'.Sound used ∧ w' = w ∧ v ∈ (w.ctx cx).stack)
      ((peek cx depth).run w) := (plain_peek depth).both hc (safe_peek hs depth)
  unfold perform
  cases op with
  | happend =>
    refine (hpeek 0).bind ?_
    rintro v _ - ⟨-, rfl, -⟩
    refine (hpeek 1).bind ?_
    rintro key _ - ⟨-, rfl, hkey⟩
    refine (hpeek 2).bind ?_
    rintro box w - ⟨-, rfl, -⟩
    have hlive := hs.live_kept (kept_of_stack hkey)
    exact (traced_hashSet hc box v (live_ne hlive)).next hc fun _ =>
      (plain_ctx cx).bind fun c => (plain_cut _).thence
  | setSym =>
    refine (hpeek 0).bind ?_
    rintro v w - ⟨-, rfl, -⟩
    exact (traced_setSym hc v (hname rfl)).thence hc
  | setLocal =>
    refine (hpeek 0).bind ?_
    rintro v w - ⟨-, rfl, -⟩
    refine (plain_frame.both hc (safe_frame hs)).bind ?_
    rintro f w - ⟨-, rfl, -⟩
    exact (traced_setConst hc f.locals v (hname rfl)).thence hc
  | setMember =>
    refine (hpeek 0).bind ?_
    rintro v _ - ⟨-, rfl, -⟩
    refine (hpeek 1).bind ?_
    rintro obj w - ⟨-, rfl, -⟩
    exact (traced_setMember hc obj v (hname rfl)).next hc fun _ => (plain_replaceTop 2 v).thence
  | _ => exact absurd hop (by decide)

theorem traced_func (hc : w.Consistent) (hs : w.Sound used) (hcx : used cx) (code : Loaded) (arg : Nat) :
    Traced w (fun _ _ => True) ((perform .core cx code .func arg).run w) := by
  refine (plain_frame.both hc (safe_frame hs)).bind ?_
  rintro f w - ⟨-, rfl, hf⟩
  have hk := kept_of_frame hf
  exact (traced_newClosure hc hs hcx (hs.live_kept hk.2.1) (hs.live_kept hk.2.2)).next hc fun scope =>
    (plain_newFunc _ scope).bind fun v => (plain_push v).thence

/-- **An instruction.**  Those that store under a name of the code find the string of that name. -/
theorem traced_perform (hc : w.Consistent) (hs : w.Sound used) (hcx : used cx) {code : Loaded} {op : Op}
    {arg : Nat} (hname : op.takesName = true → code.NameAt w.heap arg) :
    Traced w (fun _ _ => True) ((perform .core cx code op arg).run w) := by
  cases op with
  | fcall => exact traced_callWith hc hs hcx arg false false
  | mcall => exact traced_callWith hc hs hcx arg true false
  | fcallh => exact traced_callWith hc hs hcx 1 false true
  | mcallh => exact traced_callWith hc hs hcx 1 true true
  | happend | setSym | setLocal | setMember => exact traced_storing hc hs (by decide) hname
  | func => exact traced_func hc hs hcx code arg
  | _ => exact (plain_perform (by decide) arg).traced w hc

theorem Traced.after {w' : World} {ok : α → World → Prop} {r : EStateM.Result Failure World α}
    (h : w.Along w') (hr : Traced w' ok r) : Traced w ok r := by
  cases hr with
  | done h' ha => exact .done (h.trans h') ha
  | failed h' => exact .failed (h.trans h')

/-- An instruction of a ready context that takes a name has it in the code. -/
theorem name_at (hc : w.Consistent) (hr : (w.ctx cx).Ready) {f : Frame} {fs : List Frame} {i : Item}
    (hframes : fromTop (w.ctx cx).frames = f :: fs) (hplace : i.place = f.ip) (hin : i.In f.code.words)
    (ht : i.op.takesName = true) : f.code.NameAt w.heap i.arg := by
  have hf : f ∈ (w.ctx cx).frames := by
    have hmem : f ∈ fromTop (w.ctx cx).frames := hframes ▸ List.mem_cons_self
    exact Array.mem_toList_iff.mp (List.mem_reverse.mp hmem)
  obtain ⟨target, scope, -, htarget⟩ := hc.framed cx f hf
  obtain ⟨n, K, hK, hops⟩ := (hc.proper_bodyOf htarget).operands
  obtain ⟨-, hcalls⟩ := hr.goes
  rw [hframes] at hcalls
  cases hcalls with
  | cons t code standing =>
    obtain ⟨u, hu, -⟩ := standing.shape kept_le hK
    exact hops f.ip u hu i hplace hin ht

theorem traced_exec (hc : w.Consistent) (hs : w.Sound used) (hcx : used cx) (hr : (w.ctx cx).Ready) :
    Traced w (fun _ _ => True) ((exec .core cx).run w) := by
  obtain ⟨f, fs, rest, i, t, hframes, hplace, hin, -, -⟩ := hr.poised
  have hname := name_at hc hr hframes hplace hin
  rw [run_exec hframes hplace hin]
  have hdrop : w.Along (w.modifyCtx cx fun c => { c with temps := #[] }) := World.along_touch w cx rfl rfl
  have hs₁ := sound_dropTemps hs hcx
  have hheap : (w.modifyCtx cx fun c => { c with temps := #[] }).heap = w.heap := rfl
  rw [← hheap] at hname
  generalize w.modifyCtx cx (fun c => { c with temps := #[] }) = w₁ at hdrop hs₁ hname ⊢
  have hc₁ := hdrop.consistent hc
  have hjump := (plain_jump (f.ip + i.op.length)).both hc₁ (safe_jump hs₁ hcx _)
  cases hjump with
  | done h hjumped =>
    refine .after (hdrop.trans h) ?_
    exact traced_perform (h.consistent hc₁) hjumped.1 hcx hname

/-! ## requests -/

theorem plain_prepareCall : Plain (prepareCall cx) :=
  plain_freeChild.bind fun _ =>
    plain_modifyCtx (fun _ => rfl) fun _ _ hg => absurd hg (Array.not_mem_empty _)

theorem plain_prepareResume (height : Nat) (v : Value) : Plain (prepareResume cx height v) := by
  have herror : Plain (modifyCtx cx fun c => { c with error := none }) :=
    plain_touch (fun _ => rfl) fun _ => rfl
  exact plain_freeChild.bind fun _ => herror.bind fun _ => (plain_cut height).bind fun _ => plain_push v

theorem plain_finish (r : Except Failure Value) : Plain (finish cx r) := by
  unfold finish
  split
  · have hclear : Plain (modifyCtx cx Context.clearStacks) :=
      plain_modifyCtx (fun _ => rfl) fun _ _ hg => absurd hg (Array.not_mem_empty _)
    exact hclear.bind fun _ => plain_freeChild.bind fun _ => plain_pure _
  · rename_i e
    refine (plain_ctx cx).bind fun c => ?_
    exact Plain.bind (plain_touch (fun _ => rfl) fun _ => rfl) fun _ => plain_pure _

theorem traced_beginCall (hc : w.Consistent) (hs : w.Sound used) (hcx : used cx)
    {func me locals : Value} {args : Array Value}
    (hlive : Request.Live w.heap (.call func args me locals)) :
    Traced w (fun _ _ => True) ((beginCall .core cx func args me locals).run w) := by
  obtain ⟨hfunc, hargs, hme, hlocals⟩ := hlive
  unfold beginCall
  refine ((plain_push func).both hc (safe_pushOnto hs hcx hfunc)).bind
    fun _ w₁ h₁ ⟨hs₁, he₁, hin₁⟩ => ?_
  have hc₁ := h₁.consistent hc
  rw [← he₁] at hargs hme hlocals
  rw [forM_toList]
  refine ((plain_forM (fun v => plain_push v) _).both hc₁
    (safe_pushAll hs₁ hcx _ fun v hv => hargs v (Array.mem_toList_iff.mp hv))).bind
      fun _ w₂ h₂ ⟨hs₂, he₂, hin₂⟩ => ?_
  have hc₂ := h₂.consistent hc₁
  rw [← he₂] at hme hlocals
  refine ((plain_push me).both hc₂ (safe_pushOnto hs₂ hcx hme)).bind
    fun _ w₃ h₃ ⟨hs₃, he₃, hin₃⟩ => ?_
  have hc₃ := h₃.consistent hc₂
  rw [← he₃] at hlocals
  refine ((plain_push locals).both hc₃ (safe_pushOnto hs₃ hcx hlocals)).bind
    fun _ w₄ h₄ ⟨hs₄, he₄, hin₄⟩ => ?_
  have hc₄ := h₄.consistent hc₃
  -- from here on the stack keeps all of them
  have hfunc : w₄.Kept func :=
    kept_of_stack (hin₄ _ (.inr (hin₃ _ (.inr (hin₂ _ (.inr (hin₁ _ (.inl rfl))))))))
  have hargs : ∀ v ∈ args, w₄.Kept v := fun v hv =>
    kept_of_stack (hin₄ _ (.inr (hin₃ _ (.inr (hin₂ _ (.inl (Array.mem_toList_iff.mpr hv)))))))
  have hme : w₄.Kept me := kept_of_stack (hin₄ _ (.inr (hin₃ _ (.inl rfl))))
  have hbind {w' : World} (hc' : w'.Consistent) (hs' : w'.Sound used) (he : w₄.Extends w')
      {f target scope ns : Value} {code : Loaded} (hb : w'.heap.bodyOf f = .func target scope)
      (ht : w'.heap.bodyOf target = .code code) (hf : w'.Kept f) :
      Traced w' (fun _ _ => True) (EStateM.run (do
        bindArgs cx code ns args me
        cut cx 0
        pushFrame cx f code ns scope 0
        return Begun.frame) w') := by
    have hkt : w'.Kept target := hf.of_bodyOf hb trivial List.mem_cons_self
    refine ((traced_bindArgs hc' (hc'.proper_bodyOf ht) ns args me).both
      (safe_bindArgs hs' hcx ⟨target, hkt, ht⟩ ns (fun v hv => he.kept (hargs v hv))
        (he.kept hme))).bind fun _ w₆ h₆ ⟨_, _, he₆⟩ => ?_
    exact traced_frameAt (h₆.consistent hc') 0 (he₆.bodyOf hf hb trivial) (he₆.bodyOf hkt ht trivial)
  rw [run_heap_bind]
  cases hcallee : w₄.heap.callee func with
  | native n => exact (traced_startNative hc₄ hs₄ hcx n me hargs).next hc₄ fun _ => plain_pure _
  | script code scope =>
    obtain ⟨target, hb, ht⟩ := bodyOf_of_callee hcallee
    have hkt : w₄.Kept target := hfunc.of_bodyOf hb trivial List.mem_cons_self
    show Traced w₄ _ ((ite _ _ _ : Act Begun).run w₄)
    split
    · exact hbind hc₄ hs₄ (.refl w₄) hb ht hfunc
    · refine (plain_newHash.both hc₄ (safe_newHash hs₄ hcx)).bind
        fun ns w₅ h₅ ⟨hs₅, he₅, _, _⟩ => ?_
      exact hbind (h₅.consistent hc₄) hs₅ he₅ (he₅.bodyOf hfunc hb trivial)
        (he₅.bodyOf hkt ht trivial) (he₅.kept hfunc)
  | bare code =>
    have hb := bodyOf_of_callee_bare hcallee
    have hnew {w' : World} (hc' : w'.Consistent) (hs' : w'.Sound used) (he : w₄.Extends w')
        {ns : Value} : Traced w' (fun _ _ => True) (EStateM.run (do
          let bound ← newFunc cx func .nil
          bindArgs cx code ns args me
          cut cx 0
          pushFrame cx bound code ns .nil 0
          return Begun.frame) w') := by
      refine ((plain_newFunc func .nil).both hc' (safe_newFunc hs' hcx (hs'.live_kept (he.kept hfunc))
        Heap.live_nil)).bind fun f w₆ h₆ ⟨hs₆, he₆, hf, hmem⟩ => ?_
      exact hbind (h₆.consistent hc') hs₆ (he.trans he₆) hf ((he.trans he₆).bodyOf hfunc hb trivial)
        (kept_of_temps hmem)
    show Traced w₄ _ ((ite _ _ _ : Act Begun).run w₄)
    split
    · exact hnew hc₄ hs₄ (.refl w₄)
    · exact (plain_newHash.both hc₄ (safe_newHash hs₄ hcx)).bind
        fun ns w₅ h₅ ⟨hs₅, he₅, _⟩ => hnew (h₅.consistent hc₄) hs₅ he₅
  | none =>
    show Traced w₄ _ ((ite _ _ _ : Act Begun).run w₄)
    split
    · exact .failed (.refl w₄)
    · exact (plain_newHash.traced w₄ hc₄).bind fun _ _ _ _ => .failed (.refl _)

/-- Going on after a native failed, with a live value. -/
theorem safe_prepareResume (hs : w.Sound used) (hcx : used cx) (height : Nat) {v : Value}
    (hv : w.heap.Live v) : Safe used (fun _ _ => True) ((prepareResume cx height v).run w) := by
  unfold prepareResume
  refine (safe_freeChild hs cx).bind fun _ w₁ hs₁ ⟨he₁, _⟩ => ?_
  have hnone : (w₁.modifyCtx cx fun c => { c with error := none }).Sound used := by
    refine hs₁.changeCtx (hs₁.known cx hcx) rfl rfl (fun u hu => .inl ?_) fun _ g hg => .inl hg
    rw [Context.mem_roots] at hu ⊢
    rcases hu with hu | hu | hu | ⟨_, he, _⟩
    · exact .inl hu
    · exact .inr (.inl hu)
    · exact .inr (.inr (.inl hu))
    · exact nomatch he
  refine (safe_update hnone).bind fun _ w₂ hs₂ he₂ => ?_
  refine (safe_cut hs₂ hcx height).bind fun _ w₃ hs₃ he₃ => ?_
  refine (safe_push hs₃ hcx ?_).mono fun _ _ _ => trivial
  have hheap : w₃.heap = w.heap := by
    rw [he₃, he₂]
    exact he₁
  exact hheap ▸ hv

end

end Act

/-! ## the machine -/

namespace Machine

open Act (Traced Plain)

variable {w : World} {waiting : List Waiting} {cx : CtxId}

def Given (h : Heap) : Request → Prop
  | .call func args me locals => h.Live func ∧ (∀ v ∈ args, h.Live v) ∧ h.Live me ∧ h.Live locals
  | .resume v => h.Live v

/-- The machine is sound, or about to resume a context, or a native has asked for something to be done
on a child. -/
inductive Sane : Machine → Prop
  | sound {m : Machine} (h : m.Sound) : Sane m
  | resume {w : World} {waiting : List Waiting} {cx : CtxId} {v : Value}
    (h : w.Sound (Uses waiting (.running cx))) (hv : w.heap.Live v) :
    Sane ⟨w, waiting, .begin cx (.resume v)⟩
  | asks {w : World} {waiting : List Waiting} {cx : CtxId} {n : Native} {site : Site} {sub : CtxId}
    {q : Request} {wait : Wait} (h : w.Sound (Uses waiting (.running cx))) (hq : Given w.heap q) :
    Sane ⟨w, waiting, .replied cx n site (.ok (.run sub q wait))⟩

theorem sound_resume (lib : Library) {v : Value} (hs : w.Sound (Uses waiting (.running cx)))
    (hv : w.heap.Live v) : Sound (start lib w waiting cx (.resume v)) := by
  have huses {mode : Mode} (hmode : mode.ctx? = some cx ∨ mode.ctx? = none) (c : CtxId)
      (hc : Uses waiting mode c) : Uses waiting (.running cx) c :=
    hc.imp_left fun h => hmode.elim (fun e => e.symm.trans h) fun e => nomatch e.symm.trans h
  have hs₁ : (w.modifyCtx cx fun c => { c with resumeAt := none }).Sound (Uses waiting (.running cx)) :=
    Act.sound_note hs cx (fun _ => rfl) (fun _ => rfl) (fun _ => rfl) (hs.linked cx)
  have hv₁ : (w.modifyCtx cx fun c => { c with resumeAt := none }).heap.Live v := hv
  unfold start
  dsimp only
  generalize w.modifyCtx cx (fun c => { c with resumeAt := none }) = w₁ at hs₁ hv₁ ⊢
  split
  · rename_i height _
    have hrun := Act.safe_prepareResume hs₁ (.inl rfl) height hv₁
    generalize (Act.prepareResume cx height v).run w₁ = r at hrun ⊢
    cases hrun with
    | done hs' _ => exact .of_world hs' (huses (.inl rfl)) trivial
    | failed hs' he => exact .of_world hs' (huses (.inr rfl)) he
  · exact .of_world hs₁ (huses (.inr rfl)) Heap.live_nil

theorem sound_adopt {used : CtxId → Prop} (hs : w.Sound used) (hc : w.Consistent)
    (hlt : cx < w.contexts.size) : w.Sound fun c => c = cx ∨ used c :=
  { hs with
    known := fun c h => h.elim (fun e => e ▸ hlt) (hs.known c)
    framed := fun c _ => hc.framed c }

/-- A context of which a native waits is one that runs, or it waited before. -/
theorem uses_waits {who : Waiting} {c : CtxId} (h : ∃ who' ∈ who :: waiting, who'.cx = c) :
    Uses waiting (.running who.cx) c := by
  obtain ⟨who', hwho, rfl⟩ := h
  rcases List.mem_cons.mp hwho with rfl | hwho
  · exact .inl rfl
  · exact .inr ⟨who', hwho, rfl⟩

/-- A native waits for something to be done on another context. -/
theorem sane_asked (who : Waiting) (hs : w.Sound (Uses waiting (.running who.cx))) (hc : w.Consistent) {sub : CtxId}
    (hlt : sub < w.contexts.size) {q : Request} (hq : Given w.heap q) :
    Sane ⟨w, who :: waiting, .begin sub q⟩ := by
  cases q with
  | call func args me locals =>
    refine .sound (.of_world hs (fun c h => uses_waits (h.resolve_left ?_)) ⟨hlt, hq⟩)
    exact nofun
  | resume v =>
    refine .resume (sound_mono (sound_adopt hs hc hlt) fun c h => ?_) hq
    exact h.imp (fun e => (Option.some.inj e).symm) uses_waits

theorem sane_delegate (hs : w.Sound (Uses waiting (.running cx))) (hc : w.Consistent) (n : Native)
    (site : Site) (sub : CtxId) {q : Request} (hq : Given w.heap q) (wait : Wait) :
    Sane (delegate w waiting cx n site sub q wait) := by
  unfold delegate
  dsimp only
  split
  · rename_i hchild
    exact sane_asked ⟨cx, n, site, wait⟩ hs hc (hs.linked cx sub (eq_of_beq hchild)) hq
  · refine .sound (.of_world hs (fun c h => uses_waits (h.resolve_left ?_)) Heap.live_nil)
    exact nofun

theorem Sane.step {m : Machine} (h : m.Sane) (hc : m.world.Consistent) : (m.step .core).Sane := by
  cases h with
  | sound h => exact .sound h.step
  | resume h hv => exact .sound (sound_resume .core h hv)
  | asks h hq => exact sane_delegate h hc _ _ _ hq _

theorem along_start (hc : w.Consistent) {q : Request} (hs : Sane ⟨w, waiting, .begin cx q⟩) :
    w.Along (start .core w waiting cx q).world := by
  cases q with
  | call func args me locals =>
    have hsound : Sound ⟨w, waiting, .begin cx (.call func args me locals)⟩ := by
      generalize hm : (⟨w, waiting, .begin cx (.call func args me locals)⟩ : Machine) = m at hs
      cases hs with
      | sound h => exact h
      | resume _ _ | asks _ _ => exact nomatch hm
    obtain ⟨hworld, hcx, hlive⟩ := hsound
    have hrun : Traced w (fun _ _ => True)
        ((do Act.prepareCall cx; Act.beginCall .core cx func args me locals).run w) := by
      refine (Act.plain_prepareCall.both hc (Act.safe_prepareCall hworld hcx)).bind
        fun _ w₁ h₁ ⟨hs₁, he⟩ => ?_
      exact Act.traced_beginCall (h₁.consistent hc) hs₁ (.inl rfl) (he ▸ hlive)
    unfold start
    dsimp only
    generalize (do Act.prepareCall cx; Act.beginCall .core cx func args me locals).run w = r at hrun ⊢
    cases hrun with
    | @done b w' h _ => cases b <;> exact h
    | failed h => exact h
  | resume v =>
    have hnone : w.Along (w.modifyCtx cx fun c => { c with resumeAt := none }) := World.along_touch w cx rfl rfl
    unfold start
    dsimp only
    generalize w.modifyCtx cx (fun c => { c with resumeAt := none }) = w₁ at hnone ⊢
    split
    · rename_i height _
      have hplain : Plain (Act.prepareResume cx height v) := Act.plain_prepareResume height v
      have hrun := hplain.traced w₁ (hnone.consistent hc)
      generalize (Act.prepareResume cx height v).run w₁ = r at hrun ⊢
      cases hrun with
      | done h _ => exact hnone.trans h
      | failed h => exact hnone.trans h
    · exact hnone

theorem along_exec (hc : w.Consistent) (hs : Sound ⟨w, waiting, .running cx⟩)
    (hr : (w.ctx cx).Ready) : w.Along (step .core ⟨w, waiting, .running cx⟩).world := by
  have hrun := Act.traced_exec hc hs.world (.inl rfl) hr
  unfold step
  dsimp only at hrun ⊢
  generalize (Act.exec .core cx).run w = r at hrun ⊢
  cases hrun with
  | @done o w' h _ => cases o <;> exact h
  | failed h => exact h

theorem along_reply (hc : w.Consistent) (n : Native) (site : Site) (r : Except Failure Reply) :
    w.Along (step .core ⟨w, waiting, .replied cx n site r⟩).world := by
  unfold step
  cases r with
  | error e =>
    cases site with
    | request => exact .refl w
    | instruction base => exact World.along_touch w cx rfl rfl
  | ok r =>
    cases r with
    | run sub request wait =>
      dsimp only [delegate]
      split <;> exact .refl w
    | halt => exact .refl w
    | done v =>
      cases site with
      | request => exact World.along_touch w cx rfl rfl
      | instruction base =>
        have hplain : Plain (do Act.cut cx base; Act.push cx v : Act Unit) :=
          (Act.plain_cut base).bind fun _ => Act.plain_push v
        have hrun := hplain.traced w hc
        dsimp only [settle]
        generalize (do Act.cut cx base; Act.push cx v : Act Unit).run w = r at hrun ⊢
        cases hrun with
        | done h _ => exact h
        | failed h => exact h

theorem along_end (hc : w.Consistent) (r : Except Failure Value) :
    w.Along (step .core ⟨w, waiting, .ended cx r⟩).world := by
  have hplain : Plain (Act.finish cx r) := Act.plain_finish r
  have hrun := hplain.traced w hc
  unfold step
  dsimp only
  generalize (Act.finish cx r).run w = r' at hrun ⊢
  cases hrun with
  | done h _ => exact h
  | failed h => exact h

theorem along_wake (hc : w.Consistent) (who : Waiting) (r : Except Failure Value) :
    w.Along (wake .core w waiting who r).world := by
  unfold wake
  split
  · rename_i b hb
    have hrun := ((Act.manner_plain who.cx).resume hb who.native who.wait (r := r)
      fun _ _ => trivial).traced w hc
    generalize (b.resume who.cx who.native who.wait r).run w = r' at hrun ⊢
    cases hrun with
    | done h _ => exact h
    | failed h => exact h
  · exact .refl w

/-- **A step goes by strokes.** -/
theorem along_step {m : Machine} (hm : m.Steady) (hs : m.Sane) (hc : m.world.Consistent) :
    m.world.Along (m.step .core).world := by
  obtain ⟨w, waiting, mode⟩ := m
  cases mode with
  | begin cx request => exact along_start hc hs
  | running cx =>
    cases hs with
    | sound h => exact along_exec hc h hm.works.2
  | replied cx n site r => exact along_reply hc n site r
  | ended cx r => exact along_end hc r
  | outcome r =>
    cases waiting with
    | nil => exact .refl w
    | cons who waiting => exact along_wake hc who r

end Machine

end ScriptEngine
