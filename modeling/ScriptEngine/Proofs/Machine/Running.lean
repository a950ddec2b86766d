import ScriptEngine.Engine
import ScriptEngine.Proofs.Machine.Instructions

/-!
# A run reaches no free cell

The machine goes on with values that no root shows: those of a request, of a reply and of an
outcome.  They are live, and between two of them no collection runs.  Contexts come into use when a
request starts on them, with no frames, and are in use as long as a run on them or a native that
waits is under way.

* `Machine.Sound`        the invariant of a machine;
* `Machine.Sound.step`   a step keeps it;
* `Machine.Sound.run`    so do any number of steps;
* `World.InOrder`        the engines a call can start in;
* `Engine.inOrder_call`  after a call the next one can start.
-/

namespace ScriptEngine

open World (Sound Extends Kept kept_nil kept_of_ctx kept_of_stack kept_of_temps kept_of_frame)

namespace Act

def Begun.Live (w : World) : Begun → Prop
  | frame => True
  | native _ r => r.Live w

section

variable {used : CtxId → Prop} {w : World} {cx : CtxId}

/-! ## starting a request -/

theorem sound_join (hs : w.Sound used) (hcx : cx < w.contexts.size)
    (hf : (w.ctx cx).frames = #[]) : w.Sound fun c => c = cx ∨ used c :=
  { hs with
    known := by
      rintro c (rfl | hc)
      · exact hcx
      · exact hs.known c hc
    framed := by
      rintro c (rfl | hc) g hg
      · rw [hf] at hg
        exact absurd hg (Array.not_mem_empty g)
      · exact hs.framed c hc g hg }

theorem freeChild_ok (w : World) (cx : CtxId) : ∃ w', (freeChild cx).run w = .ok () w' := by
  unfold freeChild
  rw [run_ctx_bind]
  split
  · exact ⟨_, rfl⟩
  · exact ⟨_, rfl⟩

/-- Before a call the context loses its frames, and is in use from then on. -/
theorem safe_prepareCall (hs : w.Sound used) (hcx : cx < w.contexts.size) :
    Safe (fun c => c = cx ∨ used c) (fun _ w' => w'.heap = w.heap) ((prepareCall cx).run w) := by
  have hfree := safe_freeChild hs cx
  obtain ⟨w₁, hw₁⟩ := freeChild_ok w cx
  rw [hw₁] at hfree
  cases hfree with
  | done hs₁ h =>
    have hcx₁ : cx < w₁.contexts.size := h.2 ▸ hcx
    have hs₂ : (w₁.modifyCtx cx fun c => { c.clearStacks with error := none }).Sound used := by
      refine hs₁.changeCtx hcx₁ rfl rfl (fun v hv => .inl ?_) fun _ g hg =>
        absurd hg (Array.not_mem_empty g)
      rw [Context.mem_roots] at hv ⊢
      rcases hv with hv | hv | ⟨g, hg, _⟩ | ⟨_, he, _⟩
      · exact absurd hv (Array.not_mem_empty v)
      · exact .inr (.inl hv)
      · exact absurd hg (Array.not_mem_empty g)
      · exact nomatch he
    have hrun : (prepareCall cx).run w
        = .ok () (w₁.modifyCtx cx fun c => { c.clearStacks with error := none }) := by
      show EStateM.bind (freeChild cx) _ w = _
      rw [EStateM.bind, show freeChild cx w = .ok () w₁ from hw₁]
      rfl
    rw [hrun]
    refine .done (sound_join hs₂ ?_ ?_) h.1
    · rw [World.size_modifyCtx]
      exact hcx₁
    · rw [World.ctx_modifyCtx_self hcx₁]
      rfl

theorem forM_toList (args : Array Value) (f : Value → Act Unit) :
    args.forM f = args.toList.forM f := by
  obtain ⟨l⟩ := args
  exact List.forM_toArray l f

theorem safe_pushOnto (hs : w.Sound used) (hcx : used cx) {v : Value} (hv : w.heap.Live v) :
    Safe used (fun _ w' => w'.heap = w.heap ∧ ∀ u, u = v ∨ u ∈ (w.ctx cx).stack →
        u ∈ (w'.ctx cx).stack)
      ((push cx v).run w) := by
  refine (safe_push hs hcx hv).mono ?_
  rintro _ _ rfl
  refine ⟨rfl, fun u hu => ?_⟩
  rw [World.ctx_modifyCtx_self (hs.known cx hcx)]
  exact Array.mem_push.mpr hu.symm

theorem safe_pushAll (hs : w.Sound used) (hcx : used cx) (l : List Value)
    (hl : ∀ v ∈ l, w.heap.Live v) :
    Safe used (fun _ w' => w'.heap = w.heap ∧ ∀ u, u ∈ l ∨ u ∈ (w.ctx cx).stack →
        u ∈ (w'.ctx cx).stack)
      ((l.forM fun v => push cx v).run w) := by
  induction l generalizing w with
  | nil => exact safe_pure hs ⟨rfl, fun u hu => hu.resolve_left List.not_mem_nil⟩
  | cons a l ih =>
    show Safe used _ ((push cx a >>= fun _ => l.forM fun v => push cx v).run w)
    refine (safe_pushOnto hs hcx (hl a List.mem_cons_self)).bind fun _ w₁ hs₁ ⟨he₁, hin₁⟩ => ?_
    refine (ih hs₁ fun v hv => he₁ ▸ hl v (List.mem_cons_of_mem a hv)).mono
      fun _ w₂ ⟨he₂, hin₂⟩ => ⟨he₂.trans he₁, fun u hu => hin₂ u ?_⟩
    rcases hu with hu | hu
    · exact (List.mem_cons.mp hu).elim (fun e => .inr (hin₁ u (.inl e))) .inl
    · exact .inr (hin₁ u (.inr hu))

/-- Starting a call of live values: they are pushed first, and so kept while arguments are bound. -/
theorem safe_beginCall (hs : w.Sound used) (hcx : used cx) {func me locals : Value}
    {args : Array Value} (hlive : Request.Live w.heap (.call func args me locals)) :
    Safe used (fun b w' => b.Live w') ((beginCall .core cx func args me locals).run w) := by
  obtain ⟨hfunc, hargs, hme, hlocals⟩ := hlive
  unfold beginCall
  refine (safe_pushOnto hs hcx hfunc).bind fun _ w₁ hs₁ ⟨he₁, hin₁⟩ => ?_
  rw [← he₁] at hargs hme hlocals
  rw [forM_toList]
  refine (safe_pushAll hs₁ hcx _ fun v hv => hargs v (Array.mem_toList_iff.mp hv)).bind
    fun _ w₂ hs₂ ⟨he₂, hin₂⟩ => ?_
  rw [← he₂] at hme hlocals
  refine (safe_pushOnto hs₂ hcx hme).bind fun _ w₃ hs₃ ⟨he₃, hin₃⟩ => ?_
  rw [← he₃] at hlocals
  refine (safe_pushOnto hs₃ hcx hlocals).bind fun _ w₄ hs₄ ⟨he₄, hin₄⟩ => ?_
  -- from here on the stack keeps all of them
  have hfunc : w₄.Kept func :=
    kept_of_stack (hin₄ _ (.inr (hin₃ _ (.inr (hin₂ _ (.inr (hin₁ _ (.inl rfl))))))))
  have hargs : ∀ v ∈ args, w₄.Kept v := fun v hv =>
    kept_of_stack (hin₄ _ (.inr (hin₃ _ (.inr (hin₂ _ (.inl (Array.mem_toList_iff.mpr hv)))))))
  have hme : w₄.Kept me := kept_of_stack (hin₄ _ (.inr (hin₃ _ (.inl rfl))))
  have hlocals : w₄.Kept locals := kept_of_stack (hin₄ _ (.inl rfl))
  -- binding the arguments to a function that is bound to its code
  have hbind {w' : World} (hs' : w'.Sound used) (he : w₄.Extends w') {f target scope ns : Value}
      {code : Loaded} (hb : w'.heap.bodyOf f = .func target scope)
      (ht : w'.heap.bodyOf target = .code code) (hf : w'.Kept f) (hns : w'.Kept ns) :
      Safe used (fun b w' => Begun.Live w' b) (EStateM.run (do
        bindArgs cx code ns args me
        cut cx 0
        pushFrame cx f code ns scope 0
        return .frame) w') := by
    have hkt : w'.Kept target := hf.of_bodyOf hb trivial List.mem_cons_self
    refine (safe_bindArgs hs' hcx ⟨target, hkt, ht⟩ ns (fun v hv => he.kept (hargs v hv))
      (he.kept hme)).bind fun _ w₆ hs₆ he₆ => ?_
    exact safe_frameAt hs₆ hcx 0 (he₆.bodyOf hf hb trivial) (he₆.bodyOf hkt ht trivial)
      (hs₆.live_kept (he₆.kept hf)) (hs₆.live_kept (he₆.kept hns)) fun _ => trivial
  refine safe_heap ?_
  cases hc : w₄.heap.callee func with
  | native n =>
    exact (safe_startNative hs₄ hcx n me hargs).bind fun _ _ hs' hr => safe_pure hs' hr
  | script code scope =>
    obtain ⟨target, hb, ht⟩ := bodyOf_of_callee hc
    have hkt : w₄.Kept target := hfunc.of_bodyOf hb trivial List.mem_cons_self
    refine safe_heap ?_
    dsimp only
    split
    · exact hbind hs₄ (.refl w₄) hb ht hfunc hlocals
    · refine (safe_newHash hs₄ hcx).bind fun ns w₅ hs₅ ⟨he₅, _, hns⟩ => ?_
      exact hbind hs₅ he₅ (he₅.bodyOf hfunc hb trivial) (he₅.bodyOf hkt ht trivial)
        (he₅.kept hfunc) (kept_of_temps hns)
  | bare code =>
    have hb := bodyOf_of_callee_bare hc
    -- the code is bound first, and so is the function of the frame
    have hnew {w' : World} (hs' : w'.Sound used) (he : w₄.Extends w') {ns : Value}
        (hns : w'.Kept ns) : Safe used (fun b w' => Begun.Live w' b) (EStateM.run (do
          let bound ← newFunc cx func .nil
          bindArgs cx code ns args me
          cut cx 0
          pushFrame cx bound code ns .nil 0
          return .frame) w') := by
      refine (safe_newFunc hs' hcx (hs'.live_kept (he.kept hfunc)) Heap.live_nil).bind
        fun f w₆ hs₆ ⟨he₆, hf, hmem⟩ => ?_
      exact hbind hs₆ (he.trans he₆) hf ((he.trans he₆).bodyOf hfunc hb trivial)
        (kept_of_temps hmem) (he₆.kept hns)
    refine safe_heap ?_
    dsimp only
    split
    · exact hnew hs₄ (.refl w₄) hlocals
    · refine (safe_newHash hs₄ hcx).bind fun ns w₅ hs₅ ⟨he₅, _, hns⟩ => ?_
      exact hnew hs₅ he₅ (kept_of_temps hns)
  | none =>
    refine safe_heap ?_
    dsimp only
    split
    · exact .failed hs₄ Heap.live_nil
    · exact (safe_newHash hs₄ hcx).bind fun ns w₅ hs₅ _ => safe_fail_bind hs₅ _

theorem safe_finish (hs : w.Sound used) (hcx : used cx) {r : Except Failure Value}
    (hr : OutcomeLive w.heap r) :
    Safe used (fun r w' => OutcomeLive w'.heap r) ((finish cx r).run w) := by
  unfold finish
  cases r with
  | ok v =>
    have hclear : (w.modifyCtx cx Context.clearStacks).Sound used := by
      refine hs.changeCtx (hs.known cx hcx) rfl rfl (fun u hu => .inl ?_) fun _ g hg =>
        absurd hg (Array.not_mem_empty g)
      rw [Context.mem_roots] at hu ⊢
      rcases hu with hu | hu | ⟨g, hg, _⟩ | hu
      · exact absurd hu (Array.not_mem_empty u)
      · exact .inr (.inl hu)
      · exact absurd hg (Array.not_mem_empty g)
      · exact .inr (.inr (.inr hu))
    refine (safe_update hclear).bind fun _ w₁ hs₁ he₁ => ?_
    refine (safe_freeChild hs₁ cx).bind fun _ w₂ hs₂ ⟨he₂, _⟩ => ?_
    refine safe_pure hs₂ ?_
    rw [he₂, he₁]
    exact hr
  | error e =>
    exact .done (sound_error hs hcx (e := { e with trace := e.trace ++ (w.ctx cx).places }) hr) hr

end

end Act

/-! ## the machine -/

def Mode.ctx? : Mode → Option CtxId
  | begin _ _ | outcome _ => none
  | running cx | replied cx _ _ _ | ended cx _ => some cx

def Mode.Live (w : World) : Mode → Prop
  | begin cx request => cx < w.contexts.size ∧ request.Live w.heap
  | running _ => True
  | replied _ _ _ (.ok r) => r.Live w
  | replied _ _ _ (.error e) => w.heap.Live e.value
  | ended _ r | outcome r => OutcomeLive w.heap r

namespace Machine

/-- The contexts in use. -/
def Uses (waiting : List Waiting) (mode : Mode) (cx : CtxId) : Prop :=
  mode.ctx? = some cx ∨ ∃ who ∈ waiting, who.cx = cx

/-- The engine is sound for the contexts in use, and what the machine holds is live. -/
structure Sound (m : Machine) : Prop where
  world : m.world.Sound (Uses m.waiting m.mode)
  flying : m.mode.Live m.world

variable {w : World} {waiting : List Waiting} {cx : CtxId}

theorem sound_mono {used used' : CtxId → Prop} (hs : w.Sound used)
    (h : ∀ c, used' c → used c) : w.Sound used' :=
  { hs with
    known := fun c hc => hs.known c (h c hc)
    framed := fun c hc => hs.framed c (h c hc) }

/-- A machine goes on with the same contexts, or with fewer. -/
theorem Sound.of_world {mode : Mode} {used : CtxId → Prop} (hs : w.Sound used)
    (hu : ∀ c, Uses waiting mode c → used c) (hl : mode.Live w) :
    Sound ⟨w, waiting, mode⟩ := ⟨sound_mono hs hu, hl⟩

theorem sound_start {func me locals : Value} {args : Array Value}
    (hm : Sound ⟨w, waiting, .begin cx (.call func args me locals)⟩) :
    Sound (start .core w waiting cx (.call func args me locals)) := by
  obtain ⟨hs, hcx, hl⟩ := hm
  have hrun : Act.Safe (fun c => c = cx ∨ Uses waiting (.begin cx (.call func args me locals)) c)
      (fun b w' => Act.Begun.Live w' b)
      ((do Act.prepareCall cx; Act.beginCall .core cx func args me locals).run w) := by
    refine (Act.safe_prepareCall hs hcx).bind fun _ w₁ hs₁ he => ?_
    exact Act.safe_beginCall hs₁ (.inl rfl) (he ▸ hl)
  have huses {mode : Mode} (hmode : mode.ctx? = some cx) (c : CtxId) (hc : Uses waiting mode c) :
      c = cx ∨ Uses waiting (.begin cx (.call func args me locals)) c := by
    rcases hc with hc | hc
    · exact .inl (Option.some.inj (hc.symm.trans hmode))
    · exact .inr (.inr hc)
  unfold start
  dsimp only
  generalize (do Act.prepareCall cx; Act.beginCall .core cx func args me locals).run w = r at hrun ⊢
  cases hrun with
  | @done b w' hs' hb =>
    cases b with
    | frame => exact .of_world hs' (huses rfl) trivial
    | native n r => exact .of_world hs' (huses rfl) hb
  | failed hs' he => exact .of_world hs' (huses rfl) he

theorem sound_exec (hm : Sound ⟨w, waiting, .running cx⟩) :
    Sound (step .core ⟨w, waiting, .running cx⟩) := by
  have hrun := Act.safe_exec hm.world (.inl rfl)
  have huses {mode : Mode} (hmode : mode.ctx? = some cx) (c : CtxId) (hc : Uses waiting mode c) :
      Uses waiting (.running cx) c := hc.imp_left fun h => hmode.symm.trans h
  unfold step
  dsimp only at hrun ⊢
  generalize (Act.exec .core cx).run w = r at hrun ⊢
  cases hrun with
  | @done o w' hs' ho =>
    cases o with
    | next => exact .of_world hs' (huses rfl) trivial
    | returned v => exact .of_world hs' (huses rfl) ho
    | native base n r =>
      cases r with
      | ok r => exact .of_world hs' (huses rfl) ho
      | error e => exact .of_world hs' (huses rfl) ho
  | failed hs' he => exact .of_world hs' (huses rfl) he

theorem sound_settle {used : CtxId → Prop} (hs : w.Sound used)
    (hu : ∀ c, (c = cx ∨ ∃ who ∈ waiting, who.cx = c) → used c) (site : Site) {v : Value}
    (hv : w.heap.Live v) : Sound (settle w waiting cx site v) := by
  have hcx : used cx := hu cx (.inl rfl)
  have huses {mode : Mode} (hmode : mode.ctx? = some cx) (c : CtxId) (hc : Uses waiting mode c) :
      used c := hu c (hc.imp_left fun h => Option.some.inj (h.symm.trans hmode))
  unfold settle
  cases site with
  | request =>
    refine .of_world (Act.sound_dropStack hs hcx fun c => ⟨#[], rfl, fun u hu => ?_⟩) (huses rfl) hv
    exact absurd hu (Array.not_mem_empty u)
  | instruction base =>
    have hrun : Act.Safe used (fun _ _ => True) ((do Act.cut cx base; Act.push cx v).run w) := by
      refine (Act.safe_cut hs hcx base).bind fun _ w₁ hs₁ he => ?_
      refine (Act.safe_push hs₁ hcx ?_).mono fun _ _ _ => trivial
      rw [he]
      exact hv
    dsimp only
    generalize (do Act.cut cx base; Act.push cx v : Act Unit).run w = r at hrun ⊢
    cases hrun with
    | done hs' _ => exact .of_world hs' (huses rfl) trivial
    | failed hs' he => exact .of_world hs' (huses rfl) he

theorem sound_reply {n : Native} {site : Site} {r : Except Failure Reply}
    (hm : Sound ⟨w, waiting, .replied cx n site r⟩) :
    Sound (step .core ⟨w, waiting, .replied cx n site r⟩) := by
  obtain ⟨hs, hl⟩ := hm
  have hu (c : CtxId) (hc : c = cx ∨ ∃ who ∈ waiting, who.cx = c) :
      Uses waiting (.replied cx n site r) c := hc.imp_left fun h => congrArg some h.symm
  have huses {mode : Mode} (hmode : mode.ctx? = some cx) (c : CtxId) (hc : Uses waiting mode c) :
      Uses waiting (.replied cx n site r) c :=
    hc.imp_left fun h => hmode.symm.trans h
  unfold step
  cases r with
  | error e =>
    dsimp only [upset]
    cases site with
    | request => exact .of_world hs (huses rfl) hl
    | instruction base =>
      refine .of_world (Act.sound_note hs cx (fun _ => rfl) (fun _ => rfl) (fun _ => rfl) ?_)
        (huses rfl) hl
      exact hs.linked cx
  | ok r =>
    cases r with
    | done v => exact sound_settle hs hu site hl
    | run sub request wait =>
      -- the context waits for its child, which comes into use when the request starts
      have hwait {mode : Mode} (hmode : mode.ctx? = none) (c : CtxId)
          (hc : Uses (⟨cx, n, site, wait⟩ :: waiting) mode c) :
          Uses waiting (.replied cx n site (.ok (.run sub request wait))) c := by
        rcases hc with hc | ⟨who, hwho, rfl⟩
        · exact nomatch hmode.symm.trans hc
        · rcases List.mem_cons.mp hwho with rfl | hwho
          · exact .inl rfl
          · exact .inr ⟨who, hwho, rfl⟩
      dsimp only [delegate]
      split
      · exact .of_world hs (hwait rfl) hl
      · exact .of_world hs (hwait rfl) Heap.live_nil
    | halt => exact ⟨hs, hl⟩

theorem sound_end {r : Except Failure Value} (hm : Sound ⟨w, waiting, .ended cx r⟩) :
    Sound (step .core ⟨w, waiting, .ended cx r⟩) := by
  have hrun := Act.safe_finish hm.world (.inl rfl) hm.flying
  have huses {r' : Except Failure Value} (c : CtxId) (hc : Uses waiting (.outcome r') c) :
      Uses waiting (.ended cx r) c := hc.imp_left fun h => nomatch h
  unfold step
  dsimp only at hrun ⊢
  generalize (Act.finish cx r).run w = r' at hrun ⊢
  cases hrun with
  | done hs' hr => exact .of_world hs' huses hr
  | failed hs' he => exact .of_world hs' huses he

theorem sound_wake {who : Waiting} {r : Except Failure Value}
    (hm : Sound ⟨w, who :: waiting, .outcome r⟩) : Sound (wake .core w waiting who r) := by
  obtain ⟨hs, hl⟩ := hm
  have hcx : Uses (who :: waiting) (.outcome r) who.cx := .inr ⟨who, List.mem_cons_self, rfl⟩
  have huses {mode : Mode} (hmode : mode.ctx? = some who.cx) (c : CtxId)
      (hc : Uses waiting mode c) : Uses (who :: waiting) (.outcome r) c := by
    rcases hc with hc | ⟨other, hother, rfl⟩
    · obtain rfl := Option.some.inj (hc.symm.trans hmode)
      exact hcx
    · exact .inr ⟨other, List.mem_cons_of_mem _ hother, rfl⟩
  unfold wake
  split
  · rename_i b hb
    have hrun := Natives.safe_resume hb hs hcx who.native who.wait hl
    generalize (b.resume who.cx who.native who.wait r).run w = r' at hrun ⊢
    cases hrun with
    | done hs' hr => exact .of_world hs' (huses rfl) hr
    | failed hs' he => exact .of_world hs' (huses rfl) he
  · exact .of_world hs (huses rfl) Heap.live_nil

/-- **A step keeps the machine sound.** -/
theorem Sound.step {m : Machine} (hm : m.Sound) : (m.step .core).Sound := by
  obtain ⟨w, waiting, mode⟩ := m
  cases mode with
  | begin cx request =>
    cases request with
    | call func args me locals => exact sound_start hm
    | resume v => exact hm.flying.2.elim
  | running cx => exact sound_exec hm
  | replied cx n site r => exact sound_reply hm
  | ended cx r => exact sound_end hm
  | outcome r =>
    cases waiting with
    | nil => exact hm
    | cons who waiting => exact sound_wake hm

theorem Sound.run {m : Machine} (hm : m.Sound) (n : Nat) : ((Machine.step .core)^[n] m).Sound := by
  induction n with
  | zero => exact hm
  | succ n ih =>
    rw [Function.iterate_succ_apply']
    exact ih.step

end Machine

/-! ## calls from outside -/

/-- The engines a call can start in: the stock of cells is in order, the contexts referred to are
there, and with nobody inside the gate is down. -/
structure World.InOrder (w : World) : Prop where
  stocked : w.heap.Stocked w.cached
  spare : ∀ cx ∈ w.freeContexts, cx < w.contexts.size
  linked : ∀ cx child, (w.ctx cx).child = some child → child < w.contexts.size
  calm : w.gate.depth = 0 → w.gate.raised = false

theorem World.InOrder.sound {w : World} (hw : w.InOrder) (hroots : ∀ v ∈ w.liveRoots, w.heap.Live v) :
    w.Sound fun _ => False :=
  ⟨hw.stocked, hroots, fun _ h => h.elim, hw.spare, hw.linked, fun _ h => h.elim⟩

theorem World.inOrder_new (options : Options) : (World.new options).InOrder := by
  have hs := sound_new options
  exact ⟨hs.stocked, hs.spare, hs.linked, fun _ => rfl⟩

/-- Leaving a sound engine leaves it in order: the gate has been served if it was up. -/
theorem World.Sound.inOrder_leave {used : CtxId → Prop} {w : World} (hs : w.Sound used) :
    w.leave.InOrder := by
  refine ⟨hs.leave.1.stocked, hs.leave.1.spare, hs.leave.1.linked, fun hdepth => ?_⟩
  unfold World.leave at hdepth ⊢
  dsimp only at hdepth ⊢
  split at hdepth
  · rename_i hpos
    exact absurd hdepth (Nat.ne_of_gt hpos)
  · rename_i hzero
    rw [if_neg hzero]
    by_cases hr : w.gate.raised
    · rw [if_pos hr]
      rfl
    · rw [if_neg hr]
      exact Bool.eq_false_of_not_eq_true hr

/-- Entering does not collect, since the gate is down. -/
theorem World.InOrder.enter {w : World} (hw : w.InOrder) : w.Same w.enter := by
  unfold World.enter
  dsimp only
  split
  · constructor <;> rfl
  · rename_i hdepth
    rw [if_neg]
    · constructor <;> rfl
    · have : w.gate.depth = 0 := by omega
      simp [hw.calm this]

namespace Machine

theorem sound_call {w : World} (hw : w.InOrder) (hroots : ∀ v ∈ w.liveRoots, w.heap.Live v)
    {cx : CtxId} (hcx : cx < w.contexts.size) {func me locals : Value} {args : Array Value}
    (hlive : Request.Live w.heap (.call func args me locals)) :
    Sound ⟨w.enter, [], .begin cx (.call func args me locals)⟩ := by
  refine .of_world ((hw.sound hroots).same hw.enter) (fun c hc => ?_) ?_
  · rcases hc with hc | ⟨_, h, _⟩
    · exact nomatch hc
    · exact nomatch h
  · rw [Mode.Live, hw.enter.contexts, hw.enter.heap]
    exact ⟨hcx, hlive⟩

theorem of_result? {m : Machine} {r : Except Failure Value} (h : m.result? = some r) :
    m.waiting = [] ∧ m.mode = .outcome r := by
  unfold result? at h
  split at h
  · rename_i hwaiting hmode
    obtain rfl := Option.some.inj h
    exact ⟨hwaiting, hmode⟩
  · exact nomatch h

end Machine

namespace Engine

theorem iterate_of_run {lib : Library} {fuel : Nat} {m : Machine} {r : Except Failure Value}
    {w : World} (h : m.run lib fuel = some (r, w)) :
    ∃ n, (Machine.step lib)^[n] m = ⟨w, [], .outcome r⟩ := by
  induction fuel generalizing m with
  | zero => exact nomatch h
  | succ fuel ih =>
    unfold Machine.run at h
    split at h
    · cases h
      exact ⟨0, rfl⟩
    · cases h
    · obtain ⟨n, hn⟩ := ih h
      exact ⟨n + 1, hn⟩

/-- An engine is in order again after a call, and its roots reach no free cell. -/
theorem inOrder_call {w w' : World} (hw : w.InOrder) (hroots : ∀ v ∈ w.liveRoots, w.heap.Live v)
    {cx : CtxId} (hcx : cx < w.contexts.size) {func me locals : Value} {args : Array Value}
    (hlive : Request.Live w.heap (.call func args me locals)) {fuel : Nat}
    {r : Except Failure Value} (hr : call .core fuel cx func args me locals w = some (r, w')) :
    w'.InOrder ∧ ∀ v ∈ w'.liveRoots, w'.heap.Live v := by
  obtain ⟨⟨r', w₁⟩, hrun, he⟩ := Option.map_eq_some_iff.mp hr
  obtain ⟨n, hn⟩ := iterate_of_run hrun
  have hend := (Machine.sound_call hw hroots hcx hlive).run n
  rw [hn] at hend
  cases he
  exact ⟨hend.world.inOrder_leave, hend.world.leave.1.live⟩

end Engine

end ScriptEngine
