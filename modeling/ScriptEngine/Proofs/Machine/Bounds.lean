import ScriptEngine.Proofs.Machine.Operands
import ScriptEngine.Proofs.Machine.Running
import ScriptEngine.Proofs.Natives.Habits

/-!
# Runs stay in bounds

A machine works on a chain of contexts: the innermost one runs, the others wait for their natives.
Each of them is ready to go on: the one that runs with its instruction, those that wait with a result
in the place of the operands of the call.

* `Machine.Steady`         the invariant of a machine;
* `Machine.Steady.step`    a step keeps it;
* `Machine.Steady.run`     so do any number of steps;
* `World.Reached`          the engines a host can come to;
* `Context.InBounds`       the instruction a context is at finds all it uses;
* `Machine.run_in_bounds`  in every state of every run, and no failure is internal.
-/

namespace ScriptEngine

open World (ctx_modifyCtx_self)

namespace World

variable {w w' : World} {cx : CtxId} {outer : List CtxId}

theorem Fit.join (hw : w.Fit outer) (hh : w.Held (cx :: outer)) : w.Fit (cx :: outer) :=
  ⟨hw.kin, hh, hw.typed, fun c hc => hw.rested c fun h => hc (List.mem_cons_of_mem _ h)⟩

/-- The innermost context at work comes to rest. -/
theorem Fit.release (hw : w.Fit (cx :: outer)) (hr : (w.ctx cx).Rested) : w.Fit outer := by
  refine ⟨hw.kin, hw.chain.tail, hw.typed, fun c hc => ?_⟩
  by_cases h : c = cx
  · rw [h]
    exact hr
  · exact hw.rested c fun hm => (List.mem_cons.mp hm).elim h hc

/-- A change of the innermost context touches no other one. -/
theorem Fit.same_modifyCtx (hw : w.Fit (cx :: outer)) (f : Context → Context) {c : CtxId}
    (hc : c ∈ outer) : (w.ctx c).SameStacks ((w.modifyCtx cx f).ctx c) := by
  rw [ctx_modifyCtx_of_ne (hw.ne hc)]
  exact .refl _

end World

/-! ## starting -/

namespace Act

/-- An activity that changes of a context at most its operands. -/
structure Loose {α : Type} (cx : CtxId) (outer : List CtxId) (x : Act α) : Prop where
  levelled : ∀ w, w.Fit (cx :: outer) → ∃ n, Levelled cx outer w n (fun _ => True) (x.run w)

/-- What a call has led to on a context without frames: there is one frame to run, or a native was
started. -/
inductive Opened (cx : CtxId) (outer : List CtxId) (w : World) :
    EStateM.Result Failure World Begun → Prop
  | frame {w' : World} (moves : w.Moves cx outer w') (ready : (w'.ctx cx).Ready)
    (single : (fromTop (w'.ctx cx).frames).tail = []) : Opened cx outer w (.ok .frame w')
  | native {n : Native} {r : Reply} {w' : World} (moves : w.Moves cx outer w')
    (none : (w'.ctx cx).frames = #[]) : Opened cx outer w (.ok (.native n r) w')
  | failed {e : Failure} {w' : World} (moves : w.Moves cx outer w') (none : (w'.ctx cx).frames = #[])
    (he : e.External) : Opened cx outer w (.error e w')

section

variable {α : Type} {cx : CtxId} {outer : List CtxId} {w w' : World} {lib : Library}

theorem Calm.loose {x : Act α} (hx : Calm (cx :: outer) x) : Loose cx outer x := by
  refine ⟨fun w hw => ⟨(w.ctx cx).stack.size, ?_⟩⟩
  have hled := hx.led w hw
  cases hr : x.run w with
  | ok a w' =>
    rw [hr] at hled
    cases hled with
    | done h => exact .done h.moves h.head.level trivial
  | error e w' =>
    rw [hr] at hled
    cases hled with
    | failed h he => exact .failed h.moves h.head.frames he

theorem loose_push (v : Value) : Loose cx outer (push cx v) := by
  refine ⟨fun w hw => ⟨(w.ctx cx).stack.size + 1, ?_⟩⟩
  unfold push
  show Levelled cx outer w _ _ (EStateM.run (ite _ _ _) w)
  split
  · exact .failed (.refl hw) rfl id
  · refine .done ?_ ?_ trivial
    · exact hw.moves_modifyCtx (fun _ => rfl) (fun _ => rfl) (fun _ => rfl) fun _ => rfl
    · rw [ctx_modifyCtx_self hw.lt]
      exact ⟨Array.size_push .., rfl, rfl, rfl⟩

theorem Opened.after {r : EStateM.Result Failure World Begun} (hm : w.Moves cx outer w')
    (h : Opened cx outer w' r) : Opened cx outer w r := by
  cases h with
  | frame moves ready single => exact .frame (hm.trans moves) ready single
  | native moves none => exact .native (hm.trans moves) none
  | failed moves none he => exact .failed (hm.trans moves) none he

/-- What follows an activity on the operands, in a context without frames. -/
theorem Loose.opened {x : Act α} {g : α → Act Begun} (hx : Loose cx outer x)
    (hw : w.Fit (cx :: outer)) (hf : (w.ctx cx).frames = #[])
    (hg : ∀ a w', w.Moves cx outer w' → (w'.ctx cx).frames = #[] →
      Opened cx outer w' ((g a).run w')) :
    Opened cx outer w ((x >>= g).run w) := by
  obtain ⟨n, hled⟩ := hx.levelled w hw
  cases hr : x.run w with
  | ok a w' =>
    rw [hr] at hled
    rw [run_bind_of_ok hr]
    cases hled with
    | done moves level _ => exact (hg a w' moves (level.frames.trans hf)).after moves
  | error e w' =>
    rw [hr] at hled
    rw [run_bind_of_error hr]
    cases hled with
    | failed moves same he => exact .failed moves (same.trans hf) he

theorem opened_heap {g : Heap → Act Begun} (h : Opened cx outer w ((g w.heap).run w)) :
    Opened cx outer w ((heap >>= g).run w) := h

theorem opened_pushAll (vs : List Value) {g : Unit → Act Begun} (hw : w.Fit (cx :: outer))
    (hf : (w.ctx cx).frames = #[])
    (hg : ∀ w', w.Moves cx outer w' → (w'.ctx cx).frames = #[] → Opened cx outer w' ((g ()).run w')) :
    Opened cx outer w (((vs.forM fun v => push cx v) >>= g).run w) := by
  induction vs generalizing w with
  | nil => exact hg w (.refl hw) hf
  | cons v vs ih =>
    show Opened cx outer w (((push cx v >>= fun _ => vs.forM fun v => push cx v) >>= g).run w)
    rw [bind_assoc]
    refine (loose_push v).opened hw hf fun _ w₁ moves hf₁ => ?_
    exact ih moves.fit hf₁ fun w' moves' => hg w' (moves.trans moves')

theorem opened_frame (hw : w.Fit (cx :: outer)) (hf : (w.ctx cx).frames = #[])
    (hresume : (w.ctx cx).resumeAt = none) {code : Loaded} (hcode : code.Typed)
    (func locals scope : Value) (args : Array Value) (me : Value) :
    Opened cx outer w (EStateM.run (do
      bindArgs cx code locals args me
      cut cx 0
      pushFrame cx func code locals scope 0
      return .frame) w) := by
  refine (calm_bindArgs ..).loose.opened hw hf fun _ w₁ moves hf₁ => ?_
  have hcut := moves.fit.moves_modifyCtx (f := fun c => { c with stack := c.stack.shrink 0 })
    (fun _ => rfl) (fun _ => rfl) (fun _ => rfl) fun _ => rfl
  refine Opened.after hcut ?_
  have hctx := ctx_modifyCtx_self moves.fit.lt fun c => { c with stack := c.stack.shrink 0 }
  generalize hw₂ : w₁.modifyCtx cx (fun c => { c with stack := c.stack.shrink 0 }) = w₂ at hcut hctx
  unfold pushFrame
  show Opened cx outer w₂ (EStateM.run (ite _ _ _ >>= fun _ => _)
    (w₁.modifyCtx cx fun c => { c with stack := c.stack.shrink 0 }))
  rw [hw₂]
  split
  · exact .failed (.refl hcut.fit) (by rw [hctx]; exact hf₁) id
  · refine .frame
      (hcut.fit.moves_modifyCtx (fun _ => rfl) (fun _ => rfl) (fun _ => rfl) fun _ => rfl) ?_ ?_
    rotate_left
    · show (fromTop ((w₂.modifyCtx cx _).ctx cx).frames).tail = []
      rw [ctx_modifyCtx_self hcut.fit.lt, hctx]
      show (fromTop ((w₁.ctx cx).frames.push _)).tail = []
      rw [hf₁]
      rfl
    show ((w₂.modifyCtx cx _).ctx cx).Ready
    rw [ctx_modifyCtx_self hcut.fit.lt, hctx]
    refine ⟨⟨Array.push_ne_empty, ?_⟩, moves.resumeAt.trans hresume⟩
    show Calls (fromTop ((w₁.ctx cx).frames.push _)) (fromTop (w₁.ctx cx).marks)
      ((w₁.ctx cx).stack.shrink 0).size
    rw [hf₁, fromTop_push]
    refine .cons .none hcode (standing_start _) ?_ rfl (length_fromTop _) .nil
    rw [Array.size_shrink]
    exact Nat.zero_min _

theorem typed_of_callee_bare {h : Heap} (ht : h.Typed) {func : Value} {code : Loaded}
    (hc : h.callee func = .bare code) : code.Typed := by
  have hbody := ht.bodyOf func
  rw [bodyOf_of_callee_bare hc] at hbody
  exact hbody

/-- **Starting a call** on a context without frames. -/
theorem opened_beginCall (hlib : lib.Calm) (hw : w.Fit (cx :: outer))
    (hf : (w.ctx cx).frames = #[]) (hresume : (w.ctx cx).resumeAt = none) (func : Value)
    (args : Array Value) (me locals : Value) :
    Opened cx outer w ((beginCall lib cx func args me locals).run w) := by
  unfold beginCall
  refine (loose_push func).opened hw hf fun _ w₁ moves₁ hf₁ => ?_
  rw [forM_toList]
  refine opened_pushAll _ moves₁.fit hf₁ fun w₂ moves₂ hf₂ => ?_
  refine (loose_push me).opened moves₂.fit hf₂ fun _ w₃ moves₃ hf₃ => ?_
  refine (loose_push locals).opened moves₃.fit hf₃ fun _ w₄ moves₄ hf₄ => ?_
  have hresume₄ : (w₄.ctx cx).resumeAt = none :=
    (((moves₁.trans moves₂).trans moves₃).trans moves₄).resumeAt.trans hresume
  refine opened_heap ?_
  cases hc : w₄.heap.callee func with
  | native n =>
    refine (calm_startNative hlib n me args).loose.opened moves₄.fit hf₄ fun r w₅ moves hf₅ => ?_
    exact .native (.refl moves.fit) hf₅
  | script code scope =>
    have hcode := typed_of_callee moves₄.fit.typed hc
    refine opened_heap ?_
    dsimp only
    split
    · exact opened_frame moves₄.fit hf₄ hresume₄ hcode ..
    · refine calm_newHash.loose.opened moves₄.fit hf₄ fun ns w₅ moves hf₅ => ?_
      exact opened_frame moves.fit hf₅ (moves.resumeAt.trans hresume₄) hcode ..
  | bare code =>
    have hcode := typed_of_callee_bare moves₄.fit.typed hc
    refine opened_heap ?_
    dsimp only
    have hbound {w' : World} (moves' : w₄.Moves cx outer w') (hf' : (w'.ctx cx).frames = #[])
        (ns : Value) : Opened cx outer w' (EStateM.run (do
          let bound ← newFunc cx func .nil
          bindArgs cx code ns args me
          cut cx 0
          pushFrame cx bound code ns .nil 0
          return .frame) w') := by
      refine (calm_newFunc ..).loose.opened moves'.fit hf' fun bound w₅ moves hf₅ => ?_
      exact opened_frame moves.fit hf₅ ((moves'.trans moves).resumeAt.trans hresume₄) hcode ..
    split
    · exact hbound (.refl moves₄.fit) hf₄ _
    · refine calm_newHash.loose.opened moves₄.fit hf₄ fun ns w₅ moves hf₅ => ?_
      exact hbound moves hf₅ ns
  | none =>
    refine opened_heap ?_
    dsimp only
    split
    · exact .failed (.refl moves₄.fit) hf₄ id
    · refine calm_newHash.loose.opened moves₄.fit hf₄ fun ns w₅ moves hf₅ => ?_
      exact .failed (.refl moves.fit) hf₅ id

end

end Act

/-! ## the machine -/

/-- A context can go on with the result of a native that was called at the site. -/
def Context.At (c : Context) : Site → Prop
  | .request => c.resumeAt = none
  | .instruction base => c.resumeAt = none ∧ c.Parked base

theorem Context.At.same {c c' : Context} {site : Site} (h : c.At site) (hs : c.SameStacks c') :
    c'.At site := by
  cases site with
  | request => exact hs.resumeAt.trans h
  | instruction base => exact ⟨hs.resumeAt.trans h.1, hs.parked h.2⟩

theorem Context.At.resumeAt {c : Context} {site : Site} (h : c.At site) : c.resumeAt = none := by
  cases site with
  | request => exact h
  | instruction base => exact h.1

def Mode.External : Mode → Prop
  | begin _ _ | running _ => True
  | replied _ _ _ r => Act.ReplyExternal r
  | ended _ r | outcome r => OutcomeExternal r

/-- The contexts at work are `outer` and the one the mode works on, and that one can go on. -/
def Mode.Works (w : World) (outer : List CtxId) : Mode → Prop
  | begin cx _ => w.Fit outer ∧ w.Held (cx :: outer)
  | running cx => w.Fit (cx :: outer) ∧ (w.ctx cx).Ready
  | replied cx _ site _ => w.Fit (cx :: outer) ∧ (w.ctx cx).At site
  | ended cx _ => w.Fit (cx :: outer) ∧ (w.ctx cx).Rested
  | outcome _ => w.Fit outer

namespace Machine

/-- The contexts that wait, innermost first. -/
def outer (waiting : List Waiting) : List CtxId := waiting.map (·.cx)

/-- The context that the next step works on. -/
def active (m : Machine) : Option CtxId :=
  match m.mode with
  | .begin cx _ | .running cx | .replied cx _ _ _ | .ended cx _ => some cx
  | .outcome _ => m.waiting.head?.map (·.cx)

/-- Each native that waits can be given its result. -/
def Waits (w : World) (waiting : List Waiting) : Prop :=
  ∀ who ∈ waiting, (w.ctx who.cx).At who.site

/-- All contexts at work can go on, and no failure under way is internal. -/
structure Steady (m : Machine) : Prop where
  works : m.mode.Works m.world (outer m.waiting)
  waits : Waits m.world m.waiting
  external : m.mode.External

section

variable {lib : Library} {w w' : World} {waiting : List Waiting} {cx : CtxId}

theorem Waits.same (h : Waits w waiting)
    (hs : ∀ c ∈ outer waiting, (w.ctx c).SameStacks (w'.ctx c)) : Waits w' waiting :=
  fun who hwho => (h who hwho).same (hs who.cx (List.mem_map_of_mem hwho))

theorem Waits.moves (h : Waits w waiting) (hm : w.Moves cx (outer waiting) w') : Waits w' waiting :=
  h.same hm.same

/-- The context of a request loses what it had, and its failure cannot be resumed any more. -/
theorem run_prepareCall (hw : w.Fit (cx :: outer waiting)) (h : Waits w waiting) :
    ∃ w', (Act.prepareCall cx).run w = .ok () w' ∧ w'.Fit (cx :: outer waiting) ∧
      Waits w' waiting ∧ (w'.ctx cx).frames = #[] ∧ (w'.ctx cx).resumeAt = none := by
  obtain ⟨w₁, hrun, hkeeps, -⟩ := hw.freeChild
  refine ⟨w₁.modifyCtx cx fun c => { c.clearStacks with error := none }, ?_, ?_, ?_, ?_⟩
  · rw [Act.prepareCall, run_bind_of_ok hrun]
    rfl
  · exact hkeeps.fit.modifyCtx (fun _ => rfl) (fun _ => rfl) fun _ => rfl
  · exact (h.moves hkeeps.moves).same fun c hc => hkeeps.fit.same_modifyCtx _ hc
  · rw [ctx_modifyCtx_self hkeeps.fit.lt]
    exact ⟨rfl, rfl⟩

theorem steady_call (hlib : lib.Calm) {func me locals : Value} {args : Array Value}
    (hm : Steady ⟨w, waiting, .begin cx (.call func args me locals)⟩) :
    Steady (start lib w waiting cx (.call func args me locals)) := by
  obtain ⟨⟨hw, hheld⟩, hwaits, -⟩ := hm
  obtain ⟨w₁, hrun, hw₁, hwaits₁, hframes, hresume⟩ := run_prepareCall (hw.join hheld) hwaits
  have hopened := Act.opened_beginCall hlib hw₁ hframes hresume func args me locals
  unfold start
  dsimp only
  rw [run_bind_of_ok hrun]
  generalize (Act.beginCall lib cx func args me locals).run w₁ = r at hopened ⊢
  cases hopened with
  | frame moves ready _ => exact ⟨⟨moves.fit, ready⟩, hwaits₁.moves moves, trivial⟩
  | native moves _ =>
    exact ⟨⟨moves.fit, moves.resumeAt.trans hresume⟩, hwaits₁.moves moves, nofun⟩
  | failed moves _ he =>
    refine ⟨⟨moves.fit, .of_none (moves.resumeAt.trans hresume)⟩, hwaits₁.moves moves, ?_⟩
    rintro _ ⟨⟩
    exact he

/-- A value put at the height `base` of a context that is parked there. -/
theorem parked_result (hw : w.Fit (cx :: outer waiting)) (h : Waits w waiting)
    (hresume : (w.ctx cx).resumeAt = none) {base : Nat} (hp : (w.ctx cx).Parked base) (v : Value) :
    (∃ w', (do Act.cut cx base; Act.push cx v : Act Unit).run w = .ok () w' ∧
      Steady ⟨w', waiting, .running cx⟩ ∧ (w'.ctx cx).frames = (w.ctx cx).frames) ∨
    ∃ e w', (do Act.cut cx base; Act.push cx v : Act Unit).run w = .error e w' ∧ e.External ∧
      w.Moves cx (outer waiting) w' ∧ (w'.ctx cx).frames = (w.ctx cx).frames := by
  have hsteps : Act.Steps cx (outer waiting) (w.ctx cx).stack.size (base + 1) (fun _ => True)
      (do Act.cut cx base; Act.push cx v : Act Unit) :=
    (Act.steps_cut (Nat.le_of_lt hp.room)).bind fun _ _ => Act.steps_push v
  have hled := hsteps.levelled w hw rfl hp.goes.1
  generalize (do Act.cut cx base; Act.push cx v : Act Unit).run w = r at hled ⊢
  cases hled with
  | done moves level _ =>
    refine .inl ⟨_, rfl, ⟨⟨moves.fit, ?_, level.resumeAt.trans hresume⟩, h.moves moves, trivial⟩, level.frames⟩
    rw [Context.Goes, level.size, level.frames, level.marks]
    exact hp.goes
  | failed moves same he => exact .inr ⟨_, _, rfl, he, moves, same⟩

/-- A context that is resumed, or that cannot be, keeps its frames. -/
theorem steady_resume_frames (lib : Library) {v : Value} (hm : Steady ⟨w, waiting, .begin cx (.resume v)⟩) :
    Steady (start lib w waiting cx (.resume v)) ∧
      ((start lib w waiting cx (.resume v)).world.ctx cx).frames = (w.ctx cx).frames := by
  obtain ⟨⟨hw, hheld⟩, hwaits, -⟩ := hm
  have hrested : (w.ctx cx).Rested := by
    by_cases hc : cx ∈ outer waiting
    · exact absurd rfl ((hw.join hheld).ne hc)
    · exact hw.rested cx hc
  have hlt := (hw.join hheld).lt
  -- from now on the context cannot be resumed a second time
  have hw₁ : (w.modifyCtx cx fun c => { c with resumeAt := none }).Fit (cx :: outer waiting) :=
    (hw.join hheld).modifyCtx (fun _ => rfl) (fun _ => rfl) fun _ => rfl
  have hwaits₁ : Waits (w.modifyCtx cx fun c => { c with resumeAt := none }) waiting :=
    hwaits.same fun c hc => (hw.join hheld).same_modifyCtx _ hc
  have hctx := ctx_modifyCtx_self hlt fun c => { c with resumeAt := none }
  unfold start
  dsimp only
  generalize w.modifyCtx cx (fun c => { c with resumeAt := none }) = w₁ at hw₁ hwaits₁ hctx ⊢
  have hresume : (w₁.ctx cx).resumeAt = none := by rw [hctx]
  have hframes : (w₁.ctx cx).frames = (w.ctx cx).frames := by rw [hctx]
  split
  · rename_i base hbase
    have hparked : (w₁.ctx cx).Parked base := by
      split at hbase
      · exact nomatch hbase
      · rename_i hne
        have hp := hrested base hbase fun h0 => hne (by rw [h0]; rfl)
        rw [hctx]
        exact ⟨hp.goes, hp.room⟩
    obtain ⟨w₂, hrun, hkeeps, -⟩ := hw₁.freeChild
    have hstill := hkeeps.fit.still
      (World.still_modifyCtx cx (f := fun c => { c with error := none }) fun _ => rfl)
    have hkeeps' := hkeeps.trans hstill
    have hprepare : (Act.prepareResume cx base v).run w₁ = (do Act.cut cx base; Act.push cx v :
        Act Unit).run (w₂.modifyCtx cx fun c => { c with error := none }) := by
      rw [Act.prepareResume, run_bind_of_ok hrun]
      rfl
    rw [hprepare]
    rcases parked_result hkeeps'.fit (hwaits₁.moves hkeeps'.moves)
      (hkeeps'.head.resumeAt.trans hresume) (hkeeps'.head.parked hparked) v with
      ⟨w₃, hr, hsteady, hsame⟩ | ⟨e, w₃, hr, he, moves, hsame⟩
    · rw [hr]
      exact ⟨hsteady, hsame.trans (hkeeps'.head.frames.trans hframes)⟩
    · rw [hr]
      have hnone := moves.resumeAt.trans (hkeeps'.head.resumeAt.trans hresume)
      refine ⟨⟨moves.fit.release (.of_none hnone), (hwaits₁.moves hkeeps'.moves).moves moves, ?_⟩,
        hsame.trans (hkeeps'.head.frames.trans hframes)⟩
      rintro _ ⟨⟩
      exact he
  · refine ⟨⟨hw₁.release (.of_none hresume), hwaits₁, ?_⟩, hframes⟩
    rintro _ ⟨⟩
    exact id

theorem steady_exec (hlib : lib.Calm) (hm : Steady ⟨w, waiting, .running cx⟩) :
    Steady (step lib ⟨w, waiting, .running cx⟩) := by
  obtain ⟨⟨hw, hready⟩, hwaits, -⟩ := hm
  obtain ⟨f, fs, i, -, -, -, hperformed⟩ := Act.performed_exec hlib hw hready
  have hnone {w' : World} (moves : w.Moves cx (outer waiting) w') : (w'.ctx cx).resumeAt = none :=
    moves.resumeAt.trans hready.resume
  unfold step
  dsimp only
  generalize (Act.exec lib cx).run w = r at hperformed ⊢
  cases hperformed with
  | next moves ready _ => exact ⟨⟨moves.fit, ready⟩, hwaits.moves moves, trivial⟩
  | returned moves _ =>
    exact ⟨⟨moves.fit, .of_none (hnone moves)⟩, hwaits.moves moves, nofun⟩
  | native moves parked _ hr =>
    exact ⟨⟨moves.fit, hnone moves, parked⟩, hwaits.moves moves, hr⟩
  | failed moves _ he =>
    refine ⟨⟨moves.fit, .of_none (hnone moves)⟩, hwaits.moves moves, ?_⟩
    rintro _ ⟨⟩
    exact he

theorem steady_settle (hw : w.Fit (cx :: outer waiting)) (h : Waits w waiting) {site : Site}
    (hat : (w.ctx cx).At site) (v : Value) : Steady (settle w waiting cx site v) := by
  cases site with
  | request =>
    have moves := hw.moves_modifyCtx (f := fun c => { c with stack := #[] }) (fun _ => rfl)
      (fun _ => rfl) (fun _ => rfl) fun _ => rfl
    exact ⟨⟨moves.fit, .of_none (moves.resumeAt.trans hat)⟩, h.moves moves, nofun⟩
  | instruction base =>
    unfold settle
    dsimp only
    rcases parked_result hw h hat.1 hat.2 v with ⟨w', hr, hsteady, -⟩ | ⟨e, w', hr, he, moves, -⟩
    · rw [hr]
      exact hsteady
    · rw [hr]
      refine ⟨⟨moves.fit, .of_none (moves.resumeAt.trans hat.1)⟩, h.moves moves, ?_⟩
      rintro _ ⟨⟩
      exact he

/-- A failed native leaves a context that can be resumed where the native was called. -/
theorem steady_upset (hw : w.Fit (cx :: outer waiting)) (h : Waits w waiting) {site : Site}
    (hat : (w.ctx cx).At site) {e : Failure} (he : e.External) :
    Steady (upset w waiting cx site e) := by
  cases site with
  | request =>
    refine ⟨⟨hw, .of_none hat⟩, h, ?_⟩
    rintro _ ⟨⟩
    exact he
  | instruction base =>
    refine ⟨⟨hw.modifyCtx (fun _ => rfl) (fun _ => rfl) fun _ => rfl, ?_⟩,
      h.same fun c hc => hw.same_modifyCtx _ hc, ?_⟩
    · show ((w.modifyCtx cx _).ctx cx).Rested
      rw [ctx_modifyCtx_self hw.lt]
      rintro _ ⟨⟩ -
      exact ⟨hat.2.goes, hat.2.room⟩
    · rintro _ ⟨⟩
      exact he

theorem steady_delegate (hw : w.Fit (cx :: outer waiting)) (h : Waits w waiting) {site : Site}
    (hat : (w.ctx cx).At site) (n : Native) (sub : CtxId) (request : Request) (wait : Wait) :
    Steady (delegate w waiting cx n site sub request wait) := by
  have hwaits : Waits w (⟨cx, n, site, wait⟩ :: waiting) := by
    intro who hwho
    rcases List.mem_cons.mp hwho with rfl | hwho
    · exact hat
    · exact h who hwho
  unfold delegate
  dsimp only
  split
  · rename_i hchild
    exact ⟨⟨hw, .child (eq_of_beq hchild) hw.chain⟩, hwaits, trivial⟩
  · refine ⟨hw, hwaits, ?_⟩
    rintro _ ⟨⟩
    exact id

theorem steady_reply {n : Native} {site : Site} {r : Except Failure Reply}
    (hm : Steady ⟨w, waiting, .replied cx n site r⟩) :
    Steady (step lib ⟨w, waiting, .replied cx n site r⟩) := by
  obtain ⟨⟨hw, hat⟩, hwaits, hr⟩ := hm
  cases r with
  | error e => exact steady_upset hw hwaits hat (hr e rfl)
  | ok reply =>
    cases reply with
    | done v => exact steady_settle hw hwaits hat v
    | run sub request wait => exact steady_delegate hw hwaits hat n sub request wait
    | halt => exact ⟨⟨hw, hat⟩, hwaits, hr⟩

theorem steady_end {r : Except Failure Value} (hm : Steady ⟨w, waiting, .ended cx r⟩) :
    Steady (step lib ⟨w, waiting, .ended cx r⟩) := by
  obtain ⟨⟨hw, hrested⟩, hwaits, hr⟩ := hm
  unfold step
  dsimp only
  cases r with
  | ok v =>
    have hw₁ : (w.modifyCtx cx Context.clearStacks).Fit (cx :: outer waiting) :=
      hw.modifyCtx (fun _ => rfl) (fun _ => rfl) fun _ => rfl
    have hwaits₁ : Waits (w.modifyCtx cx Context.clearStacks) waiting :=
      hwaits.same fun c hc => hw.same_modifyCtx _ hc
    obtain ⟨w₂, hrun, hkeeps, -⟩ := hw₁.freeChild
    have hfinish : (Act.finish cx (.ok v)).run w = .ok (.ok v) w₂ := by
      show EStateM.run (Act.freeChild cx >>= fun _ => pure (Except.ok v))
        (w.modifyCtx cx Context.clearStacks) = _
      rw [run_bind_of_ok hrun]
      rfl
    rw [hfinish]
    refine ⟨hkeeps.fit.release (.of_none ?_), hwaits₁.moves hkeeps.moves, nofun⟩
    rw [hkeeps.head.resumeAt, ctx_modifyCtx_self hw.lt]
    rfl
  | error e =>
    have hkeeps := hw.still (World.still_modifyCtx cx
      (f := fun c => { c with error := some { e with trace := e.trace ++ (w.ctx cx).places } })
      fun _ => rfl)
    refine ⟨hkeeps.fit.release (hkeeps.head.rested hrested), hwaits.moves hkeeps.moves, ?_⟩
    rintro _ ⟨⟩
    exact hr e rfl

theorem steady_wake (hlib : lib.Calm) {who : Waiting} {r : Except Failure Value}
    (hm : Steady ⟨w, who :: waiting, .outcome r⟩) : Steady (wake lib w waiting who r) := by
  obtain ⟨hw, hwaits, hr⟩ := hm
  have hat : (w.ctx who.cx).At who.site := hwaits who List.mem_cons_self
  have hrest : Waits w waiting := fun other h => hwaits other (List.mem_cons_of_mem _ h)
  unfold wake
  split
  · rename_i b hb
    have hled := (hlib.resume hb who.cx (outer waiting) who.native who.wait r hr).led w hw
    generalize (b.resume who.cx who.native who.wait r).run w = r' at hled ⊢
    cases hled with
    | done h => exact ⟨⟨h.fit, hat.same h.head⟩, hrest.moves h.moves, nofun⟩
    | failed h he =>
      refine ⟨⟨h.fit, hat.same h.head⟩, hrest.moves h.moves, ?_⟩
      rintro _ ⟨⟩
      exact he
  · refine ⟨⟨hw, hat⟩, hrest, ?_⟩
    rintro _ ⟨⟩
    exact id

theorem Steady.step (hlib : lib.Calm) {m : Machine} (hm : m.Steady) : (m.step lib).Steady := by
  obtain ⟨w, waiting, mode⟩ := m
  cases mode with
  | begin cx request =>
    cases request with
    | call func args me locals => exact steady_call hlib hm
    | resume v => exact (steady_resume_frames lib hm).1
  | running cx => exact steady_exec hlib hm
  | replied cx n site r => exact steady_reply hm
  | ended cx r => exact steady_end hm
  | outcome r =>
    cases waiting with
    | nil => exact hm
    | cons who waiting => exact steady_wake hlib hm

theorem Steady.run (hlib : lib.Calm) {m : Machine} (hm : m.Steady) (n : Nat) :
    ((Machine.step lib)^[n] m).Steady := by
  induction n with
  | zero => exact hm
  | succ n ih =>
    rw [Function.iterate_succ_apply']
    exact ih.step hlib

end

end Machine

/-! ## engines -/

namespace World

/-- A context that a request can be made on. -/
structure InUse (w : World) (cx : CtxId) : Prop where
  lt : cx < w.contexts.size
  used : cx ∉ w.freeContexts

/-- The engines a host can come to.  Besides making, using and dropping contexts it may do inside the
engine whatever leaves the stacks alone, such as compiling a text. -/
inductive Reached (lib : Library) : World → Prop
  | new (options : Options) : Reached lib (.new options)
  | newContext {w : World} (h : Reached lib w) : Reached lib w.newContext.2
  | drop {w : World} (h : Reached lib w) {cx : CtxId} (hcx : w.InUse cx) (hroot : w.Unlinked cx) :
    Reached lib (w.freeContext cx)
  | visit {w : World} (h : Reached lib w) {α : Type} {x : Act α} (hx : Act.Calm [] x) :
    Reached lib (Engine.visit x w).2
  | request {w w' : World} (h : Reached lib w) {cx : CtxId} (hcx : w.InUse cx) {q : Request}
    {fuel : Nat} {r : Except Failure Value} (hr : Engine.request lib fuel cx q w = some (r, w')) :
    Reached lib w'

variable {w : World} {cx : CtxId} {lib : Library}

theorem fit_new (options : Options) : (World.new options).Fit [] := by
  have hctx (c : CtxId) : (World.new options).ctx c = {} := rfl
  refine ⟨⟨?_, ?_, ?_, ?_, ?_, ?_, List.nodup_nil⟩, .nil, ?_, fun c _ => .of_none rfl⟩
  · exact fun c d h => nomatch (congrArg Context.child (hctx c)).symm.trans h
  · exact fun c d h => nomatch (congrArg Context.child (hctx c)).symm.trans h
  · exact fun c d h => nomatch (congrArg Context.child (hctx c)).symm.trans h
  · exact fun c d h => nomatch (congrArg Context.child (hctx c)).symm.trans h
  · exact fun c hc => nomatch hc
  · exact fun c hc => nomatch hc
  · exact (((Heap.typed_new _).intern _).intern _).intern _

/-- Whatever a host does inside, the contexts it names stay at work. -/
theorem Fit.visit {held : List CtxId} (hw : w.Fit held) {α : Type} {x : Act α}
    (hx : Act.Calm held x) : (Engine.visit x w).2.Fit held := by
  have hled := hx.led w.enter (hw.still w.still_enter).fit
  unfold Engine.visit
  generalize x.run w.enter = r at hled ⊢
  cases hled with
  | done h => exact (h.fit.still (still_leave _)).fit
  | failed h he => exact (h.fit.still (still_leave _)).fit

theorem Fit.held (hw : w.Fit []) (hcx : w.InUse cx) : w.Fit [cx] :=
  hw.join (.root hcx.lt hcx.used (clear_nil w cx) .nil)

theorem Fit.inUse (hw : w.Fit [cx]) : w.InUse cx :=
  have h := hw.chain.in_use hw.kin List.mem_cons_self
  ⟨h.1, h.2⟩

theorem Fit.steady (hw : w.Fit []) (hcx : w.InUse cx) (q : Request) :
    Machine.Steady ⟨w.enter, [], .begin cx q⟩ := by
  have hentered := ((hw.held hcx).still w.still_enter).fit
  exact ⟨⟨(hw.still w.still_enter).fit, hentered.chain⟩, nofun, trivial⟩

/-- **An engine that a host has come to is idle**, and all its code is typed. -/
theorem Reached.fit (hlib : lib.Calm) (h : w.Reached lib) : w.Fit [] := by
  induction h with
  | new options => exact fit_new options
  | newContext _ ih => exact ih.keeps_newContext.fit
  | drop _ hcx hroot ih => exact (ih.keeps_freeContext hcx.lt hroot (clear_nil _ _)).fit
  | visit _ hx ih => exact ih.visit hx
  | @request w w' _ cx hcx q fuel r hr ih =>
    obtain ⟨⟨r', w₁⟩, hrun, he⟩ := Option.map_eq_some_iff.mp hr
    obtain ⟨n, hn⟩ := Engine.iterate_of_run hrun
    have hend := (ih.steady hcx q).run hlib n
    rw [hn] at hend
    cases he
    exact (hend.works.still (still_leave w₁)).fit

end World

/-- The instruction a context is at is there, and so are the constant it names with its hash and the
operands it uses. -/
structure Context.InBounds (c : Context) (f : Frame) (op : Op) (arg : Nat) : Prop where
  frame : c.frames.back? = some f
  word : f.code.words[f.ip]? = some op.word
  operand : op.hasOperand = true → ∃ x : UInt16, f.code.words[f.ip + 1]? = some x ∧ x.toNat = arg
  const : op.takesConst = true → arg < f.code.consts.size ∧ arg < f.code.hashes.size
  takes : op.takes arg ≤ c.stack.size

theorem Context.Ready.inBounds {c : Context} (h : c.Ready) : ∃ f op arg, c.InBounds f op arg := by
  obtain ⟨f, fs, rest, i, t, hframes, hplace, hin, hconst, hpoised⟩ := h.poised
  -- `Poised` is about the context with its frame moved on
  have hat := hpoised
    { c with frames := c.frames.modify (c.frames.size - 1) fun g => { g with ip := f.ip + i.op.length } }
    (fromTop_modify_last hframes _) rfl rfl rfl
  refine ⟨f, i.op, i.arg, by rw [back?_eq_head?, hframes]; rfl, hplace ▸ hin.word, fun ho => ?_,
    fun hc => ⟨hconst hc, ?_⟩, hat.enough_takes⟩
  · have hroom := hin.room
    have harg := hin.arg
    rw [Op.length, if_pos ho, hplace] at hroom
    rw [Op.argAt, if_pos ho, hplace] at harg
    have hlt : f.ip + 1 < f.code.words.size := hroom
    rw [Array.getElem?_eq_getElem hlt] at harg ⊢
    exact ⟨_, rfl, harg⟩
  · rw [hat.code.hashes]
    exact hconst hc

namespace Machine

/-- **No run leaves its bounds.**  In every state of every run of a request, on any engine a host can
come to, no failure is internal, and the context that runs finds all that its instruction uses. -/
theorem run_in_bounds {lib : Library} (hlib : lib.Calm) {w : World} (hw : w.Reached lib)
    {cx : CtxId} (hcx : w.InUse cx) (q : Request) (n : Nat) :
    let m := (step lib)^[n] ⟨w.enter, [], .begin cx q⟩
    m.mode.External ∧ ∀ c, m.mode = .running c → ∃ f op arg, (m.world.ctx c).InBounds f op arg := by
  intro m
  have hm : m.Steady := ((hw.fit hlib).steady hcx q).run hlib n
  refine ⟨hm.external, fun c hc => ?_⟩
  have hworks := hm.works
  rw [hc] at hworks
  exact hworks.2.inBounds

/-- A call of a compiled loop, which calls a function that nobody has defined. -/
theorem run_in_bounds_loop :
    let r := Engine.visit
      (Act.compile 0 (Bytes.ofString "foreach (x; [1, 2]) g(x, [3]);") "loop" 1)
      (World.new {}).newContext.2
    let func := match r.1 with
      | .ok (.ok v) => v
      | _ => .nil
    let m := (step .core)^[12] ⟨r.2.enter, [], .begin 0 (.call func #[] .nil .nil)⟩
    m.mode.External ∧ ∀ c, m.mode = .running c → ∃ f op arg, (m.world.ctx c).InBounds f op arg := by
  have hcompile (held : List CtxId) : Act.Calm held
      (Act.compile 0 (Bytes.ofString "foreach (x; [1, 2]) g(x, [3]);") "loop" 1) :=
    Act.calm_compile ..
  have hreached : World.Reached .core (World.new {}).newContext.2 := (World.Reached.new {}).newContext
  have hused : (World.new {}).newContext.2.InUse 0 := ⟨Nat.zero_lt_one, nofun⟩
  refine run_in_bounds Library.calm_core (hreached.visit (hcompile [])) ?_ _ 12
  exact (((hreached.fit Library.calm_core).held hused).visit (hcompile [0])).inUse

end Machine

end ScriptEngine
