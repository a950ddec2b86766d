import ScriptEngine.Proofs.Machine.Fresh
import ScriptEngine.Proofs.Machine.Limits
import ScriptEngine.Proofs.Machine.Sparing

/-!
# Going on after a failure

When a native fails that an instruction has called, its context keeps all operands, frames and marks, and the
height at which the result of the native belongs.  A resume puts a value there and goes on, just as if the
native had returned it.

* `Machine.setback?`             such a failure;
* `Machine.start_resume`, `Machine.start_refused`   what a resume does;
* `Machine.twin_resumed`         it leads to the same engine as if nothing had failed;
* `Host.Recent`                  how the most recent run on a context has ended;
* `Host.Recent.resume_like_return`   the main result.
-/

namespace ScriptEngine

open World (ctx_modifyCtx_self ctx_modifyCtx_of_ne Near Far Twin)

/-- A failure of a native that an instruction has called: the engine as the native has left it, who waits for
the outcome, and the height at which the result belongs. -/
structure Setback where
  world : World
  waiting : List Waiting
  native : Native
  base : Nat

/-- The native returns a value instead. -/
def Setback.returns (b : Setback) (c : CtxId) (v : Value) : Machine :=
  ⟨b.world, b.waiting, .replied c b.native (.instruction b.base) (.ok (.done v))⟩

def Machine.setback? (m : Machine) : Option Setback :=
  match m.mode with
  | .replied _ n (.instruction base) (.error _) => some ⟨m.world, m.waiting, n, base⟩
  | _ => none

def Mode.hasEnded : Mode → Bool
  | .ended _ _ => true
  | _ => false

def Mode.isBegin : Mode → Bool
  | .begin _ _ => true
  | _ => false

def Mode.isOutcome : Mode → Bool
  | .outcome _ => true
  | _ => false

/-- A run on the context may go on. -/
def Mode.goesOn (cx : CtxId) : Mode → Prop
  | .begin c _ | .running c | .replied c _ _ _ => c = cx
  | .ended _ _ | .outcome _ => False

/-- With the next step a run is over, or a resume is refused. -/
def Machine.Ends (lib : Library) (m : Machine) : Prop :=
  (m.step lib).mode.hasEnded = true ∨ m.mode.isBegin = true ∧ (m.step lib).mode.isOutcome = true

instance (lib : Library) (m : Machine) : Decidable (m.Ends lib) :=
  inferInstanceAs (Decidable (_ ∨ _))

/-- What a resume with a value comes to: if a native has failed, the operands, frames and marks that the
context would have if the native had returned the value, and else a refusal, which leaves the context as it is. -/
def Machine.Resumes (lib : Library) (v : Value) (c : CtxId) (w : World) (waiting : List Waiting) :
    Option Setback → Prop
  | some p => ∃ w₁ w₂, Machine.step lib ⟨w, waiting, .begin c (.resume v)⟩ = ⟨w₁, waiting, .running c⟩ ∧
      Machine.step lib (p.returns c v) = ⟨w₂, p.waiting, .running c⟩ ∧
      (w₁.ctx c).stack = (w₂.ctx c).stack ∧ (w₁.ctx c).frames = (w₂.ctx c).frames ∧
      (w₁.ctx c).marks = (w₂.ctx c).marks
  | none => ∃ w₁, Machine.step lib ⟨w, waiting, .begin c (.resume v)⟩ =
        ⟨w₁, waiting, .outcome (.error { cause := .notResumable })⟩ ∧
      (w₁.ctx c).stack = (w.ctx c).stack ∧ (w₁.ctx c).frames = (w.ctx c).frames ∧
      (w₁.ctx c).marks = (w.ctx c).marks ∧ (w₁.ctx c).error = (w.ctx c).error

/-- A failure that a context can go on from. -/
structure Setback.Sound (b : Setback) (o : Options) (c : CtxId) : Prop where
  lt : c < b.world.contexts.size
  options : b.world.options = o
  frames : (b.world.ctx c).frames ≠ #[]
  room : b.base < o.maxStack

/-- What a context recalls of how its most recent run has ended: it is as a native has left it, or it cannot
go on. -/
def World.Recalls (w : World) (o : Options) (c : CtxId) : Option Setback → Prop
  | some b => b.Sound o c ∧ { b.world.ctx c with resumeAt := some b.base }.SameStacks (w.ctx c)
  | none => (w.ctx c).frames = #[] ∨ (w.ctx c).resumeAt = none

theorem World.Recalls.same {w w' : World} {o : Options} {c : CtxId} {b : Option Setback} (h : w.Recalls o c b)
    (hs : (w.ctx c).SameStacks (w'.ctx c)) : w'.Recalls o c b := by
  cases b with
  | some b => exact ⟨h.1, h.2.trans hs⟩
  | none => exact h.imp hs.frames.trans hs.resumeAt.trans

/-! ## resuming -/

/-- The context with a value put at a height. -/
def Context.settled (base : Nat) (v : Value) (c : Context) : Context :=
  { c with stack := (c.stack.shrink base).push v }

namespace Act

theorem run_settle {cx : CtxId} {w : World} (hcx : cx < w.contexts.size) {base : Nat}
    (hroom : base < w.options.maxStack) (v : Value) :
    (do cut cx base; push cx v : Act Unit).run w = .ok () (w.modifyCtx cx (Context.settled base v)) := by
  have hsize : ((w.modifyCtx cx fun c => { c with stack := c.stack.shrink base }).ctx cx).stack.size ≤ base := by
    rw [ctx_modifyCtx_self hcx]
    show ((w.ctx cx).stack.shrink base).size ≤ base
    rw [Array.size_shrink]
    exact Nat.min_le_left ..
  show (push cx v).run (w.modifyCtx cx fun c => { c with stack := c.stack.shrink base }) = _
  refine (run_push_eq ..).trans ((if_neg ?_).trans ?_)
  · exact Nat.not_le.mpr (Nat.lt_of_le_of_lt hsize hroom)
  · exact congrArg (EStateM.Result.ok ()) (World.modifyCtx_modifyCtx ..)

end Act

namespace Machine

variable {w : World} {waiting : List Waiting} {c : CtxId} {base : Nat}

/-- The engine once a context has been resumed at a height. -/
def resumed (w : World) (c : CtxId) (base : Nat) (v : Value) : World :=
  (((w.modifyCtx c ({ · with resumeAt := none })).childless c).modifyCtx c ({ · with error := none })).modifyCtx c
    (Context.settled base v)

/-- **A resume** of a context that a native has failed on. -/
theorem start_resume (lib : Library) (waiting : List Waiting) (hc : c < w.contexts.size)
    (hframes : (w.ctx c).frames ≠ #[]) (hresume : (w.ctx c).resumeAt = some base)
    (hroom : base < w.options.maxStack) (v : Value) :
    start lib w waiting c (.resume v) = ⟨resumed w c base v, waiting, .running c⟩ := by
  have hlt : c < (((w.modifyCtx c ({ · with resumeAt := none })).childless c).modifyCtx c
      ({ · with error := none })).contexts.size := by
    rw [World.size_modifyCtx, World.size_childless, World.size_modifyCtx]
    exact hc
  have hroom' : base < (((w.modifyCtx c ({ · with resumeAt := none })).childless c).modifyCtx c
      ({ · with error := none })).options.maxStack := by
    show base < ((w.modifyCtx c ({ · with resumeAt := none })).childless c).options.maxStack
    rw [World.options_childless]
    exact hroom
  unfold start
  dsimp only
  rw [if_neg (by rw [Array.isEmpty_iff]; exact hframes), hresume]
  dsimp only
  rw [run_prepareResume, Act.run_settle hlt hroom']
  rfl

theorem start_refused (lib : Library) (waiting : List Waiting)
    (h : (w.ctx c).frames = #[] ∨ (w.ctx c).resumeAt = none) (v : Value) :
    start lib w waiting c (.resume v) =
      ⟨w.modifyCtx c ({ · with resumeAt := none }), waiting, .outcome (.error { cause := .notResumable })⟩ := by
  unfold start
  dsimp only
  have hnone : (if (w.ctx c).frames.isEmpty = true then none else (w.ctx c).resumeAt) = none := by
    rcases h with h | h
    · rw [h]
      rfl
    · rw [h, ite_self]
  rw [hnone]

theorem ctx_resumed (hk : w.Kin) (hc : c < w.contexts.size) (base : Nat) (v : Value) :
    (resumed w c base v).ctx c =
    { (w.ctx c).settled base v with resumeAt := none, child := none, error := none } := by
  have hsize : ((w.modifyCtx c ({ · with resumeAt := none })).childless c).contexts.size = w.contexts.size := by
    rw [World.size_childless, World.size_modifyCtx]
  have hapart : (w.modifyCtx c ({ · with resumeAt := none })).Apart c := (hk.apart c).modifyCtx fun _ => rfl
  rw [resumed, ctx_modifyCtx_self (by rw [World.size_modifyCtx, hsize]; exact hc),
    ctx_modifyCtx_self (by rw [hsize]; exact hc), hapart.ctx_childless, ctx_modifyCtx_self hc]
  rfl

/-! ## the same as without the failure -/

/-- The engine once a context has noted that a native has failed on it, at a height. -/
def failed (w : World) (c : CtxId) (base : Nat) (e : Failure) : World :=
  (w.modifyCtx c ({ · with resumeAt := some base })).modifyCtx c ({ · with error := some e })

theorem child_error (w : World) (c : CtxId) (error : Option Failure) :
    ∀ d, ((w.modifyCtx c ({ · with error })).ctx d).child = (w.ctx d).child :=
  World.field_modifyCtx Context.child fun _ => rfl

section

variable (hresume : (w.ctx c).resumeAt = none)
include hresume

/-- All that a failure leaves until the resume is an error. -/
theorem forget_failed (base : Nat) (e : Failure) :
    (failed w c base e).modifyCtx c ({ · with resumeAt := none }) = w.modifyCtx c ({ · with error := some e }) := by
  rw [failed, World.modifyCtx_modifyCtx, World.modifyCtx_modifyCtx]
  refine World.modifyCtx_congr ?_
  show { w.ctx c with resumeAt := none, error := some e } = { w.ctx c with error := some e }
  rw [← hresume]

/-- **A resume leads to the same engine** as if the native had returned the value, but for the error and the
child of the context. -/
theorem twin_resumed (hk : w.Kin) (base : Nat) (e : Failure) (v : Value) :
    Twin c (w.modifyCtx c (Context.settled base v)) (resumed (failed w c base e) c base v) := by
  have hnear : Near c w (w.modifyCtx c ({ · with error := some e })) := ⟨some e, rfl⟩
  obtain ⟨error, hless⟩ := hnear.childless c
  have hagain : ((w.modifyCtx c ({ · with error := some e })).childless c).modifyCtx c ({ · with error := none }) =
      (w.childless c).modifyCtx c ({ · with error := none }) := by
    rw [hless]
    exact World.modifyCtx_modifyCtx _ _
  have hnone : (((w.childless c).modifyCtx c ({ · with error := none })).ctx c).child = none := by
    rw [child_error, (hk.apart c).ctx_childless]
  have hfar : Far c w ((w.childless c).modifyCtx c ({ · with error := none })) := by
    refine ⟨hk.apart c, World.apart_of_childless hnone, ?_⟩
    rw [World.childless_of_none hnone]
    exact ⟨none, rfl⟩
  rw [resumed, forget_failed hresume, hagain]
  exact .far (hfar.modifyCtx (fun _ => rfl) (fun _ => rfl) fun _ error => ⟨error, rfl⟩)

/-- It is the very same engine if the context had neither an error nor a child. -/
theorem resumed_eq (herror : (w.ctx c).error = none) (hchild : (w.ctx c).child = none) (base : Nat) (e : Failure)
    (v : Value) : resumed (failed w c base e) c base v = w.modifyCtx c (Context.settled base v) := by
  have hless : ((w.modifyCtx c ({ · with error := some e })).ctx c).child = none := by
    rw [child_error]
    exact hchild
  have hforget : (w.modifyCtx c ({ · with error := some e })).modifyCtx c ({ · with error := none }) = w := by
    refine (World.modifyCtx_modifyCtx _ _).trans (World.modifyCtx_of_eq ?_)
    rw [← herror]
  rw [resumed, forget_failed hresume, World.childless_of_none hless, hforget]

end

/-- A failed native is told, after which the run on the context is over. -/
theorem step_setback (lib : Library) (w : World) (waiting : List Waiting) (c : CtxId) (n : Native) (base : Nat)
    (e : Failure) : ∃ e', (step lib)^[2] ⟨w, waiting, .replied c n (.instruction base) (.error e)⟩ =
      ⟨failed w c base e', waiting, .outcome (.error e')⟩ := ⟨_, rfl⟩

theorem step_returns (lib : Library) (waiting : List Waiting) (hc : c < w.contexts.size) (n : Native)
    (hroom : base < w.options.maxStack) (v : Value) :
    step lib ⟨w, waiting, .replied c n (.instruction base) (.ok (.done v))⟩ =
      ⟨w.modifyCtx c (Context.settled base v), waiting, .running c⟩ := by
  show settle w waiting c (.instruction base) v = _
  unfold settle
  dsimp only
  rw [Act.run_settle hc hroom]

theorem start_failed (lib : Library) (waiting : List Waiting) (hc : c < w.contexts.size)
    (hframes : (w.ctx c).frames ≠ #[]) (hroom : base < w.options.maxStack) (e : Failure) (v : Value) :
    start lib (failed w c base e) waiting c (.resume v) =
      ⟨resumed (failed w c base e) c base v, waiting, .running c⟩ := by
  have hctx : (failed w c base e).ctx c = { w.ctx c with resumeAt := some base, error := some e } := by
    rw [failed, World.modifyCtx_modifyCtx, ctx_modifyCtx_self hc]
  refine start_resume lib waiting ?_ ?_ ?_ ?_ v
  · rw [failed, World.size_modifyCtx, World.size_modifyCtx]
    exact hc
  · rw [hctx]
    exact hframes
  · rw [hctx]
  · exact hroom

/-! ## how a run ends -/

variable {lib : Library} {r : Except Failure Value}

/-- What a step leads to, besides the engine: the run on the context that the machine works on goes on or
ends, a native asks for a run on a child, or an outcome is told. -/
inductive Turns : Machine → Machine → Prop
  | goes {w w' : World} {waiting : List Waiting} {mode : Mode} {cx : CtxId} (hctx : mode.goesOn cx) :
    Turns ⟨w, waiting, mode⟩ ⟨w', waiting, .running cx⟩
  | calls {w w' : World} {waiting : List Waiting} {mode : Mode} {cx : CtxId} {n : Native} {site : Site}
    {r : Except Failure Reply} (hctx : mode.goesOn cx) :
    Turns ⟨w, waiting, mode⟩ ⟨w', waiting, .replied cx n site r⟩
  | ends {w w' : World} {waiting : List Waiting} {mode : Mode} {cx : CtxId} {r : Except Failure Value}
    (hctx : mode.goesOn cx) : Turns ⟨w, waiting, mode⟩ ⟨w', waiting, .ended cx r⟩
  | asks {w : World} {waiting : List Waiting} {mode mode' : Mode} {who : Waiting} (hctx : mode.goesOn who.cx)
    (hnone : mode'.ctx? = none) : Turns ⟨w, waiting, mode⟩ ⟨w, who :: waiting, mode'⟩
  | refuses {w w' : World} {waiting : List Waiting} {cx : CtxId} {q : Request} {r : Except Failure Value} :
    Turns ⟨w, waiting, .begin cx q⟩ ⟨w', waiting, .outcome r⟩
  | tells {w w' : World} {waiting : List Waiting} {cx : CtxId} {r r' : Except Failure Value} :
    Turns ⟨w, waiting, .ended cx r⟩ ⟨w', waiting, .outcome r'⟩
  | wakes {w w' : World} {waiting : List Waiting} {who : Waiting} {r : Except Failure Value}
    {r' : Except Failure Reply} :
    Turns ⟨w, who :: waiting, .outcome r⟩ ⟨w', waiting, .replied who.cx who.native who.site r'⟩
  | rests {w : World} {r : Except Failure Value} : Turns ⟨w, [], .outcome r⟩ ⟨w, [], .outcome r⟩

theorem turns (lib : Library) (m : Machine) : Turns m (m.step lib) := by
  obtain ⟨w, waiting, mode⟩ := m
  cases mode with
  | begin cx q =>
    show Turns _ (start lib w waiting cx q)
    unfold start
    dsimp only
    cases q with
    | call func args me locals =>
      dsimp only
      split
      · exact .goes rfl
      · exact .calls rfl
      · exact .ends rfl
    | resume v =>
      dsimp only
      split
      · split
        · exact .goes rfl
        · exact .refuses
      · exact .refuses
  | running cx =>
    unfold step
    dsimp only
    split
    · exact .goes rfl
    · exact .ends rfl
    · exact .calls rfl
    · exact .ends rfl
  | replied cx n site r =>
    cases r with
    | error e => cases site <;> exact .ends rfl
    | ok reply =>
      cases reply with
      | done v =>
        show Turns _ (settle w waiting cx site v)
        unfold settle
        split
        · exact .ends rfl
        · split
          · exact .goes rfl
          · exact .ends rfl
      | run sub q wait =>
        show Turns _ (delegate w waiting cx n site sub q wait)
        unfold delegate
        dsimp only
        split <;> exact .asks rfl rfl
      | halt => exact .calls rfl
  | ended cx r =>
    unfold step
    dsimp only
    split <;> exact .tells
  | outcome r =>
    cases waiting with
    | nil => exact .rests
    | cons who waiting =>
      show Turns _ (wake lib w waiting who r)
      unfold wake
      split
      · split <;> exact .wakes
      · exact .wakes

/-- A run that a call has begun ends at once only if the call itself fails. -/
theorem resumeAt_call (hlib : lib.Calm) {func me locals : Value} {args : Array Value}
    (hm : Steady ⟨w, waiting, .begin c (.call func args me locals)⟩)
    (hend : ¬ (start lib w waiting c (.call func args me locals)).mode.goesOn c) :
    ((start lib w waiting c (.call func args me locals)).world.ctx c).resumeAt = none := by
  obtain ⟨⟨hw, hheld⟩, hwaits, -⟩ := hm
  obtain ⟨w₁, hrun, hw₁, -, hframes, hresume⟩ := run_prepareCall (hw.join hheld) hwaits
  have hopened := Act.opened_beginCall hlib hw₁ hframes hresume func args me locals
  unfold start at hend ⊢
  dsimp only at hend ⊢
  rw [run_bind_of_ok hrun] at hend ⊢
  generalize (Act.beginCall lib c func args me locals).run w₁ = x at hopened hend ⊢
  cases hopened with
  | frame _ _ _ | native _ _ => exact absurd rfl hend
  | failed moves _ _ => exact moves.resumeAt.trans hresume

/-- A run that ends with an instruction cannot be resumed. -/
theorem resumeAt_exec (hlib : lib.Calm) (hm : Steady ⟨w, waiting, .running c⟩)
    (hend : ¬ (step lib ⟨w, waiting, .running c⟩).mode.goesOn c) :
    ((step lib ⟨w, waiting, .running c⟩).world.ctx c).resumeAt = none := by
  obtain ⟨⟨hw, hready⟩, -, -⟩ := hm
  obtain ⟨f, fs, i, -, -, -, hperformed⟩ := Act.performed_exec hlib hw hready
  unfold step at hend ⊢
  dsimp only at hend ⊢
  generalize (Act.exec lib c).run w = x at hperformed hend ⊢
  cases hperformed with
  | next _ _ _ | native _ _ _ _ => exact absurd rfl hend
  | returned moves _ | failed moves _ _ => exact moves.resumeAt.trans hready.resume

variable {o : Options} {m : Machine}

theorem recalls_reply {n : Native} {site : Site} {r : Except Failure Reply}
    (hm : Steady ⟨w, waiting, .replied c n site r⟩) (hl : w.Limited o)
    (hend : ¬ (step lib ⟨w, waiting, .replied c n site r⟩).mode.goesOn c) :
    (step lib ⟨w, waiting, .replied c n site r⟩).world.Recalls o c
      (setback? ⟨w, waiting, .replied c n site r⟩) := by
  obtain ⟨⟨hw, hat⟩, -, -⟩ := hm
  have hroom {base : Nat} (hp : (w.ctx c).Parked base) : base < o.maxStack :=
    Nat.lt_of_lt_of_le hp.room (hl.2 c).stack
  cases r with
  | error e =>
    cases site with
    | request => exact .inr hat
    | instruction base =>
      refine ⟨⟨hw.lt, hl.1, hat.2.goes.1, hroom hat.2⟩, ?_⟩
      show Context.SameStacks _ ((w.modifyCtx c ({ · with resumeAt := some base })).ctx c)
      rw [ctx_modifyCtx_self hw.lt]
      exact .refl _
  | ok reply =>
    cases reply with
    | done v =>
      cases site with
      | request =>
        refine .inr ?_
        show ((w.modifyCtx c fun d => { d with stack := #[] }).ctx c).resumeAt = none
        rw [ctx_modifyCtx_self hw.lt]
        exact hat
      | instruction base =>
        rw [step_returns lib waiting hw.lt n (hl.1.symm ▸ hroom hat.2)] at hend
        exact absurd rfl hend
    | run sub q wait =>
      have hnone : ((delegate w waiting c n site sub q wait).world.ctx c).resumeAt = none := by
        unfold delegate
        dsimp only
        split <;> exact hat.resumeAt
      cases site <;> exact .inr hnone
    | halt => exact absurd rfl hend

/-- A resume that does not go on leaves a context that cannot be resumed. -/
theorem resumeAt_start (lib : Library) (hlt : c < w.contexts.size) (hl : w.Limited o) {v : Value}
    (hend : ¬ (start lib w waiting c (.resume v)).mode.goesOn c) :
    ((start lib w waiting c (.resume v)).world.ctx c).resumeAt = none := by
  by_cases hgoes : (w.ctx c).frames = #[] ∨ (w.ctx c).resumeAt = none
  · rw [start_refused lib waiting hgoes v, ctx_modifyCtx_self hlt]
  · obtain ⟨hframes, hresume⟩ := not_or.mp hgoes
    obtain ⟨base, hbase⟩ := Option.ne_none_iff_exists'.mp hresume
    rw [start_resume lib waiting hlt hframes hbase (hl.1.symm ▸ (hl.2 c).resumeAt base hbase)] at hend
    exact absurd rfl hend

theorem Ends.not_goesOn (h : m.Ends lib) (cx : CtxId) : ¬ (m.step lib).mode.goesOn cx := by
  have hmode {mode : Mode} (h : mode.hasEnded = true ∨ mode.isOutcome = true) : ¬ mode.goesOn cx := by
    cases mode with
    | ended _ _ | outcome _ => exact id
    | begin _ _ | running _ | replied _ _ _ _ => rcases h with h | h <;> exact nomatch h
  exact hmode (h.imp_right And.right)

/-- **The end of a run**: the context can go on if a native has failed on it. -/
theorem Steady.recalls (hlib : lib.Calm) (hm : m.Steady) (hl : m.world.Limited o) (hon : m.active = some c)
    (hend : m.Ends lib) : (m.step lib).world.Recalls o c m.setback? := by
  have hlt := (hm.inUse hon).lt
  have hno := hend.not_goesOn c
  have hturns := m.turns lib
  obtain ⟨w, waiting, mode⟩ := m
  cases mode with
  | begin cx q =>
    obtain rfl : cx = c := Option.some.inj hon
    cases q with
    | call func args me locals => exact .inr (resumeAt_call hlib hm hno)
    | resume v => exact .inr (resumeAt_start lib hlt hl hno)
  | running cx =>
    obtain rfl : cx = c := Option.some.inj hon
    exact .inr (resumeAt_exec hlib hm hno)
  | replied cx n site x =>
    obtain rfl : cx = c := Option.some.inj hon
    exact recalls_reply hm hl hno
  | ended cx x =>
    have hended := hend.resolve_right fun h => nomatch h.1
    generalize Machine.step lib ⟨w, waiting, .ended cx x⟩ = m' at hturns hended
    cases hturns with
    | goes h | calls h | ends h | asks h _ => exact h.elim
    | tells => exact nomatch hended
  | outcome x =>
    have hended := hend.resolve_right fun h => nomatch h.1
    generalize Machine.step lib ⟨w, waiting, .outcome x⟩ = m' at hturns hended
    cases hturns with
    | goes h | calls h | ends h | asks h _ => exact h.elim
    | wakes | rests => exact nomatch hended

/-! ## what a context recalls -/

/-- What a context recalls of its most recent run does not change when that is over. -/
theorem recalls_finish (lib : Library) {b : Option Setback} {r : Except Failure Value}
    (hm : Steady ⟨w, waiting, .ended c r⟩) (h : w.Recalls o c b) (hb : ∀ v, r = .ok v → b = none) :
    (step lib ⟨w, waiting, .ended c r⟩).world.Recalls o c b := by
  obtain ⟨⟨hw, -⟩, -, -⟩ := hm
  rw [world_finish]
  cases r with
  | ok v =>
    obtain rfl := hb v rfl
    have hw₁ : (w.modifyCtx c Context.clearStacks).Fit (c :: outer waiting) :=
      hw.modifyCtx (fun _ => rfl) (fun _ => rfl) fun _ => rfl
    obtain ⟨w₂, hrun, hkeeps, -⟩ := hw₁.freeChild
    have hfinish : (Act.finish c (.ok v)).run w = .ok (.ok v) w₂ := by
      show EStateM.run (Act.freeChild c >>= fun _ => pure (Except.ok v)) (w.modifyCtx c Context.clearStacks) = _
      rw [run_bind_of_ok hrun]
      rfl
    rw [hfinish]
    refine .inl ((hkeeps.same c List.mem_cons_self).frames.trans ?_)
    rw [ctx_modifyCtx_self hw.lt]
    rfl
  | error e =>
    refine h.same ?_
    show (w.ctx c).SameStacks ((w.modifyCtx c fun d => { d with error := some _ }).ctx c)
    apply World.sameStacks_modifyCtx
    exact fun d => ⟨rfl, rfl, rfl, rfl⟩

theorem active_of_goesOn {mode : Mode} (h : mode.goesOn c) : active ⟨w, waiting, mode⟩ = some c := by
  cases mode with
  | begin _ _ | running _ | replied _ _ _ _ => exact congrArg some h
  | ended _ _ | outcome _ => exact h.elim

def Runs (m : Machine) (c : CtxId) : Prop :=
  c ∈ outer m.waiting ∨ match m.mode with
    | .running cx | .replied cx _ _ _ => cx = c
    | _ => False

theorem active_of_runs {mode : Mode} (h : match mode with
    | .running cx | .replied cx _ _ _ => cx = c
    | _ => False) : active ⟨w, waiting, mode⟩ = some c := by
  cases mode with
  | running _ | replied _ _ _ _ => exact congrArg some h
  | begin _ _ | ended _ _ | outcome _ => exact h.elim

/-- A run on the context that the machine works on goes on until it ends. -/
theorem runs_step (lib : Library) (hon : m.active = some c) (hends : ¬ m.Ends lib)
    (hmode : ∀ r, m.mode ≠ .ended c r) : (m.step lib).Runs c := by
  have hturns := m.turns lib
  unfold Ends at hends
  generalize m.step lib = m' at hturns hends
  cases hturns with
  | goes hctx | calls hctx => exact .inr (Option.some.inj ((active_of_goesOn hctx).symm.trans hon))
  | asks hctx _ =>
    exact .inl (List.mem_cons.mpr (.inl (Option.some.inj (hon.symm.trans (active_of_goesOn hctx)))))
  | ends _ => exact absurd (.inl rfl) hends
  | refuses => exact absurd (.inr ⟨rfl, rfl⟩) hends
  | tells =>
    obtain rfl := Option.some.inj hon
    exact absurd rfl (hmode _)
  | wakes => exact .inr (Option.some.inj hon)
  | rests => exact nomatch hon

/-- Who waits goes on waiting until it is woken. -/
theorem mem_outer_step (lib : Library) (hon : m.active ≠ some c) (h : c ∈ outer m.waiting) :
    c ∈ outer (m.step lib).waiting := by
  have hturns := m.turns lib
  generalize m.step lib = m' at hturns ⊢
  cases hturns with
  | goes _ | calls _ | ends _ | refuses | tells | rests => exact h
  | asks _ _ => exact List.mem_cons_of_mem _ h
  | wakes =>
    rcases List.mem_cons.mp h with rfl | h
    · exact absurd rfl hon
    · exact h

/-- Only a run on the context that the machine works on ends. -/
theorem active_of_ended {lib : Library} {r : Except Failure Value} (h : (m.step lib).mode = .ended c r) :
    m.active = some c := by
  have hturns := m.turns lib
  generalize m.step lib = m' at hturns h
  cases hturns with
  | ends hctx =>
    cases h
    exact active_of_goesOn hctx
  | asks _ hnone =>
    subst h
    exact nomatch hnone
  | goes _ | calls _ | refuses | tells | wakes | rests => exact nomatch h

/-- A run that has succeeded has not ended in a failure. -/
theorem setback?_of_ended {lib : Library} {v : Value} (h : (m.step lib).mode = .ended c (.ok v)) :
    m.setback? = none := by
  obtain ⟨w, waiting, mode⟩ := m
  cases mode with
  | begin _ _ | running _ | ended _ _ | outcome _ => rfl
  | replied cx n site r =>
    cases r with
    | ok _ => cases site <;> rfl
    | error e => cases site <;> exact nomatch h

end Machine

namespace Host

open Machine (outer)

/-- What the context recalls in a state, unless a run on it goes on. -/
def State.Recalls (s : State) (o : Options) (c : CtxId) (b : Option Setback) : Prop :=
  match s with
  | .idle w => w.Recalls o c b
  | .busy m => m.Runs c ∨ m.world.Recalls o c b ∧ ∀ v, m.mode = .ended c (.ok v) → b = none

variable {c : CtxId} {o : Options} {b : Option Setback} {l : Matter} {s s' : State}

theorem recalls_step {m : Machine} (hs : (State.busy m).Good) (hh : m.world.Household [])
    (h : (State.busy m).Recalls o c b) (hends : m.active = some c → ¬ m.Ends .core)
    (hfrees : ¬ Frees c (.of m.active) m.world (m.step .core).world) : (State.busy (m.step .core)).Recalls o c b := by
  by_cases hon : m.active = some c
  · by_cases hmode : ∃ r, m.mode = .ended c r
    · obtain ⟨w, waiting, mode⟩ := m
      obtain ⟨r, rfl⟩ := hmode
      have hidle : ¬ Machine.Runs ⟨w, waiting, .ended c r⟩ c := by
        rintro (hc | hc)
        · exact hs.ready.1.works.1.ne hc rfl
        · exact hc
      obtain ⟨hw, hb⟩ := h.resolve_left hidle
      refine .inr ⟨Machine.recalls_finish .core hs.ready.1 hw fun v hv => hb v (hv ▸ rfl), fun v hv => ?_⟩
      have hturns := Machine.turns .core ⟨w, waiting, .ended c r⟩
      generalize Machine.step .core ⟨w, waiting, .ended c r⟩ = m' at hturns hv
      cases hturns with
      | goes h | calls h | ends h | asks h _ => exact h.elim
      | tells => exact nomatch hv
    · exact .inl (Machine.runs_step .core hon (hends hon) fun r hr => hmode ⟨r, hr⟩)
  · rcases h with (hout | hmode) | ⟨hw, hb⟩
    · exact .inl (.inl (Machine.mem_outer_step .core hon hout))
    · exact absurd (Machine.active_of_runs hmode) hon
    · have hsame := ((Move.step m).spares hs hh (c := c) (by
        rintro _ ⟨⟩
        exact hon)).resolve_right hfrees
      exact .inr ⟨hw.same hsame, fun v hv => absurd (Machine.active_of_ended hv) hon⟩

/-- The states that a host comes to, with the failure of a native in which the most recent run on a context
has ended, if it has ended so and the context has not been freed since. -/
inductive Recent (c : CtxId) : Option Setback → State → Prop
  | new (options : Options) : Recent c none (.idle (.new options))
  | ends {b : Option Setback} {m : Machine} (h : Recent c b (.busy m)) (hon : m.active = some c)
    (hends : m.Ends .core) : Recent c m.setback? (.busy (m.step .core))
  | frees {b : Option Setback} {l : Matter} {s s' : State} (h : Recent c b s) (hmove : Move l s s')
    (hfrees : Frees c l s.world s'.world) : Recent c none s'
  | moves {b : Option Setback} {l : Matter} {s s' : State} (h : Recent c b s) (hmove : Move l s s')
    (hfrees : ¬ Frees c l s.world s'.world)
    (hends : ∀ m, s = .busy m → s' = .busy (m.step .core) → m.active = some c → ¬ m.Ends .core) : Recent c b s'

/-- Another engine, in which the context is as it was, unless a run on it goes on. -/
theorem recalls_tend {own : Native → Prop} {held : List CtxId} {w' : World} (hat : AtHost own held s w' s')
    (h : s.Recalls o c b)
    (hsame : (∀ m, s = .busy m → m.active ≠ some c) → (s.world.ctx c).SameStacks (w'.ctx c)) : s'.Recalls o c b := by
  cases hat with
  | idle => exact World.Recalls.same h (hsame fun _ h => nomatch h)
  | @native waiting cx n site _ w w' r =>
    rcases h with (hout | hout) | ⟨hw, -⟩
    · exact .inl (.inl hout)
    · exact .inl (.inr hout)
    · by_cases hc : cx = c
      · exact .inl (.inr hc)
      · exact .inr ⟨hw.same (hsame (by
          rintro _ ⟨⟩ h
          exact hc (Option.some.inj h))), nofun⟩

theorem recalls_moves (hmove : Move l s s') (hs : s.Good) (hh : s.world.Household []) (h : s.Recalls o c b)
    (hfrees : ¬ Frees c l s.world s'.world)
    (hends : ∀ m, s = .busy m → s' = .busy (m.step .core) → m.active = some c → ¬ m.Ends .core) :
    s'.Recalls o c b := by
  have hsame (hoff : ∀ m, s = .busy m → m.active ≠ some c) := (hmove.spares hs hh hoff).resolve_right hfrees
  cases hmove with
  | tend hat _ =>
    rw [hat.world] at hsame
    exact recalls_tend hat h hsame
  | begin _ _ => exact .inr ⟨h, nofun⟩
  | step m => exact recalls_step hs hh h (hends m rfl rfl) hfrees
  | finish w r =>
    rcases h with (hc | hc) | ⟨hw, -⟩
    · exact nomatch hc
    · exact hc.elim
    · exact hw
  | @offer w w' waiting cx func args me locals n _ _ hrun =>
    by_cases hc : cx = c
    · exact .inl (.inr hc)
    · rcases h with (hout | hout) | ⟨hw, -⟩
      · exact .inl (.inl hout)
      · exact hout.elim
      · exact .inr ⟨hw.same (hsame (by
          rintro _ ⟨⟩ h
          exact hc (Option.some.inj h))), nofun⟩
  | work foreign _ => exact recalls_tend (.native foreign _ _ _) h hsame
  | @visit w waiting cx n site r _ d _ _ q _ =>
    rcases h with (hout | hout) | ⟨hw, -⟩
    · exact .inl (.inl (List.mem_cons_of_mem _ hout))
    · obtain rfl : cx = c := hout
      exact .inl (.inl List.mem_cons_self)
    · exact .inr ⟨hw, nofun⟩
  | answer _ _ =>
    rcases h with (hout | hout) | ⟨hw, -⟩
    · exact .inl (.inl hout)
    · exact .inl (.inr hout)
    · exact .inr ⟨hw, nofun⟩

theorem Recent.recalls (h : Recent c b s) :
    s.Good ∧ s.world.Household [] ∧ ∃ o, s.world.Limited o ∧ s.Recalls o c b := by
  induction h with
  | new options =>
    exact ⟨good_new options, World.household_new options, options, World.limited_new options, .inl rfl⟩
  | @ends b m _ hon hends ih =>
    obtain ⟨hs, hh, o, hl, -⟩ := ih
    have hnext := Next.step m
    refine ⟨(hnext.along hs).2, hnext.household_nil hs hh, o, hnext.limited hs hl, .inr ⟨?_, ?_⟩⟩
    · exact hs.ready.1.recalls Library.calm_core hl hon hends
    · exact fun v hv => Machine.setback?_of_ended hv
  | @frees _ _ _ s' _ hmove hfrees ih =>
    obtain ⟨hs, hh, o, hl, -⟩ := ih
    have hnone : s'.world.Recalls o c none := .inl hfrees.1.frames
    refine ⟨(hmove.along hs).2, hmove.next.household_nil hs hh, o, hmove.next.limited hs hl, ?_⟩
    cases s' with
    | idle w => exact hnone
    | busy m => exact .inr ⟨hnone, fun _ _ => rfl⟩
  | moves _ hmove hfrees hends ih =>
    obtain ⟨hs, hh, o, hl, hr⟩ := ih
    exact ⟨(hmove.along hs).2, hmove.next.household_nil hs hh, o, hmove.next.limited hs hl,
      recalls_moves hmove hs hh hr hfrees hends⟩

/-- A state that a host comes to is one after some run, or after none. -/
theorem Reached.recent (h : Reached s) (c : CtxId) : ∃ b, Recent c b s := by
  obtain ⟨options, h⟩ := h
  induction h with
  | refl => exact ⟨none, .new options⟩
  | @tail s s' _ hnext ih =>
    obtain ⟨b, h⟩ := ih
    obtain ⟨l, hmove⟩ := hnext
    by_cases hfrees : Frees c l s.world s'.world
    · exact ⟨none, h.frees hmove hfrees⟩
    · by_cases hends : ∃ m, s = .busy m ∧ s' = .busy (m.step .core) ∧ m.active = some c ∧ m.Ends .core
      · obtain ⟨m, rfl, rfl, hon, hends⟩ := hends
        exact ⟨m.setback?, h.ends hon hends⟩
      · exact ⟨b, h.moves hmove hfrees fun m hs hs' hon he => hends ⟨m, hs, hs', hon, he⟩⟩

/-- What a context recalls if no run on it has failed stays so until a run on it is over. -/
theorem Recent.quiet (h : Recent c none s) (hnext : Next s s')
    (hends : ∀ m, s = .busy m → s' = .busy (m.step .core) → m.active = some c → ¬ m.Ends .core) :
    Recent c none s' := by
  obtain ⟨l, hmove⟩ := hnext
  by_cases hfrees : Frees c l s.world s'.world
  · exact h.frees hmove hfrees
  · exact h.moves hmove hfrees hends

theorem Recent.quiet_idle {w : World} (h : Recent c none (.idle w)) (hnext : Next (.idle w) s') :
    Recent c none s' := h.quiet hnext fun _ hs => nomatch hs

theorem Recent.quiet_run {m : Machine} (h : Recent c none (.busy m)) (n : Nat)
    (hends : ∀ k < n, ¬ ((Machine.step .core)^[k] m).Ends .core) :
    Recent c none (.busy ((Machine.step .core)^[n] m)) := by
  induction n with
  | zero => exact h
  | succ n ih =>
    rw [Function.iterate_succ_apply']
    refine (ih fun k hk => hends k (Nat.lt_succ_of_lt hk)).quiet (.step _) ?_
    rintro _ ⟨⟩ - -
    exact hends n (Nat.lt_succ_self n)

/-- A resume goes on if and only if the most recent run on the context has ended in the failure of a native. -/
theorem Recent.resumes (h : Recent c b s) (lib : Library) (v : Value) {w : World} {waiting : List Waiting}
    (hs : s = .busy ⟨w, waiting, .begin c (.resume v)⟩) : Machine.Resumes lib v c w waiting b := by
  subst hs
  obtain ⟨hs, -, o, hl, hr⟩ := h.recalls
  obtain ⟨⟨hw, hheld⟩, -, -⟩ := hs.ready.1
  have hfit := hw.join hheld
  have hrecalls : w.Recalls o c b := by
    rcases hr with (hout | hmode) | ⟨hr, -⟩
    · exact absurd rfl (hfit.ne hout)
    · exact hmode.elim
    · exact hr
  cases b with
  | none =>
    refine ⟨_, Machine.start_refused lib waiting hrecalls v, ?_⟩
    rw [ctx_modifyCtx_self hfit.lt]
    exact ⟨rfl, rfl, rfl, rfl⟩
  | some p =>
    obtain ⟨hp, hsame⟩ := hrecalls
    have hframes : (w.ctx c).frames ≠ #[] := fun h => hp.frames (hsame.frames.symm.trans h)
    have hroom : p.base < w.options.maxStack := by
      rw [show w.options = o from hl.1]
      exact hp.room
    refine ⟨_, _, Machine.start_resume lib waiting hfit.lt hframes hsame.resumeAt hroom v,
      Machine.step_returns lib p.waiting hp.lt p.native (hp.options ▸ hp.room) v, ?_⟩
    rw [Machine.ctx_resumed hfit.kin hfit.lt, ctx_modifyCtx_self hp.lt]
    refine ⟨?_, hsame.frames, hsame.marks⟩
    show ((w.ctx c).stack.shrink p.base).push v = ((p.world.ctx c).stack.shrink p.base).push v
    rw [show (w.ctx c).stack = (p.world.ctx c).stack from hsame.stack]

/-- **Going on after a failure is like going on without it.**  A resume puts the context where it would be if
the native that has failed had returned the value.  Right after the failure the run that then goes on does the
same, as long as no collection finds the engines to differ, which they do not if the native has left neither
an error nor a child. -/
theorem Recent.resume_like_return (h : Recent c b s) (lib : Library) (v : Value) :
    (∀ w waiting, s = .busy ⟨w, waiting, .begin c (.resume v)⟩ → Machine.Resumes lib v c w waiting b) ∧
    ∀ m p waiting, s = .busy m → m.active = some c → m.setback? = some p → ∃ e w₁ w₂ w₃,
      (Machine.step lib)^[2] m = ⟨w₁, p.waiting, .outcome (.error e)⟩ ∧
      Machine.step lib ⟨w₁, waiting, .begin c (.resume v)⟩ = ⟨w₂, waiting, .running c⟩ ∧
      Machine.step lib (p.returns c v) = ⟨w₃, p.waiting, .running c⟩ ∧
      ((w₂.ctx c).stack = (w₃.ctx c).stack ∧ (w₂.ctx c).frames = (w₃.ctx c).frames ∧
        (w₂.ctx c).marks = (w₃.ctx c).marks) ∧
      ((p.world.ctx c).error = none → (p.world.ctx c).child = none → w₂ = w₃) ∧
      ∀ n, lib.Blind c →
        (∀ k < n, ¬ Machine.Over p.waiting ((Machine.step lib)^[k] ⟨w₃, p.waiting, .running c⟩) ∧
          Machine.Tidy lib ((Machine.step lib)^[k] ⟨w₃, p.waiting, .running c⟩)
            ((Machine.step lib)^[k] ⟨w₂, waiting, .running c⟩)) →
        ((Machine.step lib)^[n] ⟨w₂, waiting, .running c⟩).mode =
            ((Machine.step lib)^[n] ⟨w₃, p.waiting, .running c⟩).mode ∧
          Machine.Abreast c p.waiting waiting ((Machine.step lib)^[n] ⟨w₃, p.waiting, .running c⟩)
            ((Machine.step lib)^[n] ⟨w₂, waiting, .running c⟩) := by
  refine ⟨fun w waiting hs => h.resumes lib v hs, ?_⟩
  rintro ⟨w, L, mode⟩ p waiting rfl hon hp
  obtain ⟨hs, -, o, hl, -⟩ := h.recalls
  cases mode with
  | begin _ _ | running _ | ended _ _ | outcome _ => exact nomatch hp
  | replied cx n site r =>
    obtain rfl : cx = c := Option.some.inj hon
    cases r with
    | ok _ => cases site <;> exact nomatch hp
    | error e =>
      cases site with
      | request => exact nomatch hp
      | instruction base =>
        obtain rfl := Option.some.inj hp
        obtain ⟨⟨hw, hresume, hparked⟩, -, -⟩ := hs.ready.1
        have hroom : base < w.options.maxStack := by
          rw [show w.options = o from hl.1]
          exact Nat.lt_of_lt_of_le hparked.room (hl.2 cx).stack
        obtain ⟨e', hfailed⟩ := Machine.step_setback lib w L cx n base e
        have hstart := Machine.start_failed lib waiting hw.lt hparked.goes.1 hroom e' v
        have htwin := Machine.twin_resumed hresume hw.kin base e' v
        have hreturns := Machine.step_returns lib L hw.lt n hroom v
        refine ⟨e', _, _, _, hfailed, hstart, hreturns, ?_, fun herror hchild => ?_, fun k hlib hsteps => ?_⟩
        · obtain ⟨error, child, hctx⟩ := (World.mirror_twin cx).seen htwin
          rw [hctx]
          exact ⟨rfl, rfl, rfl⟩
        · exact Machine.resumed_eq hresume herror hchild base e' v
        · have halone : (Mode.running cx).Alone cx := rfl
          have habreast := (Machine.Abreast.twin htwin halone).run hlib k hsteps
          exact ⟨habreast.mode_eq, habreast⟩

/-! A program that calls a native of the machine, which fails. -/

namespace Failing

def source : Bytes := Bytes.ofString "me()"

def unit : Code Const where
  words := #[40, 1, 35, 0, 39]
  consts := #[.name (Bytes.ofString "arg"), .name (Bytes.ofString "me")]
  lines := #[(0, 1)]
  file := "sample"
  params := #[]
  optional := #[]
  rest := some 0
  needsRest := true

theorem compile_source : ScriptEngine.compile source "sample" 1 = .ok unit := by
  cbv

def engine : World :=
  World.after ((Deed.act 0 (.newNative ⟨"die", none, false⟩)).run Sample.blank)

def loaded : Value × World := engine.loaded unit [2, 3]

def run (n : Nat) : Machine :=
  (Machine.step .core)^[n] ⟨loaded.2, [], .begin 0 (.call loaded.1 #[] (.obj 23) .nil)⟩

theorem recent_engine : Recent c none (.idle engine) := by
  have hnew : Recent c none (.idle (World.new { poolBlock := 4 }).newContext.2) :=
    (Recent.new _).quiet_idle (.newContext _)
  rw [World.new_eq_fresh] at hnew
  exact hnew.quiet_idle (.deed ⟨Nat.zero_lt_one, Array.not_mem_empty 0⟩ trivial)

theorem run_compile : (Act.compile 0 source "sample" 1).run engine = .ok (.ok loaded.1) loaded.2 := by
  obtain ⟨⟨hc, -⟩, -⟩ := (recent_engine (c := 0)).recalls
  replace hc : engine.Consistent := hc
  have hat : engine.symArg = 2 ∧ engine.symMe = 3 := by decide +kernel
  have harg : engine.heap.symbols[Bytes.ofString "arg"]? = some 2 := by
    rw [hc.arg, hat.1]
  have hme : engine.heap.symbols[Bytes.ofString "me"]? = some 3 := by
    rw [hc.me, hat.2]
  exact Act.run_compile_names compile_source rfl (.cons harg (.cons hme .nil))

theorem recent_loaded : Recent c none (.idle loaded.2) := by
  have hused : engine.InUse 0 := ⟨by decide +kernel, by decide +kernel⟩
  have h := (recent_engine (c := c)).quiet_idle (.deed (d := .compile source "sample" 1) hused trivial)
  have hrun : (Deed.act 0 (.compile source "sample" 1)).run engine = .ok () loaded.2 := by
    show (Act.compile 0 source "sample" 1 >>= fun _ => pure ()).run engine = _
    rw [run_bind_of_ok run_compile]
    rfl
  rw [hrun] at h
  exact h

theorem inUse_loaded : loaded.2.InUse 0 := ⟨by decide +kernel, by decide +kernel⟩

theorem live_temps {v : Value} (hv : v ∈ (loaded.2.ctx 0).temps) : loaded.2.heap.Live v :=
  (recent_loaded (c := 0)).recalls.1.ready.2.live_kept (World.kept_of_temps hv)

theorem recent_run : Recent c none (.busy (run 3)) := by
  have hgiven : Machine.Given loaded.2.heap (.call loaded.1 #[] (.obj 23) .nil) :=
    ⟨live_temps (by decide +kernel), nofun, live_temps (by decide +kernel), Heap.live_nil⟩
  refine (recent_loaded.quiet_idle (.begin inUse_loaded hgiven)).quiet_run 3 ?_
  decide +kernel

end Failing

/-- The program goes on as if the native had returned. -/
theorem Recent.resume_like_return_failing : ∃ p e w₁, (Failing.run 3).setback? = some p ∧
    (Machine.step .core)^[2] (Failing.run 3) = ⟨w₁, [], .outcome (.error e)⟩ ∧
    Machine.step .core ⟨w₁, [], .begin 0 (.resume .nil)⟩ = Machine.step .core (p.returns 0 .nil) := by
  have hon : (Failing.run 3).active = some 0 := by decide +kernel
  have hfails : ((Failing.run 3).setback?.any fun p => p.waiting.isEmpty && (p.world.ctx 0).error.isNone &&
      (p.world.ctx 0).child.isNone) = true := by decide +kernel
  obtain ⟨p, hp, hclean⟩ := (Option.any_eq_true _ _).mp hfails
  simp only [Bool.and_eq_true, List.isEmpty_iff, Option.isNone_iff_eq_none] at hclean
  obtain ⟨⟨hwaiting, herror⟩, hchild⟩ := hclean
  obtain ⟨e, w₁, w₂, w₃, hfailed, hresume, hreturns, -, hsame, -⟩ :=
    (Recent.resume_like_return Failing.recent_run .core .nil).2 _ p [] rfl hon hp
  refine ⟨p, e, w₁, hp, hwaiting ▸ hfailed, ?_⟩
  rw [hresume, hreturns, hsame herror hchild, hwaiting]

end Host

end ScriptEngine
