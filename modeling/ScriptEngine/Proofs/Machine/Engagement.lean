import ScriptEngine.Proofs.Machine.Continuity
import ScriptEngine.Proofs.Machine.Resumption

/-!
# The instructions that frames execute

An instruction is executed with its frame moved on already, so a frame stands behind the instruction that it
executes.  Every frame of an engine executes one, but for the innermost frame of the context that runs, which
goes on with the instruction it stands at.

* `Frame.Executes`         a frame executes an instruction of its code;
* `Frame.Executes.place_eq`   the place of such a frame is on the line of its instruction;
* `Standing.among`         code stands only where instructions begin;
* `Machine.Finds`          the frames of a context as the next step finds them;
* `Machine.Proceeds`       what becomes of them;
* `Host.Next.engaged`      a move leaves every frame with an instruction;
* `Host.Reached.engaged`   **so every frame executes one**, in all states that a host comes to.
-/

namespace ScriptEngine

open World (ctx_modifyCtx_self field_modifyCtx)

/-! ## frames and instructions -/

/-- A frame executes an instruction of its code: it has been moved on behind it. -/
structure Frame.Executes (f : Frame) (i : Item) : Prop where
  among : ∃ l, Decoded f.code.words l ∧ i ∈ l
  past : f.ip = i.place + i.op.length

/-- **The place of a frame** is on the line of the instruction that it executes, however many words that has. -/
theorem Frame.Executes.place_eq {f : Frame} {i : Item} (h : f.Executes i) (hl : f.code.toCode.Lined) :
    f.place = ⟨f.code.file, f.code.lineAt i.place⟩ := by
  obtain ⟨l, hdecoded, hi⟩ := h.among
  have hpos := i.op.length_pos
  have hip : f.ip - 1 = i.place + (i.op.length - 1) := by
    have := h.past
    omega
  rw [Frame.place, hip, hl.lineAt_word hdecoded hi (Nat.sub_lt hpos Nat.one_pos)]

section

variable {words : Array UInt16} {l : List Item} {consts ip : Nat} {K : Nat → Shape → Prop} {t : Shape}

/-- A typing is left with the places where an instruction begins. -/
theorem Typing.among (hK : Typing (· ≤ ·) words consts K) (hl : Decoded words l) :
    Typing (· ≤ ·) words consts fun ip s => K ip s ∧ ∃ i ∈ l, i.place = ip where
  start := ⟨hK.start, hl.first⟩
  fits := by
    rintro ip s ⟨hs, j, hj, rfl⟩
    obtain ⟨i, hplace, hin, hconst, hflows⟩ := hK.fits _ s hs
    obtain rfl := hin.unique (hl.within hj) hplace
    refine ⟨i, rfl, hin, hconst, hflows.takes, hflows.marked, fun u hu => ?_, fun u hu => ?_⟩
    · obtain ⟨v, hv, hle⟩ := hflows.next u hu
      refine ⟨v, ⟨hv, ?_⟩, hle⟩
      rcases hl.row.behind hj with hend | hnext
      · -- there is no word behind the last instruction
        obtain ⟨k, hk, hkin, -⟩ := hK.fits _ v hv
        have hroom := hkin.room
        have hpos := k.op.length_pos
        omega
      · exact hnext
    · obtain ⟨v, hv, hle⟩ := hflows.jump u hu
      exact ⟨v, ⟨hv, hl.lands i hj (Op.isJump_of_target hu)⟩, hle⟩

/-- **Code stands only where instructions begin.** -/
theorem Standing.among (h : Standing words ip t) (hK : Typing (· ≤ ·) words consts K) (hl : Decoded words l) :
    ∃ i ∈ l, i.place = ip := by
  obtain ⟨_, ⟨-, hi⟩, -⟩ := h.shape kept_le (hK.among hl)
  exact hi

end

/-- A context that is ready is at an instruction, which its frame executes once it has been moved on. -/
theorem Context.Ready.executes {c : Context} (h : c.Ready) {f : Frame} {fs : List Frame}
    (hf : fromTop c.frames = f :: fs) (hl : f.code.toCode.Lined) {i : Item} (hplace : i.place = f.ip)
    (hin : i.In f.code.words) : Frame.Executes { f with ip := f.ip + i.op.length } i := by
  have hcalls := h.goes.2
  rw [hf] at hcalls
  obtain ⟨l, hdecoded⟩ := hl.decoded
  cases hcalls with
  | cons t code standing _ _ _ _ =>
    obtain ⟨K, hK⟩ := code.shapes
    obtain ⟨j, hj, hjplace⟩ := standing.among hK hdecoded
    obtain rfl := hin.unique (hdecoded.within hj) (hplace.trans hjplace.symm)
    exact ⟨⟨l, hdecoded, hj⟩, congrArg (· + i.op.length) hplace.symm⟩

theorem World.Consistent.lined_frame {w : World} (hc : w.Consistent) (hl : w.heap.Lined) {c : CtxId} {f : Frame}
    (hf : f ∈ (w.ctx c).frames) : f.code.toCode.Lined := by
  obtain ⟨target, scope, -, hcode⟩ := hc.framed c f hf
  have hbody := hl.bodyOf target
  rw [hcode] at hbody
  exact hbody

theorem mem_fromTop {α : Type} {xs : Array α} {x : α} : x ∈ fromTop xs ↔ x ∈ xs := by
  rw [fromTop, List.mem_reverse, Array.mem_toList_iff]

/-! ## what a step makes of the frames -/

namespace Machine

variable {w : World} {waiting : List Waiting} {m m' : Machine} {c cx : CtxId} {lib : Library} {o : Options}

/-- The frames of a context as the next step finds them: a call drops those there are, and an instruction is
executed with the innermost one moved on. -/
inductive Finds (m : Machine) (c : CtxId) : List Frame → Prop
  | fresh {func : Value} {args : Array Value} {me locals : Value}
    (begins : m.mode = .begin c (.call func args me locals)) : Finds m c []
  | moved {f : Frame} {fs : List Frame} {i : Item} (runs : m.mode = .running c)
    (top : fromTop (m.world.ctx c).frames = f :: fs) (place : i.place = f.ip) (inside : i.In f.code.words) :
    Finds m c ({ f with ip := f.ip + i.op.length } :: fs)
  | same (begins : ∀ func args me locals, m.mode ≠ .begin c (.call func args me locals))
    (runs : m.mode ≠ .running c) : Finds m c (fromTop (m.world.ctx c).frames)

/-- What becomes of the frames of the context that a step is on: it leaves them as it finds them, it goes on
with a frame above some of them, or its run is over and there are none left. -/
inductive Proceeds (m m' : Machine) (c : CtxId) : Prop
  | leaves (found : m.Finds c (fromTop (m'.world.ctx c).frames))
  | goesOn {frames : List Frame} (runs : m'.mode = .running c) (found : m.Finds c frames)
    (below : (fromTop (m'.world.ctx c).frames).tail <:+ frames)
  | ends (runs : m.mode = .running c ∨ ∃ v, m.mode = .ended c (.ok v)) (empty : (m'.world.ctx c).frames = #[])
    (quiet : m'.mode.fault? = none)

theorem Proceeds.of_same (begins : ∀ func args me locals, m.mode ≠ .begin c (.call func args me locals))
    (runs : m.mode ≠ .running c) (hf : (m'.world.ctx c).frames = (m.world.ctx c).frames) : Proceeds m m' c := by
  refine .leaves ?_
  rw [hf]
  exact .same begins runs

theorem proceeds_start (hlib : lib.Calm) {q : Request} (hm : Steady ⟨w, waiting, .begin cx q⟩) :
    Proceeds ⟨w, waiting, .begin cx q⟩ (start lib w waiting cx q) cx := by
  cases q with
  | call func args me locals =>
    obtain ⟨⟨hw, hheld⟩, hwaits, -⟩ := hm
    obtain ⟨w₁, hrun, hw₁, -, hframes, hresume⟩ := run_prepareCall (hw.join hheld) hwaits
    have hopened := Act.opened_beginCall hlib hw₁ hframes hresume func args me locals
    have hnone {m' : Machine} (hf : (m'.world.ctx cx).frames = #[]) :
        Proceeds ⟨w, waiting, .begin cx (.call func args me locals)⟩ m' cx := by
      refine .leaves ?_
      rw [hf]
      exact .fresh rfl
    unfold start
    dsimp only
    rw [run_bind_of_ok hrun]
    generalize (Act.beginCall lib cx func args me locals).run w₁ = r at hopened ⊢
    cases hopened with
    | frame moves ready single => exact .goesOn rfl (.fresh rfl) (single ▸ List.suffix_rfl)
    | native moves none => exact hnone none
    | failed moves none _ => exact hnone none
  | resume v => exact .of_same (fun _ _ _ _ h => nomatch h) (fun h => nomatch h) (steady_resume_frames lib hm).2

theorem proceeds_exec (hlib : lib.Calm) (hm : Steady ⟨w, waiting, .running cx⟩) (hl : w.Limited o) :
    Proceeds ⟨w, waiting, .running cx⟩ (step lib ⟨w, waiting, .running cx⟩) cx := by
  obtain ⟨⟨hw, hready⟩, -, -⟩ := hm
  obtain ⟨f, fs, i, hf, hplace, hin, hperformed⟩ := Act.performed_exec hlib hw hready
  have hfound : Finds ⟨w, waiting, .running cx⟩ cx ({ f with ip := f.ip + i.op.length } :: fs) :=
    .moved rfl hf hplace hin
  unfold step
  dsimp only
  generalize (Act.exec lib cx).run w = r at hperformed ⊢
  cases hperformed with
  | next moves ready below => exact .goesOn rfl hfound below
  | returned moves none => exact .ends (.inl rfl) none rfl
  | native moves parked same _ => exact .leaves (same ▸ hfound)
  | failed moves same _ =>
    rcases same with hfull | same
    · -- the operands are within the limit
      rw [hl.1] at hfull
      exact absurd (hl.2 cx).stack (Nat.not_le.mpr hfull)
    · exact .leaves (same ▸ hfound)

/-- Other changes of a context leave its frames alone. -/
theorem frames_modifyCtx {f : Context → Context} (hf : ∀ c, (f c).frames = c.frames) :
    ((w.modifyCtx cx f).ctx cx).frames = (w.ctx cx).frames := field_modifyCtx Context.frames hf cx

theorem proceeds_reply {n : Native} {site : Site} {r : Except Failure Reply}
    (hm : Steady ⟨w, waiting, .replied cx n site r⟩) :
    Proceeds ⟨w, waiting, .replied cx n site r⟩ (step lib ⟨w, waiting, .replied cx n site r⟩) cx := by
  refine .of_same (fun _ _ _ _ h => nomatch h) (fun h => nomatch h) ?_
  obtain ⟨⟨hw, hat⟩, hwaits, -⟩ := hm
  cases r with
  | error e =>
    cases site with
    | request => rfl
    | instruction base => exact frames_modifyCtx (f := ({ · with resumeAt := some base })) fun _ => rfl
  | ok reply =>
    cases reply with
    | run sub request wait =>
      unfold step delegate
      dsimp only
      split <;> rfl
    | halt => rfl
    | done v =>
      cases site with
      | request => exact frames_modifyCtx (f := ({ · with stack := #[] })) fun _ => rfl
      | instruction base =>
        unfold step settle
        dsimp only
        rcases parked_result hw hwaits hat.1 hat.2 v with ⟨w', hr, -, hsame⟩ | ⟨e, w', hr, -, -, hsame⟩
        · rw [hr]
          exact hsame
        · rw [hr]
          exact hsame

theorem proceeds_end {r : Except Failure Value} (hm : Steady ⟨w, waiting, .ended cx r⟩) :
    Proceeds ⟨w, waiting, .ended cx r⟩ (step lib ⟨w, waiting, .ended cx r⟩) cx := by
  obtain ⟨⟨hw, -⟩, -, -⟩ := hm
  cases r with
  | error e =>
    refine .of_same (fun _ _ _ _ h => nomatch h) (fun h => nomatch h) ?_
    exact frames_modifyCtx (f := ({ · with error := some { e with trace := e.trace ++ (w.ctx cx).places } })) fun _ => rfl
  | ok v =>
    have hw₁ : (w.modifyCtx cx Context.clearStacks).Fit (cx :: outer waiting) :=
      hw.modifyCtx (fun _ => rfl) (fun _ => rfl) fun _ => rfl
    obtain ⟨w₂, hrun, hkeeps, -⟩ := hw₁.freeChild
    have hfinish : (Act.finish cx (.ok v)).run w = .ok (.ok v) w₂ := by
      show EStateM.run (Act.freeChild cx >>= fun _ => pure (Except.ok v)) (w.modifyCtx cx Context.clearStacks) = _
      rw [run_bind_of_ok hrun]
      rfl
    unfold step
    dsimp only
    rw [hfinish]
    refine .ends (.inr ⟨v, rfl⟩) (hkeeps.head.frames.trans ?_) rfl
    rw [ctx_modifyCtx_self hw.lt]
    rfl

theorem proceeds_wake (hlib : lib.Calm) {who : Waiting} {r : Except Failure Value}
    (hm : Steady ⟨w, who :: waiting, .outcome r⟩) :
    Proceeds ⟨w, who :: waiting, .outcome r⟩ (wake lib w waiting who r) who.cx := by
  obtain ⟨hw, -, hr⟩ := hm
  refine .of_same (fun _ _ _ _ h => nomatch h) (fun h => nomatch h) ?_
  unfold wake
  split
  · rename_i b hb
    have hled := (hlib.resume hb who.cx (outer waiting) who.native who.wait r hr).led w hw
    generalize (b.resume who.cx who.native who.wait r).run w = r' at hled ⊢
    cases hled with
    | done h => exact h.head.frames
    | failed h _ => exact h.head.frames
  · rfl

/-- **What a step makes of the frames** of the context it is on. -/
theorem proceeds_step (hlib : lib.Calm) (hm : m.Steady) (hl : m.world.Limited o) (hc : m.active = some c) :
    Proceeds m (m.step lib) c := by
  obtain ⟨w, waiting, mode⟩ := m
  cases mode with
  | begin cx q =>
    obtain rfl := Option.some.inj hc
    exact proceeds_start hlib hm
  | running cx =>
    obtain rfl := Option.some.inj hc
    exact proceeds_exec hlib hm hl
  | replied cx n site r =>
    obtain rfl := Option.some.inj hc
    exact proceeds_reply hm
  | ended cx r =>
    obtain rfl := Option.some.inj hc
    exact proceeds_end hm
  | outcome r =>
    cases waiting with
    | nil => exact nomatch hc
    | cons who waiting =>
      obtain rfl := Option.some.inj hc
      exact proceeds_wake hlib hm

end Machine

/-! ## all states -/

namespace Host

open Machine (Finds Proceeds Steady)

variable {s s' : State} {m m' : Machine} {c : CtxId} {o : Options}

/-- So does what a native of the host does meanwhile. -/
theorem Next.proceeds (h : Next (.busy m) (.busy m')) (hs : (State.busy m).Good) (hl : m.world.Limited o)
    (hc : m.active = some c) : Proceeds m m' c := by
  obtain ⟨_, h⟩ := h
  cases h with
  | tend hat h =>
    have hk := h.keeps (hat.fit hs)
    cases hat with
    | @native waiting cx n site _ w w' r =>
      obtain rfl := Option.some.inj hc
      refine .of_same (fun _ _ _ _ h => nomatch h) (fun h => nomatch h) ?_
      exact (hk.same cx List.mem_cons_self).frames
  | step m => exact Machine.proceeds_step Library.calm_core hs.ready.1 hl hc
  | @offer w w' waiting cx func args me locals n _ _ hrun =>
    obtain rfl := Option.some.inj hc
    refine .leaves ?_
    rw [(steady_offer hs.ready.1 hrun n).2]
    exact .fresh rfl
  | @work w waiting cx n site r _ d _ =>
    obtain rfl := Option.some.inj hc
    refine .of_same (fun _ _ _ _ h => nomatch h) (fun h => nomatch h) ?_
    exact ((keeps_deed hs.ready.1.works.1 d).same cx List.mem_cons_self).frames
  | visit _ _ _ _ | answer _ _ => exact .of_same (fun _ _ _ _ h => nomatch h) (fun h => nomatch h) rfl

/-- Every frame executes an instruction, but for the innermost one of the context that runs. -/
def State.Engaged (s : State) : Prop :=
  ∀ c, (∀ f ∈ fromTop (s.world.ctx c).frames, ∃ i, f.Executes i) ∨
    ∃ m, s = .busy m ∧ m.mode = .running c ∧ ∀ f ∈ (fromTop (m.world.ctx c).frames).tail, ∃ i, f.Executes i

/-- **The frames that a step finds** execute instructions, all of them. -/
theorem State.Engaged.finds (he : (State.busy m).Engaged) (hs : (State.busy m).Good) (hl : m.world.heap.Lined)
    {frames : List Frame} (h : m.Finds c frames) : ∀ f ∈ frames, ∃ i, f.Executes i := by
  cases h with
  | fresh _ => exact fun _ hf => nomatch hf
  | same _ runs =>
    refine (he c).resolve_right ?_
    rintro ⟨_, ⟨⟩, hruns, -⟩
    exact runs hruns
  | @moved f fs i runs top place inside =>
    have hworks := hs.ready.1.works
    rw [runs] at hworks
    have hf : f ∈ (m.world.ctx c).frames := mem_fromTop.mp (top ▸ List.mem_cons_self)
    have hlined := hs.consistent.lined_frame hl hf
    refine List.forall_mem_cons.mpr ⟨⟨i, hworks.2.executes top hlined place inside⟩, ?_⟩
    rcases he c with hall | ⟨_, ⟨⟩, -, htail⟩
    · exact fun g hg => hall g (top ▸ List.mem_cons_of_mem _ hg)
    · rwa [top] at htail

/-- **A move** leaves every frame with an instruction that it executes. -/
theorem Next.engaged (h : Next s s') (hs : s.Good) (hh : s.world.Household []) (hl : s.world.Limited o)
    (hlined : s.world.heap.Lined) (he : s.Engaged) : s'.Engaged := by
  intro c
  by_cases hon : ∃ m, s = .busy m ∧ m.active = some c
  · obtain ⟨m, rfl, hc⟩ := hon
    cases s' with
    | idle w =>
      obtain ⟨_, h⟩ := h
      cases h with
      | tend hat _ => exact nomatch hat
      | finish _ _ => exact nomatch hc
    | busy m' =>
      cases h.proceeds hs hl hc with
      | leaves found => exact .inl (he.finds hs hlined found)
      | goesOn runs found below =>
        exact .inr ⟨m', rfl, runs, fun f hf => he.finds hs hlined found f (below.subset hf)⟩
      | ends _ empty _ =>
        refine .inl fun f hf => ?_
        rw [show (State.busy m').world = m'.world from rfl, empty] at hf
        exact nomatch hf
  · have hoff (m : Machine) (hm : s = .busy m) (hc : m.active = some c) : False := hon ⟨m, hm, hc⟩
    refine .inl ?_
    obtain ⟨_, h⟩ := h
    rcases h.spares hs hh hoff with hsame | ⟨hempty, -⟩
    · rw [hsame.frames]
      refine (he c).resolve_right ?_
      rintro ⟨m, hm, hruns, -⟩
      refine hoff m hm ?_
      unfold Machine.active
      rw [hruns]
    · rw [hempty.frames]
      exact fun _ hf => nomatch hf

/-- In all states that a host comes to the contexts are in order and within the limits. -/
theorem Reached.orderly (h : Reached s) : s.world.Household [] ∧ ∃ o, s.world.Limited o := by
  obtain ⟨_, h⟩ := h.recent 0
  obtain ⟨-, hh, o, hl, -⟩ := h.recalls
  exact ⟨hh, o, hl⟩

/-- **Every frame executes an instruction** in all states that a host comes to, but for the innermost one of the
context that runs. -/
theorem Reached.engaged (h : Reached s) : s.Engaged := by
  obtain ⟨options, h⟩ := h
  induction h with
  | refl => exact fun c => .inl fun _ hf => nomatch hf
  | tail h hn ih =>
    have hreached : Reached _ := ⟨options, h⟩
    obtain ⟨hh, o, hl⟩ := hreached.orderly
    exact hn.engaged hreached.good hh hl hreached.lined ih

end Host

end ScriptEngine
