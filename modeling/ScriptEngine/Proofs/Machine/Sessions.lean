import ScriptEngine.Proofs.Machine.Hosting

/-!
# A host and its engine

A host makes contexts and drops them, enters the engine and leaves it, does one thing or another on
a context, and has requests served step by step.  Its own natives do so too while the machine
waits for their answers, with contexts that are not above any of those at work; what they do is not said here,
only that they do it by the same means.

* `Host.Tends`      what a host does with an engine besides having requests served;
* `Host.Move`       a move of the host, or a step of the machine that serves a request;
* `Host.Next`       any of them;
* `Host.Reached`    the states that come about from a new engine;
* `Host.Move.along`   each move goes by strokes that make no closure without a live value to lead on to.
-/

namespace ScriptEngine

namespace Host

open Act (Safe Traced Plain Calm)
open World (Along Consistent Sound)
open Machine (Given Steady Sane Uses outer Waits)

/-- A host is idle, or has a request served. -/
inductive State where
  | idle (w : World)
  | busy (m : Machine)

def State.world : State → World
  | idle w => w
  | busy m => m.world

/-- Hands the parts of a call to a native of the host. -/
def offer (cx : CtxId) (func : Value) (args : Array Value) (me locals : Value) : Act Unit := do
  Act.prepareCall cx
  (func :: args.toList ++ [me, locals]).forM fun v => Act.push cx v

/-- A native that is not one of the core library. -/
def Foreign (n : Native) : Prop := Library.core.native n.name = none

/-- The answer of a native that has not come to one. -/
def silence : Except Failure Reply := .error { cause := .notCallable }

/-- What a native of the host may answer; it does not stop the program. -/
def Answer (h : Heap) : Except Failure Reply → Prop
  | .ok (.done v) => h.Live v
  | .ok (.run _ q _) => Given h q
  | .ok .halt => False
  | .error e => h.Live e.value ∧ e.External

/-- What a move is on. -/
inductive Matter where
  /-- A new context. -/
  | made
  /-- A context that is dropped, with all below it. -/
  | dropped (x : CtxId)
  | on (cx : CtxId)
  | engine

def Matter.of : Option CtxId → Matter
  | some cx => .on cx
  | none => .engine

theorem Matter.of_eq_on {a : Option CtxId} {cx : CtxId} (h : Matter.of a = .on cx) : a = some cx := by
  cases a with
  | none => exact nomatch h
  | some a => exact congrArg some (Matter.on.inj h)

/-- What a host does with an engine while some contexts are at work.  It touches none of these, nor any that
is above one of them. -/
inductive Tends (held : List CtxId) : Matter → World → World → Prop
  | newContext (w : World) : Tends held .made w w.newContext.2
  | drop {w : World} {x : CtxId} (hx : w.InUse x) (hroot : w.Unlinked x) (hclear : w.Clear x held) :
    Tends held (.dropped x) w (w.freeContext x)
  | enter (w : World) : Tends held .engine w w.enter
  | leave (w : World) : Tends held .engine w w.leave
  | deed {w : World} {cx : CtxId} (hcx : w.InUse cx) (hclear : w.Clear cx held) {d : Deed} (hd : d.Fair w) :
    Tends held (.on cx) w (World.after ((d.act cx).run w))

/-- A state in which a host, or one of its natives, is to do something, the contexts at work meanwhile, and
the state with another engine. -/
inductive AtHost (own : Native → Prop) : List CtxId → State → World → State → Prop
  | idle (w w' : World) : AtHost own [] (.idle w) w' (.idle w')
  | native {waiting : List Waiting} {cx : CtxId} {n : Native} {site : Site} (hn : own n) (w w' : World)
    (r : Except Failure Reply) :
    AtHost own (cx :: outer waiting) (.busy ⟨w, waiting, .replied cx n site r⟩) w'
      (.busy ⟨w', waiting, .replied cx n site silence⟩)

/-- A move of the host, or a step of the machine. -/
inductive Move : Matter → State → State → Prop
  | tend {held : List CtxId} {l : Matter} {s s' : State} {w' : World} (hat : AtHost Foreign held s w' s')
    (h : Tends held l s.world w') : Move l s s'
  | begin {w : World} {cx : CtxId} (hcx : w.InUse cx) {q : Request} (hq : Given w.heap q) :
    Move .engine (.idle w) (.busy ⟨w, [], .begin cx q⟩)
  | step (m : Machine) : Move (.of m.active) (.busy m) (.busy (m.step .core))
  | finish (w : World) (r : Except Failure Value) : Move .engine (.busy ⟨w, [], .outcome r⟩) (.idle w)
  /-- A native of the host is called as the whole of a request. -/
  | offer {w w' : World} {waiting : List Waiting} {cx : CtxId} {func : Value} {args : Array Value}
    {me locals : Value} {n : Native} (hn : w.heap.callee func = .native n) (foreign : Foreign n)
    (run : (offer cx func args me locals).run w = .ok () w') :
    Move (.on cx) (.busy ⟨w, waiting, .begin cx (.call func args me locals)⟩)
      (.busy ⟨w', waiting, .replied cx n .request silence⟩)
  /-- A native of the host does something on its own context. -/
  | work {w : World} {waiting : List Waiting} {cx : CtxId} {n : Native} {site : Site}
    {r : Except Failure Reply} (foreign : Foreign n) {d : Deed} (hd : d.Fair w) :
    Move (.on cx) (.busy ⟨w, waiting, .replied cx n site r⟩)
      (.busy ⟨World.after ((d.act cx).run w), waiting, .replied cx n site silence⟩)
  /-- A native of the host has a request served on a context that is not above any of those at work, such as
  one that the host has made for itself. -/
  | visit {w : World} {waiting : List Waiting} {cx : CtxId} {n : Native} {site : Site}
    {r : Except Failure Reply} (foreign : Foreign n) {c : CtxId} (hc : w.InUse c)
    (hclear : w.Clear c (cx :: outer waiting)) {q : Request} (hq : Given w.heap q) :
    Move .engine (.busy ⟨w, waiting, .replied cx n site r⟩)
      (.busy ⟨w, ⟨cx, n, site, { sub := c }⟩ :: waiting, .begin c q⟩)
  /-- A native of the host answers, or asks for something to be done on a child. -/
  | answer {w : World} {waiting : List Waiting} {cx : CtxId} {n : Native} {site : Site}
    {r r' : Except Failure Reply} (foreign : Foreign n) (hr : Answer w.heap r') :
    Move .engine (.busy ⟨w, waiting, .replied cx n site r⟩) (.busy ⟨w, waiting, .replied cx n site r'⟩)

def Next (s s' : State) : Prop := ∃ l, Move l s s'

theorem Move.next {l : Matter} {s s' : State} (h : Move l s s') : Next s s' := ⟨l, h⟩

/-! ### moves by name -/

theorem Next.newContext (w : World) : Next (.idle w) (.idle w.newContext.2) :=
  (Move.tend (.idle w _) (.newContext w)).next

theorem Next.enter (w : World) : Next (.idle w) (.idle w.enter) := (Move.tend (.idle w _) (.enter w)).next

theorem Next.leave (w : World) : Next (.idle w) (.idle w.leave) := (Move.tend (.idle w _) (.leave w)).next

theorem Next.deed {w : World} {cx : CtxId} (hcx : w.InUse cx) {d : Deed} (hd : d.Fair w) :
    Next (.idle w) (.idle (World.after ((d.act cx).run w))) :=
  (Move.tend (.idle w _) (.deed hcx (World.clear_nil w cx) hd)).next

theorem Next.begin {w : World} {cx : CtxId} (hcx : w.InUse cx) {q : Request} (hq : Given w.heap q) :
    Next (.idle w) (.busy ⟨w, [], .begin cx q⟩) :=
  (Move.begin hcx hq).next

theorem Next.step (m : Machine) : Next (.busy m) (.busy (m.step .core)) := (Move.step m).next

theorem Next.work {w : World} {waiting : List Waiting} {cx : CtxId} {n : Native} {site : Site}
    {r : Except Failure Reply} (foreign : Foreign n) {d : Deed} (hd : d.Fair w) :
    Next (.busy ⟨w, waiting, .replied cx n site r⟩)
      (.busy ⟨World.after ((d.act cx).run w), waiting, .replied cx n site silence⟩) :=
  (Move.work foreign hd).next

theorem Next.answer {w : World} {waiting : List Waiting} {cx : CtxId} {n : Native} {site : Site}
    {r r' : Except Failure Reply} (foreign : Foreign n) (hr : Answer w.heap r') :
    Next (.busy ⟨w, waiting, .replied cx n site r⟩) (.busy ⟨w, waiting, .replied cx n site r'⟩) :=
  (Move.answer foreign hr).next

/-- The states that come about from a new engine. -/
def Reached (s : State) : Prop := ∃ options, Relation.ReflTransGen Next (.idle (.new options)) s

/-- What makes the next move go by strokes. -/
structure State.Good (s : State) : Prop where
  consistent : s.world.Consistent
  ready : match s with
    | .idle w => w.Fit [] ∧ w.Sound fun _ => False
    | .busy m => m.Steady ∧ m.Sane

section

variable {w : World} {cx : CtxId} {s s' : State}

theorem good_new (options : Options) : (State.idle (.new options)).Good :=
  ⟨World.consistent_new options, World.fit_new options, World.sound_new options⟩

/-- The machine is sound when an outcome is to be told. -/
theorem State.Good.sound_outcome {waiting : List Waiting} {r : Except Failure Value}
    (hs : (State.busy ⟨w, waiting, .outcome r⟩).Good) : Machine.Sound ⟨w, waiting, .outcome r⟩ := by
  have hsane := hs.ready.2
  generalize hm : (⟨w, waiting, .outcome r⟩ : Machine) = m at hsane
  cases hsane with
  | sound h =>
    subst hm
    exact h
  | resume _ _ | asks _ _ => cases hm

/-- Nothing that a deed leads to touches the stacks of the contexts at work. -/
theorem keeps_deed {outer : List CtxId} (hw : w.Fit (cx :: outer)) (d : Deed) :
    w.Keeps (cx :: outer) (World.after ((d.act cx).run w)) := by
  have hled := d.calm.led w hw
  generalize (d.act cx).run w = r at hled ⊢
  cases hled with
  | done h => exact h
  | failed h _ => exact h

theorem sound_deed {used : CtxId → Prop} (hs : w.Sound used) (hcx : used cx) {d : Deed}
    (hd : d.Fair w) : (World.after ((d.act cx).run w)).Sound used := by
  have hsafe := Deed.safe hs hcx hd
  generalize (d.act cx).run w = r at hsafe ⊢
  cases hsafe with
  | done h _ => exact h
  | failed h _ => exact h

/-- Nor does a deed on a context that is not above any of them. -/
theorem keeps_beside {held : List CtxId} (hw : w.Fit held) (hcx : w.InUse cx) (hclear : w.Clear cx held) (d : Deed) :
    w.Keeps held (World.after ((d.act cx).run w)) := by
  have hk := keeps_deed (hw.join (.root hcx.lt hcx.used hclear hw.chain)) d
  have hrested := hw.rested cx fun hm => hclear cx hm .refl
  exact ⟨hk.fit.release ((hk.same cx List.mem_cons_self).rested hrested), fun c hc => hk.same c (List.mem_cons_of_mem _ hc)⟩

/-- A request on an idle engine with live values. -/
theorem sane_begin (hs : w.Sound fun _ => False) (hc : w.Consistent) (hcx : w.InUse cx) {q : Request}
    (hq : Given w.heap q) : Sane ⟨w, [], .begin cx q⟩ := by
  cases q with
  | call func args me locals =>
    refine .sound ⟨Machine.sound_mono hs fun c hu => ?_, hcx.lt, hq⟩
    rcases hu with hu | ⟨_, hu, _⟩
    · exact nomatch hu
    · exact nomatch hu
  | resume v =>
    refine .resume (Machine.sound_mono (Machine.sound_adopt hs hc hcx.lt) fun c hu => ?_) hq
    rcases hu with hu | ⟨_, hu, _⟩
    · exact .inl (Option.some.inj hu).symm
    · exact nomatch hu

/-! ### natives of the host -/

theorem external_silence : Act.ReplyExternal silence := by
  rintro _ ⟨⟩
  exact id

theorem Sane.replied {waiting : List Waiting} {n : Native} {site : Site} {r : Except Failure Reply}
    (h : Sane ⟨w, waiting, .replied cx n site r⟩) : w.Sound (Uses waiting (.running cx)) := by
  generalize hm : (⟨w, waiting, .replied cx n site r⟩ : Machine) = m at h
  cases h with
  | sound h =>
    subst hm
    exact h.world
  | resume _ _ => exact nomatch hm
  | asks h _ =>
    cases hm
    exact h

theorem sane_answer {waiting : List Waiting} (n : Native) (site : Site) {r : Except Failure Reply}
    (hs : w.Sound (Uses waiting (.running cx))) (hr : Answer w.heap r) :
    Sane ⟨w, waiting, .replied cx n site r⟩ := by
  cases r with
  | error e => exact .sound ⟨hs, hr.1⟩
  | ok reply =>
    cases reply with
    | done v => exact .sound ⟨hs, hr⟩
    | run sub q wait => exact .asks hs hr
    | halt => exact hr.elim

theorem sane_silence {waiting : List Waiting} (n : Native) (site : Site)
    (hs : w.Sound (Uses waiting (.running cx))) : Sane ⟨w, waiting, .replied cx n site silence⟩ :=
  sane_answer n site hs ⟨Heap.live_nil, id⟩

/-- What keeps the contexts at work leaves a native where it can go on. -/
theorem steady_silence {w' : World} {waiting : List Waiting} {n : Native} {site : Site} {r : Except Failure Reply}
    (hm : Steady ⟨w, waiting, .replied cx n site r⟩) (hk : w.Keeps (cx :: outer waiting) w') :
    Steady ⟨w', waiting, .replied cx n site silence⟩ := by
  obtain ⟨⟨-, hat⟩, hwaits, -⟩ := hm
  exact ⟨⟨hk.fit, hat.same hk.head⟩, hwaits.same fun c hc => hk.same c (List.mem_cons_of_mem _ hc), external_silence⟩

theorem external_answer {h : Heap} {r : Except Failure Reply} (hr : Answer h r) :
    Act.ReplyExternal r := by
  rintro e rfl
  exact hr.2

theorem moves_pushAll {outer : List CtxId} (vs : List Value) (hw : w.Fit (cx :: outer)) {w' : World}
    (h : (vs.forM fun v => Act.push cx v).run w = .ok () w') :
    w.Moves cx outer w' ∧ (w'.ctx cx).frames = (w.ctx cx).frames := by
  induction vs generalizing w with
  | nil =>
    cases h
    exact ⟨.refl hw, rfl⟩
  | cons v vs ih =>
    obtain ⟨_, w₁, h₁, h₂⟩ := run_bind_ok h
    obtain ⟨n, hl⟩ := (Act.loose_push v).levelled w hw
    rw [h₁] at hl
    cases hl with
    | done moves level _ =>
      obtain ⟨moves', hframes⟩ := ih moves.fit h₂
      exact ⟨moves.trans moves', hframes.trans level.frames⟩

theorem steady_offer {w' : World} {waiting : List Waiting} {func me locals : Value}
    {args : Array Value} (hm : Steady ⟨w, waiting, .begin cx (.call func args me locals)⟩)
    (hrun : (offer cx func args me locals).run w = .ok () w') (n : Native) :
    Steady ⟨w', waiting, .replied cx n .request silence⟩ ∧ (w'.ctx cx).frames = #[] := by
  obtain ⟨⟨hw, hheld⟩, hwaits, -⟩ := hm
  obtain ⟨w₁, h₁, hw₁, hwaits₁, hnone, hresume⟩ := Machine.run_prepareCall (hw.join hheld) hwaits
  unfold offer at hrun
  rw [run_bind_of_ok h₁] at hrun
  obtain ⟨moves, hframes⟩ := moves_pushAll _ hw₁ hrun
  exact ⟨⟨⟨moves.fit, moves.resumeAt.trans hresume⟩, hwaits₁.moves moves, external_silence⟩, hframes.trans hnone⟩

theorem traced_offer {w' : World} {func me locals : Value} {args : Array Value} (hc : w.Consistent)
    (hrun : (offer cx func args me locals).run w = .ok () w') : w.Along w' := by
  have h : Plain (offer cx func args me locals) :=
    Act.plain_prepareCall.bind fun _ => Act.plain_forM (fun v => Act.plain_push v) _
  have hv := (h.traced w hc).along
  rw [hrun] at hv
  exact hv

theorem sound_offer {w' : World} {waiting : List Waiting} {func me locals : Value}
    {args : Array Value} (hm : Machine.Sound ⟨w, waiting, .begin cx (.call func args me locals)⟩)
    (hrun : (offer cx func args me locals).run w = .ok () w') :
    w'.Sound (Uses waiting (.running cx)) := by
  obtain ⟨hs, hcx, hfunc, hargs, hme, hlocals⟩ := hm
  have hall : Safe (fun c => c = cx ∨ Uses waiting (.begin cx (.call func args me locals)) c)
      (fun _ _ => True) ((offer cx func args me locals).run w) := by
    refine (Act.safe_prepareCall hs hcx).bind fun _ w₁ hs₁ he => ?_
    refine (Act.safe_pushAll hs₁ (.inl rfl) _ fun v hv => ?_).mono fun _ _ _ => trivial
    rw [he]
    rcases List.mem_append.mp hv with hv | hv
    · rcases List.mem_cons.mp hv with rfl | hv
      · exact hfunc
      · exact hargs v (Array.mem_toList_iff.mp hv)
    · rcases List.mem_pair.mp hv with rfl | rfl
      · exact hme
      · exact hlocals
  rw [hrun] at hall
  cases hall with
  | done hs' _ =>
    refine Machine.sound_mono hs' fun c hu => ?_
    exact hu.imp (fun e => (Option.some.inj e).symm) fun h => .inr h

/-! ### what a host does with an engine -/

variable {own : Native → Prop} {w' : World} {held : List CtxId} {l : Matter}

theorem Tends.keeps (h : Tends held l w w') (hw : w.Fit held) : w.Keeps held w' := by
  cases h with
  | newContext w => exact hw.keeps_newContext
  | drop hx hroot hclear => exact hw.keeps_freeContext hx.lt hroot hclear
  | enter w => exact hw.still w.still_enter
  | leave w => exact hw.still w.still_leave
  | deed hcx hclear hd => exact keeps_beside hw hcx hclear _

theorem Tends.sound {used : CtxId → Prop} (h : Tends held l w w') (hs : w.Sound used) (hc : w.Consistent) :
    w'.Sound used := by
  cases h with
  | newContext w => exact (Act.sound_newContext hs).1
  | drop hx hroot hclear =>
    refine (Act.sound_freeChain hs _ _ ?_).1
    rintro _ ⟨⟩
    exact hx.lt
  | enter w => exact hs.enter.1
  | leave w => exact hs.leave.1
  | deed hcx hclear hd =>
    exact Machine.sound_mono (sound_deed (Machine.sound_adopt hs hc hcx.lt) (.inl rfl) hd) fun _ h => .inr h

theorem Tends.along {used : CtxId → Prop} (h : Tends held l w w') (hs : w.Sound used) (hc : w.Consistent) :
    w.Along w' := by
  cases h with
  | newContext w => exact World.along_newContext hc.placed
  | drop hx hroot hclear => exact World.along_freeChain _ _ w
  | enter w => exact World.along_enter w
  | leave w => exact World.along_leave w
  | @deed w cx hcx hclear d hd =>
    exact (d.traced hc (Machine.sound_adopt hs hc hcx.lt) (.inl rfl) hd).along

theorem AtHost.world (hat : AtHost own held s w' s') : s'.world = w' := by
  cases hat <;> rfl

theorem AtHost.fit (hat : AtHost own held s w' s') (hs : s.Good) : s.world.Fit held := by
  cases hat with
  | idle => exact hs.ready.1
  | native => exact hs.ready.1.works.1

theorem AtHost.sound (hat : AtHost own held s w' s') (hs : s.Good) : ∃ used, s.world.Sound used := by
  cases hat with
  | idle => exact ⟨_, hs.ready.2⟩
  | native => exact ⟨_, Sane.replied hs.ready.2⟩

/-- What a host does leads to where it can go on. -/
theorem AtHost.good (hat : AtHost own held s w' s') (hs : s.Good) (h : Tends held l s.world w') : s'.Good := by
  obtain ⟨used, hused⟩ := hat.sound hs
  have hc := (h.along hused hs.consistent).consistent hs.consistent
  have hk := h.keeps (hat.fit hs)
  cases hat with
  | idle => exact ⟨hc, hk.fit, h.sound hs.ready.2 hs.consistent⟩
  | @native waiting cx n site foreign w w' r =>
    obtain ⟨hc₀, hm, hsane⟩ := hs
    exact ⟨hc, steady_silence hm hk, sane_silence n site (h.sound (Sane.replied hsane) hc₀)⟩

/-! ### all moves -/

/-- **A move goes by strokes** and leads to where the next one does so too. -/
theorem Move.along (h : Move l s s') (hs : s.Good) : s.world.Along s'.world ∧ s'.Good := by
  cases h with
  | tend hat h =>
    obtain ⟨used, hused⟩ := hat.sound hs
    rw [hat.world]
    exact ⟨h.along hused hs.consistent, hat.good hs h⟩
  | @begin w cx hcx q hq =>
    obtain ⟨hc, hw, hs⟩ := hs
    exact ⟨.refl w, hc, ⟨⟨hw, (hw.held hcx).chain⟩, nofun, trivial⟩, sane_begin hs hc hcx hq⟩
  | step m =>
    obtain ⟨hc, hm, hs⟩ := hs
    have hv := Machine.along_step hm hs hc
    exact ⟨hv, hv.consistent hc, hm.step Library.calm_core, hs.step hc⟩
  | finish w r =>
    obtain ⟨hc, hm, hs⟩ := hs
    refine ⟨.refl w, hc, hm.works, ?_⟩
    generalize hmach : (⟨w, [], .outcome r⟩ : Machine) = m at hs
    cases hs with
    | sound h =>
      subst hmach
      refine Machine.sound_mono h.world fun c hu => ?_
      exact hu.elim
    | resume _ _ | asks _ _ => exact nomatch hmach
  | @offer w w' waiting cx func args me locals n hn foreign hrun =>
    obtain ⟨hc, hm, hs⟩ := hs
    have hv := traced_offer hc hrun
    refine ⟨hv, hv.consistent hc, (steady_offer hm hrun n).1, sane_silence n .request ?_⟩
    generalize hmach : (⟨w, waiting, .begin cx (.call func args me locals)⟩ : Machine) = m at hs
    cases hs with
    | sound h =>
      subst hmach
      exact sound_offer h hrun
    | resume _ _ | asks _ _ => exact nomatch hmach
  | @work w waiting cx n site r foreign d hd =>
    obtain ⟨hc, hm, hs⟩ := hs
    have hv : w.Along (World.after ((d.act cx).run w)) := (d.traced hc (Sane.replied hs) (.inl rfl) hd).along
    exact ⟨hv, hv.consistent hc, steady_silence hm (keeps_deed hm.works.1 d),
      sane_silence n site (sound_deed (Sane.replied hs) (.inl rfl) hd)⟩
  | @visit w waiting cx n site r foreign c hused hclear q hq =>
    obtain ⟨hc, ⟨⟨hw, hat⟩, hwaits, -⟩, hs⟩ := hs
    refine ⟨.refl w, hc, ⟨⟨hw, .root hused.lt hused.used hclear hw.chain⟩, ?_, trivial⟩,
      Machine.sane_asked ⟨cx, n, site, { sub := c }⟩ (Sane.replied hs) hc hused.lt hq⟩
    exact List.forall_mem_cons.mpr ⟨hat, hwaits⟩
  | @answer w waiting cx n site r r' foreign hr =>
    obtain ⟨hc, ⟨hworks, hwaits, -⟩, hs⟩ := hs
    exact ⟨.refl w, hc, ⟨hworks, hwaits, external_answer hr⟩, sane_answer n site (Sane.replied hs) hr⟩

theorem Next.along (h : Next s s') (hs : s.Good) : s.world.Along s'.world ∧ s'.Good := by
  obtain ⟨_, h⟩ := h
  exact h.along hs

theorem along_moves (h : Relation.ReflTransGen Next s s') (hs : s.Good) :
    s.world.Along s'.world ∧ s'.Good := by
  induction h with
  | refl => exact ⟨.refl _, hs⟩
  | tail _ hn ih =>
    obtain ⟨hv, hg⟩ := hn.along ih.2
    exact ⟨ih.1.trans hv, hg⟩

theorem Reached.good (h : Reached s) : s.Good := by
  obtain ⟨options, h⟩ := h
  exact (along_moves h (good_new options)).2

theorem Reached.next (h : Reached s) (hn : Next s s') : Reached s' := h.imp fun _ h => h.tail hn

theorem Reached.deed {c : CtxId} (h : Reached (.idle w)) (hc : w.InUse c) {d : Deed} (hd : d.Fair w) :
    Reached (.idle (World.after ((d.act c).run w))) := h.next (Next.deed hc hd)

theorem Reached.compile {c : CtxId} (h : Reached (.idle w)) (hc : w.InUse c) {src : Bytes} {file : String} {line : Nat}
    {v : Value} {w' : World} (hrun : (Act.compile c src file line).run w = .ok (.ok v) w') : Reached (.idle w') := by
  have hdeed : (Deed.act c (.compile src file line)).run w = .ok () w' := by
    show (Act.compile c src file line >>= fun _ => pure ()).run w = _
    rw [run_bind_of_ok hrun]
    rfl
  have h := h.deed hc (d := .compile src file line) trivial
  rwa [hdeed] at h

theorem Reached.live_temp {c : CtxId} (h : Reached (.idle w)) {v : Value} (hv : v ∈ (w.ctx c).temps) :
    w.heap.Live v :=
  h.good.ready.2.live_kept (World.kept_of_temps hv)

theorem Reached.run {m : Machine} (h : Reached (.busy m)) (n : Nat) :
    Reached (.busy ((Machine.step .core)^[n] m)) := by
  induction n with
  | zero => exact h
  | succ n ih =>
    rw [Function.iterate_succ_apply']
    exact ih.next (.step _)

/-- A run on what has been made for the context. -/
theorem Reached.request {func : Value} {args : Array Value} (h : Reached (.idle w)) (hcx : w.InUse cx)
    (hfunc : func ∈ (w.ctx cx).temps) (hargs : ∀ v ∈ args.toList, v = .nil ∨ v ∈ (w.ctx cx).temps) (n : Nat) :
    Reached (.busy ((Machine.step .core)^[n] ⟨w, [], .begin cx (.call func args .nil .nil)⟩)) := by
  refine (h.next (.begin hcx ?_)).run n
  refine ⟨h.live_temp hfunc, fun v hv => ?_, Heap.live_nil, Heap.live_nil⟩
  rcases hargs v (Array.mem_def.mp hv) with rfl | hv
  · exact Heap.live_nil
  · exact h.live_temp hv

end

end Host

end ScriptEngine
