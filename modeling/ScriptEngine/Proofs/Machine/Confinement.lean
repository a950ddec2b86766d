import ScriptEngine.Proofs.Machine.Fresh
import ScriptEngine.Proofs.Machine.Sentinel
import ScriptEngine.Proofs.Machine.Sessions
import ScriptEngine.Proofs.Natives.Cleanness

/-!
# The end of an iteration is confined

As long as neither the host nor a native brings it in, the end of an iteration is nowhere in an engine, but
for the one moment between the instruction that iterates and the test for the end behind it, when it is the
top operand of the context that runs.

* `Machine.Confined`         a machine without the end, or at that moment;
* `Machine.Confined.step`    a step;
* `Host.Deed.cleanly`        what a host does with other values;
* `Host.Plays`               a move that does not bring in the end;
* `Host.sentinel_confined`   **the end is confined**, whatever is done.
-/

namespace ScriptEngine

open Act (Cleanly Any Executed ReplyClean Outcome.Clean cleanly_pure cleanly_fail cleanly_push cleanly_modify
  cleanly_modifyCtx cleanly_ctx cleanly_heap)

theorem Context.Clean.withoutError {c : Context} (hc : c.Clean) : { c with error := none }.Clean :=
  hc.withError nofun

/-! ## machines -/

def Mode.Clean : Mode → Prop
  | begin _ q => q.Clean
  | running _ => True
  | replied _ _ _ r => ReplyClean r
  | ended _ r | outcome r => OutcomeClean r

def Mode.running? : Mode → Option CtxId
  | running cx => some cx
  | _ => none

def WaitingClean (waiting : List Waiting) : Prop := ∀ who ∈ waiting, ∀ v ∈ who.wait.values, v.Clean

namespace Machine

structure Clean (m : Machine) : Prop where
  world : m.world.Clean
  waiting : WaitingClean m.waiting
  mode : m.mode.Clean

/-- **The end is confined**: it is nowhere, or it is on top of the operands of the context that runs, and the
test for it comes next. -/
inductive Confined : Machine → Prop
  | clean {m : Machine} (h : m.Clean) : Confined m
  | brink {w : World} {waiting : List Waiting} {cx : CtxId} (h : w.Brink cx) (hwaiting : WaitingClean waiting) :
    Confined ⟨w, waiting, .running cx⟩

end Machine

namespace Act

variable {lib : Library} {cx : CtxId}

/-! ### requests -/

theorem cleanly_prepareCall : Cleanly Any (prepareCall cx) := by
  unfold prepareCall
  exact cleanly_freeChild.bind fun _ _ => cleanly_modifyCtx fun _ hc => hc.clearStacks.withoutError

theorem cleanly_settle (height : Nat) {v : Value} (hv : v.Clean) :
    Cleanly Any (do cut cx height; push cx v : Act Unit) :=
  (cleanly_cut height).bind fun _ _ => cleanly_push hv

theorem cleanly_prepareResume (height : Nat) {v : Value} (hv : v.Clean) :
    Cleanly Any (prepareResume cx height v) := by
  unfold prepareResume
  refine cleanly_freeChild.bind fun _ _ => (cleanly_modifyCtx fun _ hc => hc.withoutError).bind fun _ _ => ?_
  exact cleanly_settle height hv

theorem cleanly_finish {r : Except Failure Value} (hr : OutcomeClean r) :
    Cleanly OutcomeClean (finish cx r) := by
  cases r with
  | ok v =>
    exact (cleanly_modifyCtx fun _ hc => hc.clearStacks).bind fun _ _ => cleanly_freeChild.bind fun _ _ =>
      cleanly_pure hr
  | error e =>
    refine (cleanly_ctx cx).bind fun c _ => (cleanly_modifyCtx fun c hc => hc.withError ?_).bind fun _ _ =>
      cleanly_pure hr
    rintro _ ⟨⟩
    exact hr

def Begun.Clean : Begun → Prop
  | frame => True
  | native _ r => r.Clean

theorem cleanly_beginCall (hlib : lib.Clean) {func me locals : Value} {args : Array Value} (hfunc : func.Clean)
    (hargs : ∀ v ∈ args, v.Clean) (hme : me.Clean) (hlocals : locals.Clean) :
    Cleanly Begun.Clean (beginCall lib cx func args me locals) := by
  have hframe {func locals scope : Value} {code : Loaded} (hfunc : func.Clean) (hcode : code.Clean)
      (hlocals : locals.Clean) (hscope : scope.Clean) : Cleanly Begun.Clean (do
      bindArgs cx code locals args me
      cut cx 0
      pushFrame cx func code locals scope 0
      return Begun.frame) :=
    (cleanly_bindArgs hcode locals hargs hme).bind fun _ _ => (cleanly_cut 0).bind fun _ _ =>
      (cleanly_pushFrame hfunc hcode hlocals hscope 0).bind fun _ _ => cleanly_pure trivial
  unfold beginCall
  refine (cleanly_push hfunc).bind fun _ _ => ?_
  rw [forM_toList]
  refine (cleanly_forM fun a ha => cleanly_push (hargs a (Array.mem_toList_iff.mp ha))).bind fun _ _ => ?_
  refine (cleanly_push hme).bind fun _ _ => (cleanly_push hlocals).bind fun _ _ => cleanly_heap.bind fun h hh => ?_
  cases hcallee : h.callee func with
  | native n => exact (cleanly_startNative hlib n hme hargs).bind fun _ hr => cleanly_pure hr
  | script code scope =>
    obtain ⟨hcode, hscope⟩ := hh.callee hcallee
    exact cleanly_heap.bind fun h _ => Cleanly.ite (hframe hfunc hcode hlocals hscope)
      (cleanly_newHash.bind fun ns hns => hframe hfunc hcode hns hscope)
  | bare code =>
    have hcode := hh.callee_bare hcallee
    have hbound {ns : Value} (hns : ns.Clean) : Cleanly Begun.Clean (do
        let bound ← newFunc cx func .nil
        bindArgs cx code ns args me
        cut cx 0
        pushFrame cx bound code ns .nil 0
        return Begun.frame) :=
      (cleanly_newFunc hfunc Value.clean_nil).bind fun bound hb => hframe hb hcode hns Value.clean_nil
    exact cleanly_heap.bind fun h _ => Cleanly.ite (hbound hlocals) (cleanly_newHash.bind fun ns hns => hbound hns)
  | none =>
    exact cleanly_heap.bind fun h _ => Cleanly.ite (cleanly_fail _) (cleanly_newHash.bind fun ns _ => cleanly_fail _)

end Act

/-! ### steps -/

namespace Machine

variable {lib : Library} {w : World} {waiting : List Waiting} {cx : CtxId} {m : Machine}

theorem clean_start (hlib : lib.Clean) (hw : w.Clean) (hwaiting : WaitingClean waiting) {q : Request}
    (hq : q.Clean) : (start lib w waiting cx q).Clean := by
  cases q with
  | call func args me locals =>
    obtain ⟨hfunc, hargs, hme, hlocals⟩ := hq
    have hcall : Cleanly Act.Begun.Clean (do
        Act.prepareCall cx
        Act.beginCall lib cx func args me locals) :=
      Act.cleanly_prepareCall.bind fun _ _ => Act.cleanly_beginCall hlib hfunc hargs hme hlocals
    have hends := hcall.ends w hw
    unfold start
    dsimp only
    generalize EStateM.run _ w = r at hends ⊢
    cases hends with
    | failed hw he => exact ⟨hw, hwaiting, he⟩
    | @done b _ hw hb =>
      cases b with
      | frame => exact ⟨hw, hwaiting, trivial⟩
      | native n r => exact ⟨hw, hwaiting, hb⟩
  | resume v =>
    have hw' : (w.modifyCtx cx fun c => { c with resumeAt := none }).Clean := by
      have hc := hw.ctx cx
      exact hw.modifyCtx ⟨hc.stack, hc.temps, hc.frames, hc.error⟩
    unfold start
    dsimp only
    split
    · rename_i height _
      have hresume : Cleanly Any (Act.prepareResume cx height v) := Act.cleanly_prepareResume height hq
      have hends := hresume.ends _ hw'
      generalize (Act.prepareResume cx height v).run _ = r at hends ⊢
      cases hends with
      | failed hw he => exact ⟨hw, hwaiting, he⟩
      | done hw _ => exact ⟨hw, hwaiting, trivial⟩
    · exact ⟨hw', hwaiting, Value.clean_nil⟩

theorem confined_exec (hlib : lib.Clean) (hw : w.Clean) (hwaiting : WaitingClean waiting) :
    (step lib ⟨w, waiting, .running cx⟩).Confined := by
  have hexec : Executed cx Outcome.Clean .next ((Act.exec lib cx).run w) := Act.executed_exec hlib hw
  unfold step
  dsimp only
  generalize (Act.exec lib cx).run w = r at hexec ⊢
  cases hexec with
  | brink h => exact .brink h hwaiting
  | clean h =>
    cases h with
    | failed hw he => exact .clean ⟨hw, hwaiting, he⟩
    | @done o _ hw ho =>
      cases o with
      | next => exact .clean ⟨hw, hwaiting, trivial⟩
      | returned v => exact .clean ⟨hw, hwaiting, ho⟩
      | native base n r => exact .clean ⟨hw, hwaiting, ho⟩

/-- At the test for it the end is taken away. -/
theorem clean_test (h : w.Brink cx) (hwaiting : WaitingClean waiting) :
    (step lib ⟨w, waiting, .running cx⟩).Clean := by
  obtain ⟨w', hrun, hw'⟩ := Act.run_exec_brink lib h
  unfold step
  dsimp only
  rw [hrun]
  exact ⟨hw', hwaiting, trivial⟩

theorem clean_reply (hw : w.Clean) (hwaiting : WaitingClean waiting) {n : Native} {site : Site}
    {r : Except Failure Reply} (hr : ReplyClean r) : (step lib ⟨w, waiting, .replied cx n site r⟩).Clean := by
  cases r with
  | error e =>
    cases site with
    | request => exact ⟨hw, hwaiting, hr⟩
    | instruction base =>
      have hc := hw.ctx cx
      exact ⟨hw.modifyCtx ⟨hc.stack, hc.temps, hc.frames, hc.error⟩, hwaiting, hr⟩
  | ok reply =>
    cases reply with
    | run sub request wait =>
      have hmore : WaitingClean (⟨cx, n, site, wait⟩ :: waiting) := List.forall_mem_cons.mpr ⟨hr.2, hwaiting⟩
      unfold step delegate
      dsimp only
      split
      · exact ⟨hw, hmore, hr.1⟩
      · exact ⟨hw, hmore, Value.clean_nil⟩
    | halt => exact ⟨hw, hwaiting, hr⟩
    | done v =>
      cases site with
      | request => exact ⟨hw.modifyCtx ((hw.ctx cx).withStack (Array.forall_mem_empty _)), hwaiting, hr⟩
      | instruction base =>
        have hsettle : Cleanly Any (do Act.cut cx base; Act.push cx v : Act Unit) := Act.cleanly_settle base hr
        have hends := hsettle.ends w hw
        unfold step settle
        dsimp only
        generalize EStateM.run _ w = r at hends ⊢
        cases hends with
        | failed hw he => exact ⟨hw, hwaiting, he⟩
        | done hw _ => exact ⟨hw, hwaiting, trivial⟩

theorem clean_end (hw : w.Clean) (hwaiting : WaitingClean waiting) {r : Except Failure Value}
    (hr : OutcomeClean r) : (step lib ⟨w, waiting, .ended cx r⟩).Clean := by
  have hfinish : Cleanly OutcomeClean (Act.finish cx r) := Act.cleanly_finish hr
  have hends := hfinish.ends w hw
  unfold step
  dsimp only
  generalize (Act.finish cx r).run w = r' at hends ⊢
  cases hends with
  | failed hw he => exact ⟨hw, hwaiting, he⟩
  | done hw hr => exact ⟨hw, hwaiting, hr⟩

theorem clean_wake (hlib : lib.Clean) (hw : w.Clean) {who : Waiting} (hwaiting : WaitingClean (who :: waiting))
    {r : Except Failure Value} (hr : OutcomeClean r) : (wake lib w waiting who r).Clean := by
  obtain ⟨hwho, hwaiting⟩ := List.forall_mem_cons.mp hwaiting
  unfold wake
  split
  · rename_i b hb
    have hends := (hlib.resume hb who.cx who.native hwho hr).ends w hw
    generalize (b.resume who.cx who.native who.wait r).run w = r' at hends ⊢
    cases hends with
    | failed hw he => exact ⟨hw, hwaiting, he⟩
    | done hw hr => exact ⟨hw, hwaiting, hr⟩
  · exact ⟨hw, hwaiting, Value.clean_nil⟩

theorem Confined.step (hlib : lib.Clean) (h : m.Confined) : (m.step lib).Confined := by
  cases h with
  | brink h hwaiting => exact .clean (clean_test h hwaiting)
  | clean h =>
    obtain ⟨w, waiting, mode⟩ := m
    obtain ⟨hw, hwaiting, hmode⟩ := h
    cases mode with
    | begin cx q => exact .clean (clean_start hlib hw hwaiting hmode)
    | running cx => exact confined_exec hlib hw hwaiting
    | replied cx n site r => exact .clean (clean_reply hw hwaiting hmode)
    | ended cx r => exact .clean (clean_end hw hwaiting hmode)
    | outcome r =>
      cases waiting with
      | nil => exact .clean ⟨hw, hwaiting, hmode⟩
      | cons who waiting => exact .clean (clean_wake hlib hw hwaiting hmode)

end Machine

/-! ## hosts -/

namespace World

variable {w : World}

theorem Clean.pin (hw : w.Clean) {v : Value} (hv : v.Clean) : (w.pin v).Clean := by
  refine ⟨hw.heap, hw.contexts, fun u hu => ?_, hw.saved⟩
  rcases Array.mem_push.mp hu with hu | rfl
  · exact hw.roots u hu
  · exact hv

theorem Clean.save (hw : w.Clean) {v : Value} (hv : v.Clean) : (w.save v).2.Clean := by
  unfold World.save
  split
  · refine ⟨hw.heap, hw.contexts, hw.roots, fun u hu => ?_⟩
    rcases Array.mem_or_eq_of_mem_setIfInBounds hu with hu | ⟨⟨⟩⟩
    · exact hw.saved u hu
    · exact hv
  · refine ⟨hw.heap, hw.contexts, hw.roots, fun u hu => ?_⟩
    rcases Array.mem_push.mp hu with hu | ⟨⟨⟩⟩
    · exact hw.saved u hu
    · exact hv

theorem Clean.unsave (hw : w.Clean) (key : Nat) : (w.unsave key).Clean := by
  unfold World.unsave
  split
  · refine ⟨hw.heap, hw.contexts, hw.roots, fun u hu => ?_⟩
    exact hw.saved u ((Array.mem_or_eq_of_mem_setIfInBounds hu).resolve_right nofun)
  · exact hw

theorem Clean.collectNow (hw : w.Clean) : w.collectNow.Clean := by
  unfold World.collectNow
  split
  · exact (hw.gate _).serve
  · exact hw.gate _

theorem Clean.collect (hw : w.Clean) : w.collect.Clean := by
  unfold World.collect
  split
  · exact hw.gate _
  · exact hw.enter.collectNow.leave

end World

namespace Host

variable {lib : Library} {cx : CtxId}

def Deed.Clean : Deed → Prop
  | newVec items => ∀ v ∈ items, v.Clean
  | hashSet _ key v | insert _ key v => key.Clean ∧ v.Clean
  | addSym _ _ v | vecPush _ v | vecSet _ _ v | keepTemp v | pin v | save v => v.Clean
  | member obj _ => obj.Clean
  | setMember obj _ v => obj.Clean ∧ v.Clean
  | extract box _ => box.Clean
  | bindFunction code ns => code.Clean ∧ ns.Clean
  | bindToCaller code => code.Clean
  | recordError e => e.value.Clean
  | _ => True

theorem cleanly_newNative (n : Native) : Cleanly Value.Clean (Act.newNative cx n) :=
  (Act.cleanly_alloc (b := .native n) .native trivial).bind fun _ hv => Act.cleanly_newFunc hv Value.clean_nil

theorem cleanly_addSym (ns : Value) (name : String) {v : Value} (hv : v.Clean) :
    Cleanly Any (Act.addSym ns name v) :=
  (Act.cleanly_intern _).bind fun _ hsym => Act.cleanly_hashSet ns hsym hv

/-- **What a host does** with other values than the end. -/
theorem Deed.cleanly {d : Deed} (hd : d.Clean) : Cleanly Any (d.act cx) := by
  cases d with
  | newStr bs => exact (Act.cleanly_newStr bs).discard
  | newVec items => exact (Act.cleanly_newVec hd).discard
  | newHash => exact Act.cleanly_newHash.discard
  | newNative n => exact (cleanly_newNative n).discard
  | newGhost g => exact (Act.cleanly_alloc (b := .ghost g) .ghost trivial).discard
  | intern name => exact (Act.cleanly_intern name).discard
  | hashSet box key v => exact Act.cleanly_hashSet box hd.1 hd.2
  | hashGet box key => exact (Act.cleanly_hashGet box key).discard
  | hashDelete box key => exact (Act.cleanly_hashDelete box key).discard
  | addSym ns name v => exact cleanly_addSym ns name hd
  | register ns names =>
    exact Act.cleanly_forM fun name _ => (cleanly_newNative _).bind fun f hf => cleanly_addSym ns name hf
  | vecPush box item => exact (Act.cleanly_vecPush box hd).discard
  | vecSet box i item => exact (Act.cleanly_vecSet box i hd).discard
  | member obj name =>
    exact Cleanly.discard ((Act.cleanly_intern _).bind fun _ _ => (Act.cleanly_hashKey _).bind fun _ _ =>
      Act.cleanly_member Library.clean_core hd ..)
  | setMember obj name v =>
    exact (Act.cleanly_intern _).bind fun _ hsym => (Act.cleanly_hashKey _).bind fun _ _ =>
      Act.cleanly_setMember Library.clean_core hd.1 _ _ hsym hd.2
  | extract box key => exact (Act.cleanly_extract hd key).discard
  | insert box key v => exact Act.cleanly_insert box hd.1 hd.2
  | compile src file firstLine => exact (Act.cleanly_compile src file firstLine).discard
  | bindFunction code ns =>
    exact Cleanly.discard (cleanly_heap.bind fun h _ => Cleanly.check (Cleanly.check
      (Act.cleanly_bindTo hd.1 hd.2 Value.clean_nil)))
  | bindToCaller code => exact (Act.cleanly_bindToCaller hd).discard
  | subContext => exact Act.cleanly_subContext.discard
  | freeChild => exact Act.cleanly_freeChild
  | recordError e =>
    refine cleanly_modifyCtx fun c hc => hc.withError ?_
    rintro _ ⟨⟩
    exact hd
  | keepTemp v =>
    refine cleanly_modifyCtx fun c hc => hc.withTemps fun u hu => ?_
    rcases Array.mem_push.mp hu with hu | rfl
    · exact hc.temps u hu
    · exact hd
  | clearTemps => exact cleanly_modifyCtx fun c hc => hc.withTemps (Array.forall_mem_empty _)
  | pin v => exact cleanly_modify fun _ hw => hw.pin hd
  | save v => exact cleanly_modify fun _ hw => hw.save hd
  | release key => exact cleanly_modify fun _ hw => hw.unsave key
  | pause => exact cleanly_modify fun _ hw => hw.leave.enter
  | collectNow => exact cleanly_modify fun _ hw => hw.collectNow
  | collect => exact cleanly_modify fun _ hw => hw.collect

/-- A move that does not bring in the end.  Other than `Next` it asks nothing about what is live or at work. -/
inductive Plays (lib : Library) : State → State → Prop
  | newContext {held : List CtxId} {s s' : State} (hat : AtHost (fun _ => True) held s s.world.newContext.2 s') :
    Plays lib s s'
  | drop {held : List CtxId} {s s' : State} (cx : CtxId)
    (hat : AtHost (fun _ => True) held s (s.world.freeContext cx) s') : Plays lib s s'
  | enter {held : List CtxId} {s s' : State} (hat : AtHost (fun _ => True) held s s.world.enter s') : Plays lib s s'
  | leave {held : List CtxId} {s s' : State} (hat : AtHost (fun _ => True) held s s.world.leave s') : Plays lib s s'
  /-- The host, or a native of it, does something on any context. -/
  | deed {held : List CtxId} {s s' : State} (cx : CtxId) {d : Deed} (hd : d.Clean)
    (hat : AtHost (fun _ => True) held s (World.after ((d.act cx).run s.world)) s') : Plays lib s s'
  | begin (w : World) (cx : CtxId) {q : Request} (hq : q.Clean) :
    Plays lib (.idle w) (.busy ⟨w, [], .begin cx q⟩)
  | step (m : Machine) : Plays lib (.busy m) (.busy (m.step lib))
  | finish (w : World) (r : Except Failure Value) : Plays lib (.busy ⟨w, [], .outcome r⟩) (.idle w)
  /-- A native of the host is called as the whole of a request. -/
  | offer {w w' : World} {waiting : List Waiting} {cx : CtxId} {func : Value} {args : Array Value}
    {me locals : Value} (n : Native) (run : (offer cx func args me locals).run w = .ok () w') :
    Plays lib (.busy ⟨w, waiting, .begin cx (.call func args me locals)⟩)
      (.busy ⟨w', waiting, .replied cx n .request silence⟩)
  /-- A native of the host has a request served on any context. -/
  | visit {w : World} {waiting : List Waiting} {cx : CtxId} {n : Native} {site : Site}
    {r : Except Failure Reply} (c : CtxId) {q : Request} (hq : q.Clean) :
    Plays lib (.busy ⟨w, waiting, .replied cx n site r⟩)
      (.busy ⟨w, ⟨cx, n, site, { sub := c }⟩ :: waiting, .begin c q⟩)
  /-- A native of the host answers, or asks for something to be done on a child. -/
  | answer {w : World} {waiting : List Waiting} {cx : CtxId} {n : Native} {site : Site}
    {r r' : Except Failure Reply} (hr : ReplyClean r') :
    Plays lib (.busy ⟨w, waiting, .replied cx n site r⟩) (.busy ⟨w, waiting, .replied cx n site r'⟩)

def State.Confined : State → Prop
  | idle w => w.Clean
  | busy m => m.Confined

section

variable {own : Native → Prop} {held : List CtxId} {w : World} {s s' : State}

theorem clean_deed (hw : w.Clean) {d : Deed} (hd : d.Clean) : (World.after ((d.act cx).run w)).Clean := by
  have hdeed : Cleanly Any (d.act cx) := Deed.cleanly hd
  have hends := hdeed.ends w hw
  generalize (d.act cx).run w = r at hends ⊢
  cases hends with
  | done hw _ => exact hw
  | failed hw _ => exact hw

theorem cleanly_offer {func me locals : Value} {args : Array Value} (hfunc : func.Clean)
    (hargs : ∀ v ∈ args, v.Clean) (hme : me.Clean) (hlocals : locals.Clean) :
    Cleanly Any (offer cx func args me locals) := by
  refine Act.cleanly_prepareCall.bind fun _ _ => Act.cleanly_forM fun v hv => cleanly_push ?_
  rcases List.mem_append.mp hv with hv | hv
  · rcases List.mem_cons.mp hv with rfl | hv
    · exact hfunc
    · exact hargs v (Array.mem_toList_iff.mp hv)
  · rcases List.mem_pair.mp hv with rfl | rfl
    · exact hme
    · exact hlocals

theorem State.Confined.world (h : AtHost own held s w s') (hs : s.Confined) : s.world.Clean := by
  cases h with
  | idle => exact hs
  | native =>
    cases hs with
    | clean h => exact h.world

theorem AtHost.confined (h : AtHost own held s w s') (hs : s.Confined) (hw : w.Clean) : s'.Confined := by
  cases h with
  | idle => exact hw
  | native =>
    cases hs with
    | clean h => exact .clean ⟨hw, h.waiting, Value.clean_nil⟩

theorem Plays.confined (hlib : lib.Clean) (h : Plays lib s s') (hs : s.Confined) : s'.Confined := by
  cases h with
  | newContext hat => exact hat.confined hs (hs.world hat).newContext
  | drop cx hat => exact hat.confined hs ((hs.world hat).freeContext cx)
  | enter hat => exact hat.confined hs (hs.world hat).enter
  | leave hat => exact hat.confined hs (hs.world hat).leave
  | deed cx hd hat => exact hat.confined hs (clean_deed (hs.world hat) hd)
  | begin w cx hq => exact .clean ⟨hs, nofun, hq⟩
  | step m => exact Machine.Confined.step hlib hs
  | finish w r =>
    cases hs with
    | clean h => exact h.world
  | @offer w w' waiting cx func args me locals n run =>
    cases hs with
    | clean h =>
      obtain ⟨hw, hwaiting, hfunc, hargs, hme, hlocals⟩ := h
      have hoffer : Cleanly Any (Host.offer cx func args me locals) := cleanly_offer hfunc hargs hme hlocals
      have hends := hoffer.ends w hw
      rw [run] at hends
      cases hends with
      | done hw' _ => exact .clean ⟨hw', hwaiting, Value.clean_nil⟩
  | visit c hq =>
    cases hs with
    | clean h => exact .clean ⟨h.world, List.forall_mem_cons.mpr ⟨Array.forall_mem_empty _, h.waiting⟩, hq⟩
  | answer hr =>
    cases hs with
    | clean h => exact .clean ⟨h.world, h.waiting, hr⟩

/-- **The end of an iteration is confined**, whatever programs are compiled and run, and whatever the host and
its natives do with other values. -/
theorem sentinel_confined (hlib : lib.Clean) {options : Options}
    (h : Relation.ReflTransGen (Plays lib) (.idle (.new options)) s) : s.Confined := by
  induction h with
  | refl => exact World.clean_new options
  | tail _ h ih => exact h.confined hlib ih

end

/-! A loop over no items. -/

namespace Itemless

def source : Bytes := Bytes.ofString "foreach (arg; []) \x7b\x7d"

def unit : Code Const where
  words := #[8, 6, 12, 49, 32, 11, 41, 0, 1, 30, 3, 13, 1, 1, 7, 39]
  consts := #[.name (Bytes.ofString "arg")]
  lines := #[(0, 1)]
  file := "sample"
  params := #[]
  optional := #[]
  rest := some 0
  needsRest := true

theorem compile_source : ScriptEngine.compile source "sample" 1 = .ok unit := by
  cbv

def loaded : Value × World := Sample.blank.loaded unit [2]

theorem run_compile : (Deed.act 0 (.compile source "sample" 1)).run Sample.blank = .ok () loaded.2 := by
  have hcompile : (Act.compile 0 source "sample" 1).run Sample.blank = .ok (.ok loaded.1) loaded.2 :=
    Act.run_compile_names compile_source rfl (.cons Sample.symbols_blank .nil)
  show (Act.compile 0 source "sample" 1 >>= fun _ => pure ()).run Sample.blank = _
  rw [run_bind_of_ok hcompile]
  rfl

def run (n : Nat) : Machine :=
  (Machine.step .core)^[n] ⟨loaded.2, [], .begin 0 (.call loaded.1 #[] .nil .nil)⟩

theorem played_run (n : Nat) :
    Relation.ReflTransGen (Plays .core) (.idle (.new { poolBlock := 4 })) (.busy (run n)) := by
  induction n with
  | zero =>
    have hblank : Plays .core (.idle (.new { poolBlock := 4 })) (.idle Sample.blank) := by
      rw [World.new_eq_fresh]
      exact .newContext (.idle _ _)
    have hloaded : Plays .core (.idle Sample.blank) (.idle loaded.2) := by
      have h : Plays .core (.idle Sample.blank) _ :=
        .deed 0 (d := .compile source "sample" 1) trivial (.idle Sample.blank _)
      rwa [show (State.idle Sample.blank).world = Sample.blank from rfl, run_compile] at h
    exact ((Relation.ReflTransGen.single hblank).tail hloaded).tail
      (.begin _ _ ⟨nofun, nofun, nofun, nofun⟩)
  | succ n ih =>
    rw [run, Function.iterate_succ_apply']
    exact ih.tail (.step _)

end Itemless

/-- The end comes up when the program asks for the first item. -/
theorem sentinel_confined_itemless : (Itemless.run 5).world.Brink 0 := by
  have hconfined : (Itemless.run 5).Confined := sentinel_confined Library.clean_core (Itemless.played_run 5)
  have htop : ((Itemless.run 5).world.ctx 0).stack.back? = some .done := by decide +kernel
  have hmode : (Itemless.run 5).mode.running? = some 0 := by decide +kernel
  generalize Itemless.run 5 = m at hconfined htop hmode
  cases hconfined with
  | clean h => exact absurd rfl ((h.world.ctx 0).stack _ (Array.mem_of_back? htop))
  | brink h _ =>
    obtain rfl : _ = 0 := Option.some.inj hmode
    exact h

end Host

end ScriptEngine
