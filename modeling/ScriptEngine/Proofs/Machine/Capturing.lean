import ScriptEngine.Proofs.Machine.Halting
import ScriptEngine.Proofs.Machine.Tracebacks
import ScriptEngine.Proofs.Natives.Reporting

/-!
# Calls that do not fail

With a vector for errors the native `call` does not fail, whatever becomes of the function that it runs on a
child: the result of the function is its own, and of a failure it tells that vector.  The context that called
it is as it was.  One thing is not captured: what stops the whole program.

* `Machine.Starts`           a step starts a native;
* `Machine.Starts.step`      what the step leads to;
* `Host.Awaits`              moves while a native waits;
* `Host.awaits_or_woken`     a native waits until it is woken with an outcome;
* `Host.untouched_awaits`    its context stays as it is meanwhile;
* `Host.Captures`            what becomes of the outcome of the run;
* `Host.wake_captures`       what `call` does when it is woken;
* `Host.call_captures`       **`call` captures every failure**.
-/

namespace ScriptEngine

open Relation (ReflTransGen)
open World (ctx_modifyCtx_self field_modifyCtx)

/-- How many arguments a call instruction takes from the stack, and whether a receiver is below the function. -/
def Op.call? : Op → Nat → Option (Nat × Bool)
  | .fcall, argc => some (argc, false)
  | .mcall, argc => some (argc, true)
  | .fcallh, _ => some (1, false)
  | .mcallh, _ => some (1, true)
  | _, _ => none

def Callee.native? : Callee → Option Native
  | .native n => some n
  | _ => .none

theorem Callee.eq_native {c : Callee} {n : Native} (h : c.native? = some n) : c = .native n := by
  cases c with
  | native n' => exact congrArg Callee.native (Option.some.inj h)
  | _ => cases h

def Mode.handed? : Mode → Option (Except Failure Value)
  | .outcome r => some r
  | _ => none

theorem Mode.eq_outcome {mode : Mode} (h : mode.handed?.isSome = true) : ∃ r, mode = .outcome r := by
  cases mode with
  | outcome r => exact ⟨r, rfl⟩
  | _ => cases h

namespace Act

variable {w w₁ : World} {cx : CtxId} {lib : Library} {n : Native} {reply : Reply} {func me locals : Value}
  {args : Array Value}

theorem run_forM_append {l l' : List Value} {f : Value → Act Unit} (h : ((l ++ l').forM f).run w = .ok () w₁) :
    ∃ w', (l.forM f).run w = .ok () w' ∧ (l'.forM f).run w' = .ok () w₁ := by
  induction l generalizing w with
  | nil => exact ⟨w, rfl, h⟩
  | cons v l ih =>
    obtain ⟨_, w₀, hv, hrest⟩ := run_bind_ok h
    obtain ⟨w', hl, hl'⟩ := ih hrest
    exact ⟨w', (run_bind_of_ok hv).trans hl, hl'⟩

theorem stack_pushAll (hlt : cx < w.contexts.size) (vs : List Value)
    (h : (vs.forM fun v => push cx v).run w = .ok () w₁) :
    (w₁.ctx cx).stack = (w.ctx cx).stack ++ vs.toArray := by
  induction vs generalizing w with
  | nil =>
    cases h
    exact Array.append_empty.symm
  | cons v vs ih =>
    obtain ⟨_, w₀, hv, hrest⟩ := run_bind_ok h
    rw [run_push_eq] at hv
    split at hv
    · exact nomatch hv
    · cases hv
      rw [ih (by rw [World.size_modifyCtx]; exact hlt) hrest, ctx_modifyCtx_self hlt]
      show (w.ctx cx).stack.push v ++ vs.toArray = _
      rw [Array.push_eq_append, Array.append_assoc]
      exact congrArg _ (List.toArray_cons v vs).symm

/-- A native that a request calls starts when the parts of the call are on the stack. -/
theorem run_beginCall (hcallee : w₁.heap.callee func = .native n)
    (hoffer : (Host.offer cx func args me locals).run w = .ok () w₁) {w₂ : World}
    (hstart : (startNative lib cx n me args).run w₁ = .ok reply w₂) :
    (prepareCall cx >>= fun _ => beginCall lib cx func args me locals).run w = .ok (.native n reply) w₂ := by
  obtain ⟨_, w₃, hprepare, hpush⟩ := run_bind_ok hoffer
  obtain ⟨_, w₄, hfunc, hrest⟩ := run_bind_ok hpush
  obtain ⟨w₅, hargs, hlast⟩ := run_forM_append hrest
  obtain ⟨_, w₆, hme, hlast⟩ := run_bind_ok hlast
  obtain ⟨_, w₇, hlocals, hnone⟩ := run_bind_ok hlast
  cases hnone
  rw [run_bind_of_ok hprepare, beginCall, run_bind_of_ok hfunc, forM_toList, run_bind_of_ok hargs,
    run_bind_of_ok hme, run_bind_of_ok hlocals, run_bind_of_ok (show heap.run w₁ = .ok w₁.heap w₁ from rfl), hcallee]
  dsimp only
  rw [run_bind_of_ok hstart]
  rfl

theorem run_callAt {base fidx : Nat} (named : Bool)
    (hcallee : w.heap.callee ((w.ctx cx).stack[fidx]?.getD .nil) = .native n)
    (hstart : (startNative lib cx n me ((w.ctx cx).stack.extract (fidx + 1) (w.ctx cx).stack.size)).run w =
      .ok reply w₁) : (callAt lib cx base fidx me named).run w = .ok (.native base n (.ok reply)) w₁ := by
  unfold callAt
  rw [run_bind_of_ok (show (ctx cx).run w = .ok (w.ctx cx) w from rfl),
    run_bind_of_ok (show heap.run w = .ok w.heap w from rfl), hcallee]
  dsimp only
  have htry : (tryCatch (do return Except.ok (← startNative lib cx n me
      ((w.ctx cx).stack.extract (fidx + 1) (w.ctx cx).stack.size))) fun e => pure (.error e) :
      Act (Except Failure Reply)).run w = .ok (.ok reply) w₁ := by
    show EStateM.tryCatch (EStateM.map Except.ok (startNative lib cx n me _)) _ w = _
    rw [EStateM.tryCatch, EStateM.map, show startNative lib cx n me _ w = _ from hstart]
  rw [run_bind_of_ok htry]
  rfl

end Act

/-! ## a native is started -/

namespace Machine

variable {m : Machine} {w w₁ : World} {cx : CtxId} {lib : Library} {n : Native} {site : Site} {reply : Reply}
  {me : Value} {args : Array Value}

/-- A context is about to execute an instruction. -/
def Fetches (w : World) (cx : CtxId) (i : Item) : Prop :=
  ∃ f fs, fromTop (w.ctx cx).frames = f :: fs ∧ i.place = f.ip ∧ i.In f.code.words

def fetched (w : World) (cx : CtxId) (i : Item) : World :=
  (w.modifyCtx cx fun c => { c with temps := #[] }).modifyCtx cx fun c => { c with
    frames := c.frames.modify (c.frames.size - 1) ({ · with ip := i.place + i.op.length }) }

/-- The next step starts a native, in the engine that comes last: for a request, or for an instruction with
what is on top of the stack. -/
inductive Starts : Machine → CtxId → Native → Site → Value → Array Value → World → Prop
  | request {w w' : World} {waiting : List Waiting} {cx : CtxId} {n : Native} {func me locals : Value}
    {args : Array Value} (run : (Host.offer cx func args me locals).run w = .ok () w')
    (callee : w'.heap.callee func = .native n) :
    Starts ⟨w, waiting, .begin cx (.call func args me locals)⟩ cx n .request me args w'
  | instruction {w : World} {waiting : List Waiting} {cx : CtxId} {n : Native} {i : Item} {low args : Array Value}
    {func : Value} {me : Option Value} (fetches : Fetches w cx i)
    (call : i.op.call? i.arg = some (args.size, me.isSome))
    (stack : (w.ctx cx).stack = low ++ (me.toArray ++ #[func] ++ args)) (callee : w.heap.callee func = .native n) :
    Starts ⟨w, waiting, .running cx⟩ cx n (.instruction low.size) (me.getD .nil) args (fetched w cx i)

theorem run_exec_fetched {i : Item} {argc : Nat} {method : Bool} (h : Fetches w cx i)
    (hcall : i.op.call? i.arg = some (argc, method)) :
    ∃ named, (Act.exec lib cx).run w = (Act.callWith lib cx argc method named).run (fetched w cx i) := by
  obtain ⟨f, fs, hframes, hplace, hin⟩ := h
  have hrun : (Act.exec lib cx).run w = (Act.perform lib cx f.code i.op i.arg).run (fetched w cx i) := by
    rw [Act.run_exec hframes hplace hin, fetched, hplace]
  rw [hrun]
  generalize i.op = op, i.arg = arg at hcall
  cases op with
  | fcall =>
    cases hcall
    exact ⟨false, rfl⟩
  | mcall =>
    cases hcall
    exact ⟨false, rfl⟩
  | fcallh =>
    cases hcall
    exact ⟨true, rfl⟩
  | mcallh =>
    cases hcall
    exact ⟨true, rfl⟩
  | _ => exact nomatch hcall

theorem stack_fetched (w : World) (cx : CtxId) (i : Item) : ((fetched w cx i).ctx cx).stack = (w.ctx cx).stack := by
  exact (field_modifyCtx (f := fun c : Context => { c with
    frames := c.frames.modify (c.frames.size - 1) ({ · with ip := i.place + i.op.length }) }) Context.stack
    (fun _ => rfl) cx).trans
    (field_modifyCtx (f := fun c : Context => { c with temps := #[] }) Context.stack (fun _ => rfl) cx)

/-- The function that is called is above the receiver, if there is one, and below the arguments. -/
theorem parts_of_stack {stack low recv : Array Value} {func : Value}
    (h : stack = low ++ (recv ++ #[func] ++ args)) :
    stack.size = low.size + recv.size + 1 + args.size ∧ stack[low.size + recv.size]?.getD .nil = func ∧
      stack.extract (low.size + recv.size + 1) stack.size = args := by
  have hparts : stack = low ++ recv ++ #[func] ++ args := by
    rw [h]
    simp only [Array.append_assoc]
  have hsize : (low ++ recv ++ #[func]).size = low.size + recv.size + 1 := by
    rw [Array.size_append, Array.size_append]
    rfl
  rw [hparts, ← hsize]
  refine ⟨Array.size_append, ?_, ?_⟩
  · rw [Array.getElem?_append_left (by rw [hsize]; omega), ← Array.size_append,
      Array.getElem?_append_right (Nat.le_refl _), Nat.sub_self]
    rfl
  · generalize low ++ recv ++ #[func] = under
    simp

theorem step_native {w' : World} {waiting : List Waiting} {base : Nat} {r : Except Failure Reply}
    (h : (Act.exec lib cx).run w = .ok (.native base n r) w') :
    Machine.step lib ⟨w, waiting, .running cx⟩ = ⟨w', waiting, .replied cx n (.instruction base) r⟩ := by
  unfold Machine.step
  dsimp only
  rw [h]

/-- What a step that starts a native leads to. -/
theorem Starts.step (h : m.Starts cx n site me args w) (hstart : (Act.startNative lib cx n me args).run w =
    .ok reply w₁) : m.step lib = ⟨w₁, m.waiting, .replied cx n site (.ok reply)⟩ := by
  cases h with
  | @request w₀ w waiting cx n func me locals args run callee =>
    show start lib w₀ waiting cx (.call func args me locals) = _
    unfold start
    dsimp only
    rw [show EStateM.run (do Act.prepareCall cx; Act.beginCall lib cx func args me locals) w₀ = _ from
      Act.run_beginCall callee run hstart]
  | @instruction w waiting cx n i low args func me fetches call stack callee =>
    obtain ⟨named, hrun⟩ := run_exec_fetched fetches call
    refine step_native (hrun.trans ?_)
    rw [← stack_fetched w cx i] at stack
    obtain ⟨hsize, hfunc, hargs⟩ := parts_of_stack stack
    have hcallee : (fetched w cx i).heap.callee (((fetched w cx i).ctx cx).stack[low.size + me.toArray.size]?.getD
        .nil) = .native n := hfunc.symm ▸ callee
    cases me with
    | none =>
      have hsize : ((fetched w cx i).ctx cx).stack.size = low.size + 1 + args.size := hsize
      rw [show (none : Option Value).isSome = false from rfl, Act.run_callWith_plain hsize (by omega),
        show low.size + 1 + args.size - args.size - 1 = low.size by omega]
      exact Act.run_callAt named hcallee (hargs.symm ▸ hstart)
    | some me =>
      have hsize : ((fetched w cx i).ctx cx).stack.size = low.size + 1 + 1 + args.size := hsize
      have hme : ((fetched w cx i).ctx cx).stack[low.size]?.getD .nil = me := by
        rw [stack, Array.getElem?_append_right (Nat.le_refl _), Nat.sub_self, Array.append_assoc]
        show (#[me] ++ _)[0]?.getD .nil = me
        rw [Array.getElem?_append_left (show 0 < (#[me] : Array Value).size from Nat.zero_lt_one)]
        rfl
      rw [show (some me).isSome = true from rfl, Act.run_callWith_method hsize (by omega),
        show low.size + 1 + 1 + args.size - args.size - 1 = low.size + 1 by omega, Nat.add_sub_cancel, hme]
      exact Act.run_callAt named hcallee (hargs.symm ▸ hstart)

theorem Starts.mem_stack (h : m.Starts cx n site me args w) (hm : m.Steady) {v : Value} (hv : v ∈ args) :
    v ∈ (w.ctx cx).stack := by
  cases h with
  | @request w₀ w waiting cx n func me locals args run _ =>
    obtain ⟨_, w₁, hprepare, hpush⟩ := run_bind_ok run
    have hlt : cx < w₁.contexts.size := by
      obtain ⟨⟨hw, hheld⟩, hwaits, -⟩ := hm
      obtain ⟨w₂, hrun, hw₂, -⟩ := run_prepareCall (hw.join hheld) hwaits
      cases hprepare.symm.trans hrun
      exact hw₂.lt
    rw [Act.stack_pushAll hlt _ hpush]
    refine Array.mem_append_right _ (List.mem_toArray.mpr ?_)
    exact List.mem_append_left _ (List.mem_cons_of_mem _ (Array.mem_toList_iff.mpr hv))
  | instruction _ _ stack _ =>
    rw [stack_fetched, stack]
    exact Array.mem_append_right _ (Array.mem_append_right _ hv)

/-- The contexts are in order when the native starts. -/
theorem Starts.household (h : m.Starts cx n site me args w) (hm : m.Steady) (hh : m.world.Household []) :
    w.Household [] ∧ w.InUse cx := by
  have hcustom := World.custom_household cx []
  cases h with
  | @request w₀ w waiting cx n func me locals args run _ =>
    have hw := hcustom.offer func args me locals ⟨hh, hm.inUse rfl⟩
    rw [run] at hw
    exact hw
  | @instruction w waiting cx n i low args func me _ _ _ _ =>
    have htemps : Context.Private fun c => { c with temps := #[] } :=
      .of_blind (fun _ _ _ => rfl) fun _ => ⟨rfl, rfl⟩
    have hmoved : Context.Private fun c => { c with
        frames := c.frames.modify (c.frames.size - 1) ({ · with ip := i.place + i.op.length }) } :=
      .of_blind (fun _ _ _ => rfl) fun _ => ⟨rfl, rfl⟩
    refine hcustom.edit (hcustom.edit ⟨hh, hm.inUse rfl⟩ htemps fun h => ⟨h.stack, h.frames, h.marks, h.nesting,
      h.resumeAt⟩) hmoved fun h => ⟨h.stack, ?_, h.marks, h.nesting, h.resumeAt⟩
    rw [Array.size_modify]
    exact h.frames

theorem waiting_wake (lib : Library) (w : World) (waiting : List Waiting) (who : Waiting)
    (r : Except Failure Value) : (wake lib w waiting who r).waiting = waiting := by
  unfold wake
  split
  · split <;> rfl
  · rfl

end Machine

/-! ## while a native waits -/

namespace Host

open Machine (outer)

variable {m m' : Machine} {who : Waiting} {waiting : List Waiting} {o : Options}

/-- A move while a native waits. -/
def Awaits (who : Waiting) (waiting : List Waiting) (m m' : Machine) : Prop :=
  Next (.busy m) (.busy m') ∧ who :: waiting <:+ m'.waiting

/-- A native waits until it is woken with the outcome of the run that it has asked for. -/
theorem Next.keeps_waiting (h : Next (.busy m) (.busy m')) (hm : who :: waiting <:+ m.waiting) :
    who :: waiting <:+ m'.waiting ∨
      ∃ w r, m = ⟨w, who :: waiting, .outcome r⟩ ∧ m' = Machine.step .core ⟨w, who :: waiting, .outcome r⟩ := by
  obtain ⟨_, h⟩ := h
  cases h with
  | tend hat _ =>
    cases hat with
    | native => exact .inl hm
  | offer _ _ _ | work _ _ | answer _ _ => exact .inl hm
  | visit _ _ _ _ => exact .inl (hm.trans (List.suffix_cons _ _))
  | step _ =>
    have hturns := m.turns .core
    generalize hstep : m.step .core = m' at hturns
    cases hturns with
    | goes _ | calls _ | ends _ | refuses | tells => exact .inl hm
    | asks _ _ => exact .inl (hm.trans (List.suffix_cons _ _))
    | rests => exact absurd (List.suffix_nil.mp hm) (List.cons_ne_nil _ _)
    | @wakes w w' waiting' who' r r' =>
      rcases List.suffix_cons_iff.mp hm with heq | hm
      · obtain ⟨rfl, rfl⟩ := List.cons.inj heq
        exact .inr ⟨w, r, rfl, hstep.symm⟩
      · exact .inl hm

/-- Moves while a run goes on. -/
def Moves (m m' : Machine) : Prop := ReflTransGen (fun m m' => Next (.busy m) (.busy m')) m m'

/-- Either a native still waits, or it has been woken. -/
theorem awaits_or_woken (h : Moves m m') (hm : who :: waiting <:+ m.waiting) :
    (ReflTransGen (Awaits who waiting) m m' ∧ who :: waiting <:+ m'.waiting) ∨
      ∃ w r, ReflTransGen (Awaits who waiting) m ⟨w, who :: waiting, .outcome r⟩ ∧
        Moves (Machine.step .core ⟨w, who :: waiting, .outcome r⟩) m' := by
  induction h with
  | refl => exact .inl ⟨.refl, hm⟩
  | tail _ hn ih =>
    rcases ih with ⟨hpath, hwaits⟩ | ⟨w, r, hpath, hlater⟩
    · rcases hn.keeps_waiting hwaits with hwaits' | ⟨w, r, rfl, rfl⟩
      · exact .inl ⟨hpath.tail ⟨hn, hwaits'⟩, hwaits'⟩
      · exact .inr ⟨w, r, hpath, .refl⟩
    · exact .inr ⟨w, r, hpath, hlater.tail hn⟩

theorem Stopped.moves (hm : Stopped m) (h : Moves m m') : m' = m := by
  induction h with
  | refl => rfl
  | tail _ hn ih =>
    subst ih
    exact State.busy.inj (hn.stopped hm)

/-- The context of a native that goes on waiting is not worked on. -/
theorem Awaits.off (h : Awaits who waiting m m') (hs : (State.busy m).Good) (hm : who :: waiting <:+ m.waiting) :
    m.active ≠ some who.cx := by
  intro hon
  obtain ⟨hnext, hsuffix⟩ := h
  have hout : who.cx ∈ outer m.waiting := List.mem_map.mpr ⟨who, hm.subset List.mem_cons_self, rfl⟩
  obtain ⟨r, hr⟩ := hs.ready.1.outcome_of_waits hon hout
  have hheld := hs.ready.1.held
  have hnodup := hheld.1.nodup hheld.2
  obtain ⟨w, l, mode⟩ := m
  obtain rfl : mode = .outcome r := hr
  obtain ⟨before, rfl⟩ := hm
  cases before with
  | nil =>
    -- the native is woken and waits no more
    obtain ⟨_, hmove⟩ := hnext
    cases hmove with
    | tend hat _ => exact nomatch hat
    | step _ =>
      have hlength := hsuffix.length_le
      rw [show (Machine.step .core ⟨w, [] ++ who :: waiting, .outcome r⟩).waiting = waiting from
        Machine.waiting_wake .core w waiting who r] at hlength
      exact Nat.not_succ_le_self _ hlength
  | cons first before =>
    -- another native is woken
    have hcx : first.cx = who.cx := Option.some.inj hon
    refine (List.nodup_cons.mp hnodup).1 (List.mem_map.mpr ⟨who, ?_, hcx.symm⟩)
    exact List.mem_append_right _ List.mem_cons_self

/-- **The context of a native that waits** stays as it is. -/
theorem untouched_awaits (h : ReflTransGen (Awaits who waiting) m m') (hs : (State.busy m).Fine o)
    (hm : who :: waiting <:+ m.waiting) : (State.busy m').Fine o ∧ who :: waiting <:+ m'.waiting ∧
      (m.world.ctx who.cx).Untouched (m'.world.ctx who.cx) := by
  induction h with
  | refl => exact ⟨hs, hm, .refl _⟩
  | @tail m₁ m₂ _ hn ih =>
    obtain ⟨hfine, hwaits, hsame⟩ := ih
    have hout : who.cx ∈ outer m₁.waiting := List.mem_map.mpr ⟨who, hwaits.subset List.mem_cons_self, rfl⟩
    exact ⟨hn.1.fine hfine, hn.2,
      hsame.trans (hn.1.same_waiting hfine.good hfine.household hout (hn.off hfine.good hwaits)).toUntouched⟩

/-- An object is of the type of its cell. -/
theorem kind_moves {s s' : State} {a : Addr} (h : ReflTransGen Next s s') (hs : s.Good) (hs' : s'.Good)
    (hb : s.world.heap.body a ≠ .free) (hb' : s'.world.heap.body a ≠ .free) :
    (s'.world.heap.body a).kind? = (s.world.heap.body a).kind? := by
  obtain ⟨k, -, howned⟩ := Heap.mem_ownedBy.mp
    (hs.consistent.placed.stocked.laid.mem_owned.mpr (Heap.lt_size_of_body hb))
  rw [hs.consistent.placed.housed.typed k a howned hb]
  exact hs'.consistent.placed.housed.typed k a ((lasts_moves h).owned k a howned) hb'

/-! ## the outcome -/

/-- What `call` makes of an outcome: a result is its own, and of a failure it tells the vector and gives
nothing. -/
def Captures (errors : Value) (h h' : Heap) (v : Value) : Except Failure Value → Prop
  | .ok u => v = u ∧ h' = h
  | .error e => v = .nil ∧ ∃ items vs, h.vec? errors = some items ∧ h'.vec? errors = some (items ++ vs) ∧
      List.Forall₂ h'.Shows e.notes vs.toList

variable {w w₁ : World} {cx : CtxId} {n : Native} {me : Value} {args list : Array Value} {reply : Reply}

theorem startNative_call (hcall : n.name = "call") :
    Act.startNative .core cx n me args = Natives.callStart cx n me args := by
  unfold Act.startNative
  rw [show Library.core.native n.name = some ⟨Natives.callStart, Natives.callEnd⟩ by rw [hcall]; rfl]

theorem wake_of_callEnd {r : Except Failure Value} (hcall : who.native.name = "call")
    (hend : (Natives.callEnd who.cx who.native who.wait r).run w = .ok reply w₁) :
    Machine.step .core ⟨w, who :: waiting, .outcome r⟩ =
      ⟨w₁, waiting, .replied who.cx who.native who.site (.ok reply)⟩ := by
  show Machine.wake .core w waiting who r = _
  unfold Machine.wake
  rw [show Library.core.native who.native.name = some ⟨Natives.callStart, Natives.callEnd⟩ by rw [hcall]; rfl]
  dsimp only
  rw [hend]

theorem argumentList_eq {v : Value} (h : v = .nil ∧ list = #[] ∨ w.heap.vec? v = some list) :
    Natives.argumentList w.heap v = .ok list := by
  unfold Natives.argumentList
  rcases h with ⟨rfl, rfl⟩ | h
  · rfl
  · cases v with
    | obj a =>
      rw [show Value.isNil (.obj a) = false from rfl, h]
      rfl
    | _ => exact nomatch h

/-- A later context that differs in what is kept for a while only. -/
theorem untouched_of_like {c c' : Context} (h : c.Like c') : c.Untouched c' ∧ c'.child = c.child := by
  rw [h.rest]
  exact ⟨⟨⟨rfl, rfl, rfl, rfl⟩, rfl⟩, rfl⟩

/-- The engine once a context has a new child. -/
theorem ctx_nested (hk : w.Kin) (hcx : w.InUse cx) (k : Nat) :
    ((w.childless cx).newContext.2.adopt cx (w.childless cx).newContext.1 k).ctx cx =
        { w.ctx cx with child := some (w.childless cx).newContext.1 } ∧
      ((w.childless cx).newContext.2.adopt cx (w.childless cx).newContext.1 k).heap = w.heap := by
  obtain ⟨hself, hused⟩ := World.ctx_childless_self hk hcx
  obtain ⟨hnew, hne⟩ := World.inUse_newContext hused
  refine ⟨?_, (World.heap_newContext _).trans (World.heap_childless w cx)⟩
  rw [World.ctx_adopt_parent k hnew.lt hne, World.ctx_newContext, hself]

theorem wake_captures {r : Except Failure Value} {a : Addr} (hs : (State.busy ⟨w, who :: waiting, .outcome r⟩).Fine o)
    (hcall : who.native.name = "call") (herrors : argument who.wait.values 0 = .obj a)
    (hvec : (w.heap.body a).kind? = some .vec) (ha : .obj a ∈ (w.ctx who.cx).stack) :
    ∃ w₁ v, Machine.step .core ⟨w, who :: waiting, .outcome r⟩ =
        ⟨w₁, waiting, .replied who.cx who.native who.site (.ok (.done v))⟩ ∧
      Captures (.obj a) w.heap w₁.heap v r ∧ (w.ctx who.cx).Untouched (w₁.ctx who.cx) ∧
      (w₁.ctx who.cx).child = none := by
  have hself : (w.childless who.cx).ctx who.cx = { w.ctx who.cx with child := none } :=
    (World.ctx_childless_self hs.household.kin (hs.good.ready.1.inUse rfl)).1
  have hfreed : (w.ctx who.cx).Untouched ((w.childless who.cx).ctx who.cx) ∧
      ((w.childless who.cx).ctx who.cx).child = none := by
    rw [hself]
    exact ⟨⟨⟨rfl, rfl, rfl, rfl⟩, rfl⟩, rfl⟩
  cases r with
  | ok v =>
    exact ⟨_, v, wake_of_callEnd hcall (Natives.run_callEnd_ok _ _ v), ⟨rfl, World.heap_childless w who.cx⟩, hfreed⟩
  | error e =>
    obtain ⟨items, hitems⟩ : ∃ items, w.heap.body a = .vec items := by
      cases hbody : w.heap.body a with
      | vec items => exact ⟨items, rfl⟩
      | _ =>
        rw [hbody] at hvec
        exact nomatch hvec
    have hsafe := Act.safe_freeChild hs.good.sound_outcome.world who.cx
    rw [World.run_freeChild] at hsafe
    have hsound : (w.childless who.cx).Sound (Machine.Uses (who :: waiting) (.outcome (.error e))) := by
      cases hsafe with
      | done h _ => exact h
    have hmem : .obj a ∈ ((w.childless who.cx).ctx who.cx).stack := by
      rw [hself]
      exact ha
    have hbody : (w.childless who.cx).heap.body a = .vec items := by rw [World.heap_childless, hitems]
    obtain ⟨w₁, hend, hnoted⟩ := Natives.run_callEnd_error who.native who.wait hsound
      (.inr ⟨who, List.mem_cons_self, rfl⟩) herrors hbody (World.kept_of_stack hmem) e
    obtain ⟨vs, happended, hshown⟩ := hnoted.shown
    obtain ⟨hsame, hchild⟩ := untouched_of_like (hnoted.later.like who.cx)
    refine ⟨w₁, .nil, wake_of_callEnd hcall hend, ⟨rfl, items, vs, ?_, ?_, hshown.imp fun _ _ h => h.1⟩,
      hfreed.1.trans hsame, hchild.trans hfreed.2⟩
    · rw [Heap.vec?, Heap.bodyOf, hitems]
    · rw [Heap.vec?, Heap.bodyOf, happended]

theorem mem_of_argument_vec {h : Heap} {k : Nat} (hvec : h.isKind (argument args k) .vec = true) :
    ∃ a, argument args k = .obj a ∧ .obj a ∈ args := by
  unfold argument at hvec ⊢
  cases harg : args[k]? with
  | none =>
    rw [harg] at hvec
    exact nomatch hvec
  | some v =>
    rw [harg] at hvec
    cases v with
    | obj a => exact ⟨a, rfl, Array.mem_of_getElem? harg⟩
    | _ => exact nomatch hvec

/-- **A call with a vector for errors does not fail.**  It runs the function on a child.  As long as it waits for
that run the context that called is not touched; if the program is stopped meanwhile, it waits for good.  When
the run is over the result is the outcome if the function has come to one, and otherwise `nil`, with all that is
known of the failure appended to the vector: the message, and the places of the frames of all contexts that the
failure has left since it came up, innermost first.  The context is as it was, and the child is gone. -/
theorem call_captures {m : Machine} {site : Site} (hm : Reached (.busy m)) (hstarts : m.Starts cx n site me args w)
    (hcall : n.name = "call") (hlist : argument args 1 = .nil ∧ list = #[] ∨ w.heap.vec? (argument args 1) = some list)
    (hlocals : argument args 3 = .nil ∨ w.heap.isKind (argument args 3) .hash = true)
    (herrors : w.heap.isKind (argument args 4) .vec = true) (hnesting : (w.ctx cx).nesting < w.options.maxNesting) :
    ∃ w₁ sub wait, (Machine.step .core)^[2] m = ⟨w₁, ⟨cx, n, site, wait⟩ :: m.waiting,
        .begin sub (.call (argument args 0) list (argument args 2) (argument args 3))⟩ ∧
      (∀ m', Moves ((Machine.step .core)^[2] m) m' →
        (ReflTransGen (Awaits ⟨cx, n, site, wait⟩ m.waiting) ((Machine.step .core)^[2] m) m' ∧
          (w.ctx cx).Untouched (m'.world.ctx cx) ∧ (Stopped m' → ∀ m'', Moves m' m'' → m'' = m')) ∨
        ∃ w₂ r, ReflTransGen (Awaits ⟨cx, n, site, wait⟩ m.waiting) ((Machine.step .core)^[2] m)
            ⟨w₂, ⟨cx, n, site, wait⟩ :: m.waiting, .outcome r⟩ ∧
          Moves (Machine.step .core ⟨w₂, ⟨cx, n, site, wait⟩ :: m.waiting, .outcome r⟩) m') ∧
      ∀ w₂ r, ReflTransGen (Awaits ⟨cx, n, site, wait⟩ m.waiting) ((Machine.step .core)^[2] m)
          ⟨w₂, ⟨cx, n, site, wait⟩ :: m.waiting, .outcome r⟩ →
        (∃ w₃ v, Machine.step .core ⟨w₂, ⟨cx, n, site, wait⟩ :: m.waiting, .outcome r⟩ =
            ⟨w₃, m.waiting, .replied cx n site (.ok (.done v))⟩ ∧
          Captures (argument args 4) w₂.heap w₃.heap v r ∧
          (w.ctx cx).Untouched (w₃.ctx cx) ∧ (w₃.ctx cx).child = none) ∧
        ∀ e m₀ m₁ e₀, r = .error e → Reached (.busy m₀) → Raises e₀ m₀ m₁ →
          ReflTransGen Passes m₁ ⟨w₂, ⟨cx, n, site, wait⟩ :: m.waiting, .outcome r⟩ →
          ∃ done, m₁.contexts = done ++ cx :: outer m.waiting ∧
            e = { e₀ with trace := done.flatMap fun c => (m₁.world.ctx c).places } := by
  obtain ⟨o, hfine⟩ := hm.fine
  obtain ⟨hh, hused⟩ := hstarts.household hfine.good.ready.1 hfine.household
  obtain ⟨hctx, hheap⟩ := ctx_nested hh.kin hused ((w.ctx cx).nesting + 1)
  have hstart : (Natives.callStart cx n me args).run w = _ :=
    Natives.run_callStart n me (argumentList_eq hlist) hlocals hnesting
  generalize (w.childless cx).newContext.1 = sub at hctx hheap hstart
  generalize (w.childless cx).newContext.2.adopt cx sub ((w.ctx cx).nesting + 1) = w₁ at hctx hheap hstart
  rw [← startNative_call hcall] at hstart
  have hstep := hstarts.step hstart
  -- the native asks for the run on its child
  generalize hwait : ({ sub, values := #[argument args 4] } : Wait) = wait at hstep
  have hasks : (Machine.step .core)^[2] m = ⟨w₁, ⟨cx, n, site, wait⟩ :: m.waiting,
      .begin sub (.call (argument args 0) list (argument args 2) (argument args 3))⟩ := by
    show Machine.step .core (Machine.step .core m) = _
    rw [hstep]
    show Machine.delegate w₁ m.waiting cx n site sub _ wait = _
    unfold Machine.delegate
    rw [hctx, if_pos (beq_self_eq_true (some sub))]
  have hfine₁ : (State.busy ((Machine.step .core)^[2] m)).Fine o :=
    fine_moves ((ReflTransGen.single (.step m)).tail (.step _)) hfine
  rw [hasks] at hfine₁ ⊢
  have hbefore {m' : Machine} (hpath : ReflTransGen (Awaits ⟨cx, n, site, wait⟩ m.waiting) ⟨w₁, ⟨cx, n, site, wait⟩ ::
      m.waiting, .begin sub (.call (argument args 0) list (argument args 2) (argument args 3))⟩ m') :
      (State.busy m').Fine o ∧ (w.ctx cx).Untouched (m'.world.ctx cx) := by
    obtain ⟨hfine₂, -, hsame⟩ := untouched_awaits hpath hfine₁ (List.suffix_refl _)
    have hsame' : (w₁.ctx cx).Untouched (m'.world.ctx cx) := hsame
    rw [hctx] at hsame'
    exact ⟨hfine₂, ⟨hsame'.stack, hsame'.frames, hsame'.marks, hsame'.resumeAt⟩, hsame'.error⟩
  refine ⟨w₁, sub, wait, rfl, fun m' hpath => ?_, fun w₂ r hpath => ⟨?_, ?_⟩⟩
  · refine (awaits_or_woken hpath (List.suffix_refl _)).imp_left fun h => ?_
    exact ⟨h.1, (hbefore h.1).2, fun hstopped m'' hmoves => hstopped.moves hmoves⟩
  · obtain ⟨hfine₂, hsame⟩ := hbefore hpath
    obtain ⟨a, ha, hmem⟩ := mem_of_argument_vec herrors
    rw [ha] at herrors hwait ⊢
    have hstack : .obj a ∈ (w₂.ctx cx).stack := by
      rw [hsame.stack]
      exact hstarts.mem_stack hfine.good.ready.1 hmem
    -- the vector is an operand of the context that waits, so it is still there
    have hkind : (w₁.heap.body a).kind? = some .vec := by
      rw [hheap]
      exact beq_iff_eq.mp herrors
    have hvec : (w₂.heap.body a).kind? = some .vec := by
      refine (kind_moves (ReflTransGen.lift (p := Next) State.busy (fun _ _ h => h.1) _ _ hpath) hfine₁.good
        hfine₂.good (fun hf => ?_) ?_).trans hkind
      · rw [show w₁.heap.body a = .free from hf] at hkind
        exact nomatch hkind
      · exact hfine₂.good.sound_outcome.world.live_kept (World.kept_of_stack hstack) a (.root List.mem_cons_self)
    obtain ⟨w₃, v, hend, hcaptures, hsame₃, hchild⟩ :=
      wake_captures hfine₂ hcall (by rw [← hwait]; rfl) hvec hstack
    exact ⟨w₃, v, hend, hcaptures, hsame.trans hsame₃, hchild⟩
  · rintro e m₀ m₁ e₀ rfl hreached hraises hpasses
    obtain ⟨o₀, hfine₀⟩ := hreached.fine
    obtain ⟨-, done, htraced⟩ := hraises.traced hfine₀ hpasses
    refine ⟨done, htraced.contexts, (Option.some.inj htraced.fault).trans ?_⟩
    rw [hraises.fault.2, List.nil_append]

/-! The failing program, run by `call` with a vector for errors. -/

namespace Failing

/-- The engine with a vector as well, entered twice so that no collection is due. -/
def equipped : World := (World.after ((Deed.act 0 (.newVec #[])).run outfitted)).enter.enter

def captured (k : Nat) : Machine :=
  (Machine.step .core)^[k]
    ⟨equipped, [], .begin 0 (.call (.obj 21) #[.obj 22, .nil, .obj 23, .obj 11, .obj 7] .nil .nil)⟩

/-- The engine when `call` starts. -/
def offered : World :=
  World.after ((Host.offer 0 (.obj 21) #[.obj 22, .nil, .obj 23, .obj 11, .obj 7] .nil .nil).run equipped)

theorem captured_succ (k : Nat) : captured (k + 1) = (captured k).step .core := Function.iterate_succ_apply' ..

theorem reached_equipped : Reached (.idle equipped) := by
  have hvec := reached_outfitted.deed (c := 0) ⟨by decide +kernel, by decide +kernel⟩ (d := .newVec #[]) (by simp [Deed.Fair])
  exact (hvec.next (.enter _)).next (.enter _)

theorem reached_captured (k : Nat) : Reached (.busy (captured k)) := by
  have hargs : ∀ v ∈ [Value.obj 22, .nil, .obj 23, .obj 11, .obj 7], v = .nil ∨ v ∈ (equipped.ctx 0).temps := by
    decide +kernel
  exact reached_equipped.request ⟨by decide +kernel, by decide +kernel⟩ (by decide +kernel) hargs k

theorem starts_captured : (captured 0).Starts 0 ⟨"call", none, false⟩ .request .nil
    #[.obj 22, .nil, .obj 23, .obj 11, .obj 7] offered := by
  have hoffers {x : Act Unit} {w : World} (h : (Act.outcome x w).isOk = true) :
      x.run w = .ok () (World.after (x.run w)) := by
    cases hx : Act.outcome x w with
    | ok _ =>
      obtain ⟨w', hrun⟩ := Act.run_of_outcome hx
      rw [hrun]
      rfl
    | error _ =>
      rw [hx] at h
      cases h
  exact .request (hoffers (by decide +kernel)) (Callee.eq_native (by decide +kernel))

/-- The engine with `caller` and with the largest level, in a vector, as well. -/
def levelled : World :=
  let w := World.after ((Deed.act 0 (.newNative ⟨"caller", none, false⟩)).run equipped)
  World.after ((Deed.act 0 (.newVec #[.num ⟨0x7FF0000000000000⟩])).run w)

def stopping (k : Nat) : Machine :=
  (Machine.step .core)^[k]
    ⟨levelled, [], .begin 0 (.call (.obj 21) #[.obj 20, .obj 6, .nil, .nil, .obj 7] .nil .nil)⟩

theorem reached_stopping (k : Nat) : Reached (.busy (stopping k)) := by
  have hcaller := reached_equipped.deed (c := 0) ⟨by decide +kernel, by decide +kernel⟩
    (d := .newNative ⟨"caller", none, false⟩) trivial
  have hvec := hcaller.deed (c := 0) ⟨by decide +kernel, by decide +kernel⟩ (d := .newVec #[.num ⟨0x7FF0000000000000⟩])
    (by simp [Deed.Fair])
  have hargs : ∀ v ∈ [Value.obj 20, .obj 6, .nil, .nil, .obj 7], v = .nil ∨ v ∈ (levelled.ctx 0).temps := by
    decide +kernel
  exact hvec.request ⟨by decide +kernel, by decide +kernel⟩ (by decide +kernel) hargs k

end Failing

/-- The failure of the program is captured. -/
theorem call_captures_failing : ∃ e w vs, (Failing.captured 7).mode.fault? = some e ∧ e.trace = [⟨"sample", 1⟩] ∧
    Failing.captured 8 = ⟨w, [], .replied 0 ⟨"call", none, false⟩ .request (.ok (.done .nil))⟩ ∧
    w.heap.vec? (.obj 7) = some vs ∧ List.Forall₂ w.heap.Shows e.notes vs.toList := by
  obtain ⟨w₁, sub, wait, hasks, -, hends⟩ := call_captures (Failing.reached_captured 0) Failing.starts_captured rfl
    (.inl ⟨rfl, rfl⟩) (.inr (by decide +kernel)) (by decide +kernel) (by decide +kernel)
  generalize hwho : (⟨0, ⟨"call", none, false⟩, .request, wait⟩ : Waiting) = who at hasks hends
  have hasks' : Failing.captured 2 = _ := hasks
  -- the native waits until the run is over
  have hgoes {k : Nat} (hk : ReflTransGen (Awaits who []) (Failing.captured 2) (Failing.captured k) ∧
      [who] <:+ (Failing.captured k).waiting)
      (hmode : (Failing.captured k).mode.handed?.isNone = true) :
      ReflTransGen (Awaits who []) (Failing.captured 2) (Failing.captured (k + 1)) ∧
        [who] <:+ (Failing.captured (k + 1)).waiting := by
    have hnext : Next (.busy (Failing.captured k)) (.busy (Failing.captured (k + 1))) := by
      rw [Failing.captured_succ]
      exact .step _
    rcases hnext.keeps_waiting hk.2 with hwaits | ⟨w, r, hw, -⟩
    · exact ⟨hk.1.tail ⟨hnext, hwaits⟩, hwaits⟩
    · rw [hw] at hmode
      cases hmode
  have hstart : ReflTransGen (Awaits who []) (Failing.captured 2) (Failing.captured 2) ∧
      [who] <:+ (Failing.captured 2).waiting := ⟨.refl, by rw [hasks']; exact List.suffix_refl _⟩
  obtain ⟨hpath, hwaits⟩ := hgoes (hgoes (hgoes (hgoes (hgoes hstart (by decide +kernel)) (by decide +kernel))
    (by decide +kernel)) (by decide +kernel)) (by decide +kernel)
  have hone : (Failing.captured 7).waiting.length = 1 := by decide +kernel
  have hwaiting : [who] = (Failing.captured 7).waiting := hwaits.eq_of_length hone.symm
  have hhands : (Failing.captured 7).mode.handed?.isSome = true := by decide +kernel
  have hfails : (Failing.captured 7).mode.fault?.map Failure.trace = some [⟨"sample", 1⟩] := by decide +kernel
  have hempty : (Failing.captured 7).world.heap.vec? (.obj 7) = some #[] := by decide +kernel
  rw [show Failing.captured 8 = _ from Failing.captured_succ 7]
  generalize Failing.captured 7 = m at hpath hwaiting hhands hfails hempty ⊢
  obtain ⟨w₂, waiting, mode⟩ := m
  obtain rfl : [who] = waiting := hwaiting
  obtain ⟨r, rfl⟩ := Mode.eq_outcome hhands
  cases r with
  | ok v => cases hfails
  | error e =>
    obtain ⟨⟨w₃, v, hend, hcaptures, -⟩, -⟩ := hends w₂ (.error e) hpath
    subst hwho
    obtain ⟨rfl, items, vs, hitems, hafter, hshown⟩ := hcaptures
    obtain rfl : #[] = items := Option.some.inj (hempty.symm.trans hitems)
    rw [Array.empty_append] at hafter
    exact ⟨e, w₃, vs, rfl, Option.some.inj hfails, hend, hafter, hshown⟩

/-- `caller` stops the program when `call` runs it on the largest level: nothing is captured, and `call` waits for
good. -/
theorem stopped_stopping : Reached (.busy (Failing.stopping 3)) ∧ Stopped (Failing.stopping 3) ∧
    (Failing.stopping 3).waiting.map (·.native.name) = ["call"] ∧
    (Failing.stopping 3).world.heap.vec? (.obj 7) = some #[] :=
  ⟨Failing.reached_stopping 3, stopped_of_caller (by decide +kernel), by decide +kernel, by decide +kernel⟩

end Host

end ScriptEngine
