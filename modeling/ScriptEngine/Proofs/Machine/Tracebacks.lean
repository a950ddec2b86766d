import ScriptEngine.Proofs.Machine.Engagement

/-!
# Where a failure comes from

A failure comes up without a trace.  On its way out each context that it leaves adds the places of its
frames, keeps what the failure has become by then, and is freed by the native that waits for it, if that
passes the failure on.

* `Machine.contexts`   the contexts at work;
* `Host.Raises`        a failure comes up;
* `Host.Passes`        a failure is passed on: it is told, `call` has no vector for it, or a native of the host
  records it and answers with it in the end;
* `Machine.Traced`     what a failure has become, with the contexts that it has left;
* `Host.Passes.traced` a step of its way;
* `Host.traced_passes` **the whole way**: the trace has the frames of all contexts that the failure has left,
  innermost first, each on the line of the instruction it executed, and each context keeps what it told.
-/

namespace ScriptEngine

open Relation (TransGen ReflTransGen)
open World (ctx_modifyCtx_self ctx_modifyCtx_of_ne field_modifyCtx)

/-! ## chains of contexts -/

namespace World

variable {w : World} {cx c d : CtxId} {l : List CtxId}

theorem heap_childless (w : World) (cx : CtxId) : (w.childless cx).heap = w.heap := by
  cases hd : (w.ctx cx).child with
  | none => rw [childless_of_none hd]
  | some d =>
    rw [childless_of_some hd, freeContext, heap_freeChain]
    rfl

/-- A child that is freed is a new context again. -/
theorem ctx_childless_child (hk : w.Kin) (hd : (w.ctx cx).child = some d) : (w.childless cx).ctx d = {} := by
  have hlt : d < (w.unlinked cx).contexts.size := by
    rw [unlinked, size_modifyCtx]
    exact hk.lt cx d hd
  obtain ⟨n, hn⟩ := Nat.exists_eq_succ_of_ne_zero (Nat.ne_of_gt (Nat.zero_lt_of_lt hlt))
  rw [childless_of_some hd, freeContext, hn]
  have hfirst : ((w.unlinked cx).dropped d).ctx d = {} := ctx_dropped_self hlt
  rcases ctx_freeChain_or n ((w.unlinked cx).ctx d).child ((w.unlinked cx).dropped d) d with h | h
  · exact h.trans hfirst
  · exact h

theorem ctx_childless_self (hk : w.Kin) (hcx : w.InUse cx) :
    (w.childless cx).ctx cx = { w.ctx cx with child := none } ∧ (w.childless cx).InUse cx := by
  refine ⟨(hk.apart cx).ctx_childless, (size_childless w cx).symm ▸ hcx.lt, fun hfree => ?_⟩
  cases hd : (w.ctx cx).child with
  | none =>
    rw [childless_of_none hd] at hfree
    exact hcx.used hfree
  | some d => exact hcx.used ((kept_childless hd (hk.apart cx)).2 hfree)

/-- Freeing a child does not touch contexts above or beside its parent. -/
theorem ctx_childless_of_clear (h : w.Held (cx :: l)) (hk : w.Kin) (hc : c ∈ l) : (w.childless cx).ctx c = w.ctx c := by
  have hclear := h.clear hk c hc
  cases hd : (w.ctx cx).child with
  | none => rw [childless_of_none hd]
  | some d =>
    rw [(kept_childless hd fun hbelow => hclear hbelow.to_reflTransGen).1, unlinked, ctx_modifyCtx_of_ne]
    rintro rfl
    exact hclear .refl

end World

namespace Machine

variable {m : Machine} {w : World} {waiting : List Waiting} {lib : Library} {c cx : CtxId}

/-- The contexts at work, innermost first: that of the run that goes on, and those of the natives that
wait. -/
def contexts (m : Machine) : List CtxId := m.mode.ctx?.toList ++ outer m.waiting

theorem Steady.held (hm : m.Steady) : m.world.Held m.contexts ∧ m.world.Kin := by
  obtain ⟨w, waiting, mode⟩ := m
  have hworks := hm.works
  cases mode with
  | begin _ _ | running _ | replied _ _ _ _ | ended _ _ => exact ⟨hworks.1.chain, hworks.1.kin⟩
  | outcome _ => exact ⟨hworks.chain, hworks.kin⟩

/-- The context that the next step works on is above none of the others that wait. -/
theorem Steady.clear (hm : m.Steady) (hcx : m.active = some cx) (hc : c ∈ outer m.waiting) (hne : cx ≠ c) :
    ¬ ReflTransGen m.world.Child cx c := by
  obtain ⟨w, waiting, mode⟩ := m
  have hworks := hm.works
  cases mode with
  | begin _ _ =>
    obtain rfl := Option.some.inj hcx
    exact hworks.2.clear hworks.1.kin c hc
  | running _ | replied _ _ _ _ | ended _ _ =>
    obtain rfl := Option.some.inj hcx
    exact hworks.1.chain.clear hworks.1.kin c hc
  | outcome _ =>
    cases waiting with
    | nil => exact nomatch hc
    | cons who waiting =>
      obtain rfl := Option.some.inj hcx
      exact hworks.chain.clear hworks.kin c ((List.mem_cons.mp hc).resolve_left fun h => hne h.symm)

/-- A context that waits is worked on only when its native is to be woken. -/
theorem Steady.outcome_of_waits (hm : m.Steady) (hc : m.active = some c) (hout : c ∈ outer m.waiting) :
    ∃ r, m.mode = .outcome r := by
  obtain ⟨w, waiting, mode⟩ := m
  have hworks := hm.works
  cases mode with
  | outcome r => exact ⟨r, rfl⟩
  | begin _ _ =>
    obtain rfl := Option.some.inj hc
    exact absurd .refl (hworks.2.clear hworks.1.kin _ hout)
  | running _ | replied _ _ _ _ | ended _ _ =>
    obtain rfl := Option.some.inj hc
    exact absurd rfl (hworks.1.ne hout)

/-- The contexts at work after a step were so before, but for the one it works on. -/
theorem contexts_step (lib : Library) (h : c ∈ (m.step lib).contexts) :
    m.active = some c ∨ c ∈ outer m.waiting := by
  have hturns := m.turns lib
  generalize m.step lib = m' at hturns h
  cases hturns with
  | goes hctx | calls hctx | ends hctx =>
    refine (List.mem_cons.mp h).imp_left ?_
    rintro rfl
    exact active_of_goesOn hctx
  | asks hctx hnone =>
    rw [contexts, show Mode.ctx? _ = none from hnone] at h
    refine (List.mem_cons.mp h).imp_left ?_
    rintro rfl
    exact active_of_goesOn hctx
  | refuses | tells | rests => exact .inr h
  | wakes => exact .inr h

end Machine

/-! ## a failure comes up -/

namespace Host

open Machine (Finds outer contexts)

variable {m m' m₁ : Machine} {s' : State} {c : CtxId} {e : Failure} {who : Waiting} {waiting : List Waiting}

/-- A move is not on a context that waits, nor above one, unless it wakes its native. -/
theorem Move.clear {l : Matter} {x : CtxId} (h : Move l (.busy m) s') (hs : (State.busy m).Good) (hc : c ∈ outer m.waiting)
    (hoff : m.active ≠ some c) (hl : l = .on x ∨ l = .dropped x) : ¬ ReflTransGen m.world.Child x c := by
  have hactive {cx : CtxId} (hcx : m.active = some cx) (hl : Matter.on cx = .on x ∨ Matter.on cx = .dropped x) :
      ¬ ReflTransGen m.world.Child x c := by
    obtain rfl : cx = x := Matter.on.inj (hl.resolve_right nofun)
    exact hs.ready.1.clear hcx hc fun h => hoff (h ▸ hcx)
  cases h with
  | tend hat h =>
    cases hat with
    | @native _ cx _ _ _ _ _ _ =>
      have hheld := List.mem_cons_of_mem cx hc
      cases h with
      | drop _ _ hclear =>
        obtain rfl := Matter.dropped.inj (hl.resolve_left nofun)
        exact hclear c hheld
      | deed _ hclear _ =>
        obtain rfl := Matter.on.inj (hl.resolve_right nofun)
        exact hclear c hheld
      | newContext _ | enter _ | leave _ => exact hl.elim nofun nofun
  | step _ =>
    cases hcx : m.active with
    | none =>
      rw [hcx] at hl
      exact hl.elim nofun nofun
    | some cx =>
      rw [hcx] at hl
      exact hactive hcx hl
  | offer _ _ _ | work _ _ => exact hactive rfl hl
  | finish _ _ | visit _ _ _ _ | answer _ _ => exact hl.elim nofun nofun

/-- A move does not touch a context that waits, unless it wakes its native. -/
theorem Next.same_waiting (h : Next (.busy m) s') (hs : (State.busy m).Good) (hh : m.world.Household [])
    (hc : c ∈ outer m.waiting) (hoff : m.active ≠ some c) : (m.world.ctx c).Spared (s'.world.ctx c) := by
  obtain ⟨l, h⟩ := h
  refine (h.spared hs hh fun _ hl => h.clear hs hc hoff (.inl hl) .refl).resolve_right ?_
  rintro ⟨-, ⟨x, hl, hbelow⟩ | ⟨x, hl, hbelow⟩⟩
  · exact h.clear hs hc hoff (.inl hl) hbelow.to_reflTransGen
  · exact h.clear hs hc hoff (.inr hl) hbelow

/-- A failure comes up: a step leads to one, or a native of the host fails on its own. -/
inductive Raises (e : Failure) : Machine → Machine → Prop
  | step {m : Machine} (calm : m.mode.fault? = none) (fault : (m.step .core).mode.fault? = some e) :
    Raises e m (m.step .core)
  | native {w : World} {waiting : List Waiting} {cx : CtxId} {n : Native} {site : Site}
    {r : Except Failure Reply} (foreign : Foreign n) (answer : Answer w.heap (.error e)) (fresh : e.trace = []) :
    Raises e ⟨w, waiting, .replied cx n site r⟩ ⟨w, waiting, .replied cx n site (.error e)⟩

theorem Raises.move (h : Raises e m m₁) : Next (.busy m) (.busy m₁) := by
  cases h with
  | step _ _ => exact .step m
  | native foreign answer _ => exact .answer foreign answer

theorem Raises.fault (h : Raises e m m₁) : m₁.mode.fault? = some e ∧ e.trace = [] := by
  cases h with
  | step calm fault => exact ⟨fault, (Machine.lasting_step Library.lasting_core m).fresh calm e fault⟩
  | native _ _ fresh => exact ⟨rfl, fresh⟩

/-- **A failure comes up** with the frames of all contexts at work as the instruction, or what else has
failed, has found them. -/
theorem Raises.finds {o : Options} (h : Raises e m m₁) (hs : (State.busy m).Good) (hh : m.world.Household [])
    (hl : m.world.Limited o) (hc : c ∈ m₁.contexts) : m.Finds c (fromTop (m₁.world.ctx c).frames) := by
  have hfault := h.fault.1
  have hmove := h.move
  by_cases hon : m.active = some c
  · cases hmove.proceeds hs hl hon with
    | leaves found => exact found
    | goesOn runs _ _ =>
      rw [runs] at hfault
      exact nomatch hfault
    | ends _ _ quiet => exact nomatch quiet.symm.trans hfault
  · have hout : c ∈ outer m.waiting := by
      cases h with
      | step _ _ => exact (Machine.contexts_step .core hc).resolve_left hon
      | native _ _ _ =>
        refine (List.mem_cons.mp hc).resolve_left ?_
        rintro rfl
        exact hon rfl
    rw [show (m₁.world.ctx c).frames = _ from (hmove.same_waiting hs hh hout hon).frames]
    have hmode {mode : Mode} (h : m.mode = mode) (ha : Machine.active ⟨m.world, m.waiting, mode⟩ = some c) :
        False := by
      refine hon ?_
      show Machine.active ⟨m.world, m.waiting, m.mode⟩ = some c
      rwa [h]
    exact .same (fun _ _ _ _ h => hmode h rfl) fun h => hmode h rfl

/-! ## a failure is passed on -/

/-- A native is still there: it works, or it waits for a run on a child. -/
def Attends (who : Waiting) (waiting : List Waiting) (m : Machine) : Prop :=
  (m.waiting = waiting ∧ ∃ r, m.mode = .replied who.cx who.native who.site r) ∨
    ∃ before wait, m.waiting = before ++ { who with wait } :: waiting

/-- The engine once a native has freed the child and recorded its failure. -/
def rethrown (w : World) (cx : CtxId) (e : Failure) : World :=
  (w.childless cx).modifyCtx cx ({ · with error := some e })

/-- A failure is passed on: a run on a context tells it, `call` has no vector for it, or a native of the host
that has made a nested call records it and answers with it, whatever it does before it answers. -/
inductive Passes : Machine → Machine → Prop
  | tells {m : Machine} {cx : CtxId} {e : Failure} (runs : m.mode.ctx? = some cx)
    (fault : m.mode.fault? = some e) : Passes m (m.step .core)
  | calls {w : World} {waiting : List Waiting} {who : Waiting} {e : Failure} (call : who.native.name = "call")
    (none : w.heap.isKind (argument who.wait.values 0) .vec = false) :
    Passes ⟨w, who :: waiting, .outcome (.error e)⟩ (Machine.step .core ⟨w, who :: waiting, .outcome (.error e)⟩)
  | native {w w' : World} {waiting : List Waiting} {who : Waiting} {e : Failure} {r : Except Failure Reply}
    (foreign : Foreign who.native)
    (works : ReflTransGen (fun m m' => Next (.busy m) (.busy m') ∧ Attends who waiting m')
      ⟨rethrown w who.cx e, waiting, .replied who.cx who.native who.site silence⟩
      ⟨w', waiting, .replied who.cx who.native who.site r⟩)
    (live : w'.heap.Live e.value) :
    Passes ⟨w, who :: waiting, .outcome (.error e)⟩ ⟨w', waiting, .replied who.cx who.native who.site (.error e)⟩

theorem wake_foreign (w : World) (waiting : List Waiting) {who : Waiting} (hf : Foreign who.native)
    (r : Except Failure Value) : Machine.step .core ⟨w, who :: waiting, .outcome r⟩ =
      ⟨w, waiting, .replied who.cx who.native who.site silence⟩ := by
  show Machine.wake .core w waiting who r = _
  unfold Machine.wake
  rw [hf]
  rfl

theorem wake_call {w : World} (waiting : List Waiting) {who : Waiting} (e : Failure)
    (hcall : who.native.name = "call") (hnone : w.heap.isKind (argument who.wait.values 0) .vec = false) :
    Machine.step .core ⟨w, who :: waiting, .outcome (.error e)⟩ =
      ⟨rethrown w who.cx e, waiting, .replied who.cx who.native who.site (.error e)⟩ := by
  have hb : Library.core.native who.native.name = some ⟨Natives.callStart, Natives.callEnd⟩ := by
    rw [hcall]
    rfl
  have hend : (Natives.callEnd who.cx who.native who.wait (.error e)).run w =
      .error e (rethrown w who.cx e) := by
    unfold Natives.callEnd
    rw [run_bind_of_ok (World.run_freeChild w who.cx)]
    show EStateM.run (ite _ _ _) (w.childless who.cx) = _
    rw [World.heap_childless, hnone]
    rfl
  show Machine.wake .core w waiting who (.error e) = _
  unfold Machine.wake
  rw [hb]
  dsimp only
  rw [hend]

theorem State.Good.live_outcome {w : World} {waiting : List Waiting}
    (hs : (State.busy ⟨w, waiting, .outcome (.error e)⟩).Good) : w.heap.Live e.value := by
  have hsane := hs.ready.2
  generalize hm : (⟨w, waiting, .outcome (.error e)⟩ : Machine) = m at hsane
  cases hsane with
  | sound h =>
    subst hm
    exact h.flying
  | resume _ _ | asks _ _ => exact nomatch hm

/-- A native of the host is woken, frees the child and records the failure. -/
theorem moves_rethrown {w : World} (foreign : Foreign who.native)
    (hs : (State.busy ⟨w, who :: waiting, .outcome (.error e)⟩).Good) :
    ReflTransGen Next (.busy ⟨w, who :: waiting, .outcome (.error e)⟩)
      (.busy ⟨rethrown w who.cx e, waiting, .replied who.cx who.native who.site silence⟩) := by
  have hwake := Next.step ⟨w, who :: waiting, .outcome (.error e)⟩
  rw [wake_foreign w waiting foreign] at hwake
  have hfree : Next (.busy ⟨w, waiting, .replied who.cx who.native who.site silence⟩)
      (.busy ⟨w.childless who.cx, waiting, .replied who.cx who.native who.site silence⟩) := by
    have h : Next (.busy ⟨w, waiting, .replied who.cx who.native who.site silence⟩)
        (.busy ⟨World.after ((Deed.act who.cx .freeChild).run w), waiting,
          .replied who.cx who.native who.site silence⟩) := .work foreign (d := .freeChild) trivial
    rwa [show (Deed.act who.cx .freeChild).run w = _ from World.run_freeChild w who.cx] at h
  refine ((ReflTransGen.single hwake).tail hfree).tail (Next.work foreign (d := .recordError e) ?_)
  show (w.childless who.cx).heap.Live e.value
  rw [World.heap_childless]
  exact hs.live_outcome

theorem Passes.moves (h : Passes m m') (hs : (State.busy m).Good) : ReflTransGen Next (.busy m) (.busy m') := by
  cases h with
  | tells _ _ => exact .single (.step m)
  | calls _ _ => exact .single (.step _)
  | @native w w' waiting who e r foreign works live =>
    have hworks := ReflTransGen.lift (p := Next) State.busy (fun _ _ h => h.1) _ _ works
    refine (moves_rethrown foreign hs).trans (hworks.tail ?_)
    exact .answer foreign ⟨live, hs.ready.1.external e rfl⟩

/-! ### what a native leaves alone -/

theorem mem_outer_attends {before : List Waiting} {wait : Wait} (hm : m.waiting = before ++ { who with wait } :: waiting)
    (hc : c ∈ who.cx :: outer waiting) : c ∈ outer m.waiting := by
  rw [hm]
  unfold outer
  rw [List.map_append]
  exact List.mem_append_right _ hc

/-- While a native is there, the frames of its context and of those further out stay as they are. -/
theorem Attends.frames (h : Next (.busy m) (.busy m')) (hs : (State.busy m).Good) (hh : m.world.Household [])
    {o : Options} (hl : m.world.Limited o) (ha : Attends who waiting m) (ha' : Attends who waiting m')
    (hc : c ∈ who.cx :: outer waiting) : (m'.world.ctx c).frames = (m.world.ctx c).frames := by
  have hs' := (h.along hs).2
  by_cases hon : m.active = some c
  · -- its native works, or is to be woken
    have hmode : (∃ n site r, m.mode = .replied c n site r) ∨ ∃ r, m.mode = .outcome r := by
      rcases ha with ⟨-, r, hr⟩ | ⟨before, wait, hm⟩
      · refine .inl ⟨who.native, who.site, r, ?_⟩
        unfold Machine.active at hon
        rw [hr] at hon ⊢
        rw [Option.some.inj hon]
      · exact .inr (hs.ready.1.outcome_of_waits hon (mem_outer_attends hm hc))
    have hne {mode : Mode} (hm : m.mode = mode) (hr : ∀ n site r, mode ≠ .replied c n site r)
        (ho : ∀ r, mode ≠ .outcome r) : False := by
      rcases hmode with ⟨n, site, r, h⟩ | ⟨r, h⟩
      · exact hr n site r (hm.symm.trans h)
      · exact ho r (hm.symm.trans h)
    cases h.proceeds hs hl hon with
    | leaves found =>
      generalize hf : fromTop (m'.world.ctx c).frames = frames at found
      cases found with
      | fresh begins => exact (hne begins (fun _ _ _ h => nomatch h) fun _ h => nomatch h).elim
      | moved runs _ _ _ => exact (hne runs (fun _ _ _ h => nomatch h) fun _ h => nomatch h).elim
      | same _ _ => exact Array.toList_inj.mp (List.reverse_injective hf)
    | goesOn runs _ _ =>
      have hon' : m'.active = some c := by
        unfold Machine.active
        rw [runs]
      rcases ha' with ⟨-, r, hr⟩ | ⟨before, wait, hm⟩
      · exact nomatch runs.symm.trans hr
      · obtain ⟨r, hr⟩ := hs'.ready.1.outcome_of_waits hon' (mem_outer_attends hm hc)
        exact nomatch runs.symm.trans hr
    | ends runs _ _ =>
      rcases runs with runs | ⟨v, runs⟩
      · exact (hne runs (fun _ _ _ h => nomatch h) fun _ h => nomatch h).elim
      · exact (hne runs (fun _ _ _ h => nomatch h) fun _ h => nomatch h).elim
  · refine (h.same_waiting hs hh ?_ hon).frames
    rcases ha with ⟨hm, r, hr⟩ | ⟨before, wait, hm⟩
    · rw [hm]
      refine (List.mem_cons.mp hc).resolve_left ?_
      rintro rfl
      refine hon ?_
      unfold Machine.active
      rw [hr]
    · exact mem_outer_attends hm hc

/-- The contexts further out than that of a native that is there are not worked on. -/
theorem Attends.off (hs : (State.busy m).Good) (ha : Attends who waiting m) (hc : c ∈ outer waiting) :
    m.active ≠ some c ∧ c ∈ outer m.waiting := by
  have hheld := hs.ready.1.held
  have hnodup := hheld.1.nodup hheld.2
  rcases ha with ⟨hm, r, hr⟩ | ⟨before, wait, hm⟩
  · refine ⟨fun hon => ?_, hm ▸ hc⟩
    have hcx : who.cx = c := by
      unfold Machine.active at hon
      rw [hr] at hon
      exact Option.some.inj hon
    rw [contexts, hr, hm] at hnodup
    exact (List.nodup_cons.mp hnodup).1 (show who.cx ∈ outer waiting from hcx ▸ hc)
  · have hout := mem_outer_attends hm (List.mem_cons_of_mem _ hc)
    refine ⟨fun hon => ?_, hout⟩
    -- the native to be woken is that one, or one further in
    obtain ⟨r, hr⟩ := hs.ready.1.outcome_of_waits hon hout
    rw [contexts, hr, hm] at hnodup
    unfold Machine.active at hon
    rw [hr, hm] at hon
    cases before with
    | nil =>
      obtain rfl : who.cx = c := Option.some.inj hon
      exact (List.nodup_cons.mp hnodup).1 hc
    | cons first before =>
      obtain rfl : first.cx = c := Option.some.inj hon
      refine (List.nodup_cons.mp hnodup).1 ?_
      show first.cx ∈ outer (before ++ _ :: waiting)
      unfold outer
      rw [List.map_append]
      exact List.mem_append_right _ (List.mem_cons_of_mem _ hc)

/-- The states between which moves go on are in order. -/
structure State.Fine (s : State) (o : Options) : Prop where
  good : s.Good
  household : s.world.Household []
  limited : s.world.Limited o

theorem Next.fine {s s' : State} {o : Options} (h : Next s s') (hs : s.Fine o) : s'.Fine o :=
  ⟨(h.along hs.good).2, h.household_nil hs.good hs.household, h.limited hs.good hs.limited⟩

theorem fine_moves {s s' : State} {o : Options} (h : ReflTransGen Next s s') (hs : s.Fine o) : s'.Fine o := by
  induction h with
  | refl => exact hs
  | tail _ hn ih => exact hn.fine ih

theorem Attends.kept_works {o : Options}
    (h : ReflTransGen (fun m m' => Next (.busy m) (.busy m') ∧ Attends who waiting m') m m')
    (hs : (State.busy m).Fine o) (ha : Attends who waiting m) :
    (∀ c ∈ who.cx :: outer waiting, (m'.world.ctx c).frames = (m.world.ctx c).frames) ∧
      ∀ c ∈ outer waiting, (m'.world.ctx c).child = (m.world.ctx c).child := by
  have hall : (State.busy m').Fine o ∧ Attends who waiting m' ∧
      (∀ c ∈ who.cx :: outer waiting, (m'.world.ctx c).frames = (m.world.ctx c).frames) ∧
      ∀ c ∈ outer waiting, (m'.world.ctx c).child = (m.world.ctx c).child := by
    induction h with
    | refl => exact ⟨hs, ha, fun _ _ => rfl, fun _ _ => rfl⟩
    | tail _ hn ih =>
      obtain ⟨hfine, hat, hframes, hlinks⟩ := ih
      refine ⟨hn.1.fine hfine, hn.2, fun c hc => ?_, fun c hc => ?_⟩
      · exact (Attends.frames hn.1 hfine.good hfine.household hfine.limited hat hn.2 hc).trans (hframes c hc)
      · obtain ⟨hoff, hout⟩ := hat.off hfine.good hc
        exact (hn.1.same_waiting hfine.good hfine.household hout hoff).child.trans (hlinks c hc)
  exact hall.2.2

end Host

/-! ## the trace -/

/-- What a failure that has come up at `m` has become at `m'`, with the contexts that it has left by then: it
has the places of their frames, the last of them has kept it if the next native is to be woken, and the other
contexts still have their frames.  If the last one was the child of the next one out, it still is, and it is
freed together with it. -/
structure Machine.Traced (m : Machine) (e : Failure) (done : List CtxId) (m' : Machine) : Prop where
  contexts : m.contexts = done ++ m'.contexts
  fault : m'.mode.fault? = some { e with trace := e.trace ++ done.flatMap fun c => (m.world.ctx c).places }
  frames : ∀ c ∈ m'.contexts, (m'.world.ctx c).frames = (m.world.ctx c).frames
  links : ∀ c ∈ outer m'.waiting, (m'.world.ctx c).child = (m.world.ctx c).child
  kept : ∀ before c, done = before ++ [c] → m'.mode.ctx? = none → (m'.world.ctx c).error = m'.mode.fault? ∧
    ∀ who waiting, m'.waiting = who :: waiting → (m.world.ctx who.cx).child = some c →
      (m'.world.ctx who.cx).child = some c ∧ (m'.world.childless who.cx).ctx c = {}

namespace Machine

variable {m m' m'' : Machine} {e e' : Failure} {done : List CtxId} {w : World} {waiting : List Waiting} {cx : CtxId}

theorem traced_refl (h : m.mode.fault? = some e) : m.Traced e [] m where
  contexts := rfl
  fault := by
    rw [h, List.flatMap_nil, List.append_nil]
  frames _ _ := rfl
  links _ _ := rfl
  kept before c h := by
    cases before <;> exact nomatch h

theorem Traced.same (h : m.Traced e done m') (hctx : m''.contexts = m'.contexts)
    (hfault : m''.mode.fault? = m'.mode.fault?) (hruns : m''.mode.ctx? ≠ none)
    (hframes : ∀ c ∈ m'.contexts, (m''.world.ctx c).frames = (m'.world.ctx c).frames)
    (hlinks : ∀ c ∈ outer m''.waiting, c ∈ outer m'.waiting ∧ (m''.world.ctx c).child = (m'.world.ctx c).child) :
    m.Traced e done m'' where
  contexts := h.contexts.trans (congrArg (done ++ ·) hctx.symm)
  fault := hfault.trans h.fault
  frames c hc := (hframes c (hctx ▸ hc)).trans (h.frames c (hctx ▸ hc))
  links c hc := (hlinks c hc).2.trans (h.links c (hlinks c hc).1)
  kept _ _ _ hnone := absurd hnone hruns

/-- **The failure leaves a context**: it has the places of its frames as well, and the context keeps it. -/
theorem Traced.finish (h : m.Traced e done ⟨w, waiting, .ended cx (.error e')⟩)
    (hm : Steady ⟨w, waiting, .ended cx (.error e')⟩) :
    m.Traced e (done ++ [cx]) (step .core ⟨w, waiting, .ended cx (.error e')⟩) := by
  have hm' := hm.step Library.calm_core
  obtain ⟨⟨hw, -⟩, -, -⟩ := hm
  have hplaces : (w.ctx cx).places = (m.world.ctx cx).places := by
    rw [Context.places, Context.places, show (w.ctx cx).frames = _ from h.frames cx List.mem_cons_self]
  have hchild (c : CtxId) : ((step .core ⟨w, waiting, .ended cx (.error e')⟩).world.ctx c).child =
      (w.ctx c).child :=
    field_modifyCtx (f := ({ · with error := some { e' with trace := e'.trace ++ (w.ctx cx).places } }))
      Context.child (fun _ => rfl) c
  refine ⟨?_, ?_, fun c hc => ?_, fun c hc => (hchild c).trans (h.links c hc), fun before c hdone _ => ⟨?_, ?_⟩⟩
  · rw [List.append_assoc]
    exact h.contexts
  · have hfault := Option.some.inj h.fault
    show some { e' with trace := e'.trace ++ (w.ctx cx).places } = _
    rw [hfault, hplaces, List.flatMap_append, List.flatMap_singleton, List.append_assoc]
  · refine Eq.trans ?_ (h.frames c (List.mem_cons_of_mem _ hc))
    exact field_modifyCtx (f := ({ · with error := some { e' with trace := e'.trace ++ (w.ctx cx).places } }))
      Context.frames (fun _ => rfl) c
  · obtain ⟨-, hlast⟩ := List.append_inj' hdone rfl
    obtain rfl := List.head_eq_of_cons_eq hlast
    show ((w.modifyCtx cx _).ctx cx).error = _
    rw [ctx_modifyCtx_self hw.lt]
    rfl
  · obtain ⟨-, hlast⟩ := List.append_inj' hdone rfl
    obtain rfl := List.head_eq_of_cons_eq hlast
    intro who rest hwaiting hlinked
    obtain rfl : waiting = who :: rest := hwaiting
    have hlink := ((hchild who.cx).trans (h.links who.cx List.mem_cons_self)).trans hlinked
    exact ⟨hlink, World.ctx_childless_child hm'.held.2 hlink⟩

end Machine

namespace Host

open Machine (Traced outer contexts)

variable {m m' m'' m₁ : Machine} {e : Failure} {done : List CtxId} {o : Options}

theorem frames_rethrown {w : World} {cx c : CtxId} {rest : List CtxId} (hw : w.Fit (cx :: rest)) (hc : c ∈ cx :: rest)
    (e : Failure) : ((rethrown w cx e).ctx c).frames = (w.ctx c).frames := by
  obtain ⟨w₁, hrun, hkeeps, -⟩ := hw.freeChild
  rw [World.run_freeChild] at hrun
  cases hrun
  refine Eq.trans ?_ (hkeeps.same c hc).frames
  exact field_modifyCtx (f := ({ · with error := some e })) Context.frames (fun _ => rfl) c

theorem child_rethrown {w : World} {cx c : CtxId} {rest : List CtxId} (hw : w.Fit (cx :: rest)) (hc : c ∈ rest)
    (e : Failure) : ((rethrown w cx e).ctx c).child = (w.ctx c).child := by
  refine Eq.trans (field_modifyCtx (f := ({ · with error := some e })) Context.child (fun _ => rfl) c) ?_
  rw [World.ctx_childless_of_clear hw.chain hw.kin hc]

/-- **A failure that is passed on** has left at most one context more. -/
theorem Passes.traced (h : Passes m' m'') (hs : (State.busy m').Fine o) (ht : m.Traced e done m') :
    ∃ done', m.Traced e done' m'' := by
  cases h with
  | @tells m' cx e' runs fault =>
    obtain ⟨w, waiting, mode⟩ := m'
    cases mode with
    | begin _ _ | outcome _ => exact nomatch runs
    | running _ => exact nomatch fault
    | replied cx n site r =>
      cases r with
      | ok _ => exact nomatch fault
      | error e' =>
        refine ⟨done, ?_⟩
        cases site with
        | request => exact ht.same rfl rfl (Option.some_ne_none _) (fun _ _ => rfl) fun _ hc => ⟨hc, rfl⟩
        | instruction base =>
          refine ht.same rfl rfl (Option.some_ne_none _) (fun c _ => ?_) fun c hc => ⟨hc, ?_⟩
          · exact field_modifyCtx (f := ({ · with resumeAt := some base })) Context.frames (fun _ => rfl) c
          · exact field_modifyCtx (f := ({ · with resumeAt := some base })) Context.child (fun _ => rfl) c
    | ended cx r =>
      cases r with
      | ok _ => exact nomatch fault
      | error e' => exact ⟨_, ht.finish hs.good.ready.1⟩
  | @calls w waiting who e' call none =>
    have hw : w.Fit (who.cx :: outer waiting) := hs.good.ready.1.works
    rw [wake_call waiting e' call none]
    exact ⟨done, ht.same rfl rfl (Option.some_ne_none _) (fun c hc => frames_rethrown hw hc e')
      fun c hc => ⟨List.mem_cons_of_mem _ hc, child_rethrown hw hc e'⟩⟩
  | @native w w' waiting who e' r foreign works live =>
    have hw : w.Fit (who.cx :: outer waiting) := hs.good.ready.1.works
    have hfine := fine_moves (moves_rethrown foreign hs.good) hs
    obtain ⟨hframes, hlinks⟩ := Attends.kept_works works hfine (.inl ⟨rfl, _, rfl⟩)
    refine ⟨done, ht.same rfl rfl (Option.some_ne_none _) (fun c hc => ?_) fun c hc => ⟨List.mem_cons_of_mem _ hc, ?_⟩⟩
    · exact (hframes c hc).trans (frames_rethrown hw hc e')
    · exact (hlinks c hc).trans (child_rethrown hw hc e')

theorem Reached.fine {s : State} (h : Reached s) : ∃ o, s.Fine o := by
  obtain ⟨hh, o, hl⟩ := h.orderly
  exact ⟨o, h.good, hh, hl⟩

/-- However far a failure is passed on, it has the places of the contexts that it has left. -/
theorem Raises.traced (hr : Raises e m m₁) (hs : (State.busy m).Fine o) (hp : ReflTransGen Passes m₁ m') :
    (State.busy m').Fine o ∧ ∃ done, m₁.Traced e done m' := by
  induction hp with
  | refl => exact ⟨hr.move.fine hs, [], Machine.traced_refl hr.fault.1⟩
  | tail _ hn ih =>
    obtain ⟨hfine, done, htraced⟩ := ih
    exact ⟨fine_moves (hn.moves hfine.good) hfine, hn.traced hfine htraced⟩

/-- A move that neither is on a context nor frees it. -/
def Avoids (c : CtxId) (s s' : State) : Prop :=
  ∃ l, Move l s s' ∧ l ≠ .on c ∧ ¬ Frees c l s.world s'.world

theorem untouched_avoids {s s' : State} {c : CtxId} (h : ReflTransGen (Avoids c) s s') (hs : s.Fine o) :
    s'.Fine o ∧ (s.world.ctx c).Untouched (s'.world.ctx c) := by
  induction h with
  | refl => exact ⟨hs, .refl _⟩
  | tail _ hn ih =>
    obtain ⟨l, hmove, hoff, hfrees⟩ := hn
    obtain ⟨hfine, hsame⟩ := ih
    refine ⟨hmove.next.fine hfine, hsame.trans ?_⟩
    exact ((hmove.spared hfine.good hfine.household fun _ => hoff).resolve_right hfrees).toUntouched

/-- **The trace of a failure.**  A failure comes up without a trace, at some contexts at work, whose frames are
those that the failed step has found, each behind the instruction that it executed.  However far it is passed
on, it has the places of the frames of all contexts that it has left, innermost first, which are on the lines
of these instructions.  When the failure has left a context, that keeps it with the places up to its own, until
it is freed or worked on.  If the failure comes to the host, it has left all contexts. -/
theorem traced_passes (hm : Reached (.busy m)) (hr : Raises e m m₁) (hp : ReflTransGen Passes m₁ m') :
    e.trace = [] ∧ m₁.contexts.Nodup ∧
    (∀ c ∈ m₁.contexts, m.Finds c (fromTop (m₁.world.ctx c).frames) ∧
      ∀ f ∈ fromTop (m₁.world.ctx c).frames, ∃ i, f.Executes i ∧ f.place = ⟨f.code.file, f.code.lineAt i.place⟩) ∧
    (∃ done, m₁.Traced e done m' ∧ ∀ before c s, done = before ++ [c] → m'.mode.ctx? = none →
      ReflTransGen (Avoids c) (.busy m') s → (s.world.ctx c).error = m'.mode.fault?) ∧
    ∀ e', m'.result? = some (.error e') →
      e' = { e with trace := m₁.contexts.flatMap fun c => (m₁.world.ctx c).places } := by
  obtain ⟨o, hfine⟩ := hm.fine
  obtain ⟨options, hreached⟩ := hm
  have hreached₁ : Reached (.busy m₁) := ⟨options, hreached.tail hr.move⟩
  have hfine₁ := hr.move.fine hfine
  have htrace := hr.fault.2
  obtain ⟨hfine', done, htraced⟩ := hr.traced hfine hp
  have hheld := hfine₁.good.ready.1.held
  refine ⟨htrace, hheld.1.nodup hheld.2, fun c hc => ?_, ⟨done, htraced, fun before c s hdone hnone hs => ?_⟩, fun e' he' => ?_⟩
  · have hfound := hr.finds hfine.good hfine.household hfine.limited hc
    refine ⟨hfound, fun f hf => ?_⟩
    have hlined := hfine₁.good.consistent.lined_frame hreached₁.lined (mem_fromTop.mp hf)
    obtain ⟨i, hi⟩ := (show Reached (.busy m) from ⟨options, hreached⟩).engaged.finds hfine.good
      (show Reached (.busy m) from ⟨options, hreached⟩).lined hfound f hf
    exact ⟨i, hi, hi.place_eq hlined⟩
  · exact (untouched_avoids hs hfine').2.error.trans (htraced.kept before c hdone hnone).1
  · obtain ⟨w, waiting, mode⟩ := m'
    cases waiting with
    | cons _ _ => exact nomatch he'
    | nil =>
      cases mode with
      | outcome r =>
        obtain rfl := Option.some.inj he'
        have hall := htraced.contexts
        rw [show contexts ⟨w, [], .outcome (.error e')⟩ = [] from rfl, List.append_nil] at hall
        have he := Option.some.inj htraced.fault
        rw [he, hall, htrace]
        rfl
      | _ => exact nomatch he'

/-! The failing program, run by `call` on a child. -/

theorem Recent.reached {s : State} {c : CtxId} {b : Option Setback} (h : Recent c b s) : Reached s := by
  induction h with
  | new options => exact ⟨options, .refl⟩
  | ends _ _ _ ih => exact ih.imp fun _ h => h.tail (.step _)
  | frees _ hmove _ ih => exact ih.imp fun _ h => h.tail hmove.next
  | moves _ hmove _ _ ih => exact ih.imp fun _ h => h.tail hmove.next

namespace Failing

def outfitted : World :=
  let w := World.after ((Deed.act 0 .newHash).run loaded.2)
  let w := World.after ((Deed.act 0 (.bindFunction loaded.1 (.obj 11))).run w)
  World.after ((Deed.act 0 (.newNative ⟨"call", none, false⟩)).run w)

/-- A program that calls its receiver on each of its arguments. -/
def outerSource : Bytes := Bytes.ofString "foreach (arg; arg) me(arg);"

def outerUnit : Code Const where
  words := #[40, 0, 6, 12, 49, 32, 19, 41, 0, 1, 40, 1, 40, 0, 35, 1, 1, 30, 4, 13, 1, 1, 7, 39]
  consts := #[.name (Bytes.ofString "arg"), .name (Bytes.ofString "me")]
  lines := #[(0, 7)]
  file := "outer"
  params := #[]
  optional := #[]
  rest := some 0
  needsRest := true

theorem compile_outer : ScriptEngine.compile outerSource "outer" 7 = .ok outerUnit := by
  cbv

def outer : Value × World := outfitted.loaded outerUnit [2, 3]

/-- The run of that program with `call` as its receiver on the one that fails.  The engine is entered twice, so that
no collection is due. -/
def nested (n : Nat) : Machine :=
  (Machine.step .core)^[n] ⟨outer.2.enter.enter, [], .begin 0 (.call outer.1 #[.obj 22] (.obj 21) .nil)⟩

theorem nested_succ (n : Nat) : nested (n + 1) = (nested n).step .core := Function.iterate_succ_apply' ..

theorem reached_outfitted : Reached (.idle outfitted) := by
  have hhash := (recent_loaded (c := 0)).reached.deed inUse_loaded (d := .newHash) trivial
  have hcode : loaded.1 ∈ ((World.after ((Deed.act 0 .newHash).run loaded.2)).ctx 0).temps := by decide +kernel
  have hbound := hhash.deed (c := 0) ⟨by decide +kernel, by decide +kernel⟩ (d := .bindFunction loaded.1 (.obj 11))
    ⟨World.kept_of_temps hcode, hhash.live_temp (c := 0) (by decide +kernel)⟩
  unfold outfitted
  exact hbound.deed (c := 0) ⟨by decide +kernel, by decide +kernel⟩ trivial

theorem reached_outer : Reached (.idle outer.2) := by
  have hused : outfitted.InUse 0 := ⟨by decide +kernel, by decide +kernel⟩
  have hc : outfitted.Consistent := reached_outfitted.good.consistent
  have hat : outfitted.symArg = 2 ∧ outfitted.symMe = 3 := by decide +kernel
  exact reached_outfitted.compile hused (Act.run_compile_names compile_outer rfl
    (.cons (hc.arg.trans (congrArg some hat.1)) (.cons (hc.me.trans (congrArg some hat.2)) .nil)))

theorem reached_nested (n : Nat) : Reached (.busy (nested n)) := by
  have hentered : Reached (.idle outer.2.enter.enter) := (reached_outer.next (.enter _)).next (.enter _)
  have htemps : ∀ v ∈ [outer.1, .obj 21, .obj 22], v ∈ (outer.2.enter.enter.ctx 0).temps := by decide +kernel
  have hlive (v : Value) (hv : v ∈ [outer.1, .obj 21, .obj 22]) := hentered.live_temp (htemps v hv)
  have hgiven : Machine.Given outer.2.enter.enter.heap (.call outer.1 #[.obj 22] (.obj 21) .nil) := by
    refine ⟨hlive _ (by simp), fun v hv => ?_, hlive _ (by simp), Heap.live_nil⟩
    rw [List.mem_singleton.mp (Array.mem_def.mp hv)]
    exact hlive _ (by simp)
  exact (hentered.next (.begin ⟨by decide +kernel, by decide +kernel⟩ hgiven)).run n

end Failing

theorem Passes.of_call {m : Machine} (h : (match m with
    | ⟨w, who :: _, .outcome (.error _)⟩ =>
      who.native.name == "call" && !w.heap.isKind (argument who.wait.values 0) .vec
    | _ => false) = true) : Passes m (m.step .core) := by
  split at h
  · obtain ⟨hcall, hnone⟩ := Bool.and_eq_true_iff.mp h
    exact .calls (beq_iff_eq.mp hcall) (Bool.not_eq_eq_eq_not.mp hnone)
  · exact nomatch h

/-- `call` has no vector for the failure, which comes to the host with the frames of both programs. -/
theorem traced_passes_nested : ∃ e e', Raises e (Failing.nested 13) (Failing.nested 14) ∧
    ReflTransGen Passes (Failing.nested 14) (Failing.nested 18) ∧
    (Failing.nested 18).result? = some (.error e') ∧ (Failing.nested 14).contexts = [1, 0] ∧
    e' = { e with trace := [⟨"sample", 1⟩, ⟨"outer", 7⟩] } := by
  have hcalm : (Failing.nested 13).mode.fault?.isNone = true := by decide +kernel
  have hfault : ((Failing.nested 13).step .core).mode.fault?.isSome = true := by decide +kernel
  obtain ⟨e, he⟩ := Option.isSome_iff_exists.mp hfault
  have hraises : Raises e (Failing.nested 13) (Failing.nested 14) := by
    rw [show Failing.nested 14 = _ from Failing.nested_succ 13]
    exact .step (Option.isNone_iff_eq_none.mp hcalm) he
  have htells (n : Nat) (cx : CtxId) (hruns : (Failing.nested n).mode.ctx? = some cx)
      (hfault : (Failing.nested n).mode.fault?.isSome = true) :
      Passes (Failing.nested n) (Failing.nested (n + 1)) := by
    obtain ⟨e, he⟩ := Option.isSome_iff_exists.mp hfault
    rw [Failing.nested_succ]
    exact .tells hruns he
  have hcalls : Passes (Failing.nested 15) (Failing.nested 16) := by
    rw [show Failing.nested 16 = _ from Failing.nested_succ 15]
    refine .of_call ?_
    decide +kernel
  have hpasses : ReflTransGen Passes (Failing.nested 14) (Failing.nested 18) :=
    (((ReflTransGen.single (htells 14 1 (by decide +kernel) (by decide +kernel))).tail hcalls).tail
      (htells 16 0 (by decide +kernel) (by decide +kernel))).tail
      (htells 17 0 (by decide +kernel) (by decide +kernel))
  have hresult : ((Failing.nested 18).result?.any fun r => !r.isOk) = true := by decide +kernel
  have hcontexts : (Failing.nested 14).contexts = [1, 0] := by decide +kernel
  have hplaces : ([1, 0].flatMap fun c => ((Failing.nested 14).world.ctx c).places) =
      [⟨"sample", 1⟩, ⟨"outer", 7⟩] := by decide +kernel
  obtain ⟨r, hr, hfailed⟩ := (Option.any_eq_true _ _).mp hresult
  cases r with
  | ok v => exact nomatch hfailed
  | error e' =>
    obtain ⟨-, -, -, -, hhost⟩ := traced_passes (Failing.reached_nested 13) hraises hpasses
    have he' := hhost e' hr
    rw [hcontexts, hplaces] at he'
    exact ⟨e, e', hraises, hpasses, hr, hcontexts, he'⟩

end Host

end ScriptEngine
