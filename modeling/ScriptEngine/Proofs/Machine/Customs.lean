import ScriptEngine.Proofs.Machine.Abreast
import ScriptEngine.Proofs.Machine.Sessions

/-!
# What is kept by all that is done on a context

Whatever is done on a context comes down to a few changes: of what is not about contexts, of the stacks
of that context within the limits, of its error, of caches, and of its child.  A property of engines that
these keep is kept by every step of the machine and by every deed of a host on that context.

* `World.Custom`        such a property;
* `World.Custom.keeps`  an activity that does the same on engines that look the same keeps it;
* `World.Custom.step`   so does a step of the machine, and `World.Custom.deed` a deed of the host.
-/

namespace ScriptEngine

open World (Mirror Rel)

namespace World

variable {w w' : World} {cx : CtxId} {I : World → Prop}

theorem ctx_uncached (w : World) (c : CtxId) : w.uncached.ctx c = (w.ctx c).dropCache := ctx_dropCache w c

theorem ctx_dropped_or (w : World) (x c : CtxId) : (w.dropped x).ctx c = w.ctx c ∨ (w.dropped x).ctx c = {} := by
  by_cases hx : x = c
  · subst hx
    by_cases hlt : x < w.contexts.size
    · exact .inr (ctx_dropped_self hlt)
    · exact .inr (ctx_of_ge (by rw [size_dropped]; exact Nat.le_of_not_lt hlt))
  · exact .inl (ctx_dropped_of_ne hx)

theorem ctx_freeChain_or (n : Nat) (d : Option CtxId) (w : World) (c : CtxId) :
    (freeChain n d w).ctx c = w.ctx c ∨ (freeChain n d w).ctx c = {} := by
  induction n generalizing d w with
  | zero => exact .inl rfl
  | succ n ih =>
    cases d with
    | none => exact .inl rfl
    | some d =>
      rcases ih (w.ctx d).child (w.dropped d) with h | h
      · exact (ctx_dropped_or w d c).imp h.trans h.trans
      · exact .inr h

theorem size_freeChain (n : Nat) (d : Option CtxId) (w : World) :
    (freeChain n d w).contexts.size = w.contexts.size := by
  induction n generalizing d w with
  | zero => rfl
  | succ n ih =>
    cases d with
    | none => rfl
    | some d => exact (ih (w.ctx d).child (w.dropped d)).trans (size_dropped w d)

theorem ctx_newContext (w : World) (c : CtxId) : w.newContext.2.ctx c = w.ctx c := by
  unfold World.newContext
  split
  · rfl
  · exact ctx_push_empty w c

theorem size_childless (w : World) (cx : CtxId) : (w.childless cx).contexts.size = w.contexts.size := by
  cases hd : (w.ctx cx).child with
  | none => rw [childless_of_none hd]
  | some d =>
    rw [childless_of_some hd, freeContext, size_freeChain]
    exact size_modifyCtx ..

/-- A property that is about the contexts of an engine, but not about the cells they have cached. -/
structure Formal (I : World → Prop) : Prop where
  rest : ∀ {w : World}, I w → ∀ v : World, v.options = w.options → I (v.shelve w.contexts w.freeContexts)
  uncache : ∀ {w : World}, I w → I w.uncached

/-- A property of engines that whatever is done on a context keeps. -/
structure Custom (cx : CtxId) (I : World → Prop) : Prop extends Formal I where
  edit : ∀ {w : World}, I w → ∀ {g : Context → Context}, Context.Private g →
    ((w.ctx cx).Limited w.options → (g (w.ctx cx)).Limited w.options) → I (w.modifyCtx cx g)
  error : ∀ {w : World}, I w → ∀ error, I (w.modifyCtx cx ({ · with error }))
  freeChild : ∀ {w : World}, I w → I (w.childless cx)
  subContext : ∀ {w : World}, I w → (w.ctx cx).nesting < w.options.maxNesting →
    I ((w.childless cx).newContext.2.adopt cx (w.childless cx).newContext.1 ((w.ctx cx).nesting + 1))

theorem Formal.collectGarbage (hI : Formal I) (h : I w) : I w.collectGarbage :=
  hI.rest (hI.uncache h) w.collectGarbage rfl

theorem Formal.gate (hI : Formal I) (h : I w) (gate : Gate) : I { w with gate } :=
  hI.rest h { w with gate } rfl

theorem Formal.serve (hI : Formal I) (h : I w) : I w.serve := by
  have hdead : I w.freeDead := hI.rest h w.freeDead rfl
  unfold World.serve
  dsimp only
  split
  · exact hI.gate (hI.collectGarbage hdead) _
  · exact hI.gate hdead _

theorem Formal.enter (hI : Formal I) (h : I w) : I w.enter := by
  unfold World.enter
  dsimp only
  split
  · exact hI.gate h _
  · split
    · exact hI.serve (hI.gate h _)
    · exact hI.gate h _

theorem Formal.leave (hI : Formal I) (h : I w) : I w.leave := by
  unfold World.leave
  dsimp only
  split
  · exact hI.gate h _
  · split
    · exact hI.gate (hI.serve (hI.gate h _)) _
    · exact hI.gate h _

/-- The same engine, one with a property. -/
def Only (I : World → Prop) : Rel := fun w w' => w' = w ∧ I w

/-- Engines that are the same look the same. -/
theorem Custom.mirror (hI : Custom cx I) : Mirror cx (Only I) where
  shelved := by
    rintro w _ ⟨rfl, -⟩
    exact ⟨_, _, rfl⟩
  seen := by
    rintro w _ ⟨rfl, -⟩
    exact ⟨_, _, rfl⟩
  rest := by
    rintro w _ ⟨rfl, h⟩ v hv
    exact ⟨rfl, hI.rest h v hv⟩
  edit := by
    rintro w _ ⟨rfl, h⟩ g hg hlimited
    exact ⟨rfl, hI.edit h hg hlimited⟩
  error := by
    rintro w _ ⟨rfl, h⟩ error
    exact ⟨rfl, hI.error h error⟩
  freeChild := by
    refine ⟨fun w => ?_, ?_⟩
    · rw [run_freeChild]
      exact Nat.le_of_eq (congrArg Stats.collections (stats_childless w cx)).symm
    · rintro w _ ⟨rfl, h⟩ -
      rw [run_freeChild]
      exact .ok ⟨rfl, hI.freeChild h⟩
  subContext := by
    refine ⟨fun w => ?_, ?_⟩
    · rw [run_subContext]
      split
      · exact Nat.le_refl _
      · exact Nat.le_of_eq (congrArg Stats.collections
          ((stats_newContext _).trans (stats_childless w cx))).symm
    · rintro w _ ⟨rfl, h⟩ -
      rw [run_subContext]
      split
      · exact .error ⟨rfl, h⟩
      · rename_i hroom
        exact .ok ⟨rfl, hI.subContext h (Nat.lt_of_not_le hroom)⟩

theorem Custom.lasts (hI : Custom cx I) (w w' : World) : Lasts (Only I) w w' := by
  refine .inl fun u u' => ?_
  rintro ⟨rfl, h⟩
  exact ⟨rfl, hI.collectGarbage h⟩

/-- **An activity** that does the same on engines that look the same keeps the property. -/
theorem Custom.keeps {α : Type} (hI : Custom cx I) {x : Act α} (hx : Act.Mirrors (Only I) x) (h : I w) :
    I (World.after (x.run w)) := by
  have hsame := hx.run ⟨rfl, h⟩ (hI.lasts w _)
  generalize x.run w = r at hsame
  cases hsame with
  | ok h | error h => exact h.2

theorem Custom.core (hI : Custom cx I) : Library.core.Mirrors cx (Only I) (Only I) :=
  Library.mirrors_core hI.mirror hI.mirror.subContext

end World

/-! ## steps of the machine -/

namespace World

open Machine (Steady)

variable {w : World} {cx : CtxId} {I : World → Prop} {waiting : List Waiting}

theorem Custom.begin (hI : Custom cx I) (h : I w) (q : Request) :
    I (Machine.start .core w waiting cx q).world := by
  cases q with
  | call func args me locals =>
    rw [Machine.world_start_call]
    exact hI.keeps ((Act.mirrors_prepareCall hI.mirror).bind fun _ =>
      Act.mirrors_beginCall hI.mirror hI.core func args me locals) h
  | resume v =>
    have h₁ : I (w.modifyCtx cx ({ · with resumeAt := none })) :=
      hI.edit h (.of_blind (fun _ _ _ => rfl) fun _ => ⟨rfl, rfl⟩) fun hc => { hc with resumeAt := nofun }
    unfold Machine.start
    dsimp only
    split
    · rename_i height _
      have h₂ := hI.keeps (Act.mirrors_prepareResume hI.mirror height v) h₁
      generalize (Act.prepareResume cx height v).run (w.modifyCtx cx _) = r at h₂ ⊢
      cases r <;> exact h₂
    · exact h₁

theorem Custom.reply (hI : Custom cx I) {n : Native} {site : Site} {r : Except Failure Reply}
    (hm : Steady ⟨w, waiting, .replied cx n site r⟩) (h : I w) :
    I (Machine.step .core ⟨w, waiting, .replied cx n site r⟩).world := by
  cases r with
  | error e =>
    cases site with
    | request => exact h
    | instruction base =>
      refine hI.edit h (.of_blind (fun _ _ _ => rfl) fun _ => ⟨rfl, rfl⟩) fun hc => { hc with resumeAt := ?_ }
      rintro _ ⟨⟩
      exact Nat.lt_of_lt_of_le hm.works.2.2.room hc.stack
  | ok reply =>
    cases reply with
    | done v =>
      cases site with
      | request =>
        exact hI.edit h (g := fun c => { c with stack := #[] })
          (.of_blind (fun _ _ _ => rfl) fun _ => ⟨rfl, rfl⟩) fun hc =>
          { hc with stack := Nat.zero_le _ }
      | instruction base =>
        have hx := hI.keeps (Act.mirrors_settle hI.mirror base v) h
        show I (Machine.settle w waiting cx (.instruction base) v).world
        unfold Machine.settle
        dsimp only
        generalize (do Act.cut cx base; Act.push cx v : Act Unit).run w = r at hx ⊢
        cases r <;> exact hx
    | run sub q wait =>
      show I (Machine.delegate w waiting cx n site sub q wait).world
      unfold Machine.delegate
      dsimp only
      split <;> exact h
    | halt => exact h

theorem Custom.step (hI : Custom cx I) {m : Machine} (hm : m.Steady) (hcx : m.active = some cx)
    (h : I m.world) : I (m.step .core).world := by
  obtain ⟨w, waiting, mode⟩ := m
  cases mode with
  | begin _ q =>
    obtain rfl := Option.some.inj hcx
    exact hI.begin h q
  | running _ =>
    obtain rfl := Option.some.inj hcx
    have hx := Act.mirrors_exec hI.mirror hI.core
    rw [Act.Outcome.leaves_self] at hx
    rw [Machine.world_exec]
    exact hI.keeps hx h
  | replied _ n site r =>
    obtain rfl := Option.some.inj hcx
    exact hI.reply hm h
  | ended _ r =>
    obtain rfl := Option.some.inj hcx
    rw [Machine.world_finish]
    exact hI.keeps (Act.mirrors_finish hI.mirror r) h
  | outcome r =>
    cases waiting with
    | nil => exact h
    | cons who waiting =>
      obtain rfl : who.cx = cx := Option.some.inj hcx
      show I (Machine.wake .core w waiting who r).world
      cases hb : Library.core.native who.native.name with
      | some b =>
        rw [Machine.world_wake hb]
        exact hI.keeps (hI.mirror.habit.resume hb who.native who.wait fun _ _ => trivial) h
      | none =>
        unfold Machine.wake
        rw [hb]
        exact h

end World

/-! ## deeds -/

namespace Host

variable {w : World} {cx : CtxId} {R : Rel} {I : World → Prop}

theorem mirrors_newNative (hR : Mirror cx R) (n : Native) : Act.Mirrors R (Act.newNative cx n) :=
  (Act.mirrors_alloc hR ..).bind fun _ => Act.mirrors_newFunc hR ..

theorem mirrors_addSym (hR : Mirror cx R) (ns : Value) (name : String) (v : Value) :
    Act.Mirrors R (Act.addSym ns name v) :=
  (Act.mirrors_intern hR _).bind fun _ => Act.mirrors_hashSet hR ..

/-- **A deed does the same** on engines that look the same. -/
theorem Deed.mirrors (hR : Mirror cx R) (hcore : Library.core.Mirrors cx R R) (d : Deed) :
    Act.Mirrors R (d.act cx) := by
  have hpinned {f : World → World} (hsame : ∀ (w : World) contexts freeContexts,
      f (w.shelve contexts freeContexts) = (f w).shelve contexts freeContexts)
      (hkept : ∀ w, f w = (f w).shelve w.contexts w.freeContexts ∧ (f w).options = w.options ∧
        (f w).stats = w.stats) : Act.Mirrors R (modify f : Act Unit) :=
    Act.mirrors_modify hR hsame (fun w => (hkept w).1) (fun w => (hkept w).2.1)
      fun w => congrArg Stats.collections (hkept w).2.2
  cases d with
  | newStr bs => exact (Act.mirrors_newStr hR bs).discard
  | newVec items => exact (Act.mirrors_newVec hR items).discard
  | newHash => exact (Act.mirrors_newHash hR).discard
  | newNative n => exact (mirrors_newNative hR n).discard
  | newGhost g => exact (Act.mirrors_alloc hR ..).discard
  | intern name => exact (Act.mirrors_intern hR name).discard
  | hashSet box key v => exact Act.mirrors_hashSet hR box key v
  | hashGet box key => exact (Act.mirrors_hashGet hR box key).discard
  | hashDelete box key => exact (Act.mirrors_hashDelete hR box key).discard
  | addSym ns name v => exact mirrors_addSym hR ns name v
  | register ns names =>
    exact Act.mirrors_forM (fun name => (mirrors_newNative hR _).bind fun f => mirrors_addSym hR ns name f) names
  | vecPush box item => exact (Act.mirrors_modifyVec hR box _).discard
  | vecSet box i item => exact (Act.mirrors_vecSet hR box i item).discard
  | member obj name =>
    exact Act.MirrorsTo.discard ((Act.mirrors_intern hR _).bind fun _ => (Act.mirrors_hashKey hR _).bind fun _ =>
      Act.mirrors_member hR hcore ..)
  | setMember obj name v =>
    exact (Act.mirrors_intern hR _).bind fun _ => (Act.mirrors_hashKey hR _).bind fun _ =>
      Act.mirrors_setMember hR hcore ..
  | extract box key => exact (Act.mirrors_extract hR box key).discard
  | insert box key v => exact Act.mirrors_insert hR box key v
  | compile src file firstLine => exact (Act.mirrors_compile hR src file firstLine).discard
  | bindFunction code ns => exact (hR.habit.bindFunction code ns).discard
  | bindToCaller code => exact (hR.habit.bindToCaller code).discard
  | subContext => exact hR.subContext.discard
  | freeChild => exact hR.freeChild
  | recordError e => exact Act.mirrors_error hR (some e)
  | keepTemp v => exact Act.mirrors_cache hR (·.push v) id
  | clearTemps => exact Act.mirrors_cache hR (fun _ => #[]) id
  | pin v => exact hpinned (fun _ _ _ => rfl) fun _ => ⟨rfl, rfl, rfl⟩
  | save v =>
    refine hpinned (fun w cs fs => ?_) fun w => ?_
    · show (World.save _ v).2 = _
      unfold World.save
      rw [show (w.shelve cs fs).savedFree = w.savedFree from rfl]
      cases w.savedFree.back? <;> rfl
    · unfold World.save
      split <;> exact ⟨rfl, rfl, rfl⟩
  | release key =>
    refine hpinned (fun w cs fs => ?_) fun w => ?_
    · unfold World.unsave
      rw [show (w.shelve cs fs).saved = w.saved from rfl]
      rcases w.saved[key]? with _ | _ | _ <;> rfl
    · unfold World.unsave
      split <;> exact ⟨rfl, rfl, rfl⟩
  | pause => exact Act.mirrors_then (Act.mirrors_leave hR) (Act.mirrors_enter hR)
  | collectNow => exact Act.mirrors_collectNow hR
  | collect => exact Act.mirrors_collect hR

end Host

namespace World

variable {w : World} {cx : CtxId} {I : World → Prop}

theorem Custom.deed (hI : Custom cx I) (d : Host.Deed) (h : I w) : I (World.after ((d.act cx).run w)) :=
  hI.keeps (Host.Deed.mirrors hI.mirror hI.core d) h

theorem Custom.after (hI : Custom cx I) (d : Host.Deed) (h : I w) : I (World.after ((d.act cx).run w)) := by
  have hd := hI.deed d h
  generalize (d.act cx).run w = r at hd ⊢
  cases r <;> exact hd

theorem Custom.offer (hI : Custom cx I) (func : Value) (args : Array Value) (me locals : Value) (h : I w) :
    I (World.after ((Host.offer cx func args me locals).run w)) :=
  hI.keeps ((Act.mirrors_prepareCall hI.mirror).bind fun _ =>
    Act.mirrors_forM (fun v => Act.mirrors_push hI.mirror v) _) h

end World

/-! ## moves of a host -/

namespace Machine

variable {m : Machine} {cx : CtxId}

/-- The context that the next step works on is in use. -/
theorem Steady.inUse (hm : m.Steady) (hcx : m.active = some cx) : m.world.InUse cx := by
  obtain ⟨w, waiting, mode⟩ := m
  have hused {outer : List CtxId} (hk : w.Kin) (hheld : w.Held outer) (hc : cx ∈ outer) : w.InUse cx :=
    ⟨(hheld.in_use hk hc).1, (hheld.in_use hk hc).2⟩
  have hworks := hm.works
  cases mode with
  | begin _ _ =>
    obtain rfl := Option.some.inj hcx
    exact hused hworks.1.kin hworks.2 List.mem_cons_self
  | running _ | replied _ _ _ _ | ended _ _ =>
    obtain rfl := Option.some.inj hcx
    exact hused hworks.1.kin hworks.1.chain List.mem_cons_self
  | outcome _ =>
    cases waiting with
    | nil => exact nomatch hcx
    | cons who waiting =>
      obtain rfl := Option.some.inj hcx
      exact hused hworks.kin hworks.chain List.mem_cons_self

theorem step_of_inactive (lib : Library) (h : m.active = none) : m.step lib = m := by
  obtain ⟨w, waiting, mode⟩ := m
  cases mode with
  | outcome _ =>
    cases waiting with
    | nil => rfl
    | cons _ _ => exact nomatch h
  | _ => exact nomatch h

end Machine

namespace Host

open World (Formal Custom)

variable {l : Matter} {s s' : State} {J : World → Prop}

/-- **A move of a host or of the machine** keeps what is about the contexts, provided that what is done
on any of them does, and making and dropping contexts. -/
theorem Move.keeps (h : Move l s s') (hs : s.Good) (hJ : Formal J)
    (hon : ∀ cx, s.world.InUse cx → ∃ I, Custom cx I ∧ I s.world ∧ ∀ w, I w → J w)
    (hnew : l = .made → J s.world.newContext.2)
    (hdrop : ∀ x, l = .dropped x → s.world.InUse x → s.world.Unlinked x → J (s.world.freeContext x))
    (h₀ : J s.world) : J s'.world := by
  have hdeed {w : World} {cx : CtxId} (d : Deed) (hx : ∃ I, Custom cx I ∧ I w ∧ ∀ w, I w → J w) :
      J (World.after ((d.act cx).run w)) := by
    obtain ⟨I, hI, hw, himp⟩ := hx
    exact himp _ (hI.after d hw)
  cases h with
  | tend hat h =>
    rw [hat.world]
    generalize s.world = w at *
    cases h with
    | newContext _ => exact hnew rfl
    | drop hx hroot _ => exact hdrop _ rfl hx hroot
    | enter _ => exact hJ.enter h₀
    | leave _ => exact hJ.leave h₀
    | @deed _ cx hcx _ d _ => exact hdeed d (hon cx hcx)
  | begin _ _ => exact h₀
  | step m =>
    cases hcx : m.active with
    | none =>
      rw [Machine.step_of_inactive _ hcx]
      exact h₀
    | some cx =>
      obtain ⟨I, hI, hw, himp⟩ := hon cx (hs.ready.1.inUse hcx)
      exact himp _ (hI.step hs.ready.1 hcx hw)
  | finish w r => exact h₀
  | @offer w w' waiting cx func args me locals n _ _ hrun =>
    obtain ⟨I, hI, hw, himp⟩ := hon cx (hs.ready.1.inUse rfl)
    have hoffer : J (World.after ((Host.offer cx func args me locals).run w)) := himp _ (hI.offer func args me locals hw)
    rw [hrun] at hoffer
    exact hoffer
  | @work w waiting cx n site r _ d _ => exact hdeed d (hon cx (hs.ready.1.inUse rfl))
  | visit _ _ _ _ => exact h₀
  | answer _ _ => exact h₀

end Host

end ScriptEngine
