import ScriptEngine.Proofs.Machine.Trails

/-!
# What a host does with an engine

Besides making contexts and having requests served, a host does one thing or another on a context:
it makes objects, stores and removes entries, compiles, pins values and collects.  It may hand over
any value that is live; what is used after an object has been made has to be kept by a root.

* `Host.Deed`          one thing done on a context;
* `Host.Deed.Fair`     what the host owes;
* `Host.Deed.calm`     no deed touches the stacks of the contexts at work;
* `Host.Deed.safe`     a deed leaves a sound engine behind;
* `Host.Deed.traced`   it goes by strokes.
-/

namespace ScriptEngine

/-! ## a new engine -/

namespace Heap

theorem body_new (poolBlock : Nat) (a : Addr) : (new poolBlock).body a = .free := by
  have hfold (ks : List Kind) (h : Heap) :
      (ks.foldl (fun h k => h.addBlock k (max poolBlock 1)) h).body a = h.body a := by
    induction ks generalizing h with
    | nil => rfl
    | cons k ks ih => exact (ih _).trans (body_addBlock h k _ a)
  exact hfold _ _

theorem consistent_new (poolBlock : Nat) : (new poolBlock).Consistent := by
  have hfree := body_new poolBlock
  refine ⟨fun a s h => ?_, fun name a h => ?_, fun a s h => ?_, fun a t h => ?_, fun a c h => ?_⟩
  · exact nomatch (hfree a).symm.trans h
  · rw [show (new poolBlock).symbols = {} from rfl, Std.HashMap.getElem?_empty] at h
    exact nomatch h
  · exact nomatch (hfree a).symm.trans h
  · exact nomatch (hfree a).symm.trans h
  · exact nomatch (hfree a).symm.trans h

end Heap

namespace World

theorem consistent_new (options : Options) : (World.new options).Consistent := by
  have hnew := (Heap.stocked_new options.poolBlock).1
  have hplaced := placed_new options
  have h₁ := hnew.intern (Bytes.ofString "me")
  have hc₁ := ((Heap.consistent_new options.poolBlock).intern hnew (Bytes.ofString "me")).1
  unfold World.new at hplaced ⊢
  dsimp only at hplaced ⊢
  generalize (Heap.new options.poolBlock).intern (Bytes.ofString "me") = r₁ at *
  have h₂ := h₁.stocked.intern (Bytes.ofString "arg")
  have hc₂ := (hc₁.intern h₁.stocked (Bytes.ofString "arg")).1
  generalize r₁.2.intern (Bytes.ofString "arg") = r₂ at *
  have h₃ := h₂.stocked.intern (Bytes.ofString "parents")
  have hc₃ := (hc₂.intern h₂.stocked (Bytes.ofString "parents")).1
  generalize r₂.2.intern (Bytes.ofString "parents") = r₃ at *
  refine ⟨hc₃, hplaced, h₃.old _ _ (h₂.old _ _ h₁.symbol), h₃.old _ _ h₂.symbol, h₃.symbol,
    fun cx f hf => absurd hf (Array.not_mem_empty f)⟩

end World

namespace Host

open Act (Safe Traced Plain Calm)
open World (Consistent Sound)

/-! ## deeds -/

/-- One thing a host does on a context. -/
inductive Deed where
  | newStr (bs : Bytes)
  | newVec (items : Array Value)
  | newHash
  | newNative (n : Native)
  | newGhost (g : Ghost)
  | intern (name : Bytes)
  | hashSet (box key v : Value)
  | hashGet (box key : Value)
  | hashDelete (box key : Value)
  | addSym (ns : Value) (name : String) (v : Value)
  | register (ns : Value) (names : List String)
  | vecPush (box item : Value)
  | vecSet (box : Value) (i : Nat) (item : Value)
  | member (obj : Value) (name : String)
  | setMember (obj : Value) (name : String) (v : Value)
  | extract (box key : Value)
  | insert (box key v : Value)
  | compile (src : Bytes) (file : String) (firstLine : Nat)
  | bindFunction (code ns : Value)
  | bindToCaller (code : Value)
  | subContext
  | freeChild
  | recordError (e : Failure)
  | keepTemp (v : Value)
  | clearTemps
  | pin (v : Value)
  | save (v : Value)
  | release (key : Nat)
  | pause
  | collectNow
  | collect

namespace Deed

/-- What is done, but for what it gives. -/
def act (cx : CtxId) : Deed → Act Unit
  | newStr bs => discard <| Act.newStr cx bs
  | newVec items => discard <| Act.newVec cx items
  | newHash => discard <| Act.newHash cx
  | newNative n => discard <| Act.newNative cx n
  | newGhost g => discard <| Act.newGhost cx g
  | intern name => discard <| Act.intern name
  | hashSet box key v => Act.hashSet box key v
  | hashGet box key => discard <| Act.hashGet box key
  | hashDelete box key => discard <| Act.hashDelete box key
  | addSym ns name v => Act.addSym ns name v
  | register ns names => Act.register cx ns names
  | vecPush box item => discard <| Act.vecPush box item
  | vecSet box i item => discard <| Act.vecSet box i item
  | member obj name => discard <| Act.memberNamed .core cx obj name
  | setMember obj name v => Act.setMemberNamed .core cx obj name v
  | extract box key => discard <| Act.extract box key
  | insert box key v => Act.insert box key v
  | compile src file firstLine => discard <| Act.compile cx src file firstLine
  | bindFunction code ns => discard <| Act.bindFunction cx code ns
  | bindToCaller code => discard <| Act.bindToCaller cx code
  | subContext => discard <| Act.subContext cx
  | freeChild => Act.freeChild cx
  | recordError e => Act.modifyCtx cx fun c => { c with error := some e }
  | keepTemp v => Act.modifyCtx cx fun c => { c with temps := c.temps.push v }
  | clearTemps => Act.modifyCtx cx fun c => { c with temps := #[] }
  | pin v => modify fun w => w.pin v
  | save v => modify fun w => (w.save v).2
  | release key => modify fun w => w.unsave key
  | pause => Act.pause
  | collectNow => modify World.collectNow
  | collect => modify World.collect

/-- A host may do this: what comes to be stored or read is live, and what is used after an object has
been made is kept by a root. -/
def Fair (w : World) : Deed → Prop
  | newVec items => ∀ v ∈ items, w.heap.Live v
  | hashSet _ key v | insert _ key v => w.heap.Live key ∧ w.heap.Live v
  | addSym _ _ v | setMember _ _ v => w.heap.Live v
  | vecPush _ item | vecSet _ _ item => w.heap.Live item
  | member obj _ => w.heap.Live obj
  | extract box _ => w.heap.Live box
  | bindFunction code ns => w.Kept code ∧ w.heap.Live ns
  | bindToCaller code => w.Kept code
  | recordError e => w.heap.Live e.value
  | keepTemp v | pin v | save v => w.heap.Live v
  | _ => True

end Deed

section

variable {w w' : World} {cx : CtxId} {outer : List CtxId} {used : CtxId → Prop} {d : Deed}

/-! ### deeds leave the stacks alone -/

theorem calm_newNative (n : Native) : Calm (cx :: outer) (Act.newNative cx n) :=
  Calm.bind (Act.calm_alloc .native trivial) fun _ => Act.calm_newFunc ..

theorem calm_addSym (ns : Value) (name : String) (v : Value) : Calm (cx :: outer) (Act.addSym ns name v) :=
  (Act.calm_intern _).bind fun _ => Act.calm_hashSet ..

theorem Deed.calm (d : Deed) : Calm (cx :: outer) (d.act cx) := by
  have hpinned {f : World → World} (hf : ∀ w : World, (f w).contexts = w.contexts ∧
      (f w).freeContexts = w.freeContexts ∧ (f w).heap = w.heap ∧ (f w).options = w.options) :
      Calm (cx :: outer) (modify f : Act Unit) := Act.calm_modify fun w =>
    .of_eq (hf w).1 (hf w).2.1 (hf w).2.2.2 ((hf w).2.2.1 ▸ fun h => h)
  have htouch {f : Context → Context} (hf : ∀ c, (f c).bare = c.bare) :
      Calm (cx :: outer) (Act.modifyCtx cx f) := Act.calm_modify fun w => World.still_modifyCtx cx hf
  cases d with
  | newStr bs => exact (Act.calm_newStr bs).discard
  | newVec items => exact (Act.calm_newVec items).discard
  | newHash => exact Act.calm_newHash.discard
  | newNative n => exact (calm_newNative n).discard
  | newGhost g => exact Calm.discard (Act.calm_alloc .ghost trivial)
  | intern name => exact (Act.calm_intern name).discard
  | hashSet box key v => exact Act.calm_hashSet box key v
  | hashGet box key => exact (Act.calm_hashGet box key).discard
  | hashDelete box key => exact (Act.calm_hashDelete box key).discard
  | addSym ns name v => exact calm_addSym ns name v
  | register ns names =>
    exact Act.calm_forM (fun name => (calm_newNative _).bind fun f => calm_addSym ns name f) names
  | vecPush box item => exact (Act.calm_modifyVec box _).discard
  | vecSet box i item => exact (Act.calm_vecSet box i item).discard
  | member obj name =>
    exact Calm.discard ((Act.calm_intern _).bind fun _ => (Act.calm_hashKey _).bind fun _ =>
      Act.calm_member Library.calm_core ..)
  | setMember obj name v =>
    exact (Act.calm_intern _).bind fun _ => (Act.calm_hashKey _).bind fun _ =>
      Act.calm_setMember Library.calm_core ..
  | extract box key => exact (Act.calm_extract box key).discard
  | insert box key v => exact Act.calm_insert box key v
  | compile src file firstLine => exact (Act.calm_compile src file firstLine).discard
  | bindFunction code ns => exact ((habit_calm cx outer).bindFunction code ns).discard
  | bindToCaller code => exact ((habit_calm cx outer).bindToCaller code).discard
  | subContext => exact Act.calm_subContext.discard
  | freeChild => exact Act.calm_freeChild
  | recordError e | keepTemp v | clearTemps => exact htouch fun _ => rfl
  | pin v => exact hpinned fun _ => ⟨rfl, rfl, rfl, rfl⟩
  | save v => exact hpinned fun w => by unfold World.save; split <;> exact ⟨rfl, rfl, rfl, rfl⟩
  | release key => exact hpinned fun w => by unfold World.unsave; split <;> exact ⟨rfl, rfl, rfl, rfl⟩
  | pause => exact Act.calm_modify fun w => (World.still_leave w).trans (World.still_enter _)
  | collectNow => exact Act.calm_modify World.still_collectNow
  | collect => exact Act.calm_modify World.still_collect

/-! ### deeds with live values -/

/-- What is pinned changes, by a live value at most. -/
theorem sound_pinned (hs : w.Sound used) (hh : w'.heap = w.heap) (hctx : w'.contexts = w.contexts)
    (hfree : w'.freeContexts = w.freeContexts)
    (hp : ∀ v ∈ w'.pinned, v ∈ w.pinned ∨ w.heap.Live v) : w'.Sound used := by
  have hc (c : CtxId) : w'.ctx c = w.ctx c := by rw [World.ctx, World.ctx, hctx]
  refine ⟨?_, fun v hv => ?_, fun c hu => hctx ▸ hs.known c hu,
    fun c hu => hctx ▸ hs.spare c (hfree ▸ hu), fun c child hu => hctx ▸ hs.linked c child (hc c ▸ hu),
    fun c hu f hf => hh ▸ hs.framed c hu f (hc c ▸ hf)⟩
  · rw [World.cached, hh, hctx]
    exact hs.stocked
  · rw [hh]
    rcases World.mem_liveRoots.mp hv with ⟨c, hv⟩ | hv
    · exact hs.live v (World.mem_liveRoots.mpr (.inl ⟨c, hc c ▸ hv⟩))
    · exact (hp v hv).elim (fun hv => hs.live v (World.mem_liveRoots.mpr (.inr hv))) fun hv => hv

theorem sound_pin (hs : w.Sound used) {v : Value} (hv : w.heap.Live v) : (w.pin v).Sound used := by
  refine sound_pinned hs rfl rfl rfl fun u hu => ?_
  simp only [World.pinned, World.pin, Array.toList_push, List.mem_append, List.mem_singleton] at hu ⊢
  rcases hu with (((hu | rfl) | hu) | hu) | hu
  · exact .inl (.inl (.inl (.inl hu)))
  · exact .inr hv
  · exact .inl (.inl (.inl (.inr hu)))
  · exact .inl (.inl (.inr hu))
  · exact .inl (.inr hu)

/-- What is saved changes, by a live value at most. -/
theorem sound_saved (hs : w.Sound used) {saved : Array (Option Value)} (savedFree : Array Nat)
    (hp : ∀ v, some v ∈ saved → some v ∈ w.saved ∨ w.heap.Live v) :
    World.Sound used { w with saved, savedFree } := by
  refine sound_pinned hs rfl rfl rfl fun u hu => ?_
  have hsaved (l : Array (Option Value)) : u ∈ l.toList.filterMap id ↔ some u ∈ l := by
    simp only [List.mem_filterMap, id_eq, exists_eq_right, Array.mem_toList_iff]
  simp only [World.pinned, List.mem_append, hsaved] at hu ⊢
  rcases hu with ((hu | hu) | hu) | hu
  · exact .inl (.inl (.inl (.inl hu)))
  · exact (hp u hu).imp_left fun h => .inl (.inl (.inr h))
  · exact .inl (.inl (.inr hu))
  · exact .inl (.inr hu)

theorem sound_save (hs : w.Sound used) {v : Value} (hv : w.heap.Live v) :
    (w.save v).2.Sound used := by
  unfold World.save
  split
  · refine sound_saved hs _ fun u hu => ?_
    refine (Array.mem_or_eq_of_mem_setIfInBounds hu).imp_right ?_
    rintro ⟨⟩
    exact hv
  · refine sound_saved hs _ fun u hu => ?_
    refine (Array.mem_push.mp hu).imp_right ?_
    rintro ⟨⟩
    exact hv

theorem sound_unsave (hs : w.Sound used) (key : Nat) : (w.unsave key).Sound used := by
  unfold World.unsave
  split
  · refine sound_saved hs _ fun u hu => ?_
    exact (Array.mem_or_eq_of_mem_setIfInBounds hu).imp_right nofun
  · exact hs

theorem sound_collectNow (hs : w.Sound used) : w.collectNow.Sound used := by
  unfold World.collectNow
  split
  · exact (hs.alike_serve (by constructor <;> rfl)).1
  · exact (hs.alike (by constructor <;> rfl)).1

theorem sound_collect (hs : w.Sound used) : w.collect.Sound used := by
  unfold World.collect
  split
  · exact (hs.alike (by constructor <;> rfl)).1
  · exact (sound_collectNow hs.enter.1).leave.1

theorem sound_keep (hs : w.Sound used) (hcx : used cx) {f : Context → Context} {u : Value}
    (hu : w.heap.Live u) (hcache : ∀ c, (f c).cache = c.cache) (hchild : ∀ c, (f c).child = c.child)
    (hframes : ∀ c, (f c).frames = c.frames)
    (hroots : ∀ c, ∀ v ∈ (f c).roots, v ∈ c.roots ∨ v = u) : (w.modifyCtx cx f).Sound used :=
  hs.changeCtx (hs.known cx hcx) (hcache _) (hchild _)
    (fun v hv => (hroots _ v hv).imp_right fun (e : v = u) => e ▸ hu) fun _ _ hg =>
      .inl (hframes _ ▸ hg)

theorem safe_newNative (hs : w.Sound used) (hcx : used cx) (n : Native) :
    Safe used (fun v w' => w.Extends w' ∧ w'.heap.Live v) ((Act.newNative cx n).run w) := by
  refine Safe.bind (Act.safe_alloc hs hcx .native (b := .native n) Body.noConfusion fun _ h => nomatch h)
    fun target w₁ hs₁ ⟨he₁, _, ht⟩ => ?_
  refine Safe.after (Act.safe_newFunc hs₁ hcx (hs₁.live_kept (World.kept_of_temps ht)) Heap.live_nil)
    fun v w₂ hs₂ ⟨he₂, _, hv⟩ => ?_
  exact ⟨he₁.trans he₂, hs₂.live_kept (World.kept_of_temps hv)⟩

theorem safe_addSym (hs : w.Sound used) (ns : Value) (name : String) {v : Value}
    (hv : w.heap.Live v) :
    Safe used (fun _ w' => w.Extends w') ((Act.addSym ns name v).run w) := by
  refine (Act.safe_intern hs _).bind fun sym w₁ hs₁ ⟨he, hsym, hlive⟩ => ?_
  exact (Act.safe_hashSet hs₁ ns (hs₁.live_kept hsym) (hlive v hv)).mono fun _ _ h => he.trans h.1

theorem Deed.safe (hs : w.Sound used) (hcx : used cx) (hd : d.Fair w) :
    Safe used (fun _ _ => True) ((d.act cx).run w) := by
  have hdone {α : Type} {ok : α → World → Prop} {x : Act α} (hx : Safe used ok (x.run w)) :
      Safe used (fun _ _ => True) ((discard x : Act Unit).run w) :=
    (hx.mono fun _ _ _ => trivial).discard
  have hany {w : World} {ok : Unit → World → Prop} {x : Act Unit} (hx : Safe used ok (x.run w)) :
      Safe used (fun _ _ => True) (x.run w) := hx.mono fun _ _ _ => trivial
  cases d with
  | newStr bs => exact hdone (Act.safe_newStr hs hcx bs)
  | newVec items => exact hdone (Act.safe_newVec hs hcx hd)
  | newHash => exact hdone (Act.safe_newHash hs hcx)
  | newNative n => exact hdone (safe_newNative hs hcx n)
  | newGhost g =>
    exact hdone (Act.safe_alloc hs hcx .ghost (b := .ghost g) Body.noConfusion fun _ h => nomatch h)
  | intern name => exact hdone (Act.safe_intern hs name)
  | hashSet box key v => exact hany (Act.safe_hashSet hs box hd.1 hd.2)
  | hashGet box key => exact hdone (Act.safe_hashGet hs box key)
  | hashDelete box key => exact hdone (Act.safe_hashDelete hs box key)
  | addSym ns name v => exact hany (safe_addSym hs ns name hd)
  | register ns names =>
    refine hany (Act.safe_forM hs (World.Extends.refl w) fun name _ w' hs' he => ?_)
    refine (safe_newNative hs' hcx _).bind fun f w₁ hs₁ ⟨he₁, hf⟩ => ?_
    exact (safe_addSym hs₁ ns name hf).mono fun _ _ h => (he.trans he₁).trans h
  | vecPush box item => exact hdone (Act.safe_vecPush hs box hd)
  | vecSet box i item => exact hdone (Act.safe_vecSet hs box i hd)
  | member obj name =>
    refine Safe.discard ((Act.safe_intern hs _).bind fun sym w₁ hs₁ ⟨_, _, h₁⟩ => ?_)
    refine (Act.safe_hashKey hs₁ sym).bind fun p w₂ hs₂ ⟨_, h₂, _⟩ => ?_
    exact (Act.safe_member hs₂ (h₂ obj (h₁ obj hd)) sym p.1 p.2).mono fun _ _ _ => trivial
  | setMember obj name v =>
    refine (Act.safe_intern hs _).bind fun sym w₁ hs₁ ⟨_, hsym, h₁⟩ => ?_
    refine (Act.safe_hashKey hs₁ sym).bind fun p w₂ hs₂ ⟨he₂, h₂, _⟩ => ?_
    have hsym₂ := hs₂.live_kept (he₂.kept hsym)
    exact hany (Act.safe_setMember hs₂ obj p.1 p.2 hsym₂ (h₂ v (h₁ v hd)))
  | extract box key => exact hdone (Act.safe_extract hs hd key)
  | insert box key v => exact hany (Act.safe_insert hs box hd.1 hd.2)
  | compile src file firstLine => exact hdone (Act.safe_compile hs hcx src file firstLine)
  | bindFunction code ns =>
    refine Safe.discard ?_
    show Safe used _ ((ite _ _ _ : Act Value).run w)
    split
    · exact Act.safe_fail_bind hs _
    · show Safe used _ ((ite _ _ _ : Act Value).run w)
      split
      · exact Act.safe_fail_bind hs _
      · exact (Act.safe_bindTo hs hcx hd.1 hd.2 Heap.live_nil).mono fun _ _ _ => trivial
  | bindToCaller code => exact hdone (Act.safe_bindToCaller hs hcx hd)
  | subContext => exact hdone (Act.safe_subContext hs cx)
  | freeChild => exact hany (Act.safe_freeChild hs cx)
  | recordError e =>
    refine .done (sound_keep hs hcx hd (fun _ => rfl) (fun _ => rfl) (fun _ => rfl) fun c v hv => ?_) trivial
    rw [Context.mem_roots] at hv ⊢
    rcases hv with hv | hv | hv | ⟨_, ⟨⟩, rfl⟩
    · exact .inl (.inl hv)
    · exact .inl (.inr (.inl hv))
    · exact .inl (.inr (.inr (.inl hv)))
    · exact .inr rfl
  | keepTemp u =>
    refine .done (sound_keep hs hcx hd (fun _ => rfl) (fun _ => rfl) (fun _ => rfl) fun c v hv => ?_) trivial
    rw [Context.mem_roots] at hv ⊢
    rcases hv with hv | hv | hv
    · exact .inl (.inl hv)
    · exact (Array.mem_push.mp hv).imp_left fun hv => .inr (.inl hv)
    · exact .inl (.inr (.inr hv))
  | clearTemps => exact .done (Act.sound_dropTemps hs hcx) trivial
  | pin v => exact .done (sound_pin hs hd) trivial
  | save v => exact .done (sound_save hs hd) trivial
  | release key => exact .done (sound_unsave hs key) trivial
  | pause => exact .done (hs.leave.1.enter).1 trivial
  | collectNow => exact .done (sound_collectNow hs) trivial
  | collect => exact .done (sound_collect hs) trivial

/-! ### deeds by strokes -/

/-- Storing under a name that has just been registered. -/
theorem traced_setMemberNamed (hc : w.Consistent) (obj : Value) (name : String) (v : Value) :
    Traced w (fun _ _ => True) ((Act.setMemberNamed .core cx obj name v).run w) := by
  refine (Act.traced_intern hc _).bind fun sym w₁ h₁ ⟨a, hsym, ha⟩ => ?_
  subst hsym
  have hc₁ := h₁.consistent hc
  refine (Act.traced_hashKey fun b e => (hc₁.heap.frozen_name ha b e).1).bind
    fun p w₂ h₂ ⟨hp, hkey⟩ => ?_
  unfold Act.setMember
  rw [Act.run_heap_bind]
  split
  · exact Act.traced_setHashed (h₂.consistent hc₁) obj v hkey hp
  · exact Act.traced_fail
  · exact Act.traced_fail

theorem Deed.traced (hc : w.Consistent) (hs : w.Sound used) (hcx : used cx) (hd : d.Fair w) :
    Traced w (fun _ _ => True) ((d.act cx).run w) := by
  have hplain {α : Type} {x : Act α} (hx : Plain x) :
      Traced w (fun _ _ => True) ((discard x : Act Unit).run w) := hx.discard.traced w hc
  have hpinned {f : World → World} (hf : (f w).heap = w.heap ∧ (f w).contexts = w.contexts ∧
      (f w).symMe = w.symMe ∧ (f w).symArg = w.symArg ∧ (f w).symParents = w.symParents) :
      Traced w (fun _ _ => True) ((modify f : Act Unit).run w) :=
    .done (World.along_of_eq hf.1 hf.2.1 hf.2.2) trivial
  have htouch {f : Context → Context} (hcache : ∀ c, (f c).cache = c.cache)
      (hframes : ∀ c, (f c).frames = c.frames) :
      Traced w (fun _ _ => True) ((Act.modifyCtx cx f).run w) :=
    (Act.plain_touch hcache hframes).traced w hc
  cases d with
  | newStr bs => exact hplain (Act.plain_newStr bs)
  | newVec items => exact hplain (Act.plain_newVec items)
  | newHash => exact hplain Act.plain_newHash
  | newNative n => exact hplain (Act.plain_newNative n)
  | newGhost g => exact hplain (Act.plain_newGhost g)
  | intern name => exact hplain (Act.plain_intern name)
  | hashSet box key v =>
    exact Act.traced_hashSet hc box v (Act.live_ne hd.1)
  | hashGet box key => exact hplain (Act.plain_hashGet box key)
  | hashDelete box key => exact hplain (Act.plain_hashDelete box key)
  | addSym ns name v => exact (Act.plain_addSym ns name v).traced w hc
  | register ns names =>
    exact (Act.plain_forM (fun name => (Act.plain_newNative _).bind fun f =>
      Act.plain_addSym ns name f) names).traced w hc
  | vecPush box item => exact hplain (Act.plain_vecPush box item)
  | vecSet box i item => exact hplain (Act.plain_vecSet box i item)
  | member obj name =>
    exact hplain ((Act.plain_intern _).bind fun _ => (Act.plain_hashKey _).bind fun _ =>
      Act.plain_member ..)
  | setMember obj name v => exact traced_setMemberNamed hc obj name v
  | extract box key => exact hplain (Act.plain_extract box key)
  | insert box key v => exact (Act.plain_insert box key v).traced w hc
  | compile src file firstLine => exact hplain (Act.plain_compile src file firstLine)
  | bindFunction code ns =>
    exact (Act.traced_bindFunction hc hs hcx code hd.2).next hc fun _ => Act.plain_pure _
  | bindToCaller code => exact (Act.traced_bindToCaller hc hs hcx code).next hc fun _ => Act.plain_pure _
  | subContext => exact hplain Act.plain_subContext
  | freeChild => exact Act.plain_freeChild.traced w hc
  | recordError e | keepTemp v | clearTemps => exact htouch (fun _ => rfl) fun _ => rfl
  | pin v => exact hpinned ⟨rfl, rfl, rfl, rfl, rfl⟩
  | save v => exact hpinned (by unfold World.save; split <;> exact ⟨rfl, rfl, rfl, rfl, rfl⟩)
  | release key =>
    exact hpinned (by unfold World.unsave; split <;> exact ⟨rfl, rfl, rfl, rfl, rfl⟩)
  | pause => exact .done ((World.along_leave w).trans (World.along_enter _)) trivial
  | collectNow => exact .done (World.along_collectNow w) trivial
  | collect => exact .done (World.along_collect w) trivial

end

end Host

end ScriptEngine
