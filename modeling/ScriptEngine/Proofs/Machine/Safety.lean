import ScriptEngine.Machine.Call
import ScriptEngine.Proofs.Heap.Objects
import ScriptEngine.Proofs.Machine.Allocation
import ScriptEngine.Proofs.Runs

/-!
# Activities that leave no stale value behind

`Act.Safe` says of what an activity has led to that the engine is sound, and that the value of a
failure is live.  Every activity of the machine is followed from its start, where it holds live or
kept values, to its end; the lemmas here are the steps on that way.

* `Act.Safe.bind`       one activity after the other;
* `Act.safe_alloc`      making objects;
* `Act.safe_setHashed`, `Act.safe_hashSet`, `Act.safe_modifyVec`   changing them;
* `Act.safe_push`, `Act.safe_cut`   operands;
* `Act.safe_bindArgs`, `Act.safe_bindNamed`   binding arguments.
-/

namespace ScriptEngine.Act

open World (Sound Extends Kept kept_of_ctx kept_of_stack kept_of_temps kept_of_frame)

/-- What an activity has led to: a sound engine, with `ok` for what it gives or with a failure
whose value is live. -/
inductive Safe {α : Type} (used : CtxId → Prop) (ok : α → World → Prop) :
    EStateM.Result Failure World α → Prop
  | done {a : α} {w : World} (hs : w.Sound used) (ha : ok a w) : Safe used ok (.ok a w)
  | failed {e : Failure} {w : World} (hs : w.Sound used) (he : w.heap.Live e.value) :
    Safe used ok (.error e w)

section

variable {α β : Type} {used : CtxId → Prop} {w : World} {ok : α → World → Prop}

theorem Safe.bind {P : α → World → Prop} {after : β → World → Prop} {x : Act α} {f : α → Act β}
    (hx : Safe used P (x.run w))
    (hf : ∀ a w', w'.Sound used → P a w' → Safe used after ((f a).run w')) :
    Safe used after ((x >>= f).run w) := by
  have hx' : Safe used P (x w) := hx
  show Safe used after (EStateM.bind x f w)
  rw [EStateM.bind]
  cases hr : x w with
  | ok a w' =>
    rw [hr] at hx'
    cases hx' with
    | done hs ha => exact hf a w' hs ha
  | error e w' =>
    rw [hr] at hx'
    cases hx' with
    | failed hs he => exact .failed hs he

theorem Safe.mono {mid : α → World → Prop} {r : EStateM.Result Failure World α}
    (hr : Safe used mid r) (h : ∀ a w', mid a w' → ok a w') : Safe used ok r := by
  cases hr with
  | done hs ha => exact .done hs (h _ _ ha)
  | failed hs he => exact .failed hs he

/-- A weakening that may use that the engine is sound. -/
theorem Safe.after {mid : α → World → Prop} {r : EStateM.Result Failure World α}
    (hr : Safe used mid r) (h : ∀ a w', w'.Sound used → mid a w' → ok a w') : Safe used ok r := by
  cases hr with
  | done hs ha => exact .done hs (h _ _ hs ha)
  | failed hs he => exact .failed hs he

theorem safe_pure (hs : w.Sound used) {a : α} (h : ok a w) :
    Safe used ok ((pure a : Act α).run w) := .done hs h

theorem safe_fail (hs : w.Sound used) (c : Cause) : Safe used ok ((fail c : Act α).run w) :=
  .failed hs Heap.live_nil

theorem safe_fail_bind (hs : w.Sound used) (c : Cause) {f : β → Act α} :
    Safe used ok ((fail c >>= f).run w) := .failed hs Heap.live_nil

/-- A reading that gives its result in the state it is made in. -/
theorem safe_ofExcept (hs : w.Sound used) {r : Except Cause α}
    (h : ∀ a, r = .ok a → ok a w) : Safe used ok ((ofExcept r).run w) := by
  cases r with
  | ok a => exact safe_pure hs (h a rfl)
  | error c => exact safe_fail hs c

theorem safe_check (hs : w.Sound used) {r : Except Cause β} {f : β → Act α}
    (h : ∀ b, r = .ok b → Safe used ok ((f b).run w)) :
    Safe used ok ((ofExcept r >>= f).run w) := by
  cases r with
  | ok b => exact h b rfl
  | error c => exact safe_fail_bind hs c

theorem safe_heap {f : Heap → Act α} (h : Safe used ok ((f w.heap).run w)) :
    Safe used ok ((heap >>= f).run w) := h

theorem safe_update {f : World → World} (hs : (f w).Sound used) :
    Safe used (fun _ w' => w' = f w) ((modify f : Act Unit).run w) := .done hs rfl

theorem Safe.discard {P : World → Prop} {x : Act α} (hx : Safe used (fun _ w' => P w') (x.run w)) :
    Safe used (fun _ w' => P w') ((discard x : Act PUnit).run w) := by
  have hx' : Safe used (fun _ w' => P w') (x w) := hx
  show Safe used _ (EStateM.map (fun _ => PUnit.unit) x w)
  rw [EStateM.map]
  cases hr : x w with
  | ok a w' =>
    rw [hr] at hx'
    cases hx' with
    | done hs ha => exact .done hs ha
  | error e w' =>
    rw [hr] at hx'
    cases hx' with
    | failed hs he => exact .failed hs he

theorem safe_read (hs : w.Sound used) {f : Heap → Except Cause α} :
    Safe used (fun a w' => w' = w ∧ f w.heap = .ok a) ((read f).run w) :=
  safe_ofExcept hs fun _ h => ⟨rfl, h⟩

end

/-! ## objects -/

section

variable {used : CtxId → Prop} {w : World} {cx : CtxId}

theorem safe_alloc (hs : w.Sound used) (hcx : used cx) (k : Kind) {b : Body} (hne : b ≠ .free)
    (hb : ∀ c ∈ b.children, w.heap.Live c) :
    Safe used (fun v w' => w.Extends w' ∧ w'.heap.bodyOf v = b ∧ v ∈ (w'.ctx cx).temps)
      ((alloc cx k b).run w) := by
  obtain ⟨a, ha, hm⟩ := hs.alloc (hs.known cx hcx) k hne hb
  show Safe used _ (.ok (w.alloc cx k b).1 (w.alloc cx k b).2)
  rw [ha]
  exact .done hm.sound ⟨hm.later, hm.body, hm.temps⟩

theorem safe_newStr (hs : w.Sound used) (hcx : used cx) (bs : Bytes) :
    Safe used (fun v w' => w.Extends w' ∧ v ∈ (w'.ctx cx).temps) ((newStr cx bs).run w) :=
  (safe_alloc hs hcx .str (b := .str (.ofBytes bs)) Body.noConfusion fun _ hc => nomatch hc).mono
    fun _ _ h => ⟨h.1, h.2.2⟩

theorem safe_newVec (hs : w.Sound used) (hcx : used cx) {items : Array Value}
    (hi : ∀ v ∈ items, w.heap.Live v) :
    Safe used (fun v w' => w.Extends w' ∧ v ∈ (w'.ctx cx).temps) ((newVec cx items).run w) :=
  (safe_alloc hs hcx .vec (b := .vec items) Body.noConfusion fun _ hc => hi _ (Array.mem_toList_iff.mp hc)).mono
    fun _ _ h => ⟨h.1, h.2.2⟩

theorem safe_newHash (hs : w.Sound used) (hcx : used cx) :
    Safe used (fun v w' => w.Extends w' ∧ w'.heap.bodyOf v = .hash .empty ∧ v ∈ (w'.ctx cx).temps)
      ((newHash cx).run w) :=
  safe_alloc hs hcx .hash Body.noConfusion fun _ hc => nomatch hc

theorem safe_newClosure (hs : w.Sound used) (hcx : used cx) {ns next : Value}
    (hns : w.heap.Live ns) (hnext : w.heap.Live next) :
    Safe used (fun v w' => w.Extends w' ∧ v ∈ (w'.ctx cx).temps)
      ((newClosure cx ns next).run w) := by
  refine (safe_alloc hs hcx .closure Body.noConfusion fun c hc => ?_).mono
    fun _ _ h => ⟨h.1, h.2.2⟩
  rcases List.mem_pair.mp hc with rfl | rfl
  · exact hns
  · exact hnext

theorem safe_newFunc (hs : w.Sound used) (hcx : used cx) {target scope : Value}
    (ht : w.heap.Live target) (hscope : w.heap.Live scope) :
    Safe used (fun v w' => w.Extends w' ∧ w'.heap.bodyOf v = .func target scope ∧
        v ∈ (w'.ctx cx).temps)
      ((newFunc cx target scope).run w) := by
  refine safe_alloc hs hcx .func Body.noConfusion fun c hc => ?_
  rcases List.mem_pair.mp hc with rfl | rfl
  · exact ht
  · exact hscope

theorem safe_intern (hs : w.Sound used) (name : Bytes) :
    Safe used (fun v w' => w.Extends w' ∧ w'.Kept v ∧ ∀ u, w.heap.Live u → w'.heap.Live u)
      ((intern name).run w) := by
  obtain ⟨h1, h2, h3, h4⟩ := hs.intern name
  exact .done h1 ⟨h2, .root (World.mem_liveRoots.mpr (.inr h3)), h4⟩

/-! ## tables and vectors -/

/-- A change of one object, which writes live values only, and of no object that never changes. -/
theorem safe_modify (hs : w.Sound used) {a : Addr} {f : Body → Body}
    (ha : w.heap.body a ≠ .free) (hfix : ¬(w.heap.body a).Fixed)
    (hf : f (w.heap.body a) ≠ .free ∧
      ∀ c ∈ (f (w.heap.body a)).children, c ∈ (w.heap.body a).children ∨ w.heap.Live c) :
    { w with heap := w.heap.modify a f }.Sound used ∧
      w.Extends { w with heap := w.heap.modify a f } ∧
      ∀ v, w.heap.Live v → (w.heap.modify a f).Live v := by
  have hlive (v : Value) (hv : w.heap.Live v) : (w.heap.modify a f).Live v :=
    hv.modify fun _ => hf
  obtain ⟨h1, h2⟩ := hs.withHeap (hs.stocked.modify ha f) hlive
    (fun b _ hb => Heap.body_modify_of_ne _ (by rintro rfl; exact hfix hb) f) rfl
  exact ⟨h1, h2, hlive⟩

/-- Taking the hash of a key freezes a string at most. -/
theorem safe_hashKey (hs : w.Sound used) (key : Value) :
    Safe used (fun _ w' => w.Extends w' ∧ (∀ v, w.heap.Live v → w'.heap.Live v) ∧
        ∀ b t, w.heap.body b = .hash t → w'.heap.body b = .hash t)
      ((hashKey key).run w) := by
  have hrun : (hashKey key).run w
      = .ok (w.heap.keyHash key) { w with heap := w.heap.freeze key } := rfl
  rw [hrun]
  unfold Heap.freeze
  split
  · rename_i a
    split
    · rename_i s hbody
      split
      · exact .done hs ⟨.refl w, fun _ hv => hv, fun _ _ h => h⟩
      · have hne : w.heap.body a ≠ .free := by
          rw [hbody]
          exact Body.noConfusion
        have hfix : ¬(w.heap.body a).Fixed := by
          rw [hbody]
          exact fun h => h
        obtain ⟨h1, h2, h3⟩ := safe_modify hs (f := fun _ => .str s.freeze) hne hfix
          ⟨Body.noConfusion, fun _ hc => nomatch hc⟩
        refine .done h1 ⟨h2, h3, fun b t hb => ?_⟩
        have hab : a ≠ b := by
          rintro rfl
          rw [hbody] at hb
          exact nomatch hb
        exact (Heap.body_modify_of_ne _ hab _).trans hb
    · exact .done hs ⟨.refl w, fun _ hv => hv, fun _ _ h => h⟩
  · exact .done hs ⟨.refl w, fun _ hv => hv, fun _ _ h => h⟩

/-- The kept hashes other than `box` are as they were. -/
def Aside (box : Value) (w w' : World) : Prop :=
  ∀ b t, w.Kept (.obj b) → w.heap.body b = .hash t → .obj b ≠ box → w'.heap.body b = .hash t

theorem Aside.trans {box : Value} {w w' w'' : World} (he : w.Extends w') (h : Aside box w w')
    (h' : Aside box w' w'') : Aside box w w'' :=
  fun b t hk hb hne => h' b t (he.kept hk) (h b t hk hb hne) hne

theorem safe_retire (hs : w.Sound used) :
    Safe used (fun _ w' => w.Extends w' ∧ ∀ b, w.Kept (.obj b) → w'.heap.body b = w.heap.body b)
      (retire.run w) :=
  .done hs.retire.1 ⟨hs.retire.2, fun _ hb => hs.body_retire hb⟩

/-- An entry with a live key and a live value. -/
theorem sound_store (hs : w.Sound used) (box : Value) {key v : Value} (hash : UInt32)
    (interned : Bool) (hkey : w.heap.Live key) (hv : w.heap.Live v) :
    { w with heap := (w.heap.store box key hash interned v).2 }.Sound used ∧
      w.Extends { w with heap := (w.heap.store box key hash interned v).2 } ∧
      Aside box w { w with heap := (w.heap.store box key hash interned v).2 } := by
  have hlive (u : Value) (hu : w.heap.Live u) :
      (w.heap.store box key hash interned v).2.Live u := hkey.store hv hu
  rcases Heap.store_cases w.heap box key hash interned v with e | ⟨a, t, found, rfl, hb, e⟩
  · rw [e]
    exact ⟨hs, .refl w, fun _ _ _ h _ => h⟩
  · have hne : w.heap.body a ≠ .free := by
      rw [hb]
      exact Body.noConfusion
    rw [e] at hlive ⊢
    obtain ⟨h1, h2⟩ := hs.withHeap (hs.stocked.modify hne _) hlive
      (fun b _ hf => Heap.body_modify_of_ne _ (by rintro rfl; rw [hb] at hf; exact hf.elim) _)
      rfl
    refine ⟨h1, h2, fun b t _ hb' hne' => ?_⟩
    exact (Heap.body_modify_of_ne _ (by rintro rfl; exact hne' rfl) _).trans hb'

/-- Storing a live value under a live key; a collection may run afterwards. -/
theorem safe_setHashed (hs : w.Sound used) (box : Value) {key v : Value} (hash : UInt32)
    (interned : Bool) (hkey : w.heap.Live key) (hv : w.heap.Live v) :
    Safe used (fun _ w' => w.Extends w' ∧ Aside box w w')
      ((setHashed box key hash interned v).run w) := by
  unfold setHashed
  show Safe used _ ((ite _ _ _ : Act Unit).run w)
  split
  · obtain ⟨h1, h2, h3⟩ := sound_store hs box hash interned hkey hv
    refine Safe.bind (P := fun _ w' => w.Extends w' ∧ Aside box w w') (.done h1 ⟨h2, h3⟩) ?_
    intro retired w' hs' h'
    split
    · refine (safe_retire hs').mono fun _ w'' h'' => ⟨h'.1.trans h''.1, ?_⟩
      exact h'.2.trans h'.1 fun b t hk hb _ => (h''.2 b hk).trans hb
    · exact safe_pure hs' h'
  · exact safe_fail hs _

theorem safe_hashSet (hs : w.Sound used) (box : Value) {key v : Value} (hkey : w.heap.Live key)
    (hv : w.heap.Live v) :
    Safe used (fun _ w' => w.Extends w' ∧ Aside box w w') ((hashSet box key v).run w) := by
  refine (safe_hashKey hs key).bind fun x w₁ hs₁ ⟨he, hl, hh⟩ => ?_
  refine (safe_setHashed hs₁ box x.1 x.2 (hl key hkey) (hl v hv)).mono fun _ w₂ h => ?_
  exact ⟨he.trans h.1, Aside.trans he (fun b t _ hb _ => hh b t hb) h.2⟩

theorem safe_hashGet (hs : w.Sound used) (box key : Value) :
    Safe used (fun _ w' => w.Extends w') ((hashGet box key).run w) := by
  unfold hashGet
  rw [run_heap_bind]
  split
  · refine (safe_hashKey hs key).bind fun x w₁ hs₁ h => ?_
    exact safe_pure hs₁ h.1
  · exact safe_pure hs (.refl w)

theorem safe_hashDelete (hs : w.Sound used) (box key : Value) :
    Safe used (fun _ w' => w.Extends w') ((hashDelete box key).run w) := by
  unfold hashDelete
  show Safe used _ ((ite _ _ _ : Act (Option Value)).run w)
  split
  · refine (safe_hashKey hs key).bind fun x w₁ hs₁ ⟨he, _, _⟩ => ?_
    have hremove : { w₁ with heap := (w₁.heap.remove box key x.1 x.2).2 }.Sound used ∧
        w₁.Extends { w₁ with heap := (w₁.heap.remove box key x.1 x.2).2 } := by
      have hlive (u : Value) (hu : w₁.heap.Live u) :
          (w₁.heap.remove box key x.1 x.2).2.Live u := hu.remove
      rcases Heap.remove_cases w₁.heap box key x.1 x.2 with e | ⟨a, t, found, rfl, hb, e⟩
      · rw [e]
        exact ⟨hs₁, .refl w₁⟩
      · have hne : w₁.heap.body a ≠ .free := by
          rw [hb]
          exact Body.noConfusion
        rw [e] at hlive ⊢
        exact hs₁.withHeap (hs₁.stocked.modify hne _) hlive
          (fun b _ hf => Heap.body_modify_of_ne _ (by rintro rfl; rw [hb] at hf; exact hf.elim) _)
          rfl
    refine Safe.bind (P := fun _ w' => w.Extends w') (.done hremove.1 (he.trans hremove.2)) ?_
    intro r w₂ hs₂ he₂
    dsimp only
    split
    · refine (safe_retire hs₂).bind fun _ w₃ hs₃ h₃ => ?_
      exact safe_pure hs₃ (he₂.trans h₃.1)
    · exact safe_pure hs₂ he₂
  · exact safe_fail hs _

/-- Changing the items of a vector, writing live values only. -/
theorem safe_modifyVec (hs : w.Sound used) (v : Value) {f : Array Value → Array Value}
    (hf : ∀ items, ∀ x ∈ f items, x ∈ items ∨ w.heap.Live x) :
    Safe used (fun _ w' => w.Extends w' ∧ ∀ u, w.heap.Live u → w'.heap.Live u)
      ((modifyVec v f).run w) := by
  rw [modifyVec, run_heap_bind]
  split
  · rename_i a haddr hkind
    obtain ⟨b, items, rfl, hb⟩ := Heap.exists_vec hkind
    obtain rfl : b = a := Option.some.inj haddr
    have hne : w.heap.body b ≠ .free := by
      rw [hb]
      exact Body.noConfusion
    have hfix : ¬(w.heap.body b).Fixed := by
      rw [hb]
      exact fun h => h
    have hvec : Body.vec (f items) ≠ .free ∧ ∀ c ∈ (Body.vec (f items)).children,
        c ∈ (w.heap.body b).children ∨ w.heap.Live c := by
      rw [hb]
      refine ⟨Body.noConfusion, fun c hc => ?_⟩
      exact (hf items c (Array.mem_toList_iff.mp hc)).imp Array.mem_toList_iff.mpr id
    exact .done (safe_modify hs hne hfix (by rw [hb] at hvec ⊢; exact hvec)).1
      (safe_modify hs hne hfix (by rw [hb] at hvec ⊢; exact hvec)).2
  · exact safe_pure hs ⟨.refl w, fun _ hu => hu⟩

theorem safe_vecPush (hs : w.Sound used) (v : Value) {item : Value} (hi : w.heap.Live item) :
    Safe used (fun _ w' => w.Extends w' ∧ ∀ u, w.heap.Live u → w'.heap.Live u)
      ((vecPush v item).run w) := by
  refine safe_modifyVec hs v fun items x hx => ?_
  exact (Array.mem_push.mp hx).imp id (by rintro rfl; exact hi)

theorem safe_vecSet (hs : w.Sound used) (v : Value) (i : Nat) {item : Value}
    (hi : w.heap.Live item) :
    Safe used (fun _ w' => w.Extends w' ∧ ∀ u, w.heap.Live u → w'.heap.Live u)
      ((vecSet v i item).run w) := by
  unfold vecSet
  rw [run_heap_bind]
  split
  · split
    · refine safe_modifyVec hs v fun items x hx => ?_
      exact (Array.mem_or_eq_of_mem_setIfInBounds hx).imp id (by rintro rfl; exact hi)
    · exact safe_pure hs ⟨.refl w, fun _ hu => hu⟩
  · exact safe_pure hs ⟨.refl w, fun _ hu => hu⟩

/-! ## operands and frames -/

theorem safe_push (hs : w.Sound used) (hcx : used cx) {v : Value} (hv : w.heap.Live v) :
    Safe used (fun _ w' => w' = w.modifyCtx cx fun c => { c with stack := c.stack.push v })
      ((push cx v).run w) := by
  unfold push
  show Safe used _ ((ite _ _ _ : Act Unit).run w)
  split
  · exact safe_fail_bind hs _
  · refine .done (hs.changeCtx (hs.known cx hcx) rfl rfl (fun u hu => ?_) fun _ g hg => .inl hg) rfl
    rw [Context.mem_roots] at hu ⊢
    rcases hu with hu | hu
    · rcases Array.mem_push.mp hu with hu | rfl
      · exact .inl (.inl hu)
      · exact .inr hv
    · exact .inl (.inr hu)

theorem sound_dropStack (hs : w.Sound used) (hcx : used cx) {f : Context → Context}
    (hf : ∀ c, ∃ stack : Array Value, f c = { c with stack } ∧ ∀ v ∈ stack, v ∈ c.stack) :
    (w.modifyCtx cx f).Sound used := by
  obtain ⟨stack, he, hsub⟩ := hf (w.ctx cx)
  refine hs.changeCtx (hs.known cx hcx) (by rw [he]) (by rw [he]) (fun u hu => ?_) fun _ g hg => ?_
  · rw [he] at hu
    rw [Context.mem_roots] at hu ⊢
    exact .inl (hu.imp (hsub u) id)
  · rw [he] at hg
    exact .inl hg

theorem safe_pop (hs : w.Sound used) (hcx : used cx) :
    Safe used (fun v w' => v ∈ (w.ctx cx).stack ∧ w'.heap = w.heap) ((pop cx).run w) := by
  unfold pop
  rw [run_ctx_bind]
  split
  · rename_i v hv
    exact .done (sound_dropStack hs hcx fun c => ⟨_, rfl, fun u hu => mem_of_mem_pop hu⟩)
      ⟨Array.mem_of_back? hv, rfl⟩
  · exact safe_fail hs _

theorem safe_peek (hs : w.Sound used) (depth : Nat) :
    Safe used (fun v w' => w' = w ∧ v ∈ (w.ctx cx).stack) ((peek cx depth).run w) := by
  unfold peek
  show Safe used _ ((ite _ _ _ : Act Value).run w)
  split
  · rename_i hlt
    refine safe_pure hs ⟨rfl, ?_⟩
    have : (w.ctx cx).stack.size - (depth + 1) < (w.ctx cx).stack.size := by omega
    rw [Array.getElem?_eq_getElem this]
    exact Array.getElem_mem this
  · exact safe_fail hs _

theorem safe_cut (hs : w.Sound used) (hcx : used cx) (height : Nat) :
    Safe used (fun _ w' => w' = w.modifyCtx cx fun c => { c with stack := c.stack.shrink height })
      ((cut cx height).run w) :=
  .done (sound_dropStack hs hcx fun _ => ⟨_, rfl, fun _ => mem_of_mem_shrink⟩) rfl

theorem safe_replaceTop (hs : w.Sound used) (hcx : used cx) (n : Nat) {v : Value}
    (hv : w.heap.Live v) :
    Safe used (fun _ w' => w'.heap = w.heap) ((replaceTop cx n v).run w) := by
  have hcut : (w.modifyCtx cx fun c => { c with stack := c.stack.shrink (c.stack.size - n) }).Sound
      used := sound_dropStack hs hcx fun _ => ⟨_, rfl, fun _ => mem_of_mem_shrink⟩
  refine Safe.bind (P := fun _ w' => w'.heap = w.heap) (.done hcut rfl) fun _ w₁ hs₁ he => ?_
  refine (safe_push hs₁ hcx (he ▸ hv)).mono ?_
  rintro _ _ rfl
  exact he

theorem safe_frame (hs : w.Sound used) :
    Safe used (fun f w' => w' = w ∧ f ∈ (w.ctx cx).frames) ((frame cx).run w) := by
  unfold frame
  rw [run_ctx_bind]
  split
  · rename_i f hf
    exact safe_pure hs ⟨rfl, Array.mem_of_back? hf⟩
  · exact safe_fail hs _

/-- A change of frames that leaves their functions, code and scopes alone. -/
theorem sound_frames (hs : w.Sound used) (hcx : used cx) {f : Context → Context}
    (hf : ∀ c, ∃ frames : Array Frame, f c = { c with frames } ∧
      ∀ g ∈ frames, ∃ g' ∈ c.frames, g = { g' with ip := g.ip }) :
    (w.modifyCtx cx f).Sound used := by
  obtain ⟨frames, he, hsub⟩ := hf (w.ctx cx)
  refine hs.changeCtx (hs.known cx hcx) (by rw [he]) (by rw [he]) (fun u hu => .inl ?_) fun hu g hg => .inr ?_
  · rw [he] at hu
    rw [Context.mem_roots] at hu ⊢
    rcases hu with hu | hu | ⟨g, hg, hu⟩ | hu
    · exact .inl hu
    · exact .inr (.inl hu)
    · obtain ⟨g', hg', e⟩ := hsub g hg
      rw [e] at hu
      exact .inr (.inr (.inl ⟨g', hg', hu⟩))
    · exact .inr (.inr (.inr hu))
  · rw [he] at hg
    obtain ⟨g', hg', e⟩ := hsub g hg
    obtain ⟨target, scope, h1, h2⟩ := hs.framed cx hu g' hg'
    rw [e]
    exact ⟨target, scope, h1, h2⟩

theorem mem_modify_ip {frames : Array Frame} {i ip : Nat} {g : Frame}
    (hg : g ∈ frames.modify i ({ · with ip })) : ∃ g' ∈ frames, g = { g' with ip := g.ip } := by
  obtain ⟨j, hj⟩ := Array.mem_iff_getElem?.mp hg
  rw [Array.getElem?_modify] at hj
  split at hj
  · obtain ⟨g', hg', rfl⟩ := Option.map_eq_some_iff.mp hj
    exact ⟨g', Array.mem_of_getElem? hg', rfl⟩
  · exact ⟨g, Array.mem_of_getElem? hj, rfl⟩

theorem code_mem_modify_ip {frames : Array Frame} {f : Frame} (hf : f ∈ frames) (i ip : Nat) :
    ∃ g ∈ frames.modify i ({ · with ip }), g.code = f.code := by
  obtain ⟨j, hj⟩ := Array.mem_iff_getElem?.mp hf
  have hg : (frames.modify i ({ · with ip }))[j]? = some (if i = j then { f with ip } else f) := by
    rw [Array.getElem?_modify, hj]
    split <;> rfl
  refine ⟨_, Array.mem_of_getElem? hg, ?_⟩
  split <;> rfl

theorem safe_jump (hs : w.Sound used) (hcx : used cx) (ip : Nat) :
    Safe used (fun _ w' => w' = w.modifyCtx cx fun c =>
        { c with frames := c.frames.modify (c.frames.size - 1) ({ · with ip }) })
      ((jump cx ip).run w) :=
  .done (sound_frames hs hcx fun _ => ⟨_, rfl, fun _ hg => mem_modify_ip hg⟩) rfl

/-! ## code -/

/-- A unit of code is kept, and with it its constants. -/
def KeepsCode (w : World) (code : Loaded) : Prop := ∃ v, w.Kept v ∧ w.heap.bodyOf v = .code code

theorem KeepsCode.mono {code : Loaded} (h : KeepsCode w code) {w' : World} (he : w.Extends w') :
    KeepsCode w' code := by
  obtain ⟨v, hv, hb⟩ := h
  exact ⟨v, he.kept hv, he.bodyOf hv hb trivial⟩

theorem KeepsCode.live_const {code : Loaded} (h : KeepsCode w code) (hs : w.Sound used) (i : Nat) :
    w.heap.Live (code.const i) := by
  obtain ⟨v, hv, hb⟩ := h
  rw [Loaded.const]
  cases hi : code.consts[i]? with
  | none => exact Heap.live_nil
  | some c => exact (hs.live_kept hv).of_bodyOf hb (Array.mem_toList_iff.mpr (Array.mem_of_getElem? hi))

theorem keepsCode_frame (hs : w.Sound used) (hcx : used cx) {f : Frame}
    (hf : f ∈ (w.ctx cx).frames) : KeepsCode w f.code := by
  obtain ⟨target, scope, h1, h2⟩ := hs.framed cx hcx f hf
  exact ⟨target, (kept_of_frame hf).1.of_bodyOf h1 trivial List.mem_cons_self, h2⟩

/-- Starting a frame for a function that is bound to its code. -/
theorem safe_pushFrame (hs : w.Sound used) (hcx : used cx) {func locals scope : Value}
    {code : Loaded} (bp : Nat)
    (hf : ∃ target scope, w.heap.bodyOf func = .func target scope ∧
      w.heap.bodyOf target = .code code)
    (hfunc : w.heap.Live func) (hlocals : w.heap.Live locals) (hscope : w.heap.Live scope) :
    Safe used (fun _ _ => True) ((pushFrame cx func code locals scope bp).run w) := by
  unfold pushFrame
  show Safe used _ ((ite _ _ _ : Act Unit).run w)
  split
  · exact safe_fail_bind hs _
  · refine .done (hs.changeCtx (hs.known cx hcx) rfl rfl (fun u hu => ?_) fun _ g hg => ?_) trivial
    · rw [Context.mem_roots] at hu ⊢
      rcases hu with hu | hu | ⟨g, hg, hu⟩ | hu
      · exact .inl (.inl hu)
      · exact .inl (.inr (.inl hu))
      · rcases Array.mem_push.mp hg with hg | rfl
        · exact .inl (.inr (.inr (.inl ⟨g, hg, hu⟩)))
        · refine .inr ?_
          rcases hu with rfl | rfl | rfl
          · exact hfunc
          · exact hlocals
          · exact hscope
      · exact .inl (.inr (.inr (.inr hu)))
    · rcases Array.mem_push.mp hg with hg | rfl
      · exact .inl hg
      · exact .inr hf

/-! ## contexts -/

theorem sound_reset (hs : w.Sound used) (cx : CtxId) :
    (w.modifyCtx cx fun _ => {}).Sound used := by
  by_cases hcx : cx < w.contexts.size
  · refine hs.modifyCtx hcx (fun v hv => nomatch hv) ?_ (fun _ hc => nomatch hc)
      fun _ g hg => nomatch hg
    obtain ⟨p, q, h1, h2⟩ := World.cached_modifyCtx hcx fun _ => ({} : Context)
    refine hs.stocked.subperm (List.Sublist.subperm ?_)
    rw [h1, h2]
    refine (List.Sublist.append_right ?_ q).append_left p
    exact (World.cached_dropCache {}).symm ▸ List.nil_sublist _
  · exact hs.same (World.same_modifyCtx (Nat.le_of_not_lt hcx) _)

theorem sound_spare (hs : w.Sound used) {cx : CtxId} (hcx : cx < w.contexts.size) :
    { w with freeContexts := w.freeContexts.push cx }.Sound used :=
  { hs with
    spare := fun other h => by
      rcases Array.mem_push.mp h with h | rfl
      · exact hs.spare other h
      · exact hcx }

theorem sound_freeChain (hs : w.Sound used) (n : Nat) (c : Option CtxId)
    (hc : ∀ cx, c = some cx → cx < w.contexts.size) :
    (World.freeChain n c w).Sound used ∧ (World.freeChain n c w).heap = w.heap ∧
      (World.freeChain n c w).contexts.size = w.contexts.size := by
  induction n generalizing c w with
  | zero => exact ⟨hs, rfl, rfl⟩
  | succ n ih =>
    cases c with
    | none => exact ⟨hs, rfl, rfl⟩
    | some cx =>
      have hs₁ := sound_reset hs cx
      have hsize := World.size_modifyCtx w cx fun _ => {}
      have hchild (child : CtxId) (h : (w.ctx cx).child = some child) :
          child < (w.modifyCtx cx fun _ => {}).contexts.size := hsize ▸ hs.linked cx child h
      unfold World.freeChain
      dsimp only
      split
      · obtain ⟨h1, h2, h3⟩ := ih hs₁ _ hchild
        exact ⟨h1, h2, h3.trans hsize⟩
      · have hs₂ := sound_spare hs₁ (hsize ▸ hc cx rfl)
        obtain ⟨h1, h2, h3⟩ := ih hs₂ _ hchild
        exact ⟨h1, h2, h3.trans hsize⟩

/-- A change of a context that is neither in its roots, its frames nor its cache. -/
theorem sound_note (hs : w.Sound used) (cx : CtxId) {f : Context → Context}
    (hroots : ∀ c, (f c).roots = c.roots) (hframes : ∀ c, (f c).frames = c.frames)
    (hcache : ∀ c, (f c).cache = c.cache)
    (hchild : ∀ child, (f (w.ctx cx)).child = some child → child < w.contexts.size) :
    (w.modifyCtx cx f).Sound used := by
  by_cases hcx : cx < w.contexts.size
  · refine hs.modifyCtx hcx (fun v hv => ?_) ?_ hchild fun hu g hg => ?_
    · rw [hroots] at hv
      exact hs.live_kept (kept_of_ctx cx hv)
    · rw [World.cached_modifyCtx_of_cache hcx (hcache _)]
      exact hs.stocked
    · rw [hframes] at hg
      exact hs.framed cx hu g hg
  · exact hs.same (World.same_modifyCtx (Nat.le_of_not_lt hcx) f)

theorem safe_freeChild (hs : w.Sound used) (cx : CtxId) :
    Safe used (fun _ w' => w'.heap = w.heap ∧ w'.contexts.size = w.contexts.size)
      ((freeChild cx).run w) := by
  unfold freeChild
  rw [run_ctx_bind]
  split
  · rename_i child hchild
    have hs₁ : (w.modifyCtx cx fun c => { c with child := none }).Sound used :=
      sound_note hs cx (fun _ => rfl) (fun _ => rfl) (fun _ => rfl) fun _ h => by cases h
    have hsize := World.size_modifyCtx w cx fun c => { c with child := none }
    obtain ⟨h1, h2, h3⟩ := sound_freeChain hs₁ (w.modifyCtx cx _).contexts.size (some child) (by
      rintro _ ⟨⟩
      exact hsize ▸ hs.linked cx child hchild)
    exact .done h1 ⟨h2, h3.trans hsize⟩
  · exact safe_pure hs ⟨rfl, rfl⟩

theorem sound_newContext (hs : w.Sound used) :
    w.newContext.2.Sound used ∧ w.newContext.2.heap = w.heap ∧
      w.newContext.1 < w.newContext.2.contexts.size ∧
      w.contexts.size ≤ w.newContext.2.contexts.size := by
  unfold World.newContext
  split
  · rename_i cx hcx
    refine ⟨{ hs with spare := fun other h => hs.spare other (mem_of_mem_pop h) }, rfl, ?_, ?_⟩
    · exact hs.spare cx (Array.mem_of_back? hcx)
    · exact Nat.le_refl _
  · have hctx := World.ctx_push_empty w
    have hsize : w.contexts.size ≤ (w.contexts.push {}).size := by
      rw [Array.size_push]
      exact Nat.le_succ _
    have hroots {v : Value} (hv : v ∈ { w with contexts := w.contexts.push {} }.liveRoots) :
        v ∈ w.liveRoots := by
      rcases World.mem_liveRoots.mp hv with ⟨cx, hv⟩ | hv
      · exact World.mem_liveRoots.mpr (.inl ⟨cx, hctx cx ▸ hv⟩)
      · exact World.mem_liveRoots.mpr (.inr hv)
    have hcached : { w with contexts := w.contexts.push {} }.cached = w.cached := by
      rw [World.cached, Array.toList_push, List.flatMap_append, List.flatMap_singleton]
      exact (congrArg _ (World.cached_dropCache {})).trans (List.append_nil _)
    refine ⟨⟨?_, ?_, ?_, ?_, ?_, ?_⟩, rfl, ?_, hsize⟩
    · rw [hcached]
      exact hs.stocked
    · exact fun v hv => hs.live v (hroots hv)
    · exact fun cx h => Nat.lt_of_lt_of_le (hs.known cx h) hsize
    · exact fun cx h => Nat.lt_of_lt_of_le (hs.spare cx h) hsize
    · exact fun cx child h => Nat.lt_of_lt_of_le (hs.linked cx child (hctx cx ▸ h)) hsize
    · exact fun cx h f hf => hs.framed cx h f (hctx cx ▸ hf)
    · rw [Array.size_push]
      exact Nat.lt_succ_self _

theorem safe_subContext (hs : w.Sound used) (cx : CtxId) :
    Safe used (fun sub w' => w'.heap = w.heap ∧ sub < w'.contexts.size) ((subContext cx).run w) := by
  unfold subContext
  show Safe used _ ((ite _ _ _ : Act CtxId).run w)
  split
  · exact safe_fail_bind hs _
  · refine (safe_freeChild hs cx).bind fun _ w₁ hs₁ ⟨he₁, _⟩ => ?_
    obtain ⟨hs₂, he₂, hlt, _⟩ := sound_newContext hs₁
    refine Safe.bind (P := fun sub w' => w'.heap = w.heap ∧ sub < w'.contexts.size)
      (.done hs₂ ⟨he₂.trans he₁, hlt⟩) fun sub w₃ hs₃ ⟨he₃, hsub⟩ => ?_
    have hs₄ := sound_note hs₃ sub
      (f := fun c => { c with parent := some cx, nesting := (w.ctx cx).nesting + 1 })
      (fun _ => rfl) (fun _ => rfl) (fun _ => rfl) (hs₃.linked sub)
    refine Safe.bind (P := fun _ w' => w'.heap = w.heap ∧ sub < w'.contexts.size)
      (.done hs₄ ⟨he₃, (World.size_modifyCtx _ _ _).symm ▸ hsub⟩) fun _ w₅ hs₅ ⟨he₅, hsub₅⟩ => ?_
    have hs₆ := sound_note hs₅ cx (f := fun c => { c with child := some sub })
      (fun _ => rfl) (fun _ => rfl) (fun _ => rfl) (by
        rintro _ ⟨⟩
        exact hsub₅)
    exact .done hs₆ ⟨he₅, (World.size_modifyCtx _ _ _).symm ▸ hsub₅⟩

theorem sound_error (hs : w.Sound used) (hcx : used cx) {e : Failure}
    (he : w.heap.Live e.value) : (w.modifyCtx cx fun c => { c with error := some e }).Sound used := by
  refine hs.changeCtx (hs.known cx hcx) rfl rfl (fun v hv => ?_) fun _ g hg => .inl hg
  rw [Context.mem_roots] at hv ⊢
  rcases hv with hv | hv | hv | ⟨_, ⟨⟩, rfl⟩
  · exact .inl (.inl hv)
  · exact .inl (.inr (.inl hv))
  · exact .inl (.inr (.inr (.inl hv)))
  · exact .inr he

theorem safe_rethrow {α : Type} {ok : α → World → Prop} (hs : w.Sound used) (hcx : used cx)
    {e : Failure} (he : w.heap.Live e.value) : Safe used ok ((rethrow cx e : Act α).run w) :=
  .failed (sound_error hs hcx he) he

end

end ScriptEngine.Act
