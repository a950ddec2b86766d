import ScriptEngine.Machine.Call
import ScriptEngine.Machine.Load
import ScriptEngine.Proofs.Code.Flow
import ScriptEngine.Proofs.Machine.Strokes
import ScriptEngine.Proofs.Runs

/-!
# Activities stroke by stroke

An activity is traced when all it does to the cells it does by strokes, so that it starts and ends
with a consistent engine and each state on the way is consistent too.  Most activities are traced
wherever they start.  Storing under a key whose hash is given, or under one that may be gone, needs to
know the key.

* `Act.Traced`      what an activity has led to, by strokes;
* `Act.Plain`       an activity that is traced from every consistent engine;
* `Act.Plain.bind`  one activity after the other;
* `Act.traced_setHashed`, `Act.traced_hashSet`   storing an entry;
* `Act.plain_load`  loading code.
-/

namespace ScriptEngine

/-- An instruction that takes a name accepts nothing else. -/
theorem Op.accepts_name {o : Op} (h : o.takesName = true) :
    o.takesConst = true ∧ ∀ d, o.accepts d → ∃ name, d = .name name := by
  cases o <;> first | exact ⟨rfl, fun _ h => h⟩ | exact nomatch h

namespace Act

open ScriptEngine.World (Along Consistent Link)

/-- What an activity has led to by strokes, and `ok` for what it gives. -/
inductive Traced {α : Type} (w : World) (ok : α → World → Prop) :
    EStateM.Result Failure World α → Prop
  | done {a : α} {w' : World} (h : w.Along w') (ha : ok a w') : Traced w ok (.ok a w')
  | failed {e : Failure} {w' : World} (h : w.Along w') : Traced w ok (.error e w')

/-- An activity that does by strokes what it does to the cells. -/
structure Plain {α : Type} (x : Act α) : Prop where
  traced : ∀ w : World, w.Consistent → Traced w (fun _ _ => True) (x.run w)

section

variable {α β : Type} {w : World} {cx : CtxId} {x : Act α}

theorem Traced.along {ok : α → World → Prop} {r : EStateM.Result Failure World α}
    (h : Traced w ok r) : w.Along (World.after r) := by
  cases h with
  | done h => exact h
  | failed h => exact h

theorem Traced.bind {P : α → World → Prop} {ok : β → World → Prop} {f : α → Act β}
    (hx : Traced w P (x.run w)) (hf : ∀ a w', w.Along w' → P a w' → Traced w' ok ((f a).run w')) :
    Traced w ok ((x >>= f).run w) := by
  cases hr : x.run w with
  | ok a w' =>
    rw [hr] at hx
    rw [run_bind_of_ok hr]
    cases hx with
    | done h ha =>
      have hfa := hf a w' h ha
      generalize (f a).run w' = r at hfa ⊢
      cases hfa with
      | done h' hb => exact .done (h.trans h') hb
      | failed h' => exact .failed (h.trans h')
  | error e w' =>
    rw [hr] at hx
    rw [run_bind_of_error hr]
    cases hx with
    | failed h => exact .failed h

theorem Traced.mono {P ok : α → World → Prop} {r : EStateM.Result Failure World α}
    (hr : Traced w P r) (h : ∀ a w', w.Along w' → P a w' → ok a w') : Traced w ok r := by
  cases hr with
  | done hv ha => exact .done hv (h _ _ hv ha)
  | failed hv => exact .failed hv

/-- What comes next is traced from wherever the first activity has led. -/
theorem Traced.next {P : α → World → Prop} {f : α → Act β} (hx : Traced w P (x.run w))
    (hc : w.Consistent) (hf : ∀ a, Plain (f a)) : Traced w (fun _ _ => True) ((x >>= f).run w) :=
  hx.bind fun a w' h _ => (hf a).traced w' (h.consistent hc)

theorem Plain.bind {f : α → Act β} (hx : Plain x) (hf : ∀ a, Plain (f a)) : Plain (x >>= f) :=
  ⟨fun w hc => (hx.traced w hc).next hc hf⟩

theorem traced_pure {ok : α → World → Prop} {a : α} (ha : ok a w) :
    Traced w ok ((pure a : Act α).run w) := .done (.refl w) ha

theorem traced_fail {ok : α → World → Prop} {c : Cause} : Traced w ok ((fail c : Act α).run w) :=
  .failed (.refl w)

theorem plain_pure (a : α) : Plain (pure a : Act α) := ⟨fun _ _ => traced_pure trivial⟩

theorem plain_throw (e : Failure) : Plain (throw e : Act α) := ⟨fun w _ => .failed (.refl w)⟩

theorem plain_fail (c : Cause) : Plain (fail c : Act α) := plain_throw _

theorem plain_get : Plain (get : Act World) := ⟨fun w _ => .done (.refl w) trivial⟩

theorem plain_ofExcept (r : Except Cause α) : Plain (ofExcept r) := by
  cases r with
  | ok a => exact plain_pure a
  | error c => exact plain_fail c

theorem plain_heap : Plain heap := plain_get.bind fun _ => plain_pure _

theorem plain_options : Plain options := plain_get.bind fun _ => plain_pure _

theorem plain_ctx (c : CtxId) : Plain (ctx c) := plain_get.bind fun _ => plain_pure _

theorem plain_read (f : Heap → Except Cause α) : Plain (read f) :=
  plain_heap.bind fun _ => plain_ofExcept _

theorem plain_modify {f : World → World} (hf : ∀ w : World, w.Consistent → w.Along (f w)) :
    Plain (modify f : Act Unit) := ⟨fun w hc => .done (hf w hc) trivial⟩

theorem plain_modifyGet {f : World → α × World} (hf : ∀ w : World, w.Consistent → w.Along (f w).2) :
    Plain (modifyGet f : Act α) := ⟨fun w hc => .done (hf w hc) trivial⟩

theorem Plain.discard (hx : Plain x) : Plain (discard x : Act PUnit) := hx.bind fun _ => plain_pure _

theorem plain_forM {f : α → Act Unit} (hf : ∀ a, Plain (f a)) (as : List α) : Plain (as.forM f) := by
  induction as with
  | nil => exact plain_pure ()
  | cons a as ih => exact (hf a).bind fun _ => ih

/-! ## objects -/

theorem plain_alloc (cx : CtxId) {k : Kind} {b : Body} (hk : b.kind? = some k)
    (hb : ∀ h : Heap, h.Fresh b) (hnot : ∀ ns next, b ≠ .closure ns next) : Plain (alloc cx k b) :=
  plain_modifyGet fun _ hc =>
    World.along_alloc hc cx hk (fun _ _ => hb _) fun ns next e => absurd e (hnot ns next)

theorem plain_newStr (bs : Bytes) : Plain (newStr cx bs) :=
  plain_alloc cx rfl (fun _ => ⟨rfl, rfl⟩) fun _ _ => Body.noConfusion

theorem plain_newVec (items : Array Value) : Plain (newVec cx items) :=
  plain_alloc cx rfl (fun _ => trivial) fun _ _ => Body.noConfusion

theorem plain_newHash : Plain (newHash cx) :=
  plain_alloc cx rfl (fun _ => rfl) fun _ _ => Body.noConfusion

theorem plain_newFunc (target scope : Value) : Plain (newFunc cx target scope) :=
  plain_alloc cx rfl (fun _ => trivial) fun _ _ => Body.noConfusion

theorem plain_newNative (n : Native) : Plain (newNative cx n) :=
  Plain.bind (plain_alloc cx (b := .native n) rfl (fun _ => trivial) fun _ _ => Body.noConfusion)
    fun _ => plain_newFunc _ _

theorem plain_newGhost (g : Ghost) : Plain (newGhost cx g) :=
  plain_alloc cx rfl (fun _ => trivial) fun _ _ => Body.noConfusion

theorem traced_intern (hc : w.Consistent) (name : Bytes) :
    Traced w (fun v w' => ∃ a, v = .obj a ∧ w'.heap.symbols[name]? = some a)
      ((intern name).run w) :=
  .done (Link.intern w name).along ⟨_, rfl, (hc.placed.stocked.intern name).symbol⟩

theorem plain_intern (name : Bytes) : Plain (intern name) :=
  ⟨fun _ hc => (traced_intern hc name).mono fun _ _ _ _ => trivial⟩

/-! ## tables and vectors -/

/-- Taking the hash of a key that is there. -/
theorem traced_hashKey {key : Value} (hkey : ∀ a, key = .obj a → w.heap.body a ≠ .free) :
    Traced w (fun p w' => p = w'.heap.keyHash key ∧ w'.heap.Frozen key) ((hashKey key).run w) :=
  .done (Link.freeze w key).along ⟨(Heap.keyHash_freeze w.heap key).symm, Heap.frozen_freeze hkey⟩

theorem plain_hashKey (key : Value) : Plain (hashKey key) :=
  ⟨fun w _ => .done (Link.freeze w key).along trivial⟩

theorem plain_retire : Plain retire := plain_modify fun w _ => World.along_retire w

theorem traced_setHashed (hc : w.Consistent) (box v : Value) {key : Value} {hash : UInt32}
    {interned : Bool} (hkey : w.heap.Frozen key) (hhash : (hash, interned) = w.heap.keyHash key) :
    Traced w (fun _ _ => True) ((setHashed box key hash interned v).run w) := by
  unfold setHashed
  show Traced w _ ((ite _ _ _ : Act Unit).run w)
  split
  · have hlink := Link.store w box hkey v
    obtain ⟨rfl, rfl⟩ : hash = (w.heap.keyHash key).1 ∧ interned = (w.heap.keyHash key).2 :=
      ⟨congrArg Prod.fst hhash, congrArg Prod.snd hhash⟩
    refine Traced.bind (P := fun _ _ => True) (.done hlink.along trivial) fun retired w' h _ => ?_
    split
    · exact plain_retire.traced w' (h.consistent hc)
    · exact traced_pure trivial
  · exact traced_fail

theorem traced_hashSet (hc : w.Consistent) (box v : Value) {key : Value}
    (hkey : ∀ a, key = .obj a → w.heap.body a ≠ .free) :
    Traced w (fun _ _ => True) ((hashSet box key v).run w) :=
  (traced_hashKey hkey).bind fun _ _ h ⟨hp, hf⟩ => traced_setHashed (h.consistent hc) box v hf hp

theorem traced_setName (hc : w.Consistent) (box v : Value) {name : Bytes} {a : Addr}
    (ha : w.heap.symbols[name]? = some a) :
    Traced w (fun _ _ => True) ((setHashed box (.obj a) (hashBytes name) true v).run w) :=
  traced_setHashed hc box v (hc.heap.frozen_name ha) (hc.heap.keyHash_name ha).symm

theorem plain_hashGet (box key : Value) : Plain (hashGet box key) := by
  unfold hashGet
  refine plain_heap.bind fun h => ?_
  split
  · exact (plain_hashKey key).bind fun _ => plain_heap.bind fun _ => plain_pure _
  · exact plain_pure _

theorem plain_hashDelete (box key : Value) : Plain (hashDelete box key) := by
  refine ⟨fun w hc => ?_⟩
  unfold hashDelete
  show Traced w _ ((ite _ _ _ : Act (Option Value)).run w)
  split
  · have hkey : Traced w (fun p w' => p = w'.heap.keyHash key) ((hashKey key).run w) :=
      .done (Link.freeze w key).along (Heap.keyHash_freeze w.heap key).symm
    refine hkey.bind fun p w₁ h₁ hp => ?_
    subst hp
    refine Traced.bind (P := fun _ _ => True) (.done (Link.remove w₁ box key).along trivial)
      fun r w₂ h₂ _ => ?_
    have hc₂ := h₂.consistent (h₁.consistent hc)
    dsimp only
    split
    · exact (plain_retire.bind fun _ => plain_pure _).traced w₂ hc₂
    · exact traced_pure trivial
  · exact traced_fail

theorem plain_addSym (ns : Value) (name : String) (v : Value) : Plain (addSym ns name v) := by
  refine ⟨fun w hc => (traced_intern hc _).bind fun sym w' h hsym => ?_⟩
  obtain ⟨a, rfl, ha⟩ := hsym
  have hc' := h.consistent hc
  exact traced_hashSet hc' ns v fun b e => (hc'.heap.frozen_name ha b e).1

theorem plain_modifyVec (v : Value) (f : Array Value → Array Value) : Plain (modifyVec v f) := by
  unfold modifyVec
  refine plain_heap.bind fun h => ?_
  split
  · exact Plain.bind (plain_modify fun w _ => (Link.items w _ f).along) fun _ => plain_pure _
  · exact plain_pure _

theorem plain_vecPush (v item : Value) : Plain (vecPush v item) := plain_modifyVec _ _

theorem plain_vecSet (v : Value) (i : Nat) (item : Value) : Plain (vecSet v i item) := by
  unfold vecSet
  refine plain_heap.bind fun h => ?_
  split
  · split
    · exact plain_modifyVec _ _
    · exact plain_pure _
  · exact plain_pure _

/-! ## operands and frames -/

theorem plain_modifyCtx {f : Context → Context} (hcache : ∀ c, (f c).cache = c.cache)
    (hframes : ∀ c, ∀ g ∈ (f c).frames, ∃ g' ∈ c.frames, g.func = g'.func ∧ g.code = g'.code) :
    Plain (modifyCtx cx f) :=
  plain_modify fun w _ => World.along_modifyCtx w cx (.inl (hcache _)) fun g hg =>
    .inr (hframes _ g hg)

theorem plain_touch {f : Context → Context} (hcache : ∀ c, (f c).cache = c.cache)
    (hframes : ∀ c, (f c).frames = c.frames) : Plain (modifyCtx cx f) :=
  plain_modifyCtx hcache fun c g hg => ⟨g, hframes c ▸ hg, rfl, rfl⟩

theorem plain_push (v : Value) : Plain (push cx v) := by
  unfold push
  refine plain_options.bind fun _ => (plain_ctx cx).bind fun _ => ?_
  have hrest : Plain (modifyCtx cx fun c => { c with stack := c.stack.push v }) :=
    plain_touch (fun _ => rfl) fun _ => rfl
  split
  · exact Plain.bind (plain_fail _) fun _ => hrest
  · exact hrest

theorem plain_pop : Plain (pop cx) := by
  unfold pop
  refine (plain_ctx cx).bind fun c => ?_
  split
  · exact Plain.bind (plain_touch (fun _ => rfl) fun _ => rfl) fun _ => plain_pure _
  · exact plain_fail _

theorem plain_peek (depth : Nat) : Plain (peek cx depth) := by
  unfold peek
  refine (plain_ctx cx).bind fun c => ?_
  dsimp only
  split
  · exact plain_pure _
  · exact plain_fail _

theorem plain_cut (height : Nat) : Plain (cut cx height) := plain_touch (fun _ => rfl) fun _ => rfl

theorem plain_replaceTop (n : Nat) (v : Value) : Plain (replaceTop cx n v) :=
  Plain.bind (plain_touch (fun _ => rfl) fun _ => rfl) fun _ => plain_push v

theorem plain_frame : Plain (frame cx) := by
  unfold frame
  refine (plain_ctx cx).bind fun c => ?_
  split
  · exact plain_pure _
  · exact plain_fail _

theorem plain_jump (ip : Nat) : Plain (jump cx ip) := by
  refine plain_modifyCtx (fun _ => rfl) fun c g hg => ?_
  obtain ⟨g', hg', e⟩ := mem_modify_ip hg
  exact ⟨g', hg', by rw [e], by rw [e]⟩

/-- Starting a frame for a function that is bound to its code. -/
theorem traced_pushFrame {func locals scope : Value} {code : Loaded} (bp : Nat)
    (hf : ∃ target outer, w.heap.bodyOf func = .func target outer ∧
      w.heap.bodyOf target = .code code) :
    Traced w (fun _ _ => True) ((pushFrame cx func code locals scope bp).run w) := by
  unfold pushFrame
  show Traced w _ ((ite _ _ _ : Act Unit).run w)
  split
  · exact .failed (.refl w)
  · refine .done (World.along_modifyCtx w cx (.inl rfl) fun g hg => ?_) trivial
    rcases Array.mem_push.mp hg with hg | rfl
    · exact .inr ⟨g, hg, rfl, rfl⟩
    · exact .inl hf

/-! ## children -/

theorem plain_freeChild : Plain (freeChild cx) := by
  unfold freeChild
  refine (plain_ctx cx).bind fun c => ?_
  split
  · exact Plain.bind (plain_touch (fun _ => rfl) fun _ => rfl) fun _ =>
      plain_modify fun w _ => World.along_freeChain _ _ w
  · exact plain_pure _

theorem plain_subContext : Plain (subContext cx) := by
  unfold subContext
  refine (plain_ctx cx).bind fun c => plain_options.bind fun o => ?_
  have hrest : Plain (do
      freeChild cx
      let sub ← modifyGet World.newContext
      modifyCtx sub fun d => { d with parent := some cx, nesting := c.nesting + 1 }
      modifyCtx cx fun d => { d with child := some sub }
      return sub : Act CtxId) := by
    refine plain_freeChild.bind fun _ => ?_
    refine Plain.bind (plain_modifyGet fun _ hc => World.along_newContext hc.placed) fun sub => ?_
    refine Plain.bind (plain_touch (fun _ => rfl) fun _ => rfl) fun _ => ?_
    exact Plain.bind (plain_touch (fun _ => rfl) fun _ => rfl) fun _ => plain_pure _
  split
  · exact Plain.bind (plain_fail _) fun _ => hrest
  · exact hrest

theorem plain_rethrow (e : Failure) : Plain (rethrow cx e : Act α) :=
  Plain.bind (plain_touch (fun _ => rfl) fun _ => rfl) fun _ => plain_throw _

/-! ## members and elements -/

theorem plain_hashMember (obj sym : Value) (hash : UInt32) (interned : Bool) :
    Plain (hashMember obj sym hash interned) := by
  unfold hashMember
  refine plain_get.bind fun w => ?_
  dsimp only
  split
  · exact plain_pure _
  · exact plain_fail _

theorem plain_extract (box key : Value) : Plain (extract box key) := by
  unfold extract
  refine plain_heap.bind fun h => ?_
  show Plain (ite _ _ _)
  split
  · exact (plain_hashKey key).discard.bind fun _ => plain_read _
  · exact plain_read _

theorem body_ne_of_isScalar {h : Heap} {v : Value} (hv : h.isScalar v = true) (a : Addr)
    (ha : v = .obj a) : h.body a ≠ .free := by
  subst ha
  intro hf
  have hk : (h.body a).kind? = some .str := Heap.kind?_of_isKind hv
  rw [hf] at hk
  exact nomatch hk

theorem plain_insert (box key v : Value) : Plain (insert box key v) := by
  refine ⟨fun w hc => ?_⟩
  unfold insert
  rw [run_heap_bind]
  split
  · split
    · rename_i hscalar
      exact traced_hashSet hc _ v (body_ne_of_isScalar hscalar)
    · exact traced_fail
  · exact ((plain_ofExcept _).bind fun i => (plain_vecSet _ i v).discard).traced w hc
  · rename_i a s hb
    cases w.heap.byteOf v with
    | error e => exact traced_fail
    | ok b =>
      cases w.heap.indexIn key s.bytes.length "string" with
      | error e => exact traced_fail
      | ok i =>
        show Traced w _ (EStateM.run (pure b >>= fun b => pure i >>= fun i => _) w)
        rw [pure_bind, pure_bind]
        split
        · rename_i s' hs
          exact .done (Link.byte hb hs).along trivial
        · exact traced_fail
  · exact traced_fail

theorem plain_slice (box start stop : Value) : Plain (slice cx box start stop) := by
  unfold slice
  refine plain_heap.bind fun h => ?_
  split
  · refine (plain_ofExcept _).bind fun b => ?_
    split
    · exact plain_newVec _
    · exact plain_newVec _
  · refine (plain_ofExcept _).bind fun b => ?_
    split
    · exact plain_newStr _
    · exact plain_newStr _
  · exact plain_fail _

theorem plain_concat (a b : Value) : Plain (concat cx a b) := by
  unfold concat
  refine plain_heap.bind fun h => ?_
  split
  · exact plain_newVec _
  · exact (plain_ofExcept _).bind fun s => (plain_ofExcept _).bind fun t => plain_newStr _

theorem plain_lookupSym (sym : Value) (hash : UInt32) : Plain (lookupSym cx sym hash) := by
  unfold lookupSym
  refine plain_frame.bind fun f => ?_
  refine (show Plain chainBound from plain_heap.bind fun _ => plain_pure _).bind fun n => ?_
  refine plain_heap.bind fun h => ?_
  split
  · exact plain_pure _
  · split
    · exact plain_pure _
    · exact plain_fail _

/-! ## names in code -/

theorem traced_setConst (hc : w.Consistent) (box v : Value) {code : Loaded} {i : Nat}
    (hi : code.NameAt w.heap i) :
    Traced w (fun _ _ => True)
      ((setHashed box (code.const i) (code.constHash i) true v).run w) := by
  obtain ⟨name, a, h1, h2, -, h4⟩ := hi
  have hconst : code.const i = .obj a := by rw [Loaded.const, h1]; rfl
  have hhash : code.constHash i = hashBytes name := by rw [Loaded.constHash, h4]; rfl
  rw [hconst, hhash]
  exact traced_setName hc box v h2

theorem traced_setSym (hc : w.Consistent) (v : Value) {code : Loaded} {i : Nat}
    (hi : code.NameAt w.heap i) :
    Traced w (fun _ _ => True)
      ((setSym cx (code.const i) (code.constHash i) v).run w) := by
  unfold setSym
  show Traced w _ (EStateM.run (frame cx >>= fun f => _) w)
  have hframe : Traced w (fun _ w' => w' = w) ((frame cx).run w) := by
    unfold frame
    rw [run_ctx_bind]
    split
    · exact traced_pure rfl
    · exact traced_fail
  refine hframe.bind ?_
  rintro f w' - rfl
  show Traced w' _ (EStateM.run (ite ((w'.heap.named? f.locals _ _).isSome = true) _ _ : Act Unit) w')
  split
  · exact traced_setConst hc _ v hi
  · exact traced_setConst hc _ v hi

/-- A walk over a list whose steps keep `I`. -/
theorem traced_forM {α : Type} {I : World → Prop} {w : World} (hc : w.Consistent) (hI : I w)
    {l : List α} {f : α → Act Unit}
    (hf : ∀ a ∈ l, ∀ w', w'.Consistent → I w' → Traced w' (fun _ w'' => I w'') ((f a).run w')) :
    Traced w (fun _ w' => I w') ((l.forM f).run w) := by
  induction l generalizing w with
  | nil => exact traced_pure hI
  | cons a l ih =>
    show Traced w _ ((f a >>= fun _ => l.forM f).run w)
    refine (hf a List.mem_cons_self w hc hI).bind fun _ w₁ h₁ hI₁ => ?_
    exact ih (h₁.consistent hc) hI₁ fun b hb => hf b (List.mem_cons_of_mem a hb)

theorem Plain.walk {x : Act Unit} (hx : Plain x) (hc : w.Consistent) {I : World → Prop}
    (hI : ∀ w', w.Along w' → I w') : Traced w (fun _ w' => I w') (x.run w) :=
  (hx.traced w hc).mono fun _ w' h _ => hI w' h

theorem traced_bindConst (hc : w.Consistent) (locals v : Value) {code : Loaded} {i : Nat}
    (hi : code.NameAt w.heap i) (hcode : code.Proper w.heap) :
    Traced w (fun _ w' => code.Proper w'.heap) ((bindConst code locals i v).run w) :=
  (traced_setConst hc locals v hi).mono fun _ _ h _ => h.proper hc hcode

theorem plain_bindMe (locals me : Value) : Plain (bindMe locals me) := by
  refine ⟨fun w hc => ?_⟩
  have hget : (get : Act World).run w = .ok w w := rfl
  unfold bindMe
  split
  · rw [run_bind_of_ok hget]
    exact traced_hashSet hc locals me fun a e => (hc.heap.frozen_name hc.me a e).1
  · exact traced_pure trivial

theorem traced_bindRest (hc : w.Consistent) (locals : Value) (items : Array Value) {code : Loaded}
    {i : Nat} (hcode : code.Proper w.heap) (hi : code.rest = some i) :
    Traced w (fun _ _ => True) (EStateM.run (do
      let v ← newVec cx items
      bindConst code locals i v) w) := by
  refine ((plain_newVec items).traced w hc).bind fun v w' h _ => ?_
  exact traced_setConst (h.consistent hc) locals v ((h.proper hc hcode).rest i hi)

theorem traced_bindArgs (hc : w.Consistent) {code : Loaded} (hcode : code.Proper w.heap)
    (locals : Value) (args : Array Value) (me : Value) :
    Traced w (fun _ _ => True) ((bindArgs cx code locals args me).run w) := by
  unfold bindArgs
  refine ((plain_bindMe locals me).walk hc fun w' h => h.proper hc hcode).bind
    fun _ w₁ h₁ hcode₁ => ?_
  have hc₁ := h₁.consistent hc
  dsimp only
  split
  · exact .failed (.refl w₁)
  refine (traced_forM (I := fun w' => code.Proper w'.heap) hc₁ hcode₁
    fun p hp w' hc' hcode' => ?_).bind fun _ w₂ h₂ hcode₂ => ?_
  · exact traced_bindConst hc' locals p.2
      (hcode'.required p.1 (Array.mem_toList_iff.mp (List.of_mem_zip hp).1)) hcode'
  have hc₂ := h₂.consistent hc₁
  refine (traced_forM (I := fun w' => code.Proper w'.heap) hc₂ hcode₂
    fun p hp w' hc' hcode' => ?_).bind fun _ w₃ h₃ hcode₃ => ?_
  · have hmem : p.1 ∈ code.optional := Array.mem_toList_iff.mp (List.fst_mem_of_mem_zipIdx hp)
    exact traced_bindConst hc' locals _ (hcode'.optional p.1 hmem) hcode'
  have hc₃ := h₃.consistent hc₂
  split
  · rename_i i hi
    split
    · exact traced_bindRest hc₃ locals _ hcode₃ hi
    · exact traced_pure trivial
  · exact traced_pure trivial

/-! ## loading code -/

/-- The values and hashes of constants of a unit: names are loaded as the registered strings. -/
structure NamesAs (h : Heap) (ds : List Const) (vs : Array Value) (hashes : Array UInt32) : Prop where
  values : vs.size = ds.length
  hashed : hashes.size = ds.length
  names : ∀ (i : Nat) name, ds[i]? = some (.name name) → ∃ a, vs[i]? = some (.obj a) ∧
    h.symbols[name]? = some a ∧ hashes[i]? = some (hashBytes name)

theorem traced_loadName (hc : w.Consistent) (name : Bytes) :
    Traced w (fun p w' => ∃ a, p.1 = .obj a ∧ p.2 = hashBytes name ∧
      w'.heap.symbols[name]? = some a) ((loadName name).run w) := by
  unfold loadName
  refine (traced_intern hc name).bind fun v w₁ h₁ hv => ?_
  obtain ⟨a, rfl, ha⟩ := hv
  have hc₁ := h₁.consistent hc
  refine Traced.bind (P := fun p w' => p.1 = hashBytes name ∧ w'.heap.symbols[name]? = some a)
    (.done (Link.freeze w₁ (.obj a)).along ⟨?_, ?_⟩) fun p w₂ h₂ hp => ?_
  · exact congrArg Prod.fst (hc₁.heap.keyHash_name ha)
  · exact (congrArg (·[name]?) (Heap.symbols_freeze w₁.heap (.obj a))).trans ha
  · exact traced_pure ⟨a, rfl, hp⟩

theorem plain_loadText (s : Bytes) : Plain (loadText cx s) :=
  (plain_newStr s).bind fun _ => (plain_hashKey _).bind fun _ => plain_pure _

theorem NamesAs.push {h h' : Heap} {ds : List Const} {vs : Array Value} {hashes : Array UInt32}
    (hn : NamesAs h ds vs hashes)
    (hsym : ∀ (name : Bytes) a, h.symbols[name]? = some a → h'.symbols[name]? = some a) {d : Const}
    {v : Value} {x : UInt32} (hd : ∀ name, d = .name name → ∃ a, v = .obj a ∧ x = hashBytes name ∧
      h'.symbols[name]? = some a) : NamesAs h' (ds ++ [d]) (vs.push v) (hashes.push x) where
  values := by rw [Array.size_push, hn.values, List.length_append]; rfl
  hashed := by rw [Array.size_push, hn.hashed, List.length_append]; rfl
  names i name hi := by
    rw [Array.getElem?_push, Array.getElem?_push, hn.values, hn.hashed]
    by_cases hlast : i = ds.length
    · rw [hlast, List.getElem?_concat_length] at hi
      obtain ⟨a, h1, h2, h3⟩ := hd name (Option.some.inj hi)
      rw [if_pos hlast, if_pos hlast]
      exact ⟨a, congrArg some h1, h3, congrArg some h2⟩
    · rw [if_neg hlast, if_neg hlast]
      have hlt : i < ds.length := by
        have hsize := (List.getElem?_eq_some_iff.mp hi).1
        rw [List.length_append, List.length_singleton] at hsize
        omega
      rw [List.getElem?_append_left hlt] at hi
      obtain ⟨a, h1, h2, h3⟩ := hn.names i name hi
      exact ⟨a, h1, hsym name a h2, h3⟩

/-- A unit that is assembled from structured code is loaded with the strings of its names. -/
theorem proper_loaded {h : Heap} {c : Code Const} (hc : c.Assembled) (hr : h.Registered)
    {consts : Array Value} {hashes : Array UInt32} (hn : NamesAs h c.consts.toList consts hashes) :
    Loaded.Proper h { c with consts, hashes } := by
  have hname {i : Nat} (hi : ∃ name, c.consts[i]? = some (.name name)) :
      Loaded.NameAt h { c with consts, hashes } i := by
    obtain ⟨name, hi⟩ := hi
    obtain ⟨a, h1, h2, h3⟩ := hn.names i name (by rw [Array.getElem?_toList]; exact hi)
    exact ⟨name, a, h1, h2, hr name a h2, h3⟩
  obtain ⟨K, hK, hops⟩ := hc.operands
  have hop ip s (hs : K ip s) (i : Item) (hp : i.place = ip) (hi : i.In c.words)
      (ht : i.op.takesName = true) : ∃ name, c.consts[i.arg]? = some (.name name) := by
    obtain ⟨htakes, haccepts⟩ := Op.accepts_name ht
    obtain ⟨d, hd, ha⟩ := hops ip s hs i hp hi htakes
    obtain ⟨name, rfl⟩ := haccepts d ha
    exact ⟨name, hd⟩
  cases hc with
  | mk _ _ _ _ _ params =>
    exact ⟨⟨_, K, hK, fun ip s hs i hp hi ht => hname (hop ip s hs i hp hi ht)⟩,
      fun i hi => hname (params.required i hi), fun p hp => hname (params.optional p hp).1,
      fun i hi => hname (params.rest i hi)⟩

end

variable {cx : CtxId}

mutual
theorem traced_loadConst {w : World} (hc : w.Consistent) (d : Const)
    (hd : ∀ c, d = .code c → c.Assembled) :
    Traced w (fun p w' => ∀ name, d = .name name → ∃ a, p.1 = .obj a ∧ p.2 = hashBytes name ∧
      w'.heap.symbols[name]? = some a) ((loadConst cx d).run w) := by
  cases d with
  | nil => exact traced_pure nofun
  | number x => exact traced_pure nofun
  | text s => exact ((plain_loadText s).traced w hc).mono fun _ _ _ _ => nofun
  | name s =>
    refine (traced_loadName hc s).mono fun p w' _ hp => ?_
    rintro _ ⟨⟩
    exact hp
  | code c =>
    exact (traced_load hc c (hd c rfl)).bind fun _ _ _ _ => traced_pure nofun
/-- **Loading a unit** that is assembled from structured code. -/
theorem traced_load {w : World} (hc : w.Consistent) (c : Code Const) (ha : c.Assembled) :
    Traced w (fun _ _ => True) ((load cx c).run w) := by
  obtain ⟨words, consts, lines, file, params, optional, rest, needsRest⟩ := c
  have hinner : ∀ d, .code d ∈ consts → d.Assembled := ha.inside
  refine (traced_loadConsts hc consts hinner).bind fun p w₁ h₁ hp => ?_
  have hc₁ := h₁.consistent hc
  refine .done (World.along_alloc hc₁ cx rfl (fun u hu => ?_) fun _ _ => Body.noConfusion) trivial
  exact (proper_loaded ha hc₁.heap.registered hp).mono (hu.consistent hc₁).heap.registered
    fun _ _ hs => hu.names hc₁ hs
theorem traced_loadConsts {w : World} (hc : w.Consistent) (ds : Array Const)
    (hd : ∀ c, .code c ∈ ds → c.Assembled) :
    Traced w (fun p w' => NamesAs w'.heap ds.toList p.1 p.2) ((loadConsts cx ds).run w) := by
  obtain ⟨ds⟩ := ds
  have hnone : NamesAs w.heap [] #[] #[] := ⟨rfl, rfl, fun _ _ h => nomatch h⟩
  exact traced_loadList hc ds (fun c h => hd c (List.mem_toArray.mpr h)) hnone
theorem traced_loadList {w : World} (hc : w.Consistent) (ds : List Const)
    (hd : ∀ c, .code c ∈ ds → c.Assembled) {done : List Const} {vs : Array Value}
    {hashes : Array UInt32} (hn : NamesAs w.heap done vs hashes) :
    Traced w (fun p w' => NamesAs w'.heap (done ++ ds) p.1 p.2)
      ((loadList cx ds vs hashes).run w) := by
  cases ds with
  | nil =>
    rw [List.append_nil]
    exact traced_pure hn
  | cons d ds =>
    refine (traced_loadConst hc d fun c e => hd c (e ▸ List.mem_cons_self)).bind fun p w₁ h₁ hp => ?_
    have hrest := traced_loadList (h₁.consistent hc) ds
      (fun c h => hd c (List.mem_cons_of_mem _ h)) (hn.push (fun _ _ => h₁.names hc) hp)
    rw [List.append_assoc] at hrest
    exact hrest
end

theorem plain_compile (src : Bytes) (file : String) (firstLine : Nat) :
    Plain (compile cx src file firstLine) := by
  have hcode := compile_assembled src file firstLine
  refine ⟨fun w hc => ?_⟩
  unfold compile
  split
  · rename_i c hcomp
    rw [hcomp] at hcode
    cases hcode with
    | ok ha => exact (traced_load hc c ha).next hc fun _ => plain_pure _
  · rename_i u hcomp
    rw [hcomp] at hcode
    cases hcode with
    | error ha =>
      refine Traced.bind (P := fun _ _ => True) ?_ fun _ _ _ _ => traced_pure trivial
      refine traced_forM hc trivial fun consts hm w' hc' _ => ?_
      exact (traced_loadConsts hc' consts (ha consts hm)).bind fun _ _ _ _ => traced_pure trivial

end Act

end ScriptEngine
