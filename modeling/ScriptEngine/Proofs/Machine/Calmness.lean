import ScriptEngine.Machine.Call
import ScriptEngine.Machine.Load
import ScriptEngine.Proofs.Code.Flow
import ScriptEngine.Proofs.Machine.Kinship
import ScriptEngine.Proofs.Runs

/-!
# Activities that leave the stacks alone

Most of what the machine does is about objects.  `Calm` says of such an activity that it keeps the
stacks of all contexts at work, and that a failure of it is none of the four that the machine itself
can run into when it executes code.  What is put together of calm activities is calm.

* `Cause.Internal`   no operand, no frame, no word, or no instruction where there should be one;
* `Led`              what an activity has led to;
* `Calm.bind`        one activity after the other;
* `calm_alloc`, `calm_setHashed`, `calm_load`, ...   the activities on objects.
-/

namespace ScriptEngine

/-- Causes that only code that does not fit its shapes can have. -/
def Cause.Internal : Cause → Prop
  | .stackUnderflow | .noFrame | .offCode | .invalidWord _ => True
  | _ => False

/-- A failure that is not internal. -/
def Failure.External (e : Failure) : Prop := ¬ e.cause.Internal

/-- A reading that fails, if at all, for a cause that is not internal. -/
def Mild {α : Type} (r : Except Cause α) : Prop := ∀ c, r = .error c → ¬ c.Internal

section

variable {α β : Type}

theorem mild_ok (a : α) : Mild (.ok a : Except Cause α) := nofun

theorem mild_error {c : Cause} (hc : ¬ c.Internal) : Mild (.error c : Except Cause α) := by
  rintro _ ⟨⟩
  exact hc

theorem Mild.bind {r : Except Cause α} {f : α → Except Cause β} (hr : Mild r)
    (hf : ∀ a, Mild (f a)) : Mild (r >>= f) := by
  cases r with
  | ok a => exact hf a
  | error c => exact mild_error (hr c rfl)

namespace Heap

variable (h : Heap)

theorem mild_numOf (v : Value) : Mild (h.numOf v) := by
  unfold numOf
  split
  · exact mild_ok _
  · exact mild_error id
  · split
    · split
      · exact mild_ok _
      · exact mild_error id
    · exact mild_error id

theorem mild_truth (v : Value) : Mild (h.truth v) := by
  unfold truth
  split
  · exact mild_ok _
  · exact mild_ok _
  · split
    · exact mild_ok _
    · exact mild_error id

theorem mild_indexOf (v : Value) : Mild (h.indexOf v) := by
  unfold indexOf
  refine (h.mild_numOf v).bind fun x => ?_
  split
  · exact mild_ok _
  · exact mild_error id

theorem mild_byteOf (v : Value) : Mild (h.byteOf v) := by
  unfold byteOf
  refine (h.mild_numOf v).bind fun x => ?_
  split
  · exact mild_ok _
  · exact mild_error id

theorem mild_textOf (v : Value) : Mild (h.textOf v) := by
  unfold textOf
  split
  · exact mild_ok _
  · split
    · exact mild_error id
    · exact mild_error id

theorem mild_indexIn (key : Value) (len : Nat) (what : String) : Mild (h.indexIn key len what) := by
  unfold indexIn
  refine (h.mild_indexOf key).bind fun raw => ?_
  extract_lets i j
  split
  · exact mild_error id
  · exact mild_ok _

theorem mild_sliceBound (v : Value) (len : Nat) (default : Int) :
    Mild (h.sliceBound v len default) := by
  unfold sliceBound
  split
  · exact mild_ok _
  · exact (h.mild_indexOf v).bind fun _ => mild_ok _

theorem mild_sliceBounds (start stop : Value) (len : Nat) : Mild (h.sliceBounds start stop len) := by
  unfold sliceBounds
  refine (h.mild_sliceBound start len 0).bind fun a => ?_
  refine (h.mild_sliceBound stop len _).bind fun b => ?_
  split
  · exact mild_ok _
  · split
    · exact mild_error id
    · exact mild_ok _

theorem mild_element (box key : Value) : Mild (h.element box key) := by
  unfold element
  split
  · split
    · exact mild_ok _
    · exact mild_error id
  · exact (h.mild_indexIn key _ _).bind fun _ => mild_ok _
  · exact (h.mild_indexIn key _ _).bind fun _ => mild_ok _
  · exact mild_error id

theorem mild_firstAnswer {f : Value → Nat → Except Cause (Option Value × Nat)}
    (hf : ∀ v n, Mild (f v n)) (vs : List Value) (visits : Nat) :
    Mild (firstAnswer f vs visits) := by
  induction vs generalizing visits with
  | nil => exact mild_ok _
  | cons v vs ih =>
    unfold firstAnswer
    split
    · exact ih _
    · exact hf v visits

theorem mild_findMember (parents sym : Value) (hash : UInt32) (interned : Bool) (depth : Nat)
    (obj : Value) (visits : Nat) :
    Mild (h.findMember parents sym hash interned depth obj visits) := by
  induction depth generalizing obj visits with
  | zero => exact mild_ok _
  | succ depth ih =>
    unfold findMember
    split
    · exact mild_ok _
    · split
      · exact mild_ok _
      · split
        · exact mild_ok _
        · split
          · exact mild_ok _
          · split
            · exact mild_error id
            · exact mild_firstAnswer ih _ _

end Heap

end

/-! ## activities -/

namespace Act

/-- What an activity has led to: the contexts at work are kept, and a failure is not internal. -/
inductive Led {α : Type} (held : List CtxId) (w : World) : EStateM.Result Failure World α → Prop
  | done {a : α} {w' : World} (h : w.Keeps held w') : Led held w (.ok a w')
  | failed {e : Failure} {w' : World} (h : w.Keeps held w') (he : e.External) :
    Led held w (.error e w')

/-- An activity that keeps the contexts at work. -/
structure Calm {α : Type} (held : List CtxId) (x : Act α) : Prop where
  led : ∀ w, w.Fit held → Led held w (x.run w)

section

variable {α β : Type} {held outer : List CtxId} {cx : CtxId} {x : Act α}

theorem Led.after {w w' : World} {r : EStateM.Result Failure World α} (hk : w.Keeps held w')
    (h : Led held w' r) : Led held w r := by
  cases h with
  | done h => exact .done (hk.trans h)
  | failed h he => exact .failed (hk.trans h) he

/-- What comes next may rely on what is known of any result. -/
theorem Calm.bind_of (P : α → Prop) {f : α → Act β} (hx : Calm held x)
    (hP : ∀ {a w w'}, x.run w = .ok a w' → P a) (hf : ∀ a, P a → Calm held (f a)) :
    Calm held (x >>= f) := by
  refine ⟨fun w hw => ?_⟩
  have hled := hx.led w hw
  cases hr : x.run w with
  | ok a w' =>
    rw [hr] at hled
    rw [run_bind_of_ok hr]
    cases hled with
    | done hk => exact ((hf a (hP hr)).led w' hk.fit).after hk
  | error e w' =>
    rw [hr] at hled
    rw [run_bind_of_error hr]
    cases hled with
    | failed hk he => exact .failed hk he

theorem Calm.bind {f : α → Act β} (hx : Calm held x) (hf : ∀ a, Calm held (f a)) :
    Calm held (x >>= f) := hx.bind_of (fun _ => True) (fun _ => trivial) fun a _ => hf a

theorem calm_pure (a : α) : Calm held (pure a : Act α) := ⟨fun _ hw => .done (.refl hw)⟩

theorem calm_throw {e : Failure} (he : e.External) : Calm held (throw e : Act α) :=
  ⟨fun _ hw => .failed (.refl hw) he⟩

theorem calm_fail {c : Cause} (hc : ¬ c.Internal) : Calm held (fail c : Act α) := calm_throw hc

theorem calm_get : Calm held (get : Act World) := ⟨fun _ hw => .done (.refl hw)⟩

theorem calm_ofExcept {r : Except Cause α} (hr : Mild r) : Calm held (ofExcept r) := by
  cases r with
  | ok a => exact calm_pure a
  | error c => exact calm_fail (hr c rfl)

theorem calm_heap : Calm held heap := calm_get.bind fun _ => calm_pure _

theorem calm_options : Calm held options := calm_get.bind fun _ => calm_pure _

theorem calm_ctx (c : CtxId) : Calm held (ctx c) := calm_get.bind fun _ => calm_pure _

theorem calm_read {f : Heap → Except Cause α} (hf : ∀ h, Mild (f h)) : Calm held (read f) :=
  calm_heap.bind fun h => calm_ofExcept (hf h)

theorem calm_modify {f : World → World} (hf : ∀ w : World, w.Still (f w)) :
    Calm held (modify f : Act Unit) := ⟨fun w hw => .done (hw.still (hf w))⟩

theorem calm_modifyGet {f : World → α × World} (hf : ∀ w : World, w.Still (f w).2) :
    Calm held (modifyGet f : Act α) := ⟨fun w hw => .done (hw.still (hf w))⟩

theorem Calm.discard (hx : Calm held x) : Calm held (discard x : Act PUnit) :=
  hx.bind fun _ => calm_pure _

theorem calm_forM_of {f : α → Act Unit} {as : List α} (hf : ∀ a ∈ as, Calm held (f a)) :
    Calm held (as.forM f) := by
  induction as with
  | nil => exact calm_pure ()
  | cons a as ih =>
    exact (hf a List.mem_cons_self).bind fun _ => ih fun b hb => hf b (List.mem_cons_of_mem _ hb)

theorem calm_forM {f : α → Act Unit} (hf : ∀ a, Calm held (f a)) (as : List α) :
    Calm held (as.forM f) := calm_forM_of fun a _ => hf a

/-! ### objects -/

theorem calm_modifyHeap {f : Heap → Heap} (hf : ∀ h, h.Typed → (f h).Typed) :
    Calm held (modifyHeap f) := calm_modify fun w => .of_eq rfl rfl rfl (hf w.heap)

theorem calm_alloc (k : Kind) {b : Body} (hb : b.Typed) : Calm held (alloc cx k b) :=
  calm_modifyGet fun w => w.still_alloc cx k hb

theorem calm_newStr (bs : Bytes) : Calm held (newStr cx bs) := calm_alloc .str trivial

theorem calm_newVec (items : Array Value) : Calm held (newVec cx items) := calm_alloc .vec trivial

theorem calm_newHash : Calm held (newHash cx) := calm_alloc .hash trivial

theorem calm_newClosure (ns next : Value) : Calm held (newClosure cx ns next) :=
  calm_alloc .closure trivial

theorem calm_newFunc (target scope : Value) : Calm held (newFunc cx target scope) :=
  calm_alloc .func trivial

theorem calm_intern (name : Bytes) : Calm held (intern name) :=
  calm_modifyGet fun _ => .of_eq rfl rfl rfl fun ht => ht.intern name

theorem calm_hashKey (key : Value) : Calm held (hashKey key) :=
  calm_modifyGet fun _ => .of_eq rfl rfl rfl fun ht => ht.freeze key

theorem calm_retire : Calm held retire := calm_modify World.still_retire

theorem calm_setHashed (box key : Value) (hash : UInt32) (interned : Bool) (v : Value) :
    Calm held (setHashed box key hash interned v) := by
  unfold setHashed
  refine calm_heap.bind fun h => ?_
  split
  · refine Calm.bind (calm_modifyGet fun w => .of_eq rfl rfl rfl fun ht => ?_) fun retired => ?_
    · exact ht.store box key hash interned v
    · split
      · exact calm_retire
      · exact calm_pure _
  · exact calm_fail id

theorem calm_hashSet (box key v : Value) : Calm held (hashSet box key v) :=
  (calm_hashKey key).bind fun _ => calm_setHashed ..

theorem calm_hashGet (box key : Value) : Calm held (hashGet box key) := by
  unfold hashGet
  refine calm_heap.bind fun h => ?_
  split
  · exact (calm_hashKey key).bind fun _ => calm_heap.bind fun _ => calm_pure _
  · exact calm_pure _

theorem calm_hashDelete (box key : Value) : Calm held (hashDelete box key) := by
  unfold hashDelete
  refine calm_heap.bind fun h => ?_
  split
  · refine (calm_hashKey key).bind fun k => ?_
    refine Calm.bind (calm_modifyGet fun w => .of_eq rfl rfl rfl fun ht => ?_) fun r => ?_
    · exact ht.remove box key k.1 k.2
    · show Calm held (ite _ _ _)
      split
      · exact calm_retire.bind fun _ => calm_pure _
      · exact calm_pure _
  · exact calm_fail id

theorem calm_modifyVec (v : Value) (f : Array Value → Array Value) :
    Calm held (modifyVec v f) := by
  unfold modifyVec
  refine calm_heap.bind fun h => ?_
  split
  · refine Calm.bind (calm_modifyHeap fun h ht => ht.modify _ fun b hb => ?_) fun _ => calm_pure _
    split
    · trivial
    · exact hb
  · exact calm_pure _

theorem calm_vecSet (v : Value) (i : Nat) (item : Value) : Calm held (vecSet v i item) := by
  unfold vecSet
  refine calm_heap.bind fun h => ?_
  split
  · split
    · exact calm_modifyVec _ _
    · exact calm_pure _
  · exact calm_pure _

/-! ### members and elements -/

theorem calm_hashMember (obj sym : Value) (hash : UInt32) (interned : Bool) :
    Calm held (hashMember obj sym hash interned) := by
  unfold hashMember
  refine calm_get.bind fun w => ?_
  have hmild := w.heap.mild_findMember (.obj w.symParents) sym hash interned
    (w.options.maxParentsDepth + 1) obj w.options.maxParentsVisits
  dsimp only
  split
  · exact calm_pure _
  · rename_i c hc
    exact calm_fail (hmild c hc)

theorem calm_extract (box key : Value) : Calm held (extract box key) := by
  unfold extract
  refine calm_heap.bind fun h => ?_
  have hread : Calm held (read fun h => h.element box key) :=
    calm_read fun h => h.mild_element box key
  show Calm held (ite _ _ _)
  split
  · exact (calm_hashKey key).discard.bind fun _ => hread
  · exact hread

theorem calm_insert (box key v : Value) : Calm held (insert box key v) := by
  unfold insert
  refine calm_heap.bind fun h => ?_
  split
  · split
    · exact calm_hashSet ..
    · exact calm_fail id
  · refine (calm_ofExcept (h.mild_indexIn key _ _)).bind fun i => ?_
    exact (calm_vecSet ..).discard
  · refine (calm_ofExcept (h.mild_byteOf v)).bind fun b => ?_
    refine (calm_ofExcept (h.mild_indexIn key _ _)).bind fun i => ?_
    split
    · exact calm_modifyHeap fun h ht => ht.modify _ fun _ _ => trivial
    · exact calm_fail id
  · exact calm_fail id

theorem calm_slice (box start stop : Value) : Calm held (slice cx box start stop) := by
  unfold slice
  refine calm_heap.bind fun h => ?_
  split
  · refine (calm_ofExcept (h.mild_sliceBounds start stop _)).bind fun b => ?_
    split
    · exact calm_newVec _
    · exact calm_newVec _
  · refine (calm_ofExcept (h.mild_sliceBounds start stop _)).bind fun b => ?_
    split
    · exact calm_newStr _
    · exact calm_newStr _
  · exact calm_fail id

theorem calm_concat (a b : Value) : Calm held (concat cx a b) := by
  unfold concat
  refine calm_heap.bind fun h => ?_
  split
  · exact calm_newVec _
  · refine (calm_ofExcept (h.mild_textOf a)).bind fun s => ?_
    exact (calm_ofExcept (h.mild_textOf b)).bind fun t => calm_newStr _

/-! ### arguments -/

theorem calm_bindMe (locals me : Value) : Calm held (bindMe locals me) := by
  unfold bindMe
  split
  · exact calm_get.bind fun _ => calm_hashSet ..
  · exact calm_pure _

theorem calm_bindArgs (code : Loaded) (locals : Value) (args : Array Value) (me : Value) :
    Calm held (bindArgs cx code locals args me) := by
  have hconst (i : Nat) (v : Value) : Calm held (bindConst code locals i v) := calm_setHashed ..
  unfold bindArgs
  refine (calm_bindMe locals me).bind fun _ => ?_
  extract_lets need extra rest
  have hrest : Calm held (rest ()) := by
    refine (calm_forM (fun _ => hconst _ _) _).bind fun _ => ?_
    refine (calm_forM (fun _ => hconst _ _) _).bind fun _ => ?_
    split
    · split
      · exact (calm_newVec _).bind fun _ => hconst _ _
      · exact calm_pure _
    · exact calm_pure _
  split
  · exact Calm.bind (calm_fail id) fun _ => hrest
  · exact hrest

theorem calm_isBound (code : Loaded) (locals : Value) (i : Nat) :
    Calm held (isBound code locals i) := calm_heap.bind fun _ => calm_pure _

theorem calm_bindNamed (code : Loaded) (locals named me : Value) :
    Calm held (bindNamed cx code locals named me) := by
  have hconst (i : Nat) (v : Value) : Calm held (bindConst code locals i v) := calm_setHashed ..
  unfold bindNamed
  refine calm_heap.bind fun _ => (calm_bindMe locals me).bind fun _ => ?_
  refine (calm_forM (fun _ => calm_hashSet ..) _).bind fun _ => ?_
  refine (calm_forM (fun i => ?_) _).bind fun _ => ?_
  · refine (calm_isBound code locals i).bind fun _ => ?_
    split
    · exact calm_heap.bind fun _ => calm_fail id
    · exact calm_pure _
  refine (calm_forM (fun i => ?_) _).bind fun _ => ?_
  · refine (calm_isBound code locals i.1).bind fun _ => ?_
    split
    · exact hconst _ _
    · exact calm_pure _
  split
  · split
    · exact (calm_newVec _).bind fun _ => hconst _ _
    · exact calm_pure _
  · exact calm_pure _

/-! ### loading code -/

theorem typed_loaded {c : Code Const} (hc : c.Assembled) {consts : Array Value} {hashes : Array UInt32}
    (hsize : consts.size = c.consts.size) (hhashes : hashes.size = consts.size) :
    Loaded.Typed { c with consts, hashes } := ⟨hsize ▸ hc.typing, hhashes⟩

/-- There is a value and a hash for each constant. -/
theorem size_loadList (cs : List Const) {vs vs' : Array Value} {hs hs' : Array UInt32}
    {w w' : World} (h : (loadList cx cs vs hs).run w = .ok (vs', hs') w') :
    vs'.size = vs.size + cs.length ∧ hs'.size = hs.size + cs.length := by
  induction cs generalizing vs hs w with
  | nil =>
    unfold loadList at h
    cases h
    exact ⟨rfl, rfl⟩
  | cons c cs ih =>
    unfold loadList at h
    obtain ⟨⟨v, hash⟩, w₁, -, h₁⟩ := run_bind_ok h
    obtain ⟨h₂, h₃⟩ := ih h₁
    rw [Array.size_push] at h₂ h₃
    rw [List.length_cons]
    omega

mutual
theorem calm_loadConst (c : Const) (hc : ∀ d, c = .code d → d.Assembled) :
    Calm held (loadConst cx c) := by
  cases c with
  | nil => exact calm_pure _
  | number x => exact calm_pure _
  | text s => exact (calm_newStr s).bind fun _ => (calm_hashKey _).bind fun _ => calm_pure _
  | name s => exact (calm_intern s).bind fun _ => (calm_hashKey _).bind fun _ => calm_pure _
  | code c => exact (calm_load c (hc c rfl)).bind fun _ => calm_pure _
theorem calm_load (c : Code Const) (hc : c.Assembled) : Calm held (load cx c) := by
  obtain ⟨words, consts, lines, file, params, optional, rest, needsRest⟩ := c
  have hinner : ∀ d, .code d ∈ consts → d.Assembled := hc.inside
  refine Calm.bind_of (fun p => p.1.size = consts.size ∧ p.2.size = p.1.size)
    (calm_loadConsts consts hinner) (fun h => ?_) fun p hp => ?_
  · obtain ⟨consts⟩ := consts
    obtain ⟨h₁, h₂⟩ := size_loadList consts h
    rw [Array.size_empty, Nat.zero_add] at h₁ h₂
    exact ⟨h₁, h₂.trans h₁.symm⟩
  · exact calm_alloc .code (typed_loaded hc hp.1 hp.2)
theorem calm_loadConsts (cs : Array Const) (hc : ∀ d, .code d ∈ cs → d.Assembled) :
    Calm held (loadConsts cx cs) := by
  obtain ⟨cs⟩ := cs
  exact calm_loadList cs #[] #[] fun d hd => hc d (List.mem_toArray.mpr hd)
theorem calm_loadList (cs : List Const) (vs : Array Value) (hs : Array UInt32)
    (hc : ∀ d, .code d ∈ cs → d.Assembled) : Calm held (loadList cx cs vs hs) := by
  cases cs with
  | nil => exact calm_pure _
  | cons c cs =>
    refine (calm_loadConst c fun d hd => hc d (hd ▸ List.mem_cons_self)).bind fun p => ?_
    exact calm_loadList cs _ _ fun d hd => hc d (List.mem_cons_of_mem _ hd)
end

theorem calm_compile (src : Bytes) (file : String) (firstLine : Nat) :
    Calm held (compile cx src file firstLine) := by
  have hcode := compile_assembled src file firstLine
  unfold compile
  split
  · rename_i c hc
    rw [hc] at hcode
    cases hcode with
    | ok h => exact (calm_load c h).bind fun _ => calm_pure _
  · rename_i u hu
    rw [hu] at hcode
    cases hcode with
    | error h =>
      refine Calm.bind ?_ fun _ => calm_pure _
      exact calm_forM_of fun consts hm => (calm_loadConsts consts (h consts hm)).discard

/-! ### children -/

theorem calm_freeChild : Calm (cx :: outer) (freeChild cx) := by
  refine ⟨fun w hw => ?_⟩
  obtain ⟨w', hrun, hkeeps, -⟩ := hw.freeChild
  rw [hrun]
  exact .done hkeeps

theorem calm_subContext : Calm (cx :: outer) (subContext cx) := by
  refine ⟨fun w hw => ?_⟩
  unfold subContext
  show Led _ w (EStateM.run (ite _ _ _) w)
  split
  · exact .failed (.refl hw) id
  · obtain ⟨w₁, hrun, hkeeps, -, hnesting, -⟩ := hw.freeChild
    rw [run_bind_of_ok hrun]
    refine .done (hkeeps.trans (hkeeps.fit.kin.newContext.adopt hkeeps.fit ?_))
    rw [hnesting]
    exact Nat.lt_succ_self _

theorem calm_rethrow {e : Failure} (he : e.External) : Calm held (rethrow cx e : Act α) :=
  Calm.bind (calm_modify fun _ => World.still_modifyCtx cx fun _ => rfl) fun _ => calm_throw he

end

end Act

/-! ## libraries -/

def OutcomeExternal (r : Except Failure Value) : Prop := ∀ e, r = .error e → e.External

/-- A library whose natives and ghosts keep the contexts at work, and that never fail for an
internal cause of their own making. -/
structure Library.Calm (lib : Library) : Prop where
  start : ∀ {name b}, lib.native name = some b → ∀ cx outer n me args,
    Act.Calm (cx :: outer) (b.start cx n me args)
  resume : ∀ {name b}, lib.native name = some b → ∀ cx outer n wait r, OutcomeExternal r →
    Act.Calm (cx :: outer) (b.resume cx n wait r)
  get : ∀ {type get}, (lib.ghost type).get = some get → ∀ cx outer obj name,
    Act.Calm (cx :: outer) (get cx obj name)
  set : ∀ {type set}, (lib.ghost type).set = some set → ∀ cx outer obj name v,
    Act.Calm (cx :: outer) (set cx obj name v)

namespace Act

variable {lib : Library} {cx : CtxId} {outer : List CtxId}

theorem calm_member (hlib : lib.Calm) (obj sym : Value) (hash : UInt32) (interned : Bool) :
    Calm (cx :: outer) (member lib cx obj sym hash interned) := by
  unfold member
  refine calm_heap.bind fun h => ?_
  split
  · exact calm_hashMember ..
  · split
    · rename_i hget
      exact hlib.get hget ..
    · exact calm_fail id
  · exact calm_fail id

theorem calm_setMember (hlib : lib.Calm) (obj sym : Value) (hash : UInt32) (interned : Bool)
    (v : Value) : Calm (cx :: outer) (setMember lib cx obj sym hash interned v) := by
  unfold setMember
  refine calm_heap.bind fun h => ?_
  split
  · exact calm_setHashed ..
  · split
    · rename_i hset
      exact hlib.set hset ..
    · exact calm_fail id
  · exact calm_fail id

theorem calm_startNative (hlib : lib.Calm) (n : Native) (me : Value) (args : Array Value) :
    Calm (cx :: outer) (startNative lib cx n me args) := by
  unfold startNative
  split
  · rename_i hb
    exact hlib.start hb ..
  · exact calm_fail id

end Act

end ScriptEngine
