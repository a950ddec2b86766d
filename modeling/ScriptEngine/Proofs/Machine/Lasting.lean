import ScriptEngine.Machine.Load
import ScriptEngine.Machine.Step
import ScriptEngine.Proofs.Heap.Lasting
import ScriptEngine.Proofs.Machine.Neatness
import ScriptEngine.Proofs.Natives.Habits
import ScriptEngine.Proofs.Runs

/-!
# Activities that undo nothing

Whatever is done on an engine, the cells stay in their pools and the code keeps its lines.  And a failure
that comes up has no trace yet: only a failure that has been told of already can have one.

* `Act.Lasting`   an activity that undoes nothing, and fails without a trace or with what it was told;
* `Act.lasting_alloc`, `Act.lasting_push`, `Act.lasting_compile`, ...   the activities on objects and
  operands, and loading code;
* `Library.Lasting`   natives and ghosts that are so;
* `Library.lasting_core`   the core library.
-/

namespace ScriptEngine

/-! ## collecting and making objects -/

namespace World

variable {w w' : World}

theorem lasts_collectGarbage (w : World) : w.heap.Lasts w.collectGarbage.heap :=
  (Heap.lasts_mark w.heap _).trans (Heap.lasts_sweep _)

theorem lasts_serve (w : World) : w.heap.Lasts w.serve.heap := by
  unfold World.serve
  dsimp only
  split
  · exact lasts_collectGarbage w.freeDead
  · exact .refl _

theorem lasts_serve_of (h : w'.heap = w.heap) : w.heap.Lasts w'.serve.heap := h ▸ lasts_serve w'

theorem lasts_enter (w : World) : w.heap.Lasts w.enter.heap := by
  unfold World.enter
  dsimp only
  split
  · exact .refl _
  · split
    · exact lasts_serve_of rfl
    · exact .refl _

theorem lasts_leave (w : World) : w.heap.Lasts w.leave.heap := by
  unfold World.leave
  dsimp only
  split
  · exact .refl _
  · split
    · exact lasts_serve_of rfl
    · exact .refl _

theorem lasts_poll (w : World) : w.heap.Lasts w.poll.heap := by
  unfold World.poll
  split
  · exact lasts_serve w
  · exact .refl _

theorem lasts_collectNow (w : World) : w.heap.Lasts w.collectNow.heap := by
  unfold World.collectNow
  split
  · exact lasts_serve_of rfl
  · exact .refl _

theorem lasts_collect (w : World) : w.heap.Lasts w.collect.heap := by
  unfold World.collect
  split
  · exact .refl _
  · exact ((lasts_enter w).trans (lasts_collectNow _)).trans (lasts_leave _)

theorem lasts_retire (w : World) : w.heap.Lasts w.retire.heap := by
  unfold World.retire
  dsimp only
  split
  · split
    · exact lasts_serve_of rfl
    · exact .refl _
  · exact .refl _

theorem lasts_growCells (w : World) (k : Kind) (n : Nat) : w.heap.Lasts (w.growCells k n).2.heap :=
  (Heap.lasts_takeOrGrow w.heap k).trans (Heap.lasts_take _ k _)

theorem lasts_cellsOf (w : World) (k : Kind) (n : Nat) : w.heap.Lasts (w.cellsOf k n).2.heap := by
  have hserved : w.heap.Lasts (if w.gate.raised && w.mayServe then w.serve else w).heap := by
    split
    · exact lasts_serve w
    · exact .refl _
  unfold World.cellsOf
  dsimp only
  generalize (if w.gate.raised && w.mayServe then w.serve else w) = w₁ at hserved ⊢
  refine hserved.trans ?_
  split
  · exact Heap.lasts_take _ k n
  · split
    · refine (lasts_serve { w₁ with gate := { w₁.gate with needGc := true } }).trans ?_
      split
      · exact Heap.lasts_take _ k n
      · exact lasts_growCells _ k n
    · exact lasts_growCells { w₁ with gate := { w₁.gate with needGc := true } } k n

theorem lasts_refill (w : World) (cx : CtxId) (k : Kind) (b : Body) : w.heap.Lasts (w.refill cx k b).2.heap :=
  lasts_cellsOf (w.modifyCtx cx fun c => { c with temps := c.temps ++ b.children.toArray }) k _

/-- Making an object, which is code with lines if it is code. -/
theorem lasts_alloc (w : World) (cx : CtxId) (k : Kind) {b : Body} (hb : b.Lined) :
    w.heap.Lasts (w.alloc cx k b).2.heap := by
  unfold World.alloc
  split
  rename_i a w₁ hcell
  have hw₁ : w.heap.Lasts w₁.heap := by
    split at hcell
    · cases hcell
      exact .refl _
    · have hrefill := lasts_refill w cx k b
      rwa [hcell] at hrefill
  exact hw₁.trans (Heap.lasts_install w₁.heap a hb)

theorem heap_newContext (w : World) : w.newContext.2.heap = w.heap := by
  unfold World.newContext
  split <;> rfl

theorem heap_freeChain (n : Nat) (c : Option CtxId) (w : World) : (freeChain n c w).heap = w.heap := by
  induction n generalizing c w with
  | zero => rfl
  | succ n ih =>
    cases c with
    | none => rfl
    | some c =>
      unfold World.freeChain
      dsimp only
      rw [ih]
      split <;> rfl

end World

namespace Act

/-- What an activity has led to.  A failure has no trace yet, or was told of. -/
inductive Lasted {α : Type} (told : Failure → Prop) (w : World) (ok : α → Prop) :
    EStateM.Result Failure World α → Prop
  | done {a : α} {w' : World} (lasts : w.heap.Lasts w'.heap) (ha : ok a) : Lasted told w ok (.ok a w')
  | failed {e : Failure} {w' : World} (lasts : w.heap.Lasts w'.heap) (he : e.trace = [] ∨ told e) :
    Lasted told w ok (.error e w')

/-- An activity that undoes nothing, whatever the engine, and gives what is `ok`. -/
structure Lasting {α : Type} (told : Failure → Prop) (x : Act α) (ok : α → Prop := fun _ => True) : Prop where
  lasted : ∀ w, Lasted told w ok (x.run w)

/-- An instruction hands a failure of a native on as a result. -/
def Outcome.Untold (told : Failure → Prop) (o : Outcome) : Prop :=
  ∀ base n e, o = .native base n (.error e) → e.trace = [] ∨ told e

theorem Outcome.untold_next {told : Failure → Prop} : Outcome.next.Untold told :=
  fun _ _ _ h => nomatch h

theorem Outcome.untold_returned {told : Failure → Prop} (v : Value) : (Outcome.returned v).Untold told :=
  fun _ _ _ h => nomatch h

section

variable {α β : Type} {told : Failure → Prop} {ok : α → Prop} {after : β → Prop} {x : Act α} {cx : CtxId}

theorem Lasting.bind {f : α → Act β} (hx : Lasting told x) (hf : ∀ a, Lasting told (f a) after) :
    Lasting told (x >>= f) after := by
  refine ⟨fun w => ?_⟩
  have hl := hx.lasted w
  cases hr : x.run w with
  | ok a w' =>
    rw [hr] at hl
    rw [run_bind_of_ok hr]
    cases hl with
    | done lasts _ =>
      have hnext := (hf a).lasted w'
      cases hr' : (f a).run w' with
      | ok b w'' =>
        rw [hr'] at hnext
        cases hnext with
        | done lasts' hb => exact .done (lasts.trans lasts') hb
      | error e w'' =>
        rw [hr'] at hnext
        cases hnext with
        | failed lasts' he => exact .failed (lasts.trans lasts') he
  | error e w' =>
    rw [hr] at hl
    rw [run_bind_of_error hr]
    cases hl with
    | failed lasts he => exact .failed lasts he

theorem lasting_pure {a : α} (ha : ok a) : Lasting told (pure a : Act α) ok := ⟨fun _ => .done (.refl _) ha⟩

theorem lasting_return (a : α) : Lasting told (pure a : Act α) := lasting_pure trivial

theorem lasting_throw {e : Failure} (he : e.trace = [] ∨ told e) : Lasting told (throw e : Act α) ok :=
  ⟨fun _ => .failed (.refl _) he⟩

theorem lasting_fail (c : Cause) : Lasting told (fail c : Act α) ok := lasting_throw (.inl rfl)

theorem Lasting.ite {p : Prop} [Decidable p] {y : Act α} (hx : Lasting told x ok) (hy : Lasting told y ok) :
    Lasting told (if p then x else y) ok := by
  split
  · exact hx
  · exact hy

theorem Lasting.check {p : Prop} [Decidable p] {c : Cause} (hx : Lasting told x ok) :
    Lasting told (if p then fail c >>= fun (_ : PUnit) => x else x) ok :=
  Lasting.ite ((lasting_fail c).bind fun _ => hx) hx

theorem Lasting.discard (hx : Lasting told x) : Lasting told (discard x : Act PUnit) :=
  hx.bind fun _ => lasting_return _

theorem Lasting.next {x : Act Unit} (hx : Lasting told x) :
    Lasting told (x >>= fun _ => pure Outcome.next) (Outcome.Untold told) :=
  hx.bind fun _ => lasting_pure Outcome.untold_next

theorem lasting_get : Lasting told (get : Act World) := ⟨fun _ => .done (.refl _) trivial⟩

theorem lasting_heap : Lasting told heap := lasting_get.bind fun _ => lasting_return _

theorem lasting_options : Lasting told options := lasting_get.bind fun _ => lasting_return _

theorem lasting_ctx (cx : CtxId) : Lasting told (ctx cx) := lasting_get.bind fun _ => lasting_return _

theorem lasting_modify {f : World → World} (hf : ∀ w : World, w.heap.Lasts (f w).heap) :
    Lasting told (modify f : Act Unit) := ⟨fun w => .done (hf w) trivial⟩

theorem lasting_modifyGet {f : World → α × World} (hf : ∀ w : World, w.heap.Lasts (f w).2.heap) :
    Lasting told (modifyGet f : Act α) := ⟨fun w => .done (hf w) trivial⟩

theorem lasting_modifyCtx (cx : CtxId) (f : Context → Context) : Lasting told (modifyCtx cx f) :=
  lasting_modify fun _ => .refl _

theorem lasting_modifyHeap {f : Heap → Heap} (hf : ∀ h : Heap, h.Lasts (f h)) : Lasting told (modifyHeap f) :=
  lasting_modify fun w => hf w.heap

theorem lasting_ofExcept (r : Except Cause α) : Lasting told (ofExcept r) := by
  cases r with
  | ok a => exact lasting_return a
  | error c => exact lasting_fail c

theorem lasting_read (f : Heap → Except Cause α) : Lasting told (read f) :=
  lasting_heap.bind fun _ => lasting_ofExcept _

theorem lasting_forM {f : α → Act Unit} {as : List α} (hf : ∀ a ∈ as, Lasting told (f a)) :
    Lasting told (as.forM f) := by
  induction as with
  | nil => exact lasting_return _
  | cons a as ih =>
    exact (hf a List.mem_cons_self).bind fun _ => ih fun b hb => hf b (List.mem_cons_of_mem _ hb)

end

section

variable {told : Failure → Prop} {cx : CtxId}

/-! ## objects -/

theorem lasting_alloc (k : Kind) {b : Body} (hb : b.Lined) : Lasting told (alloc cx k b) :=
  lasting_modifyGet fun w => w.lasts_alloc cx k hb

theorem lasting_newStr (bs : Bytes) : Lasting told (newStr cx bs) := lasting_alloc .str trivial

theorem lasting_newVec (items : Array Value) : Lasting told (newVec cx items) := lasting_alloc .vec trivial

theorem lasting_newHash : Lasting told (newHash cx) := lasting_alloc .hash trivial

theorem lasting_newClosure (ns next : Value) : Lasting told (newClosure cx ns next) :=
  lasting_alloc .closure trivial

theorem lasting_newFunc (target scope : Value) : Lasting told (newFunc cx target scope) :=
  lasting_alloc .func trivial

theorem lasting_newNative (n : Native) : Lasting told (newNative cx n) :=
  Lasting.bind (lasting_alloc .native trivial) fun _ => lasting_newFunc _ _

theorem lasting_intern (name : Bytes) : Lasting told (intern name) :=
  lasting_modifyGet fun w => w.heap.lasts_intern name

theorem lasting_hashKey (key : Value) : Lasting told (hashKey key) :=
  lasting_modifyGet fun w => w.heap.lasts_freeze key

theorem lasting_retire : Lasting told retire := lasting_modify World.lasts_retire

theorem lasting_setHashed (box key : Value) (hash : UInt32) (interned : Bool) (v : Value) :
    Lasting told (setHashed box key hash interned v) := by
  unfold setHashed
  refine lasting_heap.bind fun h => ?_
  split
  · refine Lasting.bind (lasting_modifyGet fun w => w.heap.lasts_store box key hash interned v) fun _ => ?_
    exact Lasting.ite lasting_retire (lasting_return _)
  · exact lasting_fail _

theorem lasting_hashSet (box key v : Value) : Lasting told (hashSet box key v) :=
  (lasting_hashKey key).bind fun _ => lasting_setHashed ..

theorem lasting_hashGet (box key : Value) : Lasting told (hashGet box key) := by
  unfold hashGet
  refine lasting_heap.bind fun h => ?_
  split
  · exact (lasting_hashKey key).bind fun _ => lasting_heap.bind fun _ => lasting_return _
  · exact lasting_return _

theorem lasting_hashDelete (box key : Value) : Lasting told (hashDelete box key) := by
  unfold hashDelete
  refine lasting_heap.bind fun h => ?_
  split
  · refine (lasting_hashKey key).bind fun k => ?_
    refine Lasting.bind (lasting_modifyGet fun w => w.heap.lasts_remove box key k.1 k.2) fun _ => ?_
    exact Lasting.ite (lasting_retire.bind fun _ => lasting_return _) (lasting_return _)
  · exact lasting_fail _

theorem lasting_addSym (ns : Value) (name : String) (v : Value) : Lasting told (addSym ns name v) :=
  (lasting_intern _).bind fun _ => lasting_hashSet ..

theorem lasting_modifyVec (v : Value) (f : Array Value → Array Value) : Lasting told (modifyVec v f) := by
  unfold modifyVec
  refine lasting_heap.bind fun h => ?_
  split
  · refine Lasting.bind (lasting_modifyHeap fun h => h.lasts_modify _ fun b hb => ?_) fun _ => lasting_return _
    split
    · trivial
    · exact hb
  · exact lasting_return _

theorem lasting_vecSet (v : Value) (i : Nat) (item : Value) : Lasting told (vecSet v i item) := by
  unfold vecSet
  refine lasting_heap.bind fun h => ?_
  split
  · exact Lasting.ite (lasting_modifyVec ..) (lasting_return _)
  · exact lasting_return _

/-! ## operands and frames -/

theorem lasting_push (v : Value) : Lasting told (push cx v) :=
  lasting_options.bind fun _ => (lasting_ctx cx).bind fun _ => Lasting.check (lasting_modifyCtx ..)

theorem lasting_pop : Lasting told (pop cx) := by
  unfold pop
  refine (lasting_ctx cx).bind fun c => ?_
  split
  · exact (lasting_modifyCtx ..).bind fun _ => lasting_return _
  · exact lasting_fail _

theorem lasting_peek (depth : Nat) : Lasting told (peek cx depth) :=
  (lasting_ctx cx).bind fun _ => Lasting.ite (lasting_return _) (lasting_fail _)

theorem lasting_cut (height : Nat) : Lasting told (cut cx height) := lasting_modifyCtx ..

theorem lasting_replaceTop (n : Nat) (v : Value) : Lasting told (replaceTop cx n v) :=
  (lasting_modifyCtx ..).bind fun _ => lasting_push v

theorem lasting_frame : Lasting told (frame cx) := by
  unfold frame
  refine (lasting_ctx cx).bind fun c => ?_
  split
  · exact lasting_return _
  · exact lasting_fail _

theorem lasting_jump (ip : Nat) : Lasting told (jump cx ip) := lasting_modifyCtx ..

theorem lasting_pushFrame (func : Value) (code : Loaded) (locals scope : Value) (bp : Nat) :
    Lasting told (pushFrame cx func code locals scope bp) :=
  lasting_options.bind fun _ => (lasting_ctx cx).bind fun _ => Lasting.check (lasting_modifyCtx ..)

/-! ## children -/

theorem lasting_freeChild : Lasting told (freeChild cx) := by
  unfold freeChild
  refine (lasting_ctx cx).bind fun c => ?_
  split
  · refine (lasting_modifyCtx ..).bind fun _ => lasting_modify fun w => ?_
    rw [World.freeContext, World.heap_freeChain]
    exact .refl _
  · exact lasting_return _

theorem lasting_subContext : Lasting told (subContext cx) := by
  unfold subContext
  refine (lasting_ctx cx).bind fun _ => lasting_options.bind fun _ => Lasting.check ?_
  refine lasting_freeChild.bind fun _ => Lasting.bind (lasting_modifyGet fun w => ?_) fun sub => ?_
  · rw [w.heap_newContext]
    exact .refl _
  · exact (lasting_modifyCtx ..).bind fun _ => (lasting_modifyCtx ..).bind fun _ => lasting_return _

theorem lasting_rethrow {α : Type} {e : Failure} (he : e.trace = [] ∨ told e) :
    Lasting told (rethrow cx e : Act α) := (lasting_modifyCtx ..).bind fun _ => lasting_throw he

/-! ## names, members and elements -/

theorem lasting_chainBound : Lasting told chainBound := lasting_heap.bind fun _ => lasting_return _

theorem lasting_lookupSym (sym : Value) (hash : UInt32) : Lasting told (lookupSym cx sym hash) := by
  unfold lookupSym
  refine lasting_frame.bind fun f => lasting_chainBound.bind fun n => lasting_heap.bind fun h => ?_
  split
  · exact lasting_return _
  · split
    · exact lasting_return _
    · exact lasting_fail _

theorem lasting_setSym (sym : Value) (hash : UInt32) (v : Value) : Lasting told (setSym cx sym hash v) := by
  unfold setSym
  refine lasting_frame.bind fun f => lasting_chainBound.bind fun n => lasting_heap.bind fun h => ?_
  dsimp only
  exact Lasting.ite (lasting_setHashed ..) (lasting_setHashed ..)

theorem lasting_hashMember (obj sym : Value) (hash : UInt32) (interned : Bool) :
    Lasting told (hashMember obj sym hash interned) := by
  unfold hashMember
  refine lasting_get.bind fun w => ?_
  dsimp only
  split
  · exact lasting_return _
  · exact lasting_fail _

theorem lasting_extract (box key : Value) : Lasting told (extract box key) := by
  unfold extract
  refine lasting_heap.bind fun h => ?_
  exact Lasting.ite ((lasting_hashKey key).discard.bind fun _ => lasting_read _) (lasting_read _)

theorem lasting_insert (box key v : Value) : Lasting told (insert box key v) := by
  unfold insert
  refine lasting_heap.bind fun h => ?_
  split
  · exact Lasting.ite (lasting_hashSet ..) (lasting_fail _)
  · exact (lasting_ofExcept _).bind fun i => (lasting_vecSet ..).discard
  · refine (lasting_ofExcept _).bind fun b => (lasting_ofExcept _).bind fun i => ?_
    split
    · exact lasting_modifyHeap fun h => h.lasts_modify _ fun _ _ => trivial
    · exact lasting_fail _
  · exact lasting_fail _

theorem lasting_slice (box start stop : Value) : Lasting told (slice cx box start stop) := by
  unfold slice
  refine lasting_heap.bind fun h => ?_
  split
  · refine (lasting_ofExcept _).bind fun bounds => ?_
    split <;> exact lasting_newVec _
  · refine (lasting_ofExcept _).bind fun bounds => ?_
    split <;> exact lasting_newStr _
  · exact lasting_fail _

theorem lasting_concat (a b : Value) : Lasting told (concat cx a b) := by
  unfold concat
  refine lasting_heap.bind fun h => ?_
  split
  · exact lasting_newVec _
  · exact (lasting_ofExcept _).bind fun _ => (lasting_ofExcept _).bind fun _ => lasting_newStr _

/-! ## arguments -/

theorem lasting_bindConst (code : Loaded) (locals : Value) (i : Nat) (v : Value) :
    Lasting told (bindConst code locals i v) := lasting_setHashed ..

theorem lasting_bindMe (locals me : Value) : Lasting told (bindMe locals me) :=
  Lasting.ite (lasting_get.bind fun _ => lasting_hashSet ..) (lasting_return _)

theorem lasting_bindArgs (code : Loaded) (locals : Value) (args : Array Value) (me : Value) :
    Lasting told (bindArgs cx code locals args me) := by
  unfold bindArgs
  refine (lasting_bindMe ..).bind fun _ => Lasting.check ?_
  refine (lasting_forM fun _ _ => lasting_bindConst ..).bind fun _ => ?_
  refine (lasting_forM fun _ _ => lasting_bindConst ..).bind fun _ => ?_
  split
  · exact Lasting.ite ((lasting_newVec _).bind fun _ => lasting_bindConst ..) (lasting_return _)
  · exact lasting_return _

theorem lasting_isBound (code : Loaded) (locals : Value) (i : Nat) : Lasting told (isBound code locals i) :=
  lasting_heap.bind fun _ => lasting_return _

theorem lasting_bindNamed (code : Loaded) (locals named me : Value) :
    Lasting told (bindNamed cx code locals named me) := by
  unfold bindNamed
  refine lasting_heap.bind fun h => (lasting_bindMe ..).bind fun _ => ?_
  refine (lasting_forM fun _ _ => lasting_hashSet ..).bind fun _ => ?_
  refine (lasting_forM fun i _ => (lasting_isBound code locals i).bind fun _ => ?_).bind fun _ => ?_
  · exact Lasting.ite (lasting_heap.bind fun _ => lasting_fail _) (lasting_return _)
  refine (lasting_forM fun p _ => (lasting_isBound code locals p.1).bind fun _ => ?_).bind fun _ => ?_
  · exact Lasting.ite (lasting_bindConst ..) (lasting_return _)
  split
  · exact Lasting.ite ((lasting_newVec _).bind fun _ => lasting_bindConst ..) (lasting_return _)
  · exact lasting_return _

/-! ## loading code -/

mutual
theorem lasting_loadConst (c : Const) (hc : ∀ d, c = .code d → d.Assembled) :
    Lasting told (loadConst cx c) := by
  cases c with
  | nil | number _ => exact lasting_return _
  | text s => exact (lasting_newStr s).bind fun v => (lasting_hashKey v).bind fun _ => lasting_return _
  | name s => exact (lasting_intern s).bind fun v => (lasting_hashKey v).bind fun _ => lasting_return _
  | code c => exact (lasting_load c (hc c rfl)).bind fun _ => lasting_return _
theorem lasting_load (c : Code Const) (hc : c.Assembled) : Lasting told (load cx c) := by
  have hlined := hc.lined_body
  obtain ⟨words, consts, lines, file, params, optional, rest, needsRest⟩ := c
  have hinner : ∀ d, .code d ∈ consts → d.Assembled := hc.inside
  exact (lasting_loadConsts consts hinner).bind fun p => lasting_alloc .code (hlined p.1 p.2)
theorem lasting_loadConsts (cs : Array Const) (hc : ∀ d, .code d ∈ cs → d.Assembled) :
    Lasting told (loadConsts cx cs) := by
  obtain ⟨cs⟩ := cs
  exact lasting_loadList cs _ _ fun d hd => hc d (List.mem_toArray.mpr hd)
theorem lasting_loadList (cs : List Const) (vs : Array Value) (hs : Array UInt32)
    (hc : ∀ d, .code d ∈ cs → d.Assembled) : Lasting told (loadList cx cs vs hs) := by
  cases cs with
  | nil => exact lasting_return _
  | cons c cs =>
    refine (lasting_loadConst c fun d hd => hc d (hd ▸ List.mem_cons_self)).bind fun p => ?_
    exact lasting_loadList cs _ _ fun d hd => hc d (List.mem_cons_of_mem _ hd)
end

theorem lasting_compile (src : Bytes) (file : String) (firstLine : Nat) :
    Lasting told (compile cx src file firstLine) := by
  have hcode := compile_assembled src file firstLine
  unfold compile
  split
  · rename_i c hc
    rw [hc] at hcode
    cases hcode with
    | ok h => exact (lasting_load c h).bind fun _ => lasting_return _
  · rename_i u hu
    rw [hu] at hcode
    cases hcode with
    | error h =>
      exact (lasting_forM fun cs hcs => (lasting_loadConsts cs (h cs hcs)).discard).bind fun _ => lasting_return _

end

end Act

/-! ## natives -/

/-- A library whose natives and ghosts undo nothing and fail without a trace, or with a failure of their
own run on a child. -/
structure Library.Lasting (lib : Library) : Prop where
  start : ∀ {name b}, lib.native name = some b → ∀ told cx n me args, Act.Lasting told (b.start cx n me args)
  resume : ∀ {name b}, lib.native name = some b → ∀ told cx n wait r, (∀ e, r = .error e → told e) →
    Act.Lasting told (b.resume cx n wait r)
  get : ∀ {type get}, (lib.ghost type).get = some get → ∀ told cx obj name, Act.Lasting told (get cx obj name)
  set : ∀ {type set}, (lib.ghost type).set = some set → ∀ told cx obj name v,
    Act.Lasting told (set cx obj name v)

theorem habit_lasting (told : Failure → Prop) (cx : CtxId) :
    Habit cx (fun e => e.trace = [] ∨ told e) fun _ x => Act.Lasting told x where
  allows _ htrace := .inl htrace
  done := Act.lasting_return
  throws := Act.lasting_throw
  next := Act.Lasting.bind
  heap := Act.lasting_heap
  context hf _ := (Act.lasting_ctx cx).bind hf
  printed _ := Act.lasting_modify fun w => w.lasts_leave
  entered := Act.lasting_modify World.lasts_enter
  newStr := Act.lasting_newStr
  newVec := Act.lasting_newVec
  newHash := Act.lasting_newHash
  newClosure := Act.lasting_newClosure
  newFunc := Act.lasting_newFunc
  modifyVec := Act.lasting_modifyVec
  hashGet := Act.lasting_hashGet
  hashDelete := Act.lasting_hashDelete
  compile := Act.lasting_compile
  subContext := Act.lasting_subContext
  freeChild := Act.lasting_freeChild
  rethrow := Act.lasting_rethrow

/-- **The core library** undoes nothing. -/
theorem Library.lasting_core : Library.core.Lasting where
  start hb told cx n me args := (habit_lasting told cx).start me args hb n
  resume hb told cx n wait _ hr := (habit_lasting told cx).resume hb n wait fun e he => .inr (hr e he)
  get h := nomatch h
  set h := nomatch h

namespace Act

section

variable {told : Failure → Prop} {lib : Library} {cx : CtxId} (hlib : lib.Lasting)
include hlib

theorem lasting_member (obj sym : Value) (hash : UInt32) (interned : Bool) :
    Lasting told (member lib cx obj sym hash interned) := by
  unfold member
  refine lasting_heap.bind fun h => ?_
  split
  · exact lasting_hashMember ..
  · split
    · rename_i hget
      exact hlib.get hget ..
    · exact lasting_fail _
  · exact lasting_fail _

theorem lasting_setMember (obj sym : Value) (hash : UInt32) (interned : Bool) (v : Value) :
    Lasting told (setMember lib cx obj sym hash interned v) := by
  unfold setMember
  refine lasting_heap.bind fun h => ?_
  split
  · exact lasting_setHashed ..
  · split
    · rename_i hset
      exact hlib.set hset ..
    · exact lasting_fail _
  · exact lasting_fail _

theorem lasting_startNative (n : Native) (me : Value) (args : Array Value) :
    Lasting told (startNative lib cx n me args) := by
  unfold startNative
  split
  · rename_i hb
    exact hlib.start hb ..
  · exact lasting_fail _

end

end Act

end ScriptEngine
