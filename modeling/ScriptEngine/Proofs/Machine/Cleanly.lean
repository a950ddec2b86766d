import ScriptEngine.Machine.Load
import ScriptEngine.Machine.Step
import ScriptEngine.Proofs.Code.Expressions
import ScriptEngine.Proofs.Machine.Cleanness
import ScriptEngine.Proofs.Runs

/-!
# Activities that bring no end about

What is read off a clean engine is clean, and what stores clean values keeps an engine clean.  So does all
that is put together of such activities, as long as only clean values are handed on.

* `Act.Ends`           what an activity has led to;
* `Act.Cleanly`        an activity that keeps clean engines clean, and what it gives;
* `Act.Cleanly.bind`   one activity after the other;
* `Act.cleanly_setHashed`, `Act.cleanly_push`, `Act.cleanly_bindArgs`, ...   the activities on objects, on
  operands and on arguments;
* `Library.Clean`      a library whose natives neither return nor store the end.
-/

namespace ScriptEngine

namespace Act

/-- What an activity has led to: a clean engine, with `ok` for what it gives or with a failure whose value is
clean. -/
inductive Ends {α : Type} (ok : α → World → Prop) : EStateM.Result Failure World α → Prop
  | done {a : α} {w : World} (hw : w.Clean) (ha : ok a w) : Ends ok (.ok a w)
  | failed {e : Failure} {w : World} (hw : w.Clean) (he : e.value.Clean) : Ends ok (.error e w)

/-- An activity that keeps clean engines clean and gives only what is `ok`. -/
structure Cleanly {α : Type} (ok : α → Prop) (x : Act α) : Prop where
  ends : ∀ w, w.Clean → Ends (fun a _ => ok a) (x.run w)

/-- Whatever is given. -/
abbrev Any {α : Type} : α → Prop := fun _ => True

/-- A value that is given, if any is. -/
def Maybe (o : Option Value) : Prop := ∀ v, o = some v → v.Clean

section

variable {α β : Type} {P ok : α → Prop} {after : β → Prop} {x : Act α} {cx : CtxId}

theorem Ends.bind {w : World} {P : α → World → Prop} {ok : β → World → Prop} {f : α → Act β}
    (hx : Ends P (x.run w)) (hf : ∀ a w', w'.Clean → P a w' → Ends ok ((f a).run w')) :
    Ends ok ((x >>= f).run w) := by
  cases hr : x.run w with
  | ok a w' =>
    rw [hr] at hx
    rw [run_bind_of_ok hr]
    cases hx with
    | done hw ha => exact hf a w' hw ha
  | error e w' =>
    rw [hr] at hx
    rw [run_bind_of_error hr]
    cases hx with
    | failed hw he => exact .failed hw he

theorem Cleanly.bind {f : α → Act β} (hx : Cleanly P x) (hf : ∀ a, P a → Cleanly after (f a)) :
    Cleanly after (x >>= f) :=
  ⟨fun w hw => (hx.ends w hw).bind fun a w' hw' ha => (hf a ha).ends w' hw'⟩

theorem cleanly_pure {a : α} (ha : P a) : Cleanly P (pure a : Act α) := ⟨fun _ hw => .done hw ha⟩

theorem cleanly_throw {e : Failure} (he : e.value.Clean) : Cleanly P (throw e : Act α) :=
  ⟨fun _ hw => .failed hw he⟩

theorem cleanly_fail (c : Cause) : Cleanly P (fail c : Act α) := cleanly_throw Value.clean_nil

theorem Cleanly.ite {p : Prop} [Decidable p] {y : Act α} (hx : Cleanly ok x) (hy : Cleanly ok y) :
    Cleanly ok (if p then x else y) := by
  split
  · exact hx
  · exact hy

theorem Cleanly.check {p : Prop} [Decidable p] {c : Cause} (hx : Cleanly ok x) :
    Cleanly ok (if p then fail c >>= fun (_ : PUnit) => x else x) :=
  Cleanly.ite ((cleanly_fail (P := Any) c).bind fun _ _ => hx) hx

theorem Cleanly.discard (hx : Cleanly P x) : Cleanly Any (discard x : Act PUnit) :=
  hx.bind fun _ _ => cleanly_pure trivial

theorem cleanly_get : Cleanly World.Clean (get : Act World) := ⟨fun _ hw => .done hw hw⟩

theorem cleanly_heap : Cleanly Heap.Clean heap := cleanly_get.bind fun _ hw => cleanly_pure hw.heap

theorem cleanly_options : Cleanly Any options := cleanly_get.bind fun _ _ => cleanly_pure trivial

theorem cleanly_ctx (cx : CtxId) : Cleanly Context.Clean (ctx cx) :=
  cleanly_get.bind fun _ hw => cleanly_pure (hw.ctx cx)

theorem cleanly_modify {f : World → World} (hf : ∀ w, w.Clean → (f w).Clean) :
    Cleanly Any (modify f : Act Unit) := ⟨fun w hw => .done (hf w hw) trivial⟩

theorem cleanly_modifyGet {f : World → α × World} (hf : ∀ w, w.Clean → ok (f w).1 ∧ (f w).2.Clean) :
    Cleanly ok (modifyGet f : Act α) := ⟨fun w hw => .done (hf w hw).2 (hf w hw).1⟩

theorem cleanly_modifyCtx {f : Context → Context} (hf : ∀ c, c.Clean → (f c).Clean) :
    Cleanly Any (modifyCtx cx f) := cleanly_modify fun _ hw => hw.modifyCtx (hf _ (hw.ctx cx))

theorem cleanly_modifyHeap {f : Heap → Heap} (hf : ∀ h, h.Clean → (f h).Clean) :
    Cleanly Any (modifyHeap f) := cleanly_modify fun _ hw => hw.withHeap (hf _ hw.heap)

theorem cleanly_ofExcept {r : Except Cause α} (h : ∀ a, r = .ok a → ok a) : Cleanly ok (ofExcept r) := by
  cases r with
  | ok a => exact cleanly_pure (h a rfl)
  | error c => exact cleanly_fail c

theorem cleanly_read {f : Heap → Except Cause α} (hf : ∀ h a, h.Clean → f h = .ok a → ok a) :
    Cleanly ok (read f) := cleanly_heap.bind fun h hh => cleanly_ofExcept fun a => hf h a hh

theorem cleanly_readAny (f : Heap → Except Cause α) : Cleanly Any (read f) :=
  cleanly_read fun _ _ _ _ => trivial

theorem cleanly_forM {f : α → Act Unit} {as : List α} (hf : ∀ a ∈ as, Cleanly Any (f a)) :
    Cleanly Any (as.forM f) := by
  induction as with
  | nil => exact cleanly_pure trivial
  | cons a as ih =>
    exact (hf a List.mem_cons_self).bind fun _ _ => ih fun b hb => hf b (List.mem_cons_of_mem _ hb)

end

/-! ## objects -/

section

variable {cx : CtxId}

theorem cleanly_alloc (k : Kind) {b : Body} (hb : b.Clean) : Cleanly Value.Clean (alloc cx k b) :=
  cleanly_modifyGet fun _ hw => hw.alloc cx k hb

theorem cleanly_newStr (bs : Bytes) : Cleanly Value.Clean (newStr cx bs) := cleanly_alloc .str trivial

theorem cleanly_newText (s : String) : Cleanly Value.Clean (newText cx s) := cleanly_newStr _

theorem cleanly_newVec {items : Array Value} (hi : ∀ v ∈ items, v.Clean) :
    Cleanly Value.Clean (newVec cx items) := cleanly_alloc .vec hi

theorem cleanly_newHash : Cleanly Value.Clean (newHash cx) :=
  cleanly_alloc .hash fun _ he => absurd he List.not_mem_nil

theorem cleanly_newClosure {ns next : Value} (hns : ns.Clean) (hnext : next.Clean) :
    Cleanly Value.Clean (newClosure cx ns next) := cleanly_alloc .closure ⟨hns, hnext⟩

theorem cleanly_newFunc {target scope : Value} (htarget : target.Clean) (hscope : scope.Clean) :
    Cleanly Value.Clean (newFunc cx target scope) := cleanly_alloc .func ⟨htarget, hscope⟩

theorem cleanly_intern (name : Bytes) : Cleanly Value.Clean (intern name) :=
  cleanly_modifyGet fun _ hw => ⟨Value.clean_obj _, hw.intern name⟩

theorem cleanly_hashKey (key : Value) : Cleanly Any (hashKey key) :=
  cleanly_modifyGet fun _ hw => ⟨trivial, hw.withHeap (Heap.All.freeze hw.heap (fun _ => trivial) key)⟩

theorem cleanly_retire : Cleanly Any retire := cleanly_modify fun _ hw => hw.retire

theorem cleanly_setHashed (box : Value) {key v : Value} (hash : UInt32) (interned : Bool) (hkey : key.Clean)
    (hv : v.Clean) : Cleanly Any (setHashed box key hash interned v) := by
  unfold setHashed
  refine cleanly_heap.bind fun h _ => ?_
  split
  · refine Cleanly.bind (P := Any) (cleanly_modifyGet fun w hw => ⟨trivial, ?_⟩) fun retired _ => ?_
    · exact hw.withHeap (hw.heap.store box hash interned hkey hv)
    · exact Cleanly.ite cleanly_retire (cleanly_pure trivial)
  · exact cleanly_fail _

theorem cleanly_hashSet (box : Value) {key v : Value} (hkey : key.Clean) (hv : v.Clean) :
    Cleanly Any (hashSet box key v) :=
  (cleanly_hashKey key).bind fun _ _ => cleanly_setHashed box _ _ hkey hv

theorem cleanly_hashGet (box key : Value) : Cleanly Any (hashGet box key) := by
  unfold hashGet
  refine cleanly_heap.bind fun h _ => ?_
  split
  · exact (cleanly_hashKey key).bind fun _ _ => cleanly_heap.bind fun _ _ => cleanly_pure trivial
  · exact cleanly_pure trivial

theorem cleanly_hashDelete (box key : Value) : Cleanly Maybe (hashDelete box key) := by
  unfold hashDelete
  refine cleanly_heap.bind fun h _ => ?_
  split
  · refine (cleanly_hashKey key).bind fun k _ => ?_
    refine Cleanly.bind (P := fun r => Maybe r.1) (cleanly_modifyGet fun w hw => ⟨?_, ?_⟩) fun r hr => ?_
    · exact fun v hv => hw.heap.removed hv
    · exact hw.withHeap (hw.heap.remove box key k.1 k.2)
    · exact Cleanly.ite (cleanly_retire.bind fun _ _ => cleanly_pure hr) (cleanly_pure hr)
  · exact cleanly_fail _

theorem cleanly_modifyVec (v : Value) {f : Array Value → Array Value}
    (hf : ∀ items : Array Value, (∀ x ∈ items, x.Clean) → ∀ x ∈ f items, x.Clean) :
    Cleanly Any (modifyVec v f) := by
  unfold modifyVec
  refine cleanly_heap.bind fun h _ => ?_
  split
  · refine Cleanly.bind (cleanly_modifyHeap fun h hh => Heap.All.modify hh _ fun b hb => ?_) fun _ _ =>
      cleanly_pure trivial
    split
    · exact hf _ hb
    · exact hb
  · exact cleanly_pure trivial

theorem cleanly_vecPush (v : Value) {item : Value} (hitem : item.Clean) :
    Cleanly Any (vecPush v item) := by
  refine cleanly_modifyVec v fun items hi x hx => ?_
  rcases Array.mem_push.mp hx with hx | rfl
  · exact hi x hx
  · exact hitem

theorem cleanly_vecSet (v : Value) (i : Nat) {item : Value} (hitem : item.Clean) :
    Cleanly Any (vecSet v i item) := by
  unfold vecSet
  refine cleanly_heap.bind fun h _ => ?_
  split
  · refine Cleanly.ite (cleanly_modifyVec v fun items hi x hx => ?_) (cleanly_pure trivial)
    rcases Array.mem_or_eq_of_mem_setIfInBounds hx with hx | rfl
    · exact hi x hx
    · exact hitem
  · exact cleanly_pure trivial

/-! ## operands and frames -/

theorem cleanly_push {v : Value} (hv : v.Clean) : Cleanly Any (push cx v) := by
  unfold push
  refine cleanly_options.bind fun _ _ => (cleanly_ctx cx).bind fun _ _ => Cleanly.check ?_
  refine cleanly_modifyCtx fun c hc => hc.withStack fun u hu => ?_
  rcases Array.mem_push.mp hu with hu | rfl
  · exact hc.stack u hu
  · exact hv

theorem cleanly_pop : Cleanly Value.Clean (pop cx) := by
  unfold pop
  refine (cleanly_ctx cx).bind fun c hc => ?_
  split
  · rename_i v hv
    refine (cleanly_modifyCtx fun c hc => hc.withStack fun u hu => ?_).bind fun _ _ => cleanly_pure ?_
    · exact hc.stack u (mem_of_mem_pop hu)
    · exact hc.stack v (Array.mem_of_back? hv)
  · exact cleanly_fail _

theorem cleanly_peek (d : Nat) : Cleanly Value.Clean (peek cx d) := by
  unfold peek
  refine (cleanly_ctx cx).bind fun c hc => ?_
  exact Cleanly.ite (cleanly_pure (Value.clean_item hc.stack _)) (cleanly_fail _)

theorem cleanly_cut (height : Nat) : Cleanly Any (cut cx height) :=
  cleanly_modifyCtx fun _ hc => hc.shrink _

theorem cleanly_replaceTop (n : Nat) {v : Value} (hv : v.Clean) : Cleanly Any (replaceTop cx n v) :=
  (cleanly_modifyCtx fun _ hc => hc.shrink _).bind fun _ _ => cleanly_push hv

theorem cleanly_frame : Cleanly Frame.Clean (frame cx) := by
  unfold frame
  refine (cleanly_ctx cx).bind fun c hc => ?_
  split
  · rename_i f hf
    exact cleanly_pure (hc.frames f (Array.mem_of_back? hf))
  · exact cleanly_fail _

theorem cleanly_pushFrame {func locals scope : Value} {code : Loaded} (hfunc : func.Clean) (hcode : code.Clean)
    (hlocals : locals.Clean) (hscope : scope.Clean) (bp : Nat) :
    Cleanly Any (pushFrame cx func code locals scope bp) := by
  unfold pushFrame
  refine cleanly_options.bind fun _ _ => (cleanly_ctx cx).bind fun _ _ => Cleanly.check ?_
  refine cleanly_modifyCtx fun c hc => hc.withFrames fun f hf => ?_
  rcases Array.mem_push.mp hf with hf | rfl
  · exact hc.frames f hf
  · exact ⟨hfunc, hlocals, hscope, hcode, code.starts_zero⟩

/-! ## children -/

theorem cleanly_freeChild : Cleanly Any (freeChild cx) := by
  unfold freeChild
  refine (cleanly_ctx cx).bind fun c _ => ?_
  split
  · refine (cleanly_modifyCtx fun c hc => ?_).bind fun _ _ => cleanly_modify fun w hw => hw.freeContext _
    exact ⟨hc.stack, hc.temps, hc.frames, hc.error⟩
  · exact cleanly_pure trivial

theorem cleanly_subContext : Cleanly Any (subContext cx) := by
  unfold subContext
  refine (cleanly_ctx cx).bind fun _ _ => cleanly_options.bind fun _ _ => Cleanly.check ?_
  refine cleanly_freeChild.bind fun _ _ => ?_
  refine Cleanly.bind (P := Any) (cleanly_modifyGet fun _ hw => ⟨trivial, hw.newContext⟩) fun sub _ => ?_
  refine (cleanly_modifyCtx ?_).bind fun _ _ => (cleanly_modifyCtx ?_).bind fun _ _ => cleanly_pure trivial
  · exact fun c hc => ⟨hc.stack, hc.temps, hc.frames, hc.error⟩
  · exact fun c hc => ⟨hc.stack, hc.temps, hc.frames, hc.error⟩

theorem cleanly_rethrow {α : Type} {ok : α → Prop} {e : Failure} (he : e.value.Clean) :
    Cleanly ok (rethrow cx e : Act α) := by
  refine (cleanly_modifyCtx fun c hc => hc.withError ?_).bind fun _ _ => cleanly_throw he
  rintro _ ⟨⟩
  exact he

/-! ## names, members and elements -/

theorem cleanly_lookupSym (sym : Value) (hash : UInt32) : Cleanly Value.Clean (lookupSym cx sym hash) := by
  unfold lookupSym
  refine cleanly_frame.bind fun f hf => ?_
  refine Cleanly.bind (P := Any) (cleanly_heap.bind fun _ _ => cleanly_pure trivial) fun n _ => ?_
  refine cleanly_heap.bind fun h hh => ?_
  split
  · rename_i v hv
    exact cleanly_pure (hh.inherited.named hf.locals hv)
  · split
    · rename_i v hv
      obtain ⟨ns, hns, hv⟩ := List.exists_of_findSome?_eq_some hv
      exact cleanly_pure (hh.inherited.named (hh.inherited.scopes hf.closure _ ns hns) hv)
    · exact cleanly_fail _

theorem cleanly_setSym {sym v : Value} (hash : UInt32) (hsym : sym.Clean) (hv : v.Clean) :
    Cleanly Any (setSym cx sym hash v) := by
  unfold setSym
  refine cleanly_frame.bind fun f _ => ?_
  refine Cleanly.bind (P := Any) (cleanly_heap.bind fun _ _ => cleanly_pure trivial) fun n _ => ?_
  refine cleanly_heap.bind fun h _ => ?_
  have hset (ns : Value) : Cleanly Any (setHashed ns sym hash true v) := cleanly_setHashed ns hash true hsym hv
  exact Cleanly.ite ((cleanly_pure (P := Any) trivial).bind fun _ _ => hset _)
    ((cleanly_pure (P := Any) trivial).bind fun _ _ => hset _)

theorem cleanly_hashMember {obj : Value} (hobj : obj.Clean) (sym : Value) (hash : UInt32) (interned : Bool) :
    Cleanly Maybe (hashMember obj sym hash interned) := by
  unfold hashMember
  refine cleanly_get.bind fun w hw => ?_
  dsimp only
  split
  · rename_i r n hr
    refine cleanly_pure ?_
    rintro v rfl
    exact hw.heap.inherited.member hobj hr
  · exact cleanly_fail _

theorem cleanly_extract {box : Value} (hbox : box.Clean) (key : Value) :
    Cleanly Value.Clean (extract box key) := by
  have hread : Cleanly Value.Clean (read fun h => h.element box key) :=
    cleanly_read fun h v hh hv => hh.inherited.element Value.clean_nil Value.clean_num hbox hv
  unfold extract
  refine cleanly_heap.bind fun h _ => ?_
  exact Cleanly.ite ((cleanly_hashKey key).discard.bind fun _ _ => hread) hread

theorem cleanly_insert (box : Value) {key v : Value} (hkey : key.Clean) (hv : v.Clean) :
    Cleanly Any (insert box key v) := by
  unfold insert
  refine cleanly_heap.bind fun h _ => ?_
  split
  · exact Cleanly.ite (cleanly_hashSet _ hkey hv) (cleanly_fail _)
  · refine Cleanly.bind (P := Any) (cleanly_ofExcept fun _ _ => trivial) fun i _ => ?_
    exact (cleanly_vecSet _ _ hv).discard
  · refine Cleanly.bind (P := Any) (cleanly_ofExcept fun _ _ => trivial) fun b _ => ?_
    refine Cleanly.bind (P := Any) (cleanly_ofExcept fun _ _ => trivial) fun i _ => ?_
    split
    · exact cleanly_modifyHeap fun h hh => Heap.All.modify hh _ fun _ _ => trivial
    · exact cleanly_fail _
  · exact cleanly_fail _

theorem cleanly_slice (box start stop : Value) : Cleanly Value.Clean (slice cx box start stop) := by
  unfold slice
  refine cleanly_heap.bind fun h hh => ?_
  split
  · rename_i items hb
    have hitems : (Body.vec items).Clean := hb ▸ hh.bodyOf box
    refine Cleanly.bind (P := Any) (cleanly_ofExcept fun _ _ => trivial) fun bounds _ => ?_
    split
    · exact cleanly_newVec fun v hv => hitems v (mem_of_mem_extract hv)
    · exact cleanly_newVec (Array.forall_mem_empty _)
  · refine Cleanly.bind (P := Any) (cleanly_ofExcept fun _ _ => trivial) fun bounds _ => ?_
    split
    · exact cleanly_newStr _
    · exact cleanly_newStr _
  · exact cleanly_fail _

theorem cleanly_concat (a b : Value) : Cleanly Value.Clean (concat cx a b) := by
  unfold concat
  refine cleanly_heap.bind fun h hh => ?_
  split
  · rename_i xs ys hxs hys
    refine cleanly_newVec fun v hv => ?_
    rcases Array.mem_append.mp hv with hv | hv
    · exact hh.items hxs v hv
    · exact hh.items hys v hv
  · refine Cleanly.bind (P := Any) (cleanly_ofExcept fun _ _ => trivial) fun s _ => ?_
    exact Cleanly.bind (P := Any) (cleanly_ofExcept fun _ _ => trivial) fun t _ => cleanly_newStr _

/-! ## arguments -/

section

variable {code : Loaded} (hcode : code.Clean)
include hcode

theorem cleanly_bindConst (locals : Value) (i : Nat) {v : Value} (hv : v.Clean) :
    Cleanly Any (bindConst code locals i v) := cleanly_setHashed locals _ true (hcode.const i) hv

omit hcode in
theorem cleanly_bindMe (locals : Value) {me : Value} (hme : me.Clean) : Cleanly Any (bindMe locals me) := by
  unfold bindMe
  refine Cleanly.ite (cleanly_get.bind fun _ _ => ?_) (cleanly_pure trivial)
  exact cleanly_hashSet locals (Value.clean_obj _) hme

theorem cleanly_bindArgs (locals : Value) {args : Array Value} {me : Value} (hargs : ∀ v ∈ args, v.Clean)
    (hme : me.Clean) : Cleanly Any (bindArgs cx code locals args me) := by
  unfold bindArgs
  refine (cleanly_bindMe locals hme).bind fun _ _ => Cleanly.check ?_
  refine (cleanly_forM fun p hp => ?_).bind fun _ _ => (cleanly_forM fun p _ => ?_).bind fun _ _ => ?_
  · exact cleanly_bindConst hcode locals _ (hargs _ (Array.mem_toList_iff.mp (List.of_mem_zip hp).2))
  · refine cleanly_bindConst hcode locals _ ?_
    cases hv : args[code.params.size + p.2]? with
    | none => exact hcode.const _
    | some v => exact hargs v (Array.mem_of_getElem? hv)
  · split
    · refine Cleanly.ite ?_ (cleanly_pure trivial)
      refine (cleanly_newVec fun v hv => hargs v (mem_of_mem_extract hv)).bind fun v hv => ?_
      exact cleanly_bindConst hcode locals _ hv
    · exact cleanly_pure trivial

omit hcode in
theorem cleanly_isBound (code : Loaded) (locals : Value) (i : Nat) : Cleanly Any (isBound code locals i) :=
  cleanly_heap.bind fun _ _ => cleanly_pure trivial

theorem cleanly_bindNamed (locals named : Value) {me : Value} (hme : me.Clean) :
    Cleanly Any (bindNamed cx code locals named me) := by
  unfold bindNamed
  refine cleanly_heap.bind fun h hh => (cleanly_bindMe locals hme).bind fun _ _ => ?_
  refine (cleanly_forM fun e he => ?_).bind fun _ _ => ?_
  · cases ht : h.table? named with
    | none =>
      rw [ht] at he
      exact absurd he List.not_mem_nil
    | some t =>
      rw [ht] at he
      obtain ⟨hkey, hval⟩ := hh.entries ht e he
      exact cleanly_hashSet locals hkey hval
  refine (cleanly_forM fun i _ => ?_).bind fun _ _ => ?_
  · refine (cleanly_isBound code locals i).bind fun _ _ => ?_
    exact Cleanly.ite (cleanly_heap.bind fun _ _ => cleanly_fail _) (cleanly_pure trivial)
  refine (cleanly_forM fun p _ => ?_).bind fun _ _ => ?_
  · refine (cleanly_isBound code locals p.1).bind fun _ _ => ?_
    exact Cleanly.ite (cleanly_bindConst hcode locals _ (hcode.const _)) (cleanly_pure trivial)
  split
  · refine Cleanly.ite ?_ (cleanly_pure trivial)
    exact (cleanly_newVec (Array.forall_mem_empty _)).bind fun v hv => cleanly_bindConst hcode locals _ hv
  · exact cleanly_pure trivial

end

/-! ## loading code -/

mutual
theorem cleanly_loadConst (c : Const) (hc : ∀ d, c = .code d → d.Assembled) :
    Cleanly (fun p => p.1.Clean) (loadConst cx c) := by
  cases c with
  | nil => exact cleanly_pure Value.clean_nil
  | number x => exact cleanly_pure (Value.clean_num _)
  | text s =>
    exact (cleanly_newStr s).bind fun v hv => (cleanly_hashKey v).bind fun _ _ => cleanly_pure hv
  | name s =>
    exact (cleanly_intern s).bind fun v hv => (cleanly_hashKey v).bind fun _ _ => cleanly_pure hv
  | code c => exact (cleanly_load c (hc c rfl)).bind fun v hv => cleanly_pure hv
theorem cleanly_load (c : Code Const) (hc : c.Assembled) : Cleanly Value.Clean (load cx c) := by
  have hguarded := hc.guarded
  obtain ⟨words, consts, lines, file, params, optional, rest, needsRest⟩ := c
  have hinner : ∀ d, .code d ∈ consts → d.Assembled := hc.inside
  exact (cleanly_loadConsts consts hinner).bind fun p hp => cleanly_alloc .code ⟨hp, hguarded⟩
theorem cleanly_loadConsts (cs : Array Const) (hc : ∀ d, .code d ∈ cs → d.Assembled) :
    Cleanly (fun p => ∀ v ∈ p.1, v.Clean) (loadConsts cx cs) := by
  obtain ⟨cs⟩ := cs
  exact cleanly_loadList cs #[] (Array.forall_mem_empty _) fun d hd => hc d (List.mem_toArray.mpr hd)
theorem cleanly_loadList (cs : List Const) {vs : Array Value} (hs : Array UInt32) (hvs : ∀ v ∈ vs, v.Clean)
    (hc : ∀ d, .code d ∈ cs → d.Assembled) :
    Cleanly (fun p => ∀ v ∈ p.1, v.Clean) (loadList cx cs vs hs) := by
  cases cs with
  | nil => exact cleanly_pure hvs
  | cons c cs =>
    refine (cleanly_loadConst c fun d hd => hc d (hd ▸ List.mem_cons_self)).bind fun p hp => ?_
    refine cleanly_loadList cs _ (fun v hv => ?_) fun d hd => hc d (List.mem_cons_of_mem _ hd)
    rcases Array.mem_push.mp hv with hv | rfl
    · exact hvs v hv
    · exact hp
end

/-- **Compiling a program** makes clean code only. -/
theorem cleanly_compile (src : Bytes) (file : String) (firstLine : Nat) :
    Cleanly (fun r => ∀ v, r = .ok v → v.Clean) (compile cx src file firstLine) := by
  have hcode := compile_assembled src file firstLine
  unfold compile
  split
  · rename_i c hc
    rw [hc] at hcode
    cases hcode with
    | ok h =>
      refine (cleanly_load c h).bind fun v hv => cleanly_pure ?_
      rintro _ ⟨⟩
      exact hv
  · rename_i u hu
    rw [hu] at hcode
    cases hcode with
    | error h =>
      refine (cleanly_forM fun cs hcs => ?_).bind fun _ _ => cleanly_pure nofun
      exact (cleanly_loadConsts cs (h cs hcs)).discard

end

end Act

/-! ## libraries -/

open Act (Cleanly Any Maybe)

def Request.Clean : Request → Prop
  | call func args me locals => func.Clean ∧ (∀ v ∈ args, v.Clean) ∧ me.Clean ∧ locals.Clean
  | resume v => v.Clean

def Reply.Clean : Reply → Prop
  | done v => v.Clean
  | run _ request wait => request.Clean ∧ ∀ v ∈ wait.values, v.Clean
  | halt => True

def OutcomeClean : Except Failure Value → Prop
  | .ok v => v.Clean
  | .error e => e.value.Clean

structure Library.Clean (lib : Library) : Prop where
  start : ∀ {name b}, lib.native name = some b → ∀ cx n {me args}, me.Clean → (∀ v ∈ args, v.Clean) →
    Cleanly Reply.Clean (b.start cx n me args)
  resume : ∀ {name b}, lib.native name = some b → ∀ cx n {wait r}, (∀ v ∈ wait.values, v.Clean) →
    OutcomeClean r → Cleanly Reply.Clean (b.resume cx n wait r)
  get : ∀ {type get}, (lib.ghost type).get = some get → ∀ cx {obj} name, obj.Clean →
    Cleanly Maybe (get cx obj name)
  set : ∀ {type set}, (lib.ghost type).set = some set → ∀ cx {obj v} name, obj.Clean → v.Clean →
    Cleanly Any (set cx obj name v)

namespace Act

variable {lib : Library} {cx : CtxId}

theorem cleanly_member (hlib : lib.Clean) {obj : Value} (hobj : obj.Clean) (sym : Value) (hash : UInt32)
    (interned : Bool) : Cleanly Maybe (member lib cx obj sym hash interned) := by
  unfold member
  refine cleanly_heap.bind fun h _ => ?_
  split
  · exact cleanly_hashMember hobj sym hash interned
  · split
    · rename_i hget
      exact hlib.get hget cx _ hobj
    · exact cleanly_fail _
  · exact cleanly_fail _

theorem cleanly_setMember (hlib : lib.Clean) {obj sym v : Value} (hobj : obj.Clean) (hash : UInt32)
    (interned : Bool) (hsym : sym.Clean) (hv : v.Clean) :
    Cleanly Any (setMember lib cx obj sym hash interned v) := by
  unfold setMember
  refine cleanly_heap.bind fun h _ => ?_
  split
  · exact cleanly_setHashed obj hash interned hsym hv
  · split
    · rename_i hset
      exact hlib.set hset cx _ hobj hv
    · exact cleanly_fail _
  · exact cleanly_fail _

theorem cleanly_startNative (hlib : lib.Clean) (n : Native) {me : Value} {args : Array Value}
    (hme : me.Clean) (hargs : ∀ v ∈ args, v.Clean) :
    Cleanly Reply.Clean (startNative lib cx n me args) := by
  unfold startNative
  split
  · rename_i hb
    exact hlib.start hb cx n hme hargs
  · exact cleanly_fail _

end Act

end ScriptEngine
