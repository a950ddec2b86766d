import ScriptEngine.Proofs.Machine.Naming
import ScriptEngine.Proofs.Machine.Parameters
import ScriptEngine.Proofs.Machine.Placement

/-!
# Arguments by place and by name

A call makes a hash for its locals and binds one parameter after the other in it.  Each binding may hand
table storage over, and making the rest vector may collect; what the call still uses is kept, and nothing
that was there before is changed.

* `World.Filling`         locals that a call is filling, and what names stand for in them;
* `World.Filling.define`  one more binding;
* `World.Filling.forM`    one after the other;
* `Act.filling_bindArgs`, `Act.filling_bindNamed`   all parameters, from either kind of call;
* `Act.calls_by_place`, `Act.calls_by_name`         what such a call leads to;
* `Act.perform_fcallh_eq_fcall`   both bind the same names to the same values.
-/

namespace ScriptEngine

theorem Heap.freeze_of_frozen {h : Heap} {key : Value} (hkey : h.Frozen key) : h.freeze key = h := by
  cases key with
  | obj a =>
    rw [freeze]
    split
    · rename_i s hs
      rw [if_pos ((hkey a rfl).2 s hs)]
    · rfl
  | _ => rfl

namespace World

/-- A call on `cx` fills its locals in cell `l`, which no root of `w` reached.  Nothing that a root
reached has changed, all keys are registered names, and names stand for what `B` says. -/
structure Filling (used : CtxId → Prop) (w : World) (cx : CtxId) (l : Addr) (B : Meaning) (u : World) :
    Prop where
  later : w.Extends u
  untouched : w.Untouched u
  sound : u.Sound used
  consistent : u.Consistent
  symbols : u.heap.symbols = w.heap.symbols
  apart : ¬w.heap.Reaches w.liveRoots l
  held : .obj l ∈ (u.ctx cx).temps
  table : ∃ t, u.heap.body l = .hash t ∧ ∀ e ∈ t.entries,
    ∃ (name : Bytes) (s : Addr), w.heap.symbols[name]? = some s ∧ u.heap.keysEqual e.key (.obj s) = true
  binds : ∀ name s, w.heap.symbols[name]? = some s →
    u.heap.named? (.obj l) (.obj s) (hashBytes name) = B (.obj s)

variable {used : CtxId → Prop} {w u : World} {cx : CtxId} {l : Addr} {B : Meaning}

theorem reaches_temp {a : Addr} (ha : .obj a ∈ (w.ctx cx).temps) : w.heap.Reaches w.liveRoots a :=
  (kept_of_temps ha).reaches rfl

theorem filling_newHash (hs : w.Sound used) (hcx : used cx) (hc : w.Consistent) :
    ∃ l u, (Act.newHash cx).run w = .ok (.obj l) u ∧ Filling used w cx l (fun _ => none) u := by
  obtain ⟨l, hl, hmade⟩ := hs.alloc (hs.known cx hcx) .hash (b := .hash .empty) Body.noConfusion
    fun _ h => nomatch h
  obtain ⟨hfresh, hkept⟩ := hc.placed.alloc_fresh hs.live cx .hash (.hash .empty)
  have hu := (via_alloc hc cx (k := .hash) (b := .hash .empty) rfl fun _ _ => rfl).consistent hc
  have hrun : (Act.newHash cx).run w = .ok (.obj l) (w.alloc cx .hash (.hash .empty)).2 := by
    rw [← hl]
    rfl
  refine ⟨l, _, hrun, hmade.later, ⟨fun _ hv => hmade.later.roots hv, hkept⟩, hmade.sound, hu,
    hmade.intact.symbols, hfresh l hl, hmade.temps, ⟨_, hmade.body, nofun⟩, fun name s hs => ?_⟩
  rw [hu.heap.named?_eq_get (hmade.intact.symbols ▸ hs) hmade.body]
  rfl

/-- Storing into the locals, after which storage that has been given up may be handed over. -/
theorem Filling.run_setHashed (hf : Filling used w cx l B u) {key v : Value}
    (hkey : u.heap.Live key) (hfrozen : u.heap.Frozen key) (hv : u.heap.Live v) :
    ∃ u', (Act.setHashed (.obj l) key (u.heap.keyHash key).1 (u.heap.keyHash key).2 v).run u =
        .ok () u' ∧
      u.Extends u' ∧ u'.Sound used ∧ u'.Consistent ∧ (u.stored (.obj l) key v).Retired u' := by
  obtain ⟨t, ht, -⟩ := hf.table
  have hkind : u.heap.isKind (.obj l) .hash = true := by
    show ((u.heap.body l).kind? == some .hash) = true
    rw [ht]
    rfl
  have hstored := (Stroke.store u (.obj l) hfrozen v).consistent hf.consistent
  have hsafe := Act.safe_setHashed hf.sound (.obj l) (u.heap.keyHash key).1 (u.heap.keyHash key).2
    hkey hv
  rw [Act.run_setHashed hkind] at hsafe ⊢
  have hafter (retired : Bool) :
      (u.stored (.obj l) key v).Retired
          (if retired then (u.stored (.obj l) key v).retire else u.stored (.obj l) key v) ∧
        World.Consistent
          (if retired then (u.stored (.obj l) key v).retire else u.stored (.obj l) key v) := by
    cases retired with
    | true => exact ⟨hstored.placed.retired_retire, (along_retire _).consistent hstored⟩
    | false => exact ⟨Same.retired (by constructor <;> rfl), hstored⟩
  obtain ⟨hretired, hconsistent⟩ := hafter
    (u.heap.store (.obj l) key (u.heap.keyHash key).1 (u.heap.keyHash key).2 v).1
  cases hsafe with
  | done hs hlater => exact ⟨_, rfl, hlater.1, hs, hconsistent, hretired⟩

/-- **A value is stored** under a key that is the same as a registered name: the name stands for it from
then on, and the other temporary objects are as they were. -/
theorem Filling.define (hf : Filling used w cx l B u) {name : Bytes} {s : Addr}
    (hs : w.heap.symbols[name]? = some s) {key v : Value} (hkey : u.heap.Live key)
    (hfrozen : u.heap.Frozen key) (hsame : u.heap.keysEqual key (.obj s) = true)
    (hv : u.heap.Live v) :
    ∃ u', (Act.setHashed (.obj l) key (u.heap.keyHash key).1 (u.heap.keyHash key).2 v).run u =
        .ok () u' ∧
      Filling used w cx l (Meaning.define B (.obj s, v)) u' ∧
      ∀ a, .obj a ∈ (u.ctx cx).temps → a ≠ l → u'.heap.body a = u.heap.body a := by
  obtain ⟨u', hrun, hlater, hsound, hconsistent, hr⟩ := hf.run_setHashed hkey hfrozen hv
  obtain ⟨t, ht, honly⟩ := hf.table
  have hstored := (Stroke.store u (.obj l) hfrozen v).consistent hf.consistent
  have hself : (u.stored (.obj l) key v).heap.body l =
      .hash (TableOp.setWith u.heap (u.heap.keyHash key) t key v) := Heap.body_store_self ht
  have hother {a : Addr} (ha : a ≠ l) : (u.stored (.obj l) key v).heap.body a = u.heap.body a :=
    Heap.body_store_of_ne fun e => ha (Value.obj.inj e).symm
  have hroot {a : Addr} (ha : .obj a ∈ (u.ctx cx).temps) :
      (u.stored (.obj l) key v).heap.Reaches (u.stored (.obj l) key v).liveRoots a :=
    .root (liveRoots_stored.symm ▸
      mem_liveRoots.mpr (.inl ⟨cx, Context.mem_roots.mpr (.inr (.inl ha))⟩))
  have hlocals : u'.heap.body l = (u.stored (.obj l) key v).heap.body l := hr.kept l (hroot hf.held)
  have hsymbols : u'.heap.symbols = w.heap.symbols := hr.symbols.trans hf.symbols
  have hstep : w.Untouched (u.stored (.obj l) key v) :=
    ⟨fun v hv => liveRoots_stored.symm ▸ hf.untouched.roots v hv, fun a ha =>
      (hother (by rintro rfl; exact hf.apart ha)).trans (hf.untouched.body a ha)⟩
  refine ⟨u', hrun, ⟨hf.later.trans hlater, hstep.trans hr.untouched, hsound, hconsistent, hsymbols,
    hf.apart, (hlater.like cx).temps _ hf.held, ⟨_, hlocals.trans hself, fun e he => ?_⟩,
    fun other o ho => ?_⟩, fun a ha hne => (hr.kept a (hroot ha)).trans (hother hne)⟩
  · -- a key is the one stored under or one that was there, and it is still what it was
    have hname : ∃ (name : Bytes) (s : Addr), w.heap.symbols[name]? = some s ∧
        u.heap.keysEqual e.key (.obj s) = true := by
      rcases Table.mem_entries_put he with rfl | ⟨y, hy, hk, -⟩
      · exact ⟨name, s, hs, hsame⟩
      · exact hk ▸ honly y hy
    obtain ⟨other, o, ho, heq⟩ := hname
    refine ⟨other, o, ho, ?_⟩
    have hkept : u'.heap.bodyOf e.key = (u.stored (.obj l) key v).heap.bodyOf e.key := by
      cases hk : e.key with
      | obj b =>
        refine hr.kept b (.child (hroot hf.held) ?_)
        rw [hself, Heap.mem_children_hash]
        exact ⟨e, he, .inl hk.symm⟩
      | _ => rfl
    have ho' : (u.stored (.obj l) key v).heap.symbols[other]? = some o :=
      (congrArg (·[other]?) (Heap.symbols_store.trans hf.symbols)).trans ho
    have hregistered : u'.heap.bodyOf (.obj o) = (u.stored (.obj l) key v).heap.bodyOf (.obj o) :=
      (hconsistent.heap.registered other o (hsymbols ▸ ho)).trans
        (hstored.heap.registered other o ho').symm
    rw [Heap.keysEqual_congr hkept hregistered, stored, Heap.keysEqual_store, heq]
  · have ho' : u.heap.symbols[other]? = some o := hf.symbols ▸ ho
    rw [hr.thins.named? (m := .obj l) hstored.heap
      ((congrArg (·[other]?) Heap.symbols_store).trans ho') hlocals]
    refine (hf.consistent.heap.named?_store hfrozen ho' ht v).trans ?_
    have hiff := hf.consistent.heap.keysEqual_iff_name (hf.symbols ▸ hs) ho' hsame
    rw [hf.binds other o ho, Meaning.define]
    by_cases hos : o = s
    · rw [hos, Function.update_self, if_pos hsame]
    · rw [Function.update_of_ne (fun e => hos (Value.obj.inj e)), if_neg (mt hiff.mp hos)]

theorem Filling.bindConst (hf : Filling used w cx l B u) {code : Loaded} {i : Nat}
    (hi : code.NameAt w.heap i) {v : Value} (hv : u.heap.Live v) :
    ∃ u', (Act.bindConst code (.obj l) i v).run u = .ok () u' ∧
      Filling used w cx l (Meaning.define B (code.const i, v)) u' ∧
      ∀ a, .obj a ∈ (u.ctx cx).temps → a ≠ l → u'.heap.body a = u.heap.body a := by
  obtain ⟨name, s, hs, hconst, hhash⟩ := hi.registered
  have hname : u.heap.symbols[name]? = some s := hf.symbols ▸ hs
  have hlive : u.heap.Live (.obj s) :=
    hf.sound.live _ (mem_liveRoots.mpr (.inr (mem_pinned_symbol hname)))
  obtain ⟨u', hrun, hf', htemps⟩ := hf.define hs hlive (hf.consistent.heap.frozen_name hname)
    (Heap.keysEqual_obj.mpr (.inl rfl)) hv
  rw [hf.consistent.heap.keyHash_name hname] at hrun
  rw [Act.bindConst, hconst, hhash]
  exact ⟨u', hrun, hf', htemps⟩

theorem Filling.forM {α β : Type} {f : α → Act Unit} {step : Meaning → β → Meaning} {items : List α}
    {ps : List β}
    (hstep : List.Forall₂ (fun a p => ∀ {B u}, Filling used w cx l B u →
      ∃ u', (f a).run u = .ok () u' ∧ Filling used w cx l (step B p) u') items ps)
    (hf : Filling used w cx l B u) :
    ∃ u', (items.forM f).run u = .ok () u' ∧ Filling used w cx l (ps.foldl step B) u' := by
  induction hstep generalizing B u with
  | nil => exact ⟨u, rfl, hf⟩
  | cons ha _ ih =>
    obtain ⟨u₁, hrun₁, hf₁⟩ := ha hf
    obtain ⟨u₂, hrun₂, hf₂⟩ := ih hf₁
    exact ⟨u₂, (run_bind_of_ok hrun₁).trans hrun₂, hf₂⟩

/-- A vector is made, in a cell that no root of `w` reached. -/
theorem Filling.newVec (hf : Filling used w cx l B u) (hcx : used cx) :
    ∃ a u', (Act.newVec cx #[]).run u = .ok (.obj a) u' ∧ Filling used w cx l B u' ∧
      u'.heap.body a = .vec #[] ∧ .obj a ∈ (u'.ctx cx).temps ∧ ¬w.heap.Reaches w.liveRoots a := by
  obtain ⟨a, ha, hmade⟩ := hf.sound.alloc (hf.sound.known cx hcx) .vec (b := .vec #[])
    Body.noConfusion fun _ h => nomatch h
  obtain ⟨hfresh, hkept⟩ := hf.consistent.placed.alloc_fresh hf.sound.live cx .vec (.vec #[])
  have hc := (via_alloc hf.consistent cx (k := .vec) (b := .vec #[]) rfl
    fun _ _ => trivial).consistent hf.consistent
  have hrun : (Act.newVec cx #[]).run u = .ok (.obj a) (u.alloc cx .vec (.vec #[])).2 := by
    rw [← ha]
    rfl
  have hlocals := hkept l (reaches_temp hf.held)
  have hkeys (b : Addr) (hb : .obj b ∈ (u.heap.body l).children) :
      (u.alloc cx .vec (.vec #[])).2.heap.body b = u.heap.body b :=
    hkept b (.child (reaches_temp hf.held) hb)
  obtain ⟨t, ht, honly⟩ := hf.table
  refine ⟨a, _, hrun, ⟨hf.later.trans hmade.later,
    hf.untouched.trans ⟨fun _ hv => hmade.later.roots hv, hkept⟩, hmade.sound, hc,
    hmade.intact.symbols.trans hf.symbols, hf.apart, (hmade.later.like cx).temps _ hf.held,
    ⟨t, hlocals.trans ht, fun e he => ?_⟩, fun name s hs => ?_⟩, hmade.body, hmade.temps,
    fun hreach => hfresh a ha (hf.untouched.reaches hreach)⟩
  · obtain ⟨name, s, hs, heq⟩ := honly e he
    have hs' : u.heap.symbols[name]? = some s := hf.symbols ▸ hs
    have hkey : (u.alloc cx .vec (.vec #[])).2.heap.bodyOf e.key = u.heap.bodyOf e.key := by
      cases hk : e.key with
      | obj b =>
        refine hkeys b ?_
        rw [ht, Heap.mem_children_hash]
        exact ⟨e, he, .inl hk.symm⟩
      | _ => rfl
    have hname : (u.alloc cx .vec (.vec #[])).2.heap.bodyOf (.obj s) = u.heap.bodyOf (.obj s) :=
      (hc.heap.registered name s (hmade.intact.symbols ▸ hs')).trans
        (hf.consistent.heap.registered name s hs').symm
    exact ⟨name, s, hs, (Heap.keysEqual_congr hkey hname).trans heq⟩
  · have hs' : u.heap.symbols[name]? = some s := hf.symbols ▸ hs
    rw [← hf.binds name s hs]
    exact hf.consistent.heap.named?_congr (m := .obj l) hc.heap hs' (hmade.intact.symbols ▸ hs')
      hlocals hkeys

/-- What a call of the code with these arguments makes of names: the parameters stand for the arguments
and the defaults, and the rest vector is empty and was not there in `w`. -/
structure Binds (w u : World) (code : Loaded) (args : List Value) (B : Meaning) : Prop where
  params : ∀ x, code.freshRest ≠ some x → B x = (code.bindings args).lookup x
  rest : ∀ x, code.freshRest = some x → ∃ a, B x = some (.obj a) ∧ u.heap.body a = .vec #[] ∧
    ¬w.heap.Reaches w.liveRoots a

/-- A call has taken the function and its arguments off the stack, which is `low` now, and has put a
frame on top of the others.  The locals of the frame define what the arguments say and nothing else. -/
structure Calls (w w' : World) (cx : CtxId) (low : Array Value) (func : Value) (code : Loaded)
    (scope : Value) (args : List Value) (f : Frame) : Prop where
  frame : f = { func, code, ip := 0, locals := f.locals, closure := scope, bp := low.size,
                markBase := (w.ctx cx).marks.size }
  frames : (w'.ctx cx).frames = (w.ctx cx).frames.push f
  stack : (w'.ctx cx).stack = low
  bound : ∃ B, w.Binds w' code args B ∧ ∀ name s, w.heap.symbols[name]? = some s →
    w'.heap.named? f.locals (.obj s) (hashBytes name) = B (.obj s)
  only : ∃ t, w'.heap.table? f.locals = some t ∧ ∀ e ∈ t.entries,
    ∃ (name : Bytes) (s : Addr), w.heap.symbols[name]? = some s ∧ w'.heap.keysEqual e.key (.obj s) = true

end World

namespace Act

open World (Filling)

section

variable {used : CtxId → Prop} {w u : World} {cx : CtxId} {l : Addr} {B : Meaning} {code : Loaded}

/-! ## binding -/

/-- The rest vector of a call without further arguments. -/
def bindRest (cx : CtxId) (code : Loaded) (locals : Value) : Act Unit :=
  match code.rest with
  | some i =>
    if code.needsRest then do
      let v ← newVec cx #[]
      bindConst code locals i v
    else pure ()
  | none => pure ()

theorem filling_bindRest (hf : Filling used w cx l B u) (hcx : used cx)
    (hproper : code.Proper w.heap) (args : List Value)
    (hB : ∀ x, code.freshRest ≠ some x → B x = (code.bindings args).lookup x) :
    ∃ u' B', (bindRest cx code (.obj l)).run u = .ok () u' ∧ Filling used w cx l B' u' ∧
      w.Binds u' code args B' := by
  have hstill (hnone : code.freshRest = none) : w.Binds u code args B :=
    ⟨hB, fun x hx => nomatch hnone.symm.trans hx⟩
  unfold bindRest
  cases hrest : code.rest with
  | none =>
    refine ⟨u, B, rfl, hf, hstill ?_⟩
    rw [Loaded.freshRest, hrest]
    exact ite_self none
  | some i =>
    by_cases hneeds : code.needsRest = true
    · have hname : code.freshRest = some (code.const i) := by
        rw [Loaded.freshRest, if_pos hneeds, hrest]
        rfl
      obtain ⟨a, u₁, hrun₁, hf₁, hbody, htemp, hfresh⟩ := hf.newVec hcx
      obtain ⟨u₂, hrun₂, hf₂, hother⟩ := hf₁.bindConst (hproper.rest i hrest)
        (hf₁.sound.live_kept (World.kept_of_temps htemp))
      have hal : a ≠ l := by
        rintro rfl
        obtain ⟨t, ht, -⟩ := hf₁.table
        exact nomatch hbody.symm.trans ht
      simp only [hneeds, if_true]
      refine ⟨u₂, _, (run_bind_of_ok hrun₁).trans hrun₂, hf₂, fun x hx => ?_, fun x hx => ?_⟩
      · rw [← hB x hx]
        exact Function.update_of_ne (fun e => hx (hname.trans (congrArg some e.symm))) _ _
      · obtain rfl : code.const i = x := Option.some.inj (hname.symm.trans hx)
        exact ⟨a, Function.update_self .., (hother a htemp hal).trans hbody, hfresh⟩
    · simp only [hneeds]
      refine ⟨u, B, rfl, hf, hstill ?_⟩
      rw [Loaded.freshRest, if_neg hneeds]

theorem filling_bindConsts {α : Type} (items : List α) (param : α → Nat) (val : α → Value)
    (hnames : ∀ a ∈ items, code.NameAt w.heap (param a))
    (hvals : ∀ a ∈ items, ∀ {B u}, Filling used w cx l B u → u.heap.Live (val a))
    (hf : Filling used w cx l B u) :
    ∃ u', (items.forM fun a => bindConst code (.obj l) (param a) (val a)).run u = .ok () u' ∧
      Filling used w cx l
        ((items.map fun a => (code.const (param a), val a)).foldl Meaning.define B) u' := by
  refine hf.forM (List.forall₂_map_right_iff.mpr (List.forall₂_same.mpr fun a ha B u hf => ?_))
  obtain ⟨u', hrun, hf', -⟩ := hf.bindConst (hnames a ha) (hvals a ha hf)
  exact ⟨u', hrun, hf'⟩

/-- **Binding by place** lets the parameters stand for what they should. -/
theorem filling_bindArgs (hf : Filling used w cx l (fun _ => none) u) (hcx : used cx)
    (hcode : KeepsCode w code) (hproper : code.Proper w.heap) (hnodup : code.names.Nodup)
    {args : Array Value} (hargs : ∀ v ∈ args, w.Kept v) (hneed : code.params.size ≤ args.size)
    (hmost : args.size ≤ code.params.size + code.optional.size) :
    ∃ u' B, (bindArgs cx code (.obj l) args .nil).run u = .ok () u' ∧ Filling used w cx l B u' ∧
      w.Binds u' code args.toList B := by
  have hlive {u : World} {B : Meaning} (hf : Filling used w cx l B u) {v : Value} (hv : v ∈ args) :
      u.heap.Live v := hf.sound.live_kept (hf.later.kept (hargs v hv))
  obtain ⟨u₁, hrun₁, hf₁⟩ := filling_bindConsts (code.params.toList.zip args.toList) Prod.fst Prod.snd
    (fun p hp => hproper.required p.1 (Array.mem_toList_iff.mp (List.of_mem_zip hp).1))
    (fun p hp _ _ hf => hlive hf (Array.mem_toList_iff.mp (List.of_mem_zip hp).2)) hf
  obtain ⟨u₂, hrun₂, hf₂⟩ := filling_bindConsts code.optional.toList.zipIdx (fun p => p.1.1)
    (fun p => args[code.params.size + p.2]?.getD (code.const p.1.2))
    (fun p hp => hproper.optional p.1 (Array.mem_toList_iff.mp (List.fst_mem_of_mem_zipIdx hp)))
    (fun p _ _ _ hf => by
      cases hx : args[code.params.size + p.2]? with
      | none => exact (hcode.mono hf.later).live_const hf.sound _
      | some v => exact hlive hf (Array.mem_of_getElem? hx)) hf₁
  have hneed' : code.params.size ≤ args.toList.length := hneed
  have hbindings := Loaded.bindings_eq hneed'
  simp only [Array.getElem?_toList] at hbindings
  obtain ⟨u₃, B, hrun₃, hf₃, hB⟩ := filling_bindRest hf₂ hcx hproper args.toList fun x _ => by
    rw [← List.foldl_append, hbindings,
      Meaning.foldl_define (by rwa [Loaded.map_fst_bindings hneed']), Option.or_none]
  refine ⟨u₃, B, ?_, hf₃, hB⟩
  have hextra : args.extract (code.params.size + code.optional.size) args.size = #[] :=
    Array.extract_empty_of_size_le_start hmost
  have hrun : (bindArgs cx code (.obj l) args .nil).run u = ((do
      (code.params.toList.zip args.toList).forM fun p => bindConst code (.obj l) p.1 p.2
      code.optional.toList.zipIdx.forM fun p =>
        bindConst code (.obj l) p.1.1 (args[code.params.size + p.2]?.getD (code.const p.1.2))
      bindRest cx code (.obj l) : Act Unit)).run u := by
    rw [bindArgs, run_bind_of_ok (show (bindMe (.obj l) .nil).run u = .ok () u from rfl)]
    dsimp only
    rw [if_neg (Nat.not_lt_of_le hneed), hextra, Array.isEmpty_empty, Bool.not_true]
    simp only [Bool.or_false]
    rfl
  rw [hrun, run_bind_of_ok hrun₁, run_bind_of_ok hrun₂, hrun₃]

/-- The entries of a hash of named arguments are bound one after the other. -/
theorem filling_bindEntries (hf : Filling used w cx l B u) {named : Addr} {t : Table Value Value}
    (hkept : w.Kept (.obj named)) (hc : w.heap.Consistent) (ht : w.heap.body named = .hash t)
    {ps : List (Value × Value)}
    (hregistered : ∀ p ∈ ps, ∃ (name : Bytes) (s : Addr),
      w.heap.symbols[name]? = some s ∧ p.1 = .obj s)
    (hps : List.Forall₂ (fun e p => w.heap.keysEqual e.key p.1 = true ∧ e.val = p.2) t.entries ps) :
    ∃ u', (t.entries.forM fun e => hashSet (.obj l) e.key e.val).run u = .ok () u' ∧
      Filling used w cx l (ps.foldl Meaning.define B) u' := by
  refine hf.forM ((forall₂_mem hps).imp ?_)
  rintro e ⟨x, v⟩ ⟨he, hp, hsame, rfl⟩ B u hf
  obtain ⟨name, s, hs, rfl⟩ := hregistered _ hp
  -- the hash and its keys are as they were, so the key is frozen and still the same as the name
  have hreach := hkept.reaches rfl
  have ht' : u.heap.body named = .hash t := (hf.untouched.body named hreach).trans ht
  obtain ⟨hkey, hval⟩ := (hf.sound.live_kept (hf.later.kept hkept)).entry ht' he
  have hfrozen : u.heap.Frozen e.key := (hf.consistent.heap.files named t ht').frozen e he
  have hkeyBody : u.heap.bodyOf e.key = w.heap.bodyOf e.key := by
    cases hk : e.key with
    | obj b =>
      refine hf.untouched.body b (.child hreach ?_)
      rw [ht, Heap.mem_children_hash]
      exact ⟨e, he, .inl hk.symm⟩
    | _ => rfl
  have hname : u.heap.bodyOf (.obj s) = w.heap.bodyOf (.obj s) :=
    (hf.consistent.heap.registered name s (hf.symbols ▸ hs)).trans (hc.registered name s hs).symm
  obtain ⟨u', hrun, hf', -⟩ := hf.define hs hkey hfrozen
    ((Heap.keysEqual_congr hkeyBody hname).trans hsame) hval
  have hhash : (hashKey e.key).run u = .ok (u.heap.keyHash e.key) u := by
    show EStateM.Result.ok (u.heap.keyHash e.key) { u with heap := u.heap.freeze e.key } = _
    rw [Heap.freeze_of_frozen hfrozen]
  exact ⟨u', (run_bind_of_ok hhash).trans hrun, hf'⟩

theorem run_forM_of_still {α : Type} {items : List α} {f : α → Act Unit}
    (hf : ∀ a ∈ items, (f a).run u = .ok () u) : (items.forM f).run u = .ok () u := by
  induction items with
  | nil => rfl
  | cons a items ih =>
    exact (run_bind_of_ok (hf a List.mem_cons_self)).trans
      (ih fun b hb => hf b (List.mem_cons_of_mem a hb))

theorem run_isBound (hf : Filling used w cx l B u) {i : Nat} (hi : code.NameAt w.heap i) :
    (isBound code (.obj l) i).run u = .ok (B (code.const i)).isSome u := by
  obtain ⟨name, s, hs, hconst, hhash⟩ := hi.registered
  show EStateM.Result.ok (u.heap.named? (.obj l) (code.const i) (code.constHash i)).isSome u = _
  rw [hconst, hhash, hf.binds name s hs]

/-- Optional parameters that are not bound yet are bound to their defaults. -/
theorem filling_bindDefaults (hf : Filling used w cx l B u) (hcode : KeepsCode w code)
    (hproper : code.Proper w.heap) :
    ∃ u', (code.optional.toList.forM fun p => do
        if !(← isBound code (.obj l) p.1) then bindConst code (.obj l) p.1 (code.const p.2)).run u =
          .ok () u' ∧ Filling used w cx l (code.defaults.foldl Meaning.settle B) u' := by
  refine hf.forM (List.forall₂_map_right_iff.mpr (List.forall₂_same.mpr fun p hp B u hf => ?_))
  have hi := hproper.optional p (Array.mem_toList_iff.mp hp)
  rw [run_bind_of_ok (run_isBound hf hi), Meaning.settle]
  cases (B (code.const p.1)).isSome with
  | true => exact ⟨u, rfl, hf⟩
  | false =>
    obtain ⟨u', hrun, hf', -⟩ := hf.bindConst hi ((hcode.mono hf.later).live_const hf.sound p.2)
    exact ⟨u', hrun, hf'⟩

/-- **Binding by name** lets the parameters stand for what they should. -/
theorem filling_bindNamed (hf : Filling used w cx l (fun _ => none) u) (hcx : used cx)
    (hcode : KeepsCode w code) (hc : w.heap.Consistent) (hproper : code.Proper w.heap)
    (hnodup : code.names.Nodup) {named : Value} {args : List Value} (hkept : w.Kept named)
    (hnamed : w.heap.Names named code.names args) (hneed : code.params.size ≤ args.length) :
    ∃ u' B, (bindNamed cx code (.obj l) named .nil).run u = .ok () u' ∧ Filling used w cx l B u' ∧
      w.Binds u' code args B := by
  obtain ⟨t, ps, htable, hperm, hentries⟩ := hnamed
  obtain ⟨a, rfl, ht⟩ := Heap.obj_of_table? htable
  have hkeys : (code.names.zip args).map Prod.fst = code.names.take args.length :=
    map_fst_zip_take _ _
  have hps : (ps.map Prod.fst).Nodup := by
    rw [(hperm.map _).nodup_iff, hkeys]
    exact hnodup.sublist (List.take_sublist ..)
  have hregistered (p : Value × Value) (hp : p ∈ ps) :
      ∃ (name : Bytes) (s : Addr), w.heap.symbols[name]? = some s ∧ p.1 = .obj s :=
    hproper.registered (List.mem_of_mem_take (hkeys ▸ List.mem_map_of_mem (hperm.mem_iff.mp hp)))
  obtain ⟨u₁, hrun₁, hf₁⟩ := filling_bindEntries hf hkept hc ht hregistered hentries
  have hB (x : Value) : ps.foldl Meaning.define (fun _ => none) x = (code.names.zip args).lookup x := by
    rw [Meaning.foldl_define hps, Option.or_none, ← lookup_perm hps hperm]
  have hcheck : (code.params.toList.forM fun i => do
      if !(← isBound code (.obj l) i) then
        fail (.missingArgument (((← heap).bytes? (code.const i)).getD []))).run u₁ = .ok () u₁ := by
    refine run_forM_of_still fun i hi => ?_
    have hfirst : code.const i ∈ code.names.take args.length := by
      rw [Loaded.names, List.take_append, List.take_of_length_le (by simpa using hneed)]
      exact List.mem_append_left _ (List.mem_map_of_mem hi)
    rw [run_bind_of_ok (run_isBound hf₁ (hproper.required i (Array.mem_toList_iff.mp hi))), hB,
      isSome_lookup (hkeys ▸ hfirst)]
    rfl
  obtain ⟨u₂, hrun₂, hf₂⟩ := filling_bindDefaults hf₁ hcode hproper
  obtain ⟨u₃, B, hrun₃, hf₃, hB₃⟩ := filling_bindRest hf₂ hcx hproper args fun x _ => by
    rw [Meaning.foldl_settle, hB, Loaded.lookup_bindings]
  refine ⟨u₃, B, ?_, hf₃, hB₃⟩
  have hrun : (bindNamed cx code (.obj l) (.obj a) .nil).run u = ((do
      t.entries.forM fun e => hashSet (.obj l) e.key e.val
      code.params.toList.forM fun i => do
        if !(← isBound code (.obj l) i) then
          fail (.missingArgument (((← heap).bytes? (code.const i)).getD []))
      code.optional.toList.forM fun p => do
        if !(← isBound code (.obj l) p.1) then bindConst code (.obj l) p.1 (code.const p.2)
      bindRest cx code (.obj l) : Act Unit)).run u := by
    have ht' : u.heap.table? (.obj a) = some t := by
      rw [Heap.table?, show u.heap.bodyOf (.obj a) = .hash t from
        (hf.untouched.body a (hkept.reaches rfl)).trans ht]
    rw [bindNamed, run_bind_of_ok (show heap.run u = .ok u.heap u from rfl)]
    dsimp only
    rw [run_bind_of_ok (show (bindMe (.obj l) .nil).run u = .ok () u from rfl), ht']
    rfl
  rw [hrun, run_bind_of_ok hrun₁, run_bind_of_ok hcheck, run_bind_of_ok hrun₂, hrun₃]

end

/-! ## calling -/

section

variable {lib : Library} {used : CtxId → Prop} {w u : World} {cx : CtxId} {l : Addr} {B : Meaning}
  {code : Loaded} {low above : Array Value} {func scope : Value}

/-- The frame that a call starts. -/
def started (u : World) (cx : CtxId) (func : Value) (code : Loaded) (l : Addr) (scope : Value)
    (bp : Nat) : Frame :=
  { func, code, ip := 0, locals := .obj l, closure := scope, bp, markBase := (u.ctx cx).marks.size }

theorem run_pushFrame (u : World) (cx : CtxId) (func : Value) (code : Loaded) (l : Addr)
    (scope : Value) (bp : Nat) :
    (pushFrame cx func code (.obj l) scope bp).run u =
      if u.options.maxCallDepth ≤ (u.ctx cx).frames.size then .error { cause := .callDepth } u
      else .ok () (u.modifyCtx cx fun c =>
        { c with frames := c.frames.push (started u cx func code l scope bp) }) := by
  unfold pushFrame
  show EStateM.run (ite (u.options.maxCallDepth ≤ (u.ctx cx).frames.size) _ _ : Act Unit) u = _
  split
  · rfl
  · exact congrArg (EStateM.Result.ok ()) (World.modifyCtx_congr rfl)

/-- Once the locals are filled, a frame is put on top unless there are too many. -/
theorem calls_enter (hf : Filling used w cx l B u) (hcx : used cx) {args : List Value}
    (hB : w.Binds u code args B) (hstack : (w.ctx cx).stack = low ++ above) :
    let enter : Act Outcome := do
      cut cx low.size
      pushFrame cx func code (.obj l) scope low.size
      return .next
    if (w.ctx cx).frames.size < w.options.maxCallDepth then
      ∃ w' f, enter.run u = .ok .next w' ∧ w.Calls w' cx low func code scope args f
    else ∃ w', enter.run u = .error { cause := .callDepth } w' := by
  intro enter
  have hlt : cx < (u.stacked cx low).contexts.size := by
    rw [World.stacked, World.size_modifyCtx]
    exact hf.sound.known cx hcx
  have hlike := hf.later.like cx
  have hcut : (cut cx low.size).run u = .ok () (u.stacked cx low) := by
    refine congrArg (EStateM.Result.ok ()) (World.modifyCtx_congr ?_)
    rw [hlike.stack, hstack, shrink_low]
  have hctx : (u.stacked cx low).ctx cx = { u.ctx cx with stack := low } :=
    World.ctx_modifyCtx_self (hf.sound.known cx hcx) _
  have hpush := run_pushFrame (u.stacked cx low) cx func code l scope low.size
  rw [show (u.stacked cx low).options = w.options from hf.later.options, hctx, hlike.frames] at hpush
  split
  · rename_i hroom
    rw [if_neg (Nat.not_le_of_lt hroom)] at hpush
    obtain ⟨t, ht, honly⟩ := hf.table
    refine ⟨_, started (u.stacked cx low) cx func code l scope low.size,
      (run_bind_of_ok hcut).trans (run_bind_of_ok hpush), ?_, ?_, ?_,
      ⟨B, ⟨hB.params, hB.rest⟩, hf.binds⟩, ⟨t, ?_, honly⟩⟩
    · rw [started, hctx, show (u.ctx cx).marks = (w.ctx cx).marks by rw [hlike.rest]]
    · rw [World.ctx_modifyCtx_self hlt, hctx, hlike.frames]
    · rw [World.ctx_modifyCtx_self hlt, hctx]
    · show u.heap.table? (.obj l) = some t
      rw [Heap.table?, show u.heap.bodyOf (.obj l) = .hash t from ht]
  · rename_i hfull
    rw [if_pos (Nat.le_of_not_lt hfull)] at hpush
    exact ⟨_, (run_bind_of_ok hcut).trans (run_bind_of_error hpush)⟩

variable (lib) in
/-- A call of a script function makes the locals, fills them and enters the code. -/
theorem run_callWith {args : Array Value} (hcallee : w.heap.callee func = .script code scope)
    (hstack : (w.ctx cx).stack = low ++ (#[func] ++ args)) (named : Bool) :
    (callWith lib cx args.size false named).run w = (do
      let locals ← newHash cx
      if named then bindNamed cx code locals (args[0]?.getD .nil) .nil
      else bindArgs cx code locals args .nil
      cut cx low.size
      pushFrame cx func code locals scope low.size
      return .next : Act Outcome).run w := by
  have hsize : (w.ctx cx).stack.size = low.size + (args.size + 1) := by
    rw [hstack, Array.size_append, Array.size_append]
    exact congrArg _ (Nat.add_comm ..)
  have hfunc : (w.ctx cx).stack[low.size]?.getD .nil = func := by
    rw [hstack, Array.getElem?_append_right (Nat.le_refl _), Nat.sub_self,
      Array.getElem?_append_left (by simp)]
    rfl
  have hargs : (w.ctx cx).stack.extract (low.size + 1) (w.ctx cx).stack.size = args := by
    rw [hstack]
    simp
  have hctx : (ctx cx).run w = .ok (w.ctx cx) w := rfl
  rw [callWith, run_bind_of_ok hctx]
  dsimp only
  have hroom : ¬(w.ctx cx).stack.size < args.size + 1 + if false = true then 1 else 0 := by
    rw [hsize, if_neg Bool.false_ne_true]
    omega
  rw [if_neg hroom]
  show EStateM.run (callAt lib cx ((w.ctx cx).stack.size - args.size - 1)
    ((w.ctx cx).stack.size - args.size - 1) .nil named) w = _
  rw [show (w.ctx cx).stack.size - args.size - 1 = low.size by omega, callAt, run_bind_of_ok hctx]
  dsimp only
  rw [hfunc, hargs, run_bind_of_ok (show heap.run w = .ok w.heap w from rfl), hcallee]

theorem keepsCode_of_callee (hfunc : w.Kept func) (hcallee : w.heap.callee func = .script code scope) :
    KeepsCode w code := by
  obtain ⟨target, hbound, htarget⟩ := bodyOf_of_callee hcallee
  exact ⟨target, hfunc.of_bodyOf hbound trivial List.mem_cons_self, htarget⟩

theorem proper_of_callee (hc : w.Consistent) (hcallee : w.heap.callee func = .script code scope) :
    code.Proper w.heap := by
  obtain ⟨target, -, htarget⟩ := bodyOf_of_callee hcallee
  cases target with
  | obj a => exact hc.heap.proper a code htarget
  | _ => exact nomatch htarget

variable (lib) in
/-- **A call by place** leads to a frame whose parameters stand for the arguments. -/
theorem calls_by_place (hs : w.Sound used) (hcx : used cx) (hc : w.Consistent) {args : Array Value}
    (hstack : (w.ctx cx).stack = low ++ (#[func] ++ args))
    (hcallee : w.heap.callee func = .script code scope) (hnodup : code.names.Nodup)
    (hneed : code.params.size ≤ args.size)
    (hmost : args.size ≤ code.params.size + code.optional.size) :
    if (w.ctx cx).frames.size < w.options.maxCallDepth then
      ∃ w' f, (callWith lib cx args.size false false).run w = .ok .next w' ∧
        w.Calls w' cx low func code scope args.toList f
    else ∃ w', (callWith lib cx args.size false false).run w = .error { cause := .callDepth } w' := by
  have hkept {v : Value} (hv : v ∈ #[func] ++ args) : w.Kept v :=
    World.kept_of_stack (hstack ▸ Array.mem_append_right _ hv)
  have hfunc : w.Kept func := hkept (Array.mem_append_left _ (Array.mem_singleton.mpr rfl))
  obtain ⟨l, u, hrun, hf⟩ := World.filling_newHash hs hcx hc
  obtain ⟨u', B, hrun', hf', hB⟩ := filling_bindArgs hf hcx (keepsCode_of_callee hfunc hcallee)
    (proper_of_callee hc hcallee) hnodup (fun v hv => hkept (Array.mem_append_right _ hv)) hneed hmost
  rw [run_callWith lib hcallee hstack, run_bind_of_ok hrun]
  simp only [Bool.false_eq_true, if_false]
  rw [run_bind_of_ok hrun']
  exact calls_enter hf' hcx hB hstack

variable (lib) in
/-- **A call by name** leads to a frame whose parameters stand for the arguments. -/
theorem calls_by_name (hs : w.Sound used) (hcx : used cx) (hc : w.Consistent) {named : Value}
    {args : List Value} (hstack : (w.ctx cx).stack = low ++ (#[func] ++ #[named]))
    (hcallee : w.heap.callee func = .script code scope) (hnodup : code.names.Nodup)
    (hneed : code.params.size ≤ args.length) (hnamed : w.heap.Names named code.names args) :
    if (w.ctx cx).frames.size < w.options.maxCallDepth then
      ∃ w' f, (callWith lib cx 1 false true).run w = .ok .next w' ∧
        w.Calls w' cx low func code scope args f
    else ∃ w', (callWith lib cx 1 false true).run w = .error { cause := .callDepth } w' := by
  have hkept {v : Value} (hv : v ∈ #[func] ++ #[named]) : w.Kept v :=
    World.kept_of_stack (hstack ▸ Array.mem_append_right _ hv)
  have hfunc : w.Kept func := hkept (Array.mem_append_left _ (Array.mem_singleton.mpr rfl))
  obtain ⟨l, u, hrun, hf⟩ := World.filling_newHash hs hcx hc
  obtain ⟨u', B, hrun', hf', hB⟩ := filling_bindNamed hf hcx (keepsCode_of_callee hfunc hcallee)
    hc.heap (proper_of_callee hc hcallee) hnodup
    (hkept (Array.mem_append_right _ (Array.mem_singleton.mpr rfl))) hnamed hneed
  have hcall := run_callWith lib hcallee hstack true
  rw [show (#[named] : Array Value).size = 1 from rfl] at hcall
  rw [hcall, run_bind_of_ok hrun]
  simp only [if_true]
  rw [show (#[named] : Array Value)[0]?.getD .nil = named from rfl, run_bind_of_ok hrun']
  exact calls_enter hf' hcx hB hstack

theorem sound_stacked (hs : w.Sound used) (hcx : used cx) {vs : Array Value}
    (hvs : ∀ v ∈ vs, w.heap.Live v) : (w.stacked cx vs).Sound used := by
  refine hs.changeCtx (hs.known cx hcx) rfl rfl (fun u hu => ?_) fun _ g hg => .inl hg
  rw [Context.mem_roots] at hu ⊢
  rcases hu with hu | hu
  · exact .inr (hvs u hu)
  · exact .inl (.inr hu)

variable (lib) in
/-- **Calling by name is calling by place.**  With the first parameters named, in any order, and with the
same arguments by place the call goes on or fails in the same way.  When it goes on, the frames differ in
their locals only.  These define registered names only; each of them stands for the same value in both,
but the rest vector, if the code uses it, is one of its own in each, new and empty. -/
theorem perform_fcallh_eq_fcall (hs : w.Sound used) (hcx : used cx) (hc : w.Consistent) {named : Value}
    {args : Array Value} (hstack : (w.ctx cx).stack = low ++ #[func, named])
    (hcallee : w.heap.callee func = .script code scope) (hnodup : code.names.Nodup)
    (hneed : code.params.size ≤ args.size)
    (hmost : args.size ≤ code.params.size + code.optional.size)
    (hnamed : w.heap.Names named code.names args.toList) (caller : Loaded) (arg : Nat) :
    let v := w.stacked cx (low ++ (#[func] ++ args))
    if (w.ctx cx).frames.size < w.options.maxCallDepth then
      ∃ w' v' f g, (perform lib cx caller .fcallh arg).run w = .ok .next w' ∧
        (perform lib cx caller .fcall args.size).run v = .ok .next v' ∧
        w.Calls w' cx low func code scope args.toList f ∧
        v.Calls v' cx low func code scope args.toList g ∧ g = { f with locals := g.locals } ∧
        ∀ name s, w.heap.symbols[name]? = some s → code.freshRest ≠ some (.obj s) →
          w'.heap.named? f.locals (.obj s) (hashBytes name) =
            v'.heap.named? g.locals (.obj s) (hashBytes name)
    else ∃ w' v', (perform lib cx caller .fcallh arg).run w = .error { cause := .callDepth } w' ∧
      (perform lib cx caller .fcall args.size).run v = .error { cause := .callDepth } v' := by
  intro v
  have hctx : v.ctx cx = { w.ctx cx with stack := low ++ (#[func] ++ args) } :=
    World.ctx_modifyCtx_self (hs.known cx hcx) _
  have hkept {x : Value} (hx : x ∈ low ++ #[func, named]) : w.heap.Live x :=
    hs.live_kept (World.kept_of_stack (hstack ▸ hx))
  have hv : v.Sound used := by
    refine sound_stacked hs hcx fun x hx => ?_
    rcases Array.mem_append.mp hx with hx | hx
    · exact hkept (Array.mem_append_left _ hx)
    · rcases Array.mem_append.mp hx with hx | hx
      · exact hkept (Array.mem_append_right _ (by simpa using Or.inl (Array.mem_singleton.mp hx)))
      · refine (hkept (Array.mem_append_right _ (by simp))).argument hnamed ?_
          (Array.mem_toList_iff.mpr hx)
        rw [Loaded.length_names]
        exact hmost
  have hcv : v.Consistent := (World.along_touch w cx rfl rfl).consistent hc
  have hname := calls_by_name lib hs hcx hc hstack hcallee hnodup hneed hnamed
  have hplace := calls_by_place lib hv hcx hcv (by rw [hctx]) hcallee hnodup hneed hmost
  rw [hctx, show v.options = w.options from rfl] at hplace
  split
  · rename_i hroom
    rw [if_pos hroom] at hname hplace
    obtain ⟨w', f, hrun, hf⟩ := hname
    obtain ⟨v', g, hrun', hg⟩ := hplace
    refine ⟨w', v', f, g, hrun, hrun', hf, hg, ?_, fun name s hs hrest => ?_⟩
    · rw [hf.frame, hg.frame, hctx]
    · obtain ⟨B, hB, hbound⟩ := hf.bound
      obtain ⟨B', hB', hbound'⟩ := hg.bound
      rw [hbound name s hs, hbound' name s hs, hB.params _ hrest, hB'.params _ hrest]
  · rename_i hfull
    rw [if_neg hfull] at hname hplace
    obtain ⟨w', hrun⟩ := hname
    obtain ⟨v', hrun'⟩ := hplace
    exact ⟨w', v', hrun, hrun'⟩

end

end Act

/-! ## a call with one of two arguments -/

namespace Sample

/-- The code of a function with a parameter `arg` and an optional one `parents`, which returns `nil`. -/
def pairCode : Loaded where
  words := #[7, 39]
  consts := #[.obj blank.symArg, .obj blank.symParents, .nil]
  lines := #[]
  file := ""
  params := #[0]
  optional := #[(1, 2)]
  rest := none
  needsRest := false
  hashes := #[hashBytes (Bytes.ofString "arg"), hashBytes (Bytes.ofString "parents"), 0]

/-- The code, the function and a hash for the argument have been made. -/
def pairUnit : Value × World := blank.alloc 0 .code (.code pairCode)
def pairFunc : Value × World := pairUnit.2.alloc 0 .func (.func pairUnit.1 .nil)
def pairArgs : Value × World := pairFunc.2.alloc 0 .hash (.hash .empty)

/-- The function is to be called with itself as `arg`. -/
def callEngine : World :=
  (pairArgs.2.stored pairArgs.1 (.obj blank.symArg) pairFunc.1).stacked 0 #[pairFunc.1, pairArgs.1]

theorem sound_blank : blank.Sound (· = 0) := by
  have hs := (Act.sound_newContext (World.sound_new { poolBlock := 4 })).1
  rw [World.new_eq_fresh] at hs
  have hframes : (blank.ctx 0).frames = #[] := rfl
  refine { hs with known := ?_, framed := ?_ }
  · rintro _ rfl
    show 0 < blank.contexts.size
    decide +kernel
  · rintro _ rfl f hf
    rw [hframes] at hf
    exact absurd hf (Array.not_mem_empty f)

theorem pushes_pairCode : (⟨0, .pushNil, 0⟩ : Item).In pairCode.words :=
  ⟨by decide, by decide, by decide⟩

theorem returns_pairCode : (⟨1, .ret, 0⟩ : Item).In pairCode.words :=
  ⟨by decide, by decide, by decide⟩

/-- `nil` is pushed and returned. -/
theorem typing_pairCode : Typing (· ≤ ·) pairCode.words 3 fun ip s =>
    ip = 0 ∧ s = .none ∨ ip = 1 ∧ s = ⟨1, []⟩ := by
  refine ⟨.inl ⟨rfl, rfl⟩, ?_⟩
  rintro ip s (⟨rfl, rfl⟩ | ⟨rfl, rfl⟩)
  · refine ⟨_, rfl, pushes_pairCode, nofun, ⟨Nat.zero_le _, nofun, ?_, nofun⟩⟩
    rintro t ⟨⟩
    exact ⟨⟨1, []⟩, .inr ⟨rfl, rfl⟩, Shape.le_refl _⟩
  · exact ⟨_, rfl, returns_pairCode, nofun, ⟨Nat.le_refl _, nofun, nofun, nofun⟩⟩

theorem proper_pairCode : pairCode.Proper blank.heap := by
  have hc := consistent_blank
  have hname {name : Bytes} {s : Addr} (hs : blank.heap.symbols[name]? = some s) {i : Nat}
      (hi : pairCode.consts[i]? = some (.obj s) ∧ pairCode.hashes[i]? = some (hashBytes name)) :
      pairCode.NameAt blank.heap i := ⟨name, s, hi.1, hs, hc.heap.registered name s hs, hi.2⟩
  refine ⟨⟨3, _, typing_pairCode, ?_⟩, fun i hi => ?_, fun p hp => ?_, nofun⟩
  · rintro ip s (⟨rfl, rfl⟩ | ⟨rfl, rfl⟩) i hi hin ht
    · rw [hin.unique pushes_pairCode hi] at ht
      exact nomatch ht
    · rw [hin.unique returns_pairCode hi] at ht
      exact nomatch ht
  · rw [Array.mem_singleton.mp hi]
    exact hname hc.arg ⟨rfl, rfl⟩
  · rw [Array.mem_singleton.mp hp]
    exact hname hc.parents ⟨rfl, rfl⟩

theorem made_pairArgs : ∃ code func args, pairUnit.1 = .obj code ∧ pairFunc.1 = .obj func ∧
    pairArgs.1 = .obj args ∧ pairArgs.2.Sound (· = 0) ∧ pairArgs.2.Consistent ∧
    pairArgs.2.heap.symbols = blank.heap.symbols ∧ pairArgs.2.heap.body code = .code pairCode ∧
    pairArgs.2.heap.body func = .func (.obj code) .nil ∧ pairArgs.2.heap.body args = .hash .empty ∧
    pairArgs.2.Kept (.obj func) ∧ pairArgs.2.Kept (.obj args) := by
  have hc := consistent_blank
  have hc₁ : pairUnit.2.Consistent := (World.via_alloc hc 0 (k := .code) (b := .code pairCode) rfl
    fun u hu => proper_pairCode.mono (hu.consistent hc).heap.registered
      fun _ _ => hu.names hc).consistent hc
  have hlive {name : Bytes} {s : Addr} (hs : blank.heap.symbols[name]? = some s) :
      blank.heap.Live (.obj s) :=
    sound_blank.live _ (World.mem_liveRoots.mpr (.inr (World.mem_pinned_symbol hs)))
  obtain ⟨code, hcode₁, hmade₁⟩ := sound_blank.alloc (sound_blank.known 0 rfl) .code
    (b := .code pairCode) Body.noConfusion fun v hv => by
      rcases hv with _ | ⟨_, _ | ⟨_, _ | ⟨_, _ | _⟩⟩⟩
      · exact hlive hc.arg
      · exact hlive hc.parents
      · exact Heap.live_nil
  have hunit : pairUnit.1 = .obj code := hcode₁
  obtain ⟨func, hfunc, hmade₂⟩ := hmade₁.sound.alloc (hmade₁.sound.known 0 rfl) .func
    (b := .func pairUnit.1 .nil) Body.noConfusion fun v hv => by
      rcases List.mem_pair.mp hv with rfl | rfl
      · rw [hunit]
        exact hmade₁.sound.live_kept (World.kept_of_temps hmade₁.temps)
      · exact Heap.live_nil
  have hc₂ := (World.via_alloc hc₁ 0 (k := .func) (b := .func pairUnit.1 .nil) rfl
    fun _ _ => trivial).consistent hc₁
  obtain ⟨args, hargs, hmade₃⟩ := hmade₂.sound.alloc (hmade₂.sound.known 0 rfl) .hash
    (b := .hash .empty) Body.noConfusion fun _ h => nomatch h
  have hc₃ := (World.via_alloc hc₂ 0 (k := .hash) (b := .hash .empty) rfl fun _ _ => rfl).consistent hc₂
  have hkept₁ := World.kept_of_temps hmade₁.temps
  have hkept₂ := World.kept_of_temps hmade₂.temps
  have hsymbols₁ : pairUnit.2.heap.symbols = blank.heap.symbols := hmade₁.intact.symbols
  have hsymbols₂ : pairFunc.2.heap.symbols = pairUnit.2.heap.symbols := hmade₂.intact.symbols
  have hsymbols₃ : pairArgs.2.heap.symbols = pairFunc.2.heap.symbols := hmade₃.intact.symbols
  refine ⟨code, func, args, hcode₁, hfunc, hargs, hmade₃.sound, hc₃,
    hsymbols₃.trans (hsymbols₂.trans hsymbols₁), ?_, ?_, hmade₃.body, hmade₃.later.kept hkept₂,
    World.kept_of_temps hmade₃.temps⟩
  · have hbody : pairFunc.2.heap.body code = .code pairCode :=
      (hmade₂.intact.body code hkept₁).trans hmade₁.body
    have hsame : pairArgs.2.heap.body code = pairFunc.2.heap.body code :=
      hmade₃.intact.body code (hmade₂.later.kept hkept₁)
    exact hsame.trans hbody
  · have hbody : pairFunc.2.heap.body func = .func (.obj code) .nil := hunit ▸ hmade₂.body
    have hsame : pairArgs.2.heap.body func = pairFunc.2.heap.body func :=
      hmade₃.intact.body func hkept₂
    exact hsame.trans hbody

/-- The engine is ready for the call. -/
theorem callable : ∃ func args, pairFunc.1 = .obj func ∧ callEngine.Sound (· = 0) ∧
    callEngine.Consistent ∧ (callEngine.ctx 0).stack = #[] ++ #[.obj func, .obj args] ∧
    callEngine.heap.callee (.obj func) = .script pairCode .nil ∧
    callEngine.heap.Names (.obj args) pairCode.names [.obj func] ∧
    callEngine.heap.symbols[Bytes.ofString "arg"]? = some blank.symArg := by
  obtain ⟨code, func, args, -, hfunc, hargs, hs, hc, hsymbols, hcode, hbound, hempty, hkeptFunc,
    hkeptArgs⟩ := made_pairArgs
  have hcore := consistent_blank
  rw [callEngine, hfunc, hargs]
  generalize pairArgs.2 = w at *
  have harg : w.heap.symbols[Bytes.ofString "arg"]? = some blank.symArg := hsymbols ▸ hcore.arg
  have hlive : w.heap.Live (.obj blank.symArg) :=
    hs.live _ (World.mem_liveRoots.mpr (.inr (World.mem_pinned_symbol harg)))
  obtain ⟨hsound, hlater, -⟩ := Act.sound_store hs (.obj args)
    (w.heap.keyHash (.obj blank.symArg)).1 (w.heap.keyHash (.obj blank.symArg)).2 hlive
    (hs.live_kept hkeptFunc)
  have hstored := (World.Stroke.store w (.obj args) (hc.heap.frozen_name harg) (.obj func)).consistent hc
  have hother {a : Addr} (ha : a ≠ args) :
      (w.stored (.obj args) (.obj blank.symArg) (.obj func)).heap.body a = w.heap.body a :=
    Heap.body_store_of_ne fun e => ha (Value.obj.inj e).symm
  have hself : (w.stored (.obj args) (.obj blank.symArg) (.obj func)).heap.body args = _ :=
    Heap.body_store_self hempty
  refine ⟨func, args, rfl, Act.sound_stacked hsound rfl fun v hv => ?_,
    (World.along_touch _ 0 rfl rfl).consistent hstored, World.stack_stacked (hsound.known 0 rfl), ?_, ?_,
    (congrArg (·[Bytes.ofString "arg"]?) Heap.symbols_store).trans harg⟩
  · rcases List.mem_pair.mp (Array.mem_toList_iff.mpr hv) with rfl | rfl
    · exact hsound.live_kept (hlater.kept hkeptFunc)
    · exact hsound.live_kept (hlater.kept hkeptArgs)
  · have hbound' := (hother (by rintro rfl; exact nomatch hbound.symm.trans hempty)).trans hbound
    have hcode' := (hother (by rintro rfl; exact nomatch hcode.symm.trans hempty)).trans hcode
    show Heap.callee (w.stored (.obj args) (.obj blank.symArg) (.obj func)).heap (.obj func) = _
    rw [Heap.callee, Heap.bodyOf, hbound']
    dsimp only
    rw [Heap.bodyOf, hcode']
  · have hpairs := hc.heap.pairs_store harg hempty (.obj func)
    rw [← hc.heap.keyHash_name harg] at hpairs
    refine ⟨TableOp.setWith w.heap (w.heap.keyHash (.obj blank.symArg)) .empty (.obj blank.symArg)
      (.obj func), [(.obj blank.symArg, .obj func)], ?_, .refl _, ?_⟩
    · show Heap.table? (w.stored (.obj args) (.obj blank.symArg) (.obj func)).heap (.obj args) = _
      rw [Heap.table?, Heap.bodyOf, hself]
    · obtain ⟨e, he, hpair⟩ := List.map_eq_singleton_iff.mp hpairs
      rw [he]
      obtain ⟨hkey, hval⟩ := Prod.mk.inj hpair
      refine .cons ⟨?_, hval⟩ .nil
      rw [show e.key = .obj blank.symArg from hkey]
      exact Heap.keysEqual_obj.mpr (.inl rfl)

end Sample

namespace Act

/-- The function is called with itself as `arg`, by name and by place. -/
theorem perform_fcallh_eq_fcall_pair : ∃ (w' v' : World) (f g : Frame),
    (perform .core 0 Sample.pairCode .fcallh 0).run Sample.callEngine = .ok .next w' ∧
    (perform .core 0 Sample.pairCode .fcall 1).run
      (Sample.callEngine.stacked 0 #[Sample.pairFunc.1, Sample.pairFunc.1]) = .ok .next v' ∧
    (w'.ctx 0).frames = #[f] ∧ (v'.ctx 0).frames = #[g] ∧
    w'.heap.named? f.locals (.obj Sample.blank.symArg) (hashBytes (Bytes.ofString "arg")) =
      v'.heap.named? g.locals (.obj Sample.blank.symArg) (hashBytes (Bytes.ofString "arg")) := by
  obtain ⟨func, args, hfunc, hs, hc, hstack, hcallee, hnamed, harg⟩ := Sample.callable
  have hne : Sample.blank.symArg ≠ Sample.blank.symParents := by decide +kernel
  have hnodup : Sample.pairCode.names.Nodup :=
    List.nodup_cons.mpr ⟨fun h => hne (Value.obj.inj (List.mem_singleton.mp h)), List.nodup_singleton _⟩
  have hroom : (Sample.callEngine.ctx 0).frames.size < Sample.callEngine.options.maxCallDepth := by
    decide +kernel
  have hframes : (Sample.callEngine.ctx 0).frames = #[] :=
    Array.size_eq_zero_iff.mp (show (Sample.callEngine.ctx 0).frames.size = 0 by decide +kernel)
  have hnamed' : Sample.callEngine.heap.Names (.obj args) Sample.pairCode.names
      (#[.obj func] : Array Value).toList := hnamed
  have hneed : Sample.pairCode.params.size ≤ (#[.obj func] : Array Value).size := Nat.le_refl 1
  have hmost : (#[.obj func] : Array Value).size ≤
      Sample.pairCode.params.size + Sample.pairCode.optional.size := Nat.le_succ 1
  generalize Sample.callEngine = w at *
  have hcall := perform_fcallh_eq_fcall .core hs rfl hc hstack hcallee hnodup hneed hmost hnamed'
    Sample.pairCode 0
  rw [if_pos hroom] at hcall
  obtain ⟨w', v', f, g, hrun, hrun', hf, hg, -, hsame⟩ := hcall
  refine ⟨w', v', f, g, hrun, ?_, ?_, ?_, hsame _ _ harg nofun⟩
  · rw [hfunc]
    exact hrun'
  · rw [hf.frames, hframes]
    rfl
  · rw [hg.frames, World.stacked, World.ctx_modifyCtx_self (hs.known 0 rfl), hframes]
    rfl

end Act

end ScriptEngine
