import ScriptEngine.Proofs.Heap.Scopes
import ScriptEngine.Proofs.Machine.Hosting
import ScriptEngine.Proofs.Machine.Retiring
import ScriptEngine.Proofs.Machine.Fresh

/-!
# Assigning to names

A name is read and written by going through the same namespaces: the locals of a frame and those of
its chain of closures.  Assigning changes one of them, and then table storage that has been given up
may be handed over, which may collect; what is still there is as it was.

* `World.Retired.resolve`    a chain that is still there after that shows what it showed;
* `Act.run_lookupSym`        reading a name gives what it stands for;
* `Act.run_setSym`           assigning stores into the namespace that defines the name first;
* `Act.lookupSym_of_setSym`  reading back what has been assigned, through this chain or another.
-/

namespace ScriptEngine

namespace World

variable {w w' : World}

/-- What is there after the storage has been handed over is as it was before. -/
theorem Retired.bodyOf (hr : w.Retired w') {m : Value}
    (hm : ∀ a, m = .obj a → w'.heap.body a ≠ .free) : w'.heap.bodyOf m = w.heap.bodyOf m := by
  cases m with
  | obj a => exact (hr.thins.body a).resolve_right (hm a rfl)
  | _ => rfl

/-! ### after an entry has been stored -/

theorem liveRoots_stored {ns key v : Value} : (w.stored ns key v).liveRoots = w.liveRoots := by
  rw [liveRoots, liveRoots, show (w.stored ns key v).heap.symbols = w.heap.symbols from
    (Heap.reshaped_store ..).symbols]
  rfl

section

variable {ns key v : Value} {cx : CtxId} {f : Frame} (hr : (w.stored ns key v).Retired w')
include hr

theorem Retired.symbols : w'.heap.symbols = w.heap.symbols :=
  hr.thins.symbols.trans (Heap.reshaped_store ..).symbols

/-- The locals and the chain of a frame are still there. -/
theorem Retired.frame (hf : (w.ctx cx).frames.back? = some f) :
    w'.heap.bodyOf f.locals = (w.stored ns key v).heap.bodyOf f.locals ∧
      w'.heap.bodyOf f.closure = (w.stored ns key v).heap.bodyOf f.closure := by
  have hroot {x : Value} (hx : x = f.func ∨ x = f.locals ∨ x = f.closure) :
      w'.heap.bodyOf x = (w.stored ns key v).heap.bodyOf x := by
    have hlive : x ∈ w.liveRoots := mem_liveRoots.mpr (.inl ⟨cx, Context.mem_roots.mpr
      (.inr (.inr (.inl ⟨f, Array.mem_of_back? hf, hx⟩)))⟩)
    cases x with
    | obj a => exact hr.kept a (.root (liveRoots_stored.symm ▸ hlive))
    | _ => rfl
  exact ⟨hroot (.inr (.inl rfl)), hroot (.inr (.inr rfl))⟩

end

section

variable {ns v : Value} {name other : Bytes} {s o : Addr}
  (hr : (w.stored ns (.obj s) v).Retired w') (hheap : w.heap.Consistent)
  (hs : w.heap.symbols[name]? = some s)
include hr hheap hs

theorem Retired.consistent : w'.heap.Consistent :=
  (hheap.store ns (hheap.frozen_name hs) v).1.thin hr.thins

/-- A chain that is still there shows what it shows once the entry is stored. -/
theorem Retired.resolve {locals closure : Value} (ho : w.heap.symbols[other]? = some o)
    (hl : w'.heap.bodyOf locals = (w.stored ns (.obj s) v).heap.bodyOf locals)
    (hc : w'.heap.bodyOf closure = (w.stored ns (.obj s) v).heap.bodyOf closure) :
    w'.heap.resolve locals closure (.obj o) (hashBytes other) =
      (w.heap.store ns (.obj s) (hashBytes name) true v).2.resolve locals closure (.obj o)
        (hashBytes other) := by
  have hsym : (w.stored ns (.obj s) v).heap.symbols = w.heap.symbols :=
    (Heap.reshaped_store ..).symbols
  have hconsistent := (hheap.store ns (hheap.frozen_name hs) v).1
  rw [hr.thins.resolve hconsistent (hsym ▸ ho) hl hc, stored, hheap.keyHash_name hs]

end

end World

namespace Act

open World (Retired)

variable {w : World} {cx : CtxId} {f : Frame} {sym : Value} {hash : UInt32}

theorem run_frame_of_back (hf : (w.ctx cx).frames.back? = some f) : (frame cx).run w = .ok f w := by
  have hctx : (ctx cx).run w = .ok (w.ctx cx) w := rfl
  rw [frame, run_bind_of_ok hctx, hf]
  rfl

/-- **Reading a name** gives what it stands for, or an error with its text. -/
theorem run_lookupSym (hf : (w.ctx cx).frames.back? = some f) (sym : Value) (hash : UInt32) :
    (lookupSym cx sym hash).run w =
      match w.heap.resolve f.locals f.closure sym hash with
      | some v => .ok v w
      | none => .error { cause := .undefinedSymbol ((w.heap.bytes? sym).getD []) } w := by
  rw [lookupSym, run_bind_of_ok (run_frame_of_back hf),
    run_bind_of_ok (show chainBound.run w = .ok (w.heap.cells.size + 1) w from rfl),
    run_bind_of_ok (show heap.run w = .ok w.heap w from rfl)]
  have hresolve : w.heap.resolve f.locals f.closure sym hash =
      match w.heap.named? f.locals sym hash with
      | some v => some v
      | none => w.heap.firstNamed? sym hash (w.heap.scopes (w.heap.cells.size + 1) f.closure) := by
    rw [Heap.resolve, Heap.firstNamed?, List.findSome?_cons]
    cases w.heap.named? f.locals sym hash <;> rfl
  rw [hresolve]
  cases w.heap.named? f.locals sym hash with
  | some v => rfl
  | none =>
    dsimp only
    cases w.heap.firstNamed? sym hash (w.heap.scopes (w.heap.cells.size + 1) f.closure) <;> rfl

/-- Storing into a hash, after which the storage that has been given up is handed over. -/
theorem run_setHashed {box key : Value} {interned : Bool} (hbox : w.heap.isKind box .hash = true)
    (v : Value) :
    (setHashed box key hash interned v).run w =
      .ok () (if (w.heap.store box key hash interned v).1 then
          { w with heap := (w.heap.store box key hash interned v).2 }.retire
        else { w with heap := (w.heap.store box key hash interned v).2 }) := by
  rw [setHashed, run_bind_of_ok (show heap.run w = .ok w.heap w from rfl), if_pos hbox]
  have hstore : (modifyGet fun w => ((w.heap.store box key hash interned v).1,
      { w with heap := (w.heap.store box key hash interned v).2 }) : Act Bool).run w =
      .ok (w.heap.store box key hash interned v).1
        { w with heap := (w.heap.store box key hash interned v).2 } := rfl
  rw [run_bind_of_ok hstore]
  split <;> rfl

/-- **Assigning** stores into the first namespace that defines the name, else into the locals. -/
theorem run_setSym (hf : (w.ctx cx).frames.back? = some f) (sym : Value) (hash : UInt32) (v : Value) :
    (setSym cx sym hash v).run w =
      (setHashed (w.heap.target f.locals sym hash (w.heap.scopes (w.heap.cells.size + 1) f.closure))
        sym hash true v).run w := by
  rw [setSym, run_bind_of_ok (run_frame_of_back hf),
    run_bind_of_ok (show chainBound.run w = .ok (w.heap.cells.size + 1) w from rfl)]
  show EStateM.run (ite ((w.heap.named? f.locals sym hash).isSome = true) _ _ : Act Unit) w = _
  split
  · rename_i hlocals
    have hfind (outer : List Value) :
        (f.locals :: outer).find? (fun ns => (w.heap.named? ns sym hash).isSome) = some f.locals := by
      rw [List.find?_cons, hlocals]
    rw [Heap.target, hfind]
    rfl
  · rfl

/-- Assigning a registered name stores into a namespace of the chain and hands storage over at most. -/
theorem stored_of_setSym (hheap : w.heap.Consistent) (hplaced : w.Placed)
    (hf : (w.ctx cx).frames.back? = some f) (hlocals : w.heap.isKind f.locals .hash = true)
    {name : Bytes} {s : Addr} (hs : w.heap.symbols[name]? = some s) (v : Value) :
    ∃ n t w', w.heap.body n = .hash t ∧
      w.heap.Assignee (.obj s) (hashBytes name) f.locals
        (w.heap.scopes (w.heap.cells.size + 1) f.closure) (.obj n) ∧
      (setSym cx (.obj s) (hashBytes name) v).run w = .ok () w' ∧
      (w.stored (.obj n) (.obj s) v).Retired w' := by
  have hassignee := w.heap.assignee_target (.obj s) (hashBytes name) f.locals
    (w.heap.scopes (w.heap.cells.size + 1) f.closure)
  have hrun := run_setSym hf (.obj s) (hashBytes name) v
  generalize w.heap.target f.locals (.obj s) (hashBytes name)
    (w.heap.scopes (w.heap.cells.size + 1) f.closure) = ns at hassignee hrun
  -- what is stored into is a hash: it defines a name, or it is the locals
  have hkind : w.heap.isKind ns .hash = true := by
    rcases hassignee with ⟨_, _, -, -, hns⟩ | ⟨rfl, -⟩
    · obtain ⟨x, hx⟩ := Option.isSome_iff_exists.mp hns
      obtain ⟨t, ht, -⟩ := Option.bind_eq_some_iff.mp hx
      exact Heap.isKind_hash_of_table? ht
    · exact hlocals
  obtain ⟨n, t, rfl, hn⟩ := Heap.exists_hash hkind
  have hstored : w.stored (.obj n) (.obj s) v =
      { w with heap := (w.heap.store (.obj n) (.obj s) (hashBytes name) true v).2 } := by
    rw [World.stored, hheap.keyHash_name hs]
  have hplaced' : (w.stored (.obj n) (.obj s) v).Placed := hplaced.reshaped (Heap.reshaped_store ..)
  rw [run_setHashed hkind, ← hstored] at hrun
  refine ⟨n, t, _, hn, hassignee, hrun, ?_⟩
  split
  · exact hplaced'.retired_retire
  · exact World.Same.retired (by constructor <;> rfl)

/-- **Reading back what has been assigned.**  Assigning changes the table of one namespace, the first
of the frame's chain that defines the name or the locals if none does; no other object changes, though
storage that is handed over may free what no root reaches any more.  The name then stands for the value
in this frame and in each chain that is still there and shows that namespace before the name is defined,
and every other name stands for what it stood for or is undefined as it was. -/
theorem lookupSym_of_setSym (hheap : w.heap.Consistent) (hplaced : w.Placed)
    (hf : (w.ctx cx).frames.back? = some f) (hlocals : w.heap.isKind f.locals .hash = true)
    {name : Bytes} {s : Addr} (hs : w.heap.symbols[name]? = some s) (v : Value) :
    ∃ n t t' w', (setSym cx (.obj s) (hashBytes name) v).run w = .ok () w' ∧
      w.heap.Assignee (.obj s) (hashBytes name) f.locals
        (w.heap.scopes (w.heap.cells.size + 1) f.closure) (.obj n) ∧
      (w.heap.body n = .hash t ∧ w'.heap.body n = .hash t' ∧
        t'.entries.map Entry.pair =
          Pairs.put w.heap.keysEqual (.obj s) v (t.entries.map Entry.pair)) ∧
      (∀ a, a ≠ n → w'.heap.body a = w.heap.body a ∨
        w'.heap.body a = .free ∧ ¬(w.stored (.obj n) (.obj s) v).heap.Reaches w.liveRoots a) ∧
      (lookupSym cx (.obj s) (hashBytes name)).run w' = .ok v w' ∧
      (∀ other o, w.heap.symbols[other]? = some o → name ≠ other →
        match (lookupSym cx (.obj o) (hashBytes other)).run w with
        | .ok x _ => (lookupSym cx (.obj o) (hashBytes other)).run w' = .ok x w'
        | .error e _ => (lookupSym cx (.obj o) (hashBytes other)).run w' = .error e w') ∧
      ∀ locals closure links before after,
        (∀ a, locals = .obj a → w'.heap.body a ≠ .free) →
        (∀ a, closure = .obj a → w'.heap.body a ≠ .free) →
        locals :: w.heap.scopes links closure = before ++ .obj n :: after →
        (∀ m ∈ before, w.heap.named? m (.obj s) (hashBytes name) = none) →
        w'.heap.resolve locals closure (.obj s) (hashBytes name) = some v := by
  obtain ⟨n, t, w', hn, hassignee, hrun, hr⟩ := stored_of_setSym hheap hplaced hf hlocals hs v
  obtain ⟨hlocalsKept, hclosureKept⟩ := hr.frame hf
  have hframe : (w'.ctx cx).frames.back? = some f := (congrArg Array.back? (hr.frames cx)).trans hf
  obtain ⟨before, after, hchain, hbefore⟩ : ∃ before after,
      f.locals :: w.heap.scopes (w.heap.cells.size + 1) f.closure = before ++ .obj n :: after ∧
        ∀ m ∈ before, w.heap.named? m (.obj s) (hashBytes name) = none := by
    rcases hassignee with ⟨before, after, hchain, hbefore, -⟩ | ⟨hn', -⟩
    · exact ⟨before, after, hchain, hbefore⟩
    · exact ⟨[], w.heap.scopes (w.heap.cells.size + 1) f.closure, by rw [hn']; rfl, nofun⟩
  have htarget : .obj n ∈ f.locals :: w.heap.scopes (w.heap.cells.size + 1) f.closure :=
    hchain ▸ List.mem_append_right _ List.mem_cons_self
  refine ⟨n, t, _, w', hrun, hassignee, ⟨hn, ?_, hheap.pairs_store hs hn v⟩, fun a ha => ?_, ?_,
    fun other o ho hne => ?_, fun locals closure links before after hl hc hchain hbefore => ?_⟩
  · -- the namespace is in the chain of the frame, so it is still there
    have hsame : w'.heap.bodyOf (.obj n) = (w.stored (.obj n) (.obj s) v).heap.bodyOf (.obj n) := by
      rcases List.mem_cons.mp htarget with hin | hin
      · exact hin ▸ hlocalsKept
      · exact (hr.thins.scopes hclosureKept _).2 _ (by rwa [World.stored, Heap.scopes_store])
    exact hsame.trans (hheap.keyHash_name hs ▸ Heap.body_store_self hn)
  · have hsame : (w.stored (.obj n) (.obj s) v).heap.body a = w.heap.body a :=
      Heap.body_store_of_ne fun e => ha (Value.obj.inj e).symm
    by_cases hreach : (w.stored (.obj n) (.obj s) v).heap.Reaches w.liveRoots a
    · exact .inl ((hr.kept a (World.liveRoots_stored.symm ▸ hreach)).trans hsame)
    · exact (hr.thins.body a).imp (·.trans hsame) fun hfree => ⟨hfree, hreach⟩
  · rw [run_lookupSym hframe, hr.resolve hheap hs hs hlocalsKept hclosureKept,
      hheap.resolve_store_self hs hn v hchain hbefore]
  · have hbytes : w'.heap.bytes? (.obj o) = w.heap.bytes? (.obj o) := by
      rw [(hr.consistent hheap hs).bytes?_name (hr.symbols ▸ ho), hheap.bytes?_name ho]
    rw [run_lookupSym hf, run_lookupSym hframe, hr.resolve hheap hs ho hlocalsKept hclosureKept,
      hheap.resolve_store_of_ne hs ho hn hne, hbytes]
    cases w.heap.resolve f.locals f.closure (.obj o) (hashBytes other) <;> rfl
  · rw [hr.resolve hheap hs hs (hr.bodyOf hl) (hr.bodyOf hc)]
    exact hheap.resolve_store_self hs hn v hchain hbefore

end Act

/-! ## a frame with a closure -/

namespace Sample

/-- A namespace, locals and a closure over the namespace have been made. -/
def scope : Value × World := blank.alloc 0 .hash (.hash .empty)
def locals : Value × World := scope.2.alloc 0 .hash (.hash .empty)
def closure : Value × World := locals.2.alloc 0 .closure (.closure scope.1 .nil)

def scopeFrame : Frame where
  func := .nil
  code := { words := #[], consts := #[], lines := #[], file := "", params := #[], optional := #[],
            rest := none, needsRest := false, hashes := #[] }
  ip := 0
  locals := locals.1
  closure := closure.1
  bp := 0
  markBase := 0

def scopeEngine : World :=
  (closure.2.stored scope.1 (.obj closure.2.symArg) .nil).modifyCtx 0 fun c =>
    { c with frames := c.frames.push scopeFrame }

theorem placed_pushFrame {w : World} (hp : w.Placed) (cx : CtxId) (f : Frame) :
    (w.modifyCtx cx fun c => { c with frames := c.frames.push f }).Placed :=
  hp.modifyCtx cx (.inl rfl)

theorem consistent_blank : blank.Consistent := by
  have hnew : (World.fresh { poolBlock := 4 }).Consistent :=
    World.new_eq_fresh _ ▸ World.consistent_new _
  exact (World.along_newContext hnew.placed).consistent hnew

theorem consistent_closure : closure.2.Consistent := by
  have hblank := consistent_blank
  have hscope := (World.via_alloc hblank 0 (k := .hash) (b := .hash .empty) rfl fun _ _ =>
    rfl).consistent hblank
  have hlocals := (World.via_alloc hscope 0 (k := .hash) (b := .hash .empty) rfl fun _ _ =>
    rfl).consistent hscope
  exact (World.via_alloc hlocals 0 (k := .closure) (b := .closure scope.1 .nil) rfl
    fun _ _ => trivial).consistent hlocals

end Sample

namespace Act

/-- The frame assigns to the name in the namespace of its closure. -/
theorem lookupSym_of_setSym_scoped : ∃ n t t' w',
    (setSym 0 (.obj Sample.scopeEngine.symArg) (hashBytes (Bytes.ofString "arg")) (.ofNat 1)).run
      Sample.scopeEngine = .ok () w' ∧
    .obj n = Sample.scope.1 ∧
    Sample.scopeEngine.heap.body n = .hash t ∧ w'.heap.body n = .hash t' ∧
    (lookupSym 0 (.obj Sample.scopeEngine.symArg) (hashBytes (Bytes.ofString "arg"))).run w' =
      .ok (.ofNat 1) w' := by
  have hclosure := Sample.consistent_closure
  have hstroke := World.Stroke.store _ Sample.scope.1 (hclosure.heap.frozen_name hclosure.arg) .nil
  have hc := hstroke.consistent hclosure
  have hplaced : Sample.scopeEngine.Placed := Sample.placed_pushFrame hc.placed 0 _
  have hframe : (Sample.scopeEngine.ctx 0).frames.back? = some Sample.scopeFrame := by
    rw [Sample.scopeEngine, World.ctx_modifyCtx_self (by decide +kernel)]
    exact Array.back?_push
  have harg : Sample.scopeEngine.heap.symbols[Bytes.ofString "arg"]? = some Sample.scopeEngine.symArg :=
    hc.arg
  have hlocals : Sample.scopeEngine.heap.isKind Sample.scopeFrame.locals .hash = true := by decide +kernel
  obtain ⟨n, t, t', w', hrun, hassignee, ⟨hn, hn', -⟩, -, hlookup, -⟩ :=
    lookupSym_of_setSym (w := Sample.scopeEngine) hc.heap hplaced hframe hlocals harg (.ofNat 1)
  refine ⟨n, t, t', w', hrun, ?_, hn, hn', hlookup⟩
  have hscopes : Sample.scopeEngine.heap.scopes (Sample.scopeEngine.heap.cells.size + 1)
      Sample.scopeFrame.closure = [Sample.scope.1] := by decide +kernel
  have hfree : Sample.scopeEngine.heap.named? Sample.scopeFrame.locals
      (.obj Sample.scopeEngine.symArg) (hashBytes (Bytes.ofString "arg")) = none := by decide +kernel
  have hdefined : (Sample.scopeEngine.heap.named? Sample.scope.1
      (.obj Sample.scopeEngine.symArg) (hashBytes (Bytes.ofString "arg"))).isSome = true := by
    decide +kernel
  rw [hscopes] at hassignee
  rcases hassignee with ⟨before, after, hchain, -, hns⟩ | ⟨-, hnone⟩
  · have hin : .obj n ∈ [Sample.scopeFrame.locals, Sample.scope.1] :=
      hchain ▸ List.mem_append_right _ List.mem_cons_self
    rcases List.mem_cons.mp hin with hin | hin
    · rw [hin, hfree] at hns
      exact nomatch hns
    · exact List.mem_singleton.mp hin
  · rw [hnone _ (List.mem_cons_of_mem _ List.mem_cons_self)] at hdefined
    exact nomatch hdefined

end Act

end ScriptEngine
