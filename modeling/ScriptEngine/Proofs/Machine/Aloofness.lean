import ScriptEngine.Machine.Step
import ScriptEngine.Proofs.Machine.Calmness
import ScriptEngine.Proofs.Machine.Neatness
import ScriptEngine.Proofs.Machine.Running

/-!
# What does not look at the operands of a context

An activity on one context neither reads nor changes the operands and the marks of another one, unless it
drops that one altogether.  Natives do not look at the operands of their own context either.

* `World.Holds`    the operands and marks of a context are kept;
* `Act.Aloof`      an activity that does not look at the operands and marks of a context;
* `Act.aloof_freeChild`, `Act.aloof_subContext`   making and freeing children;
* `Act.aloof_exec`    an instruction of another context;
* `Library.Aloof`     a library all of whose natives are aloof.
-/

namespace ScriptEngine

open World (ctx_modifyCtx_self ctx_modifyCtx_of_ne size_modifyCtx)

namespace World

variable {w w' w'' : World} {c cx : CtxId} {s : Stacks}

/-- The stacks of a context are as they were, no pin is lost, and the options are the same. -/
structure Holds (c : CtxId) (w w' : World) : Prop where
  same : (w.ctx c).SameStacks (w'.ctx c)
  roots : ∀ v ∈ w.roots, v ∈ w'.roots
  options : w'.options = w.options
  lt : c < w'.contexts.size

theorem Holds.refl (hc : c < w.contexts.size) : w.Holds c w := ⟨.refl _, fun _ hv => hv, rfl, hc⟩

theorem Holds.trans (h : w.Holds c w') (h' : w'.Holds c w'') : w.Holds c w'' :=
  ⟨h.same.trans h'.same, fun v hv => h'.roots v (h.roots v hv), h'.options.trans h.options, h'.lt⟩

theorem Firm.holds (h : w.Firm w') (hc : c < w.contexts.size) : w.Holds c w' :=
  ⟨h.kept c, fun v hv => by rw [h.roots]; exact hv, h.options, by rw [h.size]; exact hc⟩

theorem Holds.covers (h : w.Holds c w') (hs : w.Covers c s) : w'.Covers c s := by
  intro a
  have hv := hs a
  have hr := h.roots (.obj a)
  rw [h.same.allStacks]
  tauto

/-- Nothing is left of a context: its stacks are those of a new one. -/
structure Dropped (c : CtxId) (w : World) : Prop where
  same : Context.SameStacks {} (w.ctx c)
  lt : c < w.contexts.size

theorem Dropped.frames (h : w.Dropped c) : (w.ctx c).frames = #[] := h.same.frames

theorem Holds.dropped (h : w.Holds c w') (hd : w.Dropped c) : w'.Dropped c :=
  ⟨hd.same.trans h.same, h.lt⟩

theorem covers_self (w : World) (c : CtxId) : w.Covers c (w.ctx c).allStacks := fun _ => Iff.rfl

theorem put_self (w : World) (c : CtxId) : w.put c (w.ctx c).allStacks = w := modifyCtx_of_eq rfl

end World

namespace Act

section

variable {α β : Type} {c cx : CtxId} {x : Act α}

/-- What an activity leads to with other operands and marks of a context: the same, unless the context
is dropped. -/
inductive Alike (c : CtxId) (s : Stacks) (w : World) :
    EStateM.Result Failure World α → EStateM.Result Failure World α → Prop
  | kept {r : EStateM.Result Failure World α} (h : w.Holds c (World.after r)) : Alike c s w r (after (·.put c s) r)
  | gone {r : EStateM.Result Failure World α} (h : (World.after r).Dropped c) : Alike c s w r r

/-- An activity that neither reads nor changes the operands and the marks of a context, unless it drops
the context. -/
structure Aloof (c : CtxId) (x : Act α) : Prop where
  run : ∀ {w : World} {s}, c < w.contexts.size → s.frames = (w.ctx c).frames → w.Covers c s →
    Alike c s w (x.run w) (x.run (w.put c s))

/-- The stacks of the context are as they were, or it is dropped. -/
theorem Aloof.holds (hx : Aloof c x) {w : World} (hc : c < w.contexts.size) :
    w.Holds c (World.after (x.run w)) ∨ (World.after (x.run w)).Dropped c := by
  have h := hx.run hc rfl (w.covers_self c)
  generalize x.run (w.put c (w.ctx c).allStacks) = r at h
  cases h with
  | kept h => exact .inl h
  | gone h => exact .inr h

/-- A context that is dropped stays so. -/
theorem Aloof.dropped (hx : Aloof c x) {w : World} (h : w.Dropped c) :
    (World.after (x.run w)).Dropped c := by
  rcases hx.holds h.lt with hh | hg
  · exact hh.dropped h
  · exact hg

theorem Alike.trans {s : Stacks} {w w₁ : World} {r r' : EStateM.Result Failure World α} (h : w.Holds c w₁)
    (hr : Alike c s w₁ r r') : Alike c s w r r' := by
  cases hr with
  | kept h' => exact .kept (h.trans h')
  | gone h' => exact .gone h'

theorem Aloof.bind {f : α → Act β} (hx : Aloof c x) (hf : ∀ a, Aloof c (f a)) : Aloof c (x >>= f) := by
  refine ⟨fun {w s} hc hs hcov => ?_⟩
  have h := hx.run hc hs hcov
  generalize hr : x.run w = r at h
  generalize hr' : x.run (w.put c s) = r' at h
  cases h with
  | kept h =>
    cases r with
    | ok a w₁ =>
      rw [run_bind_of_ok hr, run_bind_of_ok hr']
      have hnext := (hf a).run h.lt (hs.trans h.same.frames.symm) (h.covers hcov)
      exact hnext.trans h
    | error e w₁ =>
      rw [run_bind_of_error hr, run_bind_of_error hr']
      exact .kept (r := .error e w₁) h
  | gone h =>
    have hsame : (x >>= f).run (w.put c s) = (x >>= f).run w := by
      cases r with
      | ok a w₁ => rw [run_bind_of_ok hr, run_bind_of_ok hr']
      | error e w₁ => rw [run_bind_of_error hr, run_bind_of_error hr']
    rw [hsame]
    apply Alike.gone
    cases r with
    | ok a w₁ =>
      rw [run_bind_of_ok hr]
      exact (hf a).dropped h
    | error e w₁ =>
      rw [run_bind_of_error hr]
      exact h

theorem Neat.aloof (hx : Neat x) : Aloof c x := by
  refine ⟨fun {w s} hc _ hcov => ?_⟩
  rw [hx.put hcov]
  exact .kept ((hx.firm w).holds hc)

theorem aloof_pure (a : α) : Aloof c (pure a : Act α) := (neat_pure a).aloof

theorem aloof_fail (e : Cause) : Aloof c (fail e : Act α) := (neat_fail e).aloof

theorem Aloof.discard (hx : Aloof c x) : Aloof c (discard x : Act PUnit) :=
  hx.bind fun _ => aloof_pure _

theorem aloof_ite {p : Prop} [Decidable p] {x y : Act α} (hx : Aloof c x) (hy : Aloof c y) :
    Aloof c (if p then x else y) := by
  split
  · exact hx
  · exact hy

theorem aloof_forM {f : α → Act Unit} (hf : ∀ a, Aloof c (f a)) (as : List α) : Aloof c (as.forM f) := by
  induction as with
  | nil => exact aloof_pure ()
  | cons a as ih => exact (hf a).bind fun _ => ih

/-- What is read of a context is not about its operands and marks, or the context is another one. -/
theorem aloof_ctx {f : Context → Act α} (hf : ∀ d, Aloof c (f d))
    (hput : c = cx → ∀ (d : Context) s, s.frames = d.frames → f (d.put s) = f d) : Aloof c (ctx cx >>= f) := by
  refine ⟨fun {w s} hc hs hcov => ?_⟩
  have hsame : f ((w.put c s).ctx cx) = f (w.ctx cx) := by
    by_cases h : c = cx
    · have hread := hput h
      subst h
      rw [World.ctx_put_self hc, hread _ _ hs]
    · rw [World.put, ctx_modifyCtx_of_ne h]
  show Alike c s w ((f (w.ctx cx)).run w) ((f ((w.put c s).ctx cx)).run (w.put c s))
  rw [hsame]
  exact (hf _).run hc hs hcov

/-- A change of a context that is not about its stacks, or the context is another one. -/
theorem aloof_modifyCtx {f : Context → Context}
    (hput : c = cx → (∀ (d : Context) s, f (d.put s) = (f d).put s) ∧ ∀ d : Context, d.SameStacks (f d)) :
    Aloof c (modifyCtx cx f) := by
  by_cases h : c = cx
  · obtain ⟨hf, hs⟩ := hput h
    exact (neat_modify (World.parallel_modifyCtx cx hf hs)).aloof
  · refine ⟨fun {w s} hc _ _ => ?_⟩
    have hput : (w.put c s).modifyCtx cx f = (w.modifyCtx cx f).put c s := World.modifyCtx_comm h _ _
    have hrun : (modifyCtx cx f).run (w.put c s) = after (·.put c s) ((modifyCtx cx f).run w) :=
      congrArg (EStateM.Result.ok ()) hput
    rw [hrun]
    refine .kept ⟨?_, fun _ hv => hv, rfl, ?_⟩
    · show (w.ctx c).SameStacks ((w.modifyCtx cx f).ctx c)
      rw [ctx_modifyCtx_of_ne (Ne.symm h)]
      exact .refl _
    · show c < (w.modifyCtx cx f).contexts.size
      rw [size_modifyCtx]
      exact hc

/-! ### children -/

/-- What a change of an engine leads to with other operands and marks of a context. -/
inductive Changed (c : CtxId) (s : Stacks) (w : World) : World → World → Prop
  | kept {w₁ : World} (h : w.Holds c w₁) : Changed c s w w₁ (w₁.put c s)
  | gone {w₁ : World} (h : w₁.Dropped c) : Changed c s w w₁ w₁

theorem Changed.holds_or_dropped {s : Stacks} {w w₁ w₂ : World} (h : Changed c s w w₁ w₂) :
    w.Holds c w₁ ∨ w₁.Dropped c := by
  cases h with
  | kept h => exact .inl h
  | gone h => exact .inr h

theorem aloof_modify {f : World → World} (hf : ∀ {w : World} {s}, c < w.contexts.size →
    s.frames = (w.ctx c).frames → w.Covers c s → Changed c s w (f w) (f (w.put c s))) :
    Aloof c (modify f : Act Unit) := by
  refine ⟨fun {w s} hc hs hcov => ?_⟩
  have h := hf hc hs hcov
  show Alike c s w (.ok () (f w)) (.ok () (f (w.put c s)))
  generalize f w = w₁, f (w.put c s) = w₂ at h
  cases h with
  | kept h => exact .kept (r := .ok () w₁) h
  | gone h => exact .gone h

/-- A context that is reset is dropped, whatever its stacks were. -/
theorem changed_freeChain (n : Nat) (d : Option CtxId) {w : World} {s : Stacks} (hc : c < w.contexts.size) :
    Changed c s w (World.freeChain n d w) (World.freeChain n d (w.put c s)) := by
  induction n generalizing d w s with
  | zero => exact .kept (.refl hc)
  | succ n ih =>
    cases d with
    | none => exact .kept (.refl hc)
    | some d =>
      have hchild : ((w.put c s).ctx d).child = (w.ctx d).child := World.ctx_put Context.child fun _ _ => rfl
      have hsize : c < (w.dropped d).contexts.size := by
        rw [World.size_dropped]
        exact hc
      show Changed c s w (World.freeChain n (w.ctx d).child (w.dropped d))
        (World.freeChain n ((w.put c s).ctx d).child ((w.put c s).dropped d))
      rw [hchild]
      by_cases h : c = d
      · subst h
        have hreset : (w.put c s).dropped c = w.dropped c := by
          rw [World.dropped, World.dropped, World.put, World.modifyCtx_modifyCtx]
        have hgone : (w.dropped c).Dropped c := by
          refine ⟨?_, hsize⟩
          rw [World.ctx_dropped_self hc]
          exact .refl _
        rw [hreset]
        apply Changed.gone
        rcases (ih (w.ctx c).child hsize (s := s)).holds_or_dropped with h | h
        · exact h.dropped hgone
        · exact h
      · have hput : (w.put c s).dropped d = (w.dropped d).put c s := by
          unfold World.dropped World.putBack
          rw [World.put, World.modifyCtx_comm h]
          show (if w.freeContexts.contains d then _ else _) =
            World.put (if w.freeContexts.contains d then _ else _) c s
          split <;> rfl
        have hholds : w.Holds c (w.dropped d) := by
          refine ⟨?_, fun _ hv => ?_, ?_, hsize⟩
          · rw [World.ctx_dropped_of_ne (Ne.symm h)]
            exact .refl _
          · unfold World.dropped World.putBack
            split <;> exact hv
          · unfold World.dropped World.putBack
            split <;> rfl
        rw [hput]
        have hrest := ih (w.ctx d).child hsize (s := s)
        generalize World.freeChain n (w.ctx d).child (w.dropped d) = w₁,
          World.freeChain n (w.ctx d).child ((w.dropped d).put c s) = w₂ at hrest
        cases hrest with
        | kept h => exact .kept (hholds.trans h)
        | gone h => exact .gone h

theorem aloof_freeContext (d : CtxId) : Aloof c (modify fun w => w.freeContext d : Act Unit) := by
  apply aloof_modify
  intro w s hc _ _
  have hsize : (w.put c s).contexts.size = w.contexts.size := size_modifyCtx ..
  unfold World.freeContext
  rw [hsize]
  exact changed_freeChain w.contexts.size (some d) hc

theorem aloof_freeChild : Aloof c (freeChild cx) := by
  apply aloof_ctx
  · intro d
    split
    · refine Aloof.bind (aloof_modifyCtx ?_) fun _ => aloof_freeContext _
      exact fun _ => ⟨fun _ _ => rfl, fun _ => ⟨rfl, rfl, rfl, rfl⟩⟩
    · exact aloof_pure _
  · exact fun _ _ _ _ => rfl

theorem aloof_newContext : Aloof c (modifyGet World.newContext : Act CtxId) := by
  refine ⟨fun {w s} hc _ _ => ?_⟩
  have hput : (w.put c s).newContext = (w.newContext.1, w.newContext.2.put c s) :=
    World.newContext_modifyCtx hc _
  have hholds : w.Holds c w.newContext.2 := by
    unfold World.newContext
    split
    · exact ⟨.refl _, fun _ hv => hv, rfl, hc⟩
    · refine ⟨?_, fun _ hv => hv, rfl, ?_⟩
      · rw [World.ctx_push_empty]
        exact .refl _
      · show c < (w.contexts.push {}).size
        rw [Array.size_push]
        exact Nat.lt_succ_of_lt hc
  show Alike c s w (.ok w.newContext.1 w.newContext.2) (.ok (w.put c s).newContext.1 (w.put c s).newContext.2)
  rw [hput]
  exact .kept (r := .ok w.newContext.1 w.newContext.2) hholds

theorem aloof_subContext : Aloof c (subContext cx) := by
  have hlink (sub : CtxId) (n : Nat) : Aloof c (do
      modifyCtx sub fun c => { c with parent := some cx, nesting := n + 1 }
      modifyCtx cx fun c => { c with child := some sub }
      return sub) := by
    refine Aloof.bind (aloof_modifyCtx ?_) fun _ => Aloof.bind (aloof_modifyCtx ?_) fun _ => aloof_pure _
    · exact fun _ => ⟨fun _ _ => rfl, fun _ => ⟨rfl, rfl, rfl, rfl⟩⟩
    · exact fun _ => ⟨fun _ _ => rfl, fun _ => ⟨rfl, rfl, rfl, rfl⟩⟩
  have hrest (n : Nat) : Aloof c (do
      freeChild cx
      let sub ← modifyGet World.newContext
      modifyCtx sub fun c => { c with parent := some cx, nesting := n + 1 }
      modifyCtx cx fun c => { c with child := some sub }
      return sub) :=
    aloof_freeChild.bind fun _ => aloof_newContext.bind fun sub => hlink sub n
  unfold subContext
  apply aloof_ctx
  · intro d
    refine neat_options.aloof.bind fun o => ?_
    apply aloof_ite
    · exact (aloof_fail (α := PUnit) _).bind fun _ => hrest d.nesting
    · exact hrest d.nesting
  · exact fun _ _ _ _ => rfl

/-! ### the stacks of another context -/

theorem aloof_other_ctx (hne : c ≠ cx) {f : Context → Act α} (hf : ∀ d, Aloof c (f d)) :
    Aloof c (ctx cx >>= f) := aloof_ctx hf fun h => absurd h hne

theorem aloof_other (hne : c ≠ cx) (f : Context → Context) : Aloof c (modifyCtx cx f) :=
  aloof_modifyCtx fun h => absurd h hne

theorem aloof_push (hne : c ≠ cx) (v : Value) : Aloof c (push cx v) := by
  unfold push
  refine neat_options.aloof.bind fun o => aloof_other_ctx hne fun d => ?_
  apply aloof_ite
  · exact (aloof_fail _).bind fun _ => aloof_other hne _
  · exact aloof_other hne _

theorem aloof_pop (hne : c ≠ cx) : Aloof c (pop cx) := by
  unfold pop
  refine aloof_other_ctx hne fun d => ?_
  split
  · exact (aloof_other hne _).bind fun _ => aloof_pure _
  · exact aloof_fail _

theorem aloof_peek (hne : c ≠ cx) (depth : Nat) : Aloof c (peek cx depth) :=
  aloof_other_ctx hne fun _ => aloof_ite (aloof_pure _) (aloof_fail _)

theorem aloof_replaceTop (hne : c ≠ cx) (n : Nat) (v : Value) : Aloof c (replaceTop cx n v) :=
  (aloof_other hne _).bind fun _ => aloof_push hne v

theorem aloof_frame (hne : c ≠ cx) : Aloof c (frame cx) := by
  unfold frame
  refine aloof_other_ctx hne fun d => ?_
  split
  · exact aloof_pure _
  · exact aloof_fail _

theorem aloof_pushFrame (hne : c ≠ cx) (func : Value) (code : Loaded) (locals scope : Value) (bp : Nat) :
    Aloof c (pushFrame cx func code locals scope bp) := by
  unfold pushFrame
  refine neat_options.aloof.bind fun o => aloof_other_ctx hne fun d => ?_
  apply aloof_ite
  · exact (aloof_fail _).bind fun _ => aloof_other hne _
  · exact aloof_other hne _

end

end Act

/-! ## libraries -/

structure Library.Aloof (lib : Library) : Prop where
  start : ∀ {name b}, lib.native name = some b → ∀ c cx n me args, Act.Aloof c (b.start cx n me args)
  resume : ∀ {name b}, lib.native name = some b → ∀ c cx n wait r, Act.Aloof c (b.resume cx n wait r)
  get : ∀ {type get}, (lib.ghost type).get = some get → ∀ c cx obj name, Act.Aloof c (get cx obj name)
  set : ∀ {type set}, (lib.ghost type).set = some set → ∀ c cx obj name v,
    Act.Aloof c (set cx obj name v)

namespace Act

section

variable {lib : Library} {c cx : CtxId}

theorem aloof_member (hlib : lib.Aloof) (obj sym : Value) (hash : UInt32) (interned : Bool) :
    Aloof c (member lib cx obj sym hash interned) := by
  unfold member
  refine neat_heap.aloof.bind fun h => ?_
  split
  · exact (neat_hashMember ..).aloof
  · split
    · rename_i hget
      exact hlib.get hget ..
    · exact aloof_fail _
  · exact aloof_fail _

theorem aloof_setMember (hlib : lib.Aloof) (obj sym : Value) (hash : UInt32) (interned : Bool)
    (v : Value) : Aloof c (setMember lib cx obj sym hash interned v) := by
  unfold setMember
  refine neat_heap.aloof.bind fun h => ?_
  split
  · exact (neat_setHashed ..).aloof
  · split
    · rename_i hset
      exact hlib.set hset ..
    · exact aloof_fail _
  · exact aloof_fail _

theorem aloof_startNative (hlib : lib.Aloof) (n : Native) (me : Value) (args : Array Value) :
    Aloof c (startNative lib cx n me args) := by
  unfold startNative
  split
  · rename_i hb
    exact hlib.start hb ..
  · exact aloof_fail _

theorem Aloof.attempt {x : Act Reply} (hx : Aloof c x) :
    Aloof c (tryCatch (do return .ok (← x)) fun e => pure (.error e) : Act (Except Failure Reply)) := by
  refine ⟨fun {w s} hc hs hcov => ?_⟩
  have h := hx.run hc hs hcov
  generalize hr : x.run w = r, hr' : x.run (w.put c s) = r' at h
  cases h with
  | kept h =>
    cases r with
    | ok a w₁ =>
      rw [run_attempt_ok hr, run_attempt_ok hr']
      exact .kept (r := EStateM.Result.ok (Except.ok a) w₁) h
    | error e w₁ =>
      rw [run_attempt_error hr, run_attempt_error hr']
      exact .kept (r := EStateM.Result.ok (Except.error e) w₁) h
  | gone h =>
    cases r with
    | ok a w₁ =>
      rw [run_attempt_ok hr, run_attempt_ok hr']
      exact .gone h
    | error e w₁ =>
      rw [run_attempt_error hr, run_attempt_error hr']
      exact .gone h

/-! ### instructions of another context -/

theorem aloof_lookupSym (hne : c ≠ cx) (sym : Value) (hash : UInt32) : Aloof c (lookupSym cx sym hash) := by
  unfold lookupSym
  refine (aloof_frame hne).bind fun f => ?_
  refine (neat_heap.bind fun _ => neat_pure _).aloof.bind fun n => neat_heap.aloof.bind fun h => ?_
  split
  · exact aloof_pure _
  · split
    · exact aloof_pure _
    · exact aloof_fail _

theorem aloof_setSym (hne : c ≠ cx) (sym : Value) (hash : UInt32) (v : Value) :
    Aloof c (setSym cx sym hash v) := by
  unfold setSym
  refine (aloof_frame hne).bind fun f => ?_
  refine (neat_heap.bind fun _ => neat_pure _).aloof.bind fun n => neat_heap.aloof.bind fun h => ?_
  dsimp only
  exact aloof_ite (neat_setHashed ..).aloof (neat_setHashed ..).aloof

theorem aloof_callAt (hlib : lib.Aloof) (hne : c ≠ cx) (base fidx : Nat) (me : Value) (named : Bool) :
    Aloof c (callAt lib cx base fidx me named) := by
  have hframe (func : Value) (code : Loaded) (locals scope : Value) : Aloof c (do
      cut cx base
      pushFrame cx func code locals scope base
      return Outcome.next) :=
    (aloof_other hne _).bind fun _ => (aloof_pushFrame hne ..).bind fun _ => aloof_pure _
  unfold callAt
  refine aloof_other_ctx hne fun d => neat_heap.aloof.bind fun h => ?_
  split
  · exact (aloof_startNative hlib ..).attempt.bind fun r => aloof_pure _
  · refine neat_newHash.aloof.bind fun locals => ?_
    apply aloof_ite
    · exact (neat_bindNamed ..).aloof.bind fun _ => hframe ..
    · exact (neat_bindArgs ..).aloof.bind fun _ => hframe ..
  · exact aloof_fail _
  · exact aloof_fail _

theorem aloof_callWith (hlib : lib.Aloof) (hne : c ≠ cx) (argc : Nat) (method named : Bool) :
    Aloof c (callWith lib cx argc method named) := by
  unfold callWith
  refine aloof_other_ctx hne fun d => ?_
  have hcall : Aloof c (if method = true then
      callAt lib cx (d.stack.size - argc - 1 - 1) (d.stack.size - argc - 1)
        (d.stack[d.stack.size - argc - 1 - 1]?.getD .nil) named
      else callAt lib cx (d.stack.size - argc - 1) (d.stack.size - argc - 1) .nil named) :=
    aloof_ite (aloof_callAt hlib hne ..) (aloof_callAt hlib hne ..)
  apply aloof_ite
  · exact (aloof_fail _).bind fun _ => hcall
  · exact hcall

theorem aloof_iterate (hne : c ≠ cx) (values : Bool) : Aloof c (iterate cx values) := by
  unfold iterate
  refine (aloof_peek hne 1).bind fun box => (aloof_peek hne 0).bind fun count => ?_
  refine neat_heap.aloof.bind fun h => ?_
  split
  · exact aloof_fail _
  · apply aloof_ite
    · exact aloof_push hne _
    · exact (aloof_replaceTop hne ..).bind fun _ => aloof_push hne _

theorem aloof_arith (hne : c ≠ cx) (f : Float → Float → Value) : Aloof c (arith cx f) := by
  refine (aloof_peek hne 0).bind fun y => (neat_read _).aloof.bind fun b => ?_
  refine (aloof_peek hne 1).bind fun x => (neat_read _).aloof.bind fun a => ?_
  exact aloof_replaceTop hne ..

theorem aloof_equality (hne : c ≠ cx) (want : Bool) : Aloof c (equality cx want) := by
  refine (aloof_peek hne 1).bind fun a => (aloof_peek hne 0).bind fun b => ?_
  exact neat_heap.aloof.bind fun h => aloof_replaceTop hne ..

theorem aloof_jumpIf (hne : c ≠ cx) (want : Bool) (target : Nat) : Aloof c (jumpIf cx want target) := by
  refine (aloof_peek hne 0).bind fun v => (neat_read _).aloof.bind fun b => ?_
  exact aloof_ite (aloof_other hne _) (aloof_pure _)

theorem aloof_returnFrom (hne : c ≠ cx) : Aloof c (returnFrom cx) := by
  unfold returnFrom
  refine (aloof_pop hne).bind fun v => (aloof_frame hne).bind fun f => (aloof_other hne _).bind fun _ => ?_
  refine aloof_other_ctx hne fun d => ?_
  apply aloof_ite
  · exact aloof_pure _
  · exact (aloof_push hne v).bind fun _ => aloof_pure _

theorem Aloof.next {x : Act Unit} (hx : Aloof c x) : Aloof c (x >>= fun _ => pure Outcome.next) :=
  hx.bind fun _ => aloof_pure _

/-- **An instruction of another context.** -/
theorem aloof_perform (hlib : lib.Aloof) (hne : c ≠ cx) (code : Loaded) (op : Op) (arg : Nat) :
    Aloof c (perform lib cx code op arg) := by
  have hpeek := aloof_peek hne
  have hpush := aloof_push hne
  have htop := aloof_replaceTop hne
  unfold perform
  cases op with
  | nop => exact aloof_pure _
  | pop => exact (aloof_pop hne).discard.next
  | dup => exact (hpeek 0).bind fun v => (hpush v).next
  | dup2 =>
    refine (hpeek 1).bind fun a => (hpeek 0).bind fun b => ?_
    exact (hpush a).bind fun _ => (hpush b).next
  | pushConst | pushOne | pushZero | pushNil => exact (hpush _).next
  | newVec => exact (neat_newVec _).aloof.bind fun v => (hpush v).next
  | vappend =>
    refine (hpeek 0).bind fun v => (hpeek 1).bind fun box => ?_
    exact (neat_modifyVec ..).aloof.discard.bind fun _ => (aloof_pop hne).discard.next
  | newHash => exact neat_newHash.aloof.bind fun v => (hpush v).next
  | happend =>
    refine (hpeek 0).bind fun v => (hpeek 1).bind fun k => (hpeek 2).bind fun box => ?_
    refine (neat_hashSet ..).aloof.bind fun _ => aloof_other_ctx hne fun d => ?_
    exact (aloof_other hne _).next
  | mark =>
    refine neat_options.aloof.bind fun o => aloof_other_ctx hne fun d => ?_
    apply aloof_ite
    · exact (aloof_fail (α := PUnit) _).bind fun _ => (aloof_other hne _).next
    · exact (aloof_other hne _).next
  | unmark => exact (aloof_other hne _).next
  | cutBack =>
    refine aloof_other_ctx hne fun d => ?_
    split
    · exact (aloof_other hne _).next
    · exact (aloof_pure ()).next
  | cutBackPop =>
    refine aloof_other_ctx hne fun d => ?_
    split
    · exact (aloof_other hne _).bind fun _ => (aloof_other hne _).next
    · exact (aloof_pure ()).next
  | not => exact (hpeek 0).bind fun v => (neat_read _).aloof.bind fun b => (htop ..).next
  | neg => exact (hpeek 0).bind fun v => (neat_read _).aloof.bind fun b => (htop ..).next
  | plus | minus | mul | div | lt | lte | gt | gte => exact (aloof_arith hne _).next
  | cat =>
    refine (hpeek 0).bind fun b => (hpeek 1).bind fun a => ?_
    exact (neat_concat a b).aloof.bind fun v => (htop ..).next
  | eq | neq => exact (aloof_equality hne _).next
  | jmp => exact (aloof_other hne _).next
  | jmpLoop =>
    exact (aloof_other hne _).bind fun _ => (neat_modify World.parallel_poll).aloof.next
  | jifNotPop =>
    refine (aloof_pop hne).bind fun v => (neat_read _).aloof.bind fun b => ?_
    exact aloof_ite (aloof_other hne _).next (aloof_pure ()).next
  | jifEnd =>
    refine (hpeek 0).bind fun v => ?_
    apply aloof_ite
    · exact (aloof_pop hne).discard.bind fun _ => (aloof_other hne _).next
    · exact (aloof_pure ()).next
  | jifTrue | jifNot => exact (aloof_jumpIf hne ..).next
  | fcall | mcall | fcallh | mcallh => exact aloof_callWith hlib hne ..
  | ret => exact aloof_returnFrom hne
  | loadSym => exact (aloof_lookupSym hne ..).bind fun v => (hpush v).next
  | setSym => exact (hpeek 0).bind fun v => (aloof_setSym hne ..).next
  | setLocal =>
    refine (hpeek 0).bind fun v => (aloof_frame hne).bind fun f => ?_
    exact (neat_setHashed ..).aloof.next
  | member =>
    refine (hpeek 0).bind fun obj => (aloof_member hlib ..).bind fun r => ?_
    cases r with
    | some v => exact (htop ..).next
    | none => exact neat_heap.aloof.bind fun h => (aloof_fail (α := Unit) _).next
  | setMember =>
    refine (hpeek 0).bind fun v => (hpeek 1).bind fun obj => ?_
    exact (aloof_setMember hlib ..).bind fun _ => (htop ..).next
  | extract =>
    refine (hpeek 1).bind fun box => (hpeek 0).bind fun key => ?_
    exact (neat_extract box key).aloof.bind fun v => (htop ..).next
  | insert =>
    refine (hpeek 0).bind fun v => (hpeek 1).bind fun key => (hpeek 2).bind fun box => ?_
    exact (neat_insert box key v).aloof.bind fun _ => (htop ..).next
  | slice =>
    refine (hpeek 0).bind fun stop => (hpeek 1).bind fun start => (hpeek 2).bind fun box => ?_
    exact (neat_slice box start stop).aloof.bind fun v => (htop ..).next
  | func =>
    refine (aloof_frame hne).bind fun f => (neat_newClosure ..).aloof.bind fun scope => ?_
    exact (neat_newFunc ..).aloof.bind fun v => (hpush v).next
  | each | index => exact (aloof_iterate hne _).next

theorem aloof_exec (hlib : lib.Aloof) (hne : c ≠ cx) : Aloof c (exec lib cx) := by
  unfold exec
  refine (aloof_other hne _).bind fun _ => (aloof_frame hne).bind fun f => ?_
  split
  · exact aloof_fail _
  · refine (aloof_other hne _).bind fun _ => ?_
    split
    · exact aloof_perform hlib hne ..
    · exact aloof_fail _

/-! ### requests on another context -/

theorem aloof_beginCall (hlib : lib.Aloof) (hne : c ≠ cx) (func : Value) (args : Array Value)
    (me locals : Value) : Aloof c (beginCall lib cx func args me locals) := by
  have hframe (func : Value) (code : Loaded) (locals scope : Value) : Aloof c (do
      bindArgs cx code locals args me
      cut cx 0
      pushFrame cx func code locals scope 0
      return Begun.frame) := by
    refine (neat_bindArgs ..).aloof.bind fun _ => (aloof_other hne _).bind fun _ => ?_
    exact (aloof_pushFrame hne ..).bind fun _ => aloof_pure _
  unfold beginCall
  refine (aloof_push hne func).bind fun _ => ?_
  rw [forM_toList]
  refine (aloof_forM (fun a => aloof_push hne a) _).bind fun _ => ?_
  refine (aloof_push hne me).bind fun _ => (aloof_push hne locals).bind fun _ => ?_
  refine neat_heap.aloof.bind fun h => ?_
  cases h.callee func with
  | native n => exact (aloof_startNative hlib ..).bind fun _ => aloof_pure _
  | script code scope =>
    refine neat_heap.aloof.bind fun h => ?_
    apply aloof_ite
    · exact hframe ..
    · exact neat_newHash.aloof.bind fun ns => hframe ..
  | bare code =>
    have hbound (ns : Value) : Aloof c (do
        let bound ← newFunc cx func .nil
        bindArgs cx code ns args me
        cut cx 0
        pushFrame cx bound code ns .nil 0
        return Begun.frame) := (neat_newFunc ..).aloof.bind fun bound => hframe ..
    refine neat_heap.aloof.bind fun h => ?_
    apply aloof_ite
    · exact hbound _
    · exact neat_newHash.aloof.bind fun ns => hbound ns
  | none =>
    refine neat_heap.aloof.bind fun h => ?_
    apply aloof_ite
    · exact aloof_fail _
    · exact neat_newHash.aloof.bind fun ns => aloof_fail _

theorem aloof_prepareCall (hne : c ≠ cx) : Aloof c (prepareCall cx) :=
  aloof_freeChild.bind fun _ => aloof_other hne _

theorem aloof_prepareResume (hne : c ≠ cx) (height : Nat) (v : Value) :
    Aloof c (prepareResume cx height v) := by
  refine aloof_freeChild.bind fun _ => (aloof_other hne _).bind fun _ => ?_
  exact (aloof_other hne _).bind fun _ => aloof_push hne v

theorem aloof_finish (hne : c ≠ cx) (r : Except Failure Value) : Aloof c (finish cx r) := by
  cases r with
  | ok v => exact (aloof_other hne _).bind fun _ => aloof_freeChild.bind fun _ => aloof_pure _
  | error e => exact aloof_other_ctx hne fun d => (aloof_other hne _).bind fun _ => aloof_pure _

end

end Act

end ScriptEngine
