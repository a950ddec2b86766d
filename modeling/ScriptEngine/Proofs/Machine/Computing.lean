import ScriptEngine.Proofs.Machine.Placement

/-!
# Code that computes

Code computes an activity if executing it replaces some operands on top by what the activity gives, and
leaves the engine as the activity does.  It is put together from instructions as the activity is from
simpler ones.

* `World.Strays`          the same engine but for the operands of a context and where its frame is;
* `Machine.Computes`      code that computes an activity;
* `Machine.computes_instr`, `Machine.computes_shuffle`   one instruction;
* `Machine.Computes.bind`, `Machine.Computes.hold`       one part after another, on other operands;
* `Machine.computes_jifNotPop`, `Machine.computes_jumpIf`   one of two parts.
-/

namespace ScriptEngine

open World (ctx_modifyCtx_self size_modifyCtx modifyCtx_congr modifyCtx_modifyCtx)
open Act (holding working Replaces Replaced)

namespace World

variable {w w' w'' : World} {cx : CtxId} {vs us : Array Value} {ip : Nat} {code : Loaded}

theorem Agrees.topped (h : w.Agrees cx w') (vs : Array Value) : (w.topped cx vs).Agrees cx (w'.topped cx vs) :=
  h.modifyCtx fun _ => rfl

theorem Agrees.stacked (h : w.Agrees cx w') (vs : Array Value) :
    (w.stacked cx vs).Agrees cx (w'.stacked cx vs) := h.modifyCtx fun _ => rfl

theorem Agrees.moved (h : w.Agrees cx w') (ip : Nat) : (w.moved cx ip).Agrees cx (w'.moved cx ip) :=
  h.modifyCtx fun _ => rfl

/-- The same engine but for the operands and the temporaries of a context and the place of its innermost
frame. -/
def Strays (cx : CtxId) (w w' : World) : Prop := ∃ vs ip, w'.Agrees cx ((w.stacked cx vs).moved cx ip)

theorem Agrees.strays (h : w'.Agrees cx (w.moved cx ip)) : w.Strays cx w' := by
  refine ⟨(w.ctx cx).stack, ip, ?_⟩
  rw [stacked_of_eq rfl]
  exact h

/-- Where the engine has strayed from does not matter. -/
theorem Strays.of_agrees (h : w.Strays cx w'') (hw : w.Agrees cx w') : w'.Strays cx w'' := by
  obtain ⟨vs, ip, h⟩ := h
  exact ⟨vs, ip, h.trans ((hw.stacked vs).moved ip)⟩

theorem Strays.of_topped (h : (w.topped cx vs).Strays cx w') : w.Strays cx w' := by
  obtain ⟨us, ip, h⟩ := h
  have hover : (w.topped cx vs).stacked cx us = w.stacked cx us := by
    rw [topped, stacked, stacked, modifyCtx_modifyCtx]
  exact ⟨us, ip, hover ▸ h⟩

theorem firm_untemped (w : World) (cx : CtxId) : w.Firm (w.untemped cx) :=
  (parallel_modifyCtx cx (f := fun c => { c with temps := #[] }) (fun _ _ => rfl)
    fun _ => ⟨rfl, rfl, rfl, rfl⟩).firm w

/-- Once the operands that have been held are dropped, the stacks are as before. -/
theorem Firm.dropped (h : (w.topped cx vs).Firm w') : w.Firm (w'.stacked cx (w.ctx cx).stack) := by
  refine ⟨?_, fun c => ?_, h.roots, h.options⟩
  · rw [stacked, size_modifyCtx, h.size, topped, size_modifyCtx]
  · have hkept := h.kept c
    by_cases hc : cx = c
    · subst hc
      by_cases hlt : cx < w.contexts.size
      · have hlt' : cx < w'.contexts.size := by
          rw [h.size, topped, size_modifyCtx]
          exact hlt
        rw [topped, ctx_modifyCtx_self hlt] at hkept
        rw [stacked, ctx_modifyCtx_self hlt']
        exact ⟨rfl, hkept.frames, hkept.marks, hkept.resumeAt⟩
      · have hge : w.contexts.size ≤ cx := Nat.le_of_not_lt hlt
        have hge' : (w'.stacked cx (w.ctx cx).stack).contexts.size ≤ cx := by
          rw [stacked, size_modifyCtx, h.size, topped, size_modifyCtx]
          exact hge
        rw [ctx_of_ge hge', ctx_of_ge hge]
        exact .refl _
    · rw [topped, ctx_modifyCtx_of_ne hc] at hkept
      rw [stacked, ctx_modifyCtx_of_ne hc]
      exact hkept

theorem stacked_topped : (w.stacked cx us).topped cx vs = w.stacked cx (us ++ vs) := by
  rw [stacked, topped, stacked, modifyCtx_modifyCtx]

theorem Stands.moved_frame (hw : w.Stands cx code) (ip : Nat) :
    ∃ f fs, fromTop ((w.moved cx ip).ctx cx).frames = f :: fs ∧ f.code = code ∧ f.ip = ip := by
  obtain ⟨hlt, f, fs, hframes, hcode⟩ := hw
  rw [World.moved, ctx_modifyCtx_self hlt]
  exact ⟨_, fs, Act.fromTop_movedTo hframes ip, hcode, rfl⟩

/-- What does not depend on temporaries is the same. -/
theorem Agrees.field {α : Type} (h : w.Agrees cx w') {g : Context → α}
    (hg : ∀ c : Context, g { c with temps := #[] } = g c) : g (w.ctx cx) = g (w'.ctx cx) := by
  have hkept (w : World) : g ((w.untemped cx).ctx cx) = g (w.ctx cx) := field_modifyCtx g hg cx
  rw [← hkept w, ← hkept w', show w.untemped cx = w'.untemped cx from h]

theorem Agrees.frames (h : w.Agrees cx w') : (w.ctx cx).frames = (w'.ctx cx).frames := h.field fun _ => rfl

theorem Agrees.marks (h : w.Agrees cx w') : (w.ctx cx).marks = (w'.ctx cx).marks := h.field fun _ => rfl

theorem Agrees.stack (h : w.Agrees cx w') : (w.ctx cx).stack = (w'.ctx cx).stack := h.field fun _ => rfl

theorem Agrees.heap (h : w.Agrees cx w') : w.heap = w'.heap := by
  show (w.untemped cx).heap = (w'.untemped cx).heap
  rw [show w.untemped cx = w'.untemped cx from h]

theorem Strays.heap (h : w.Strays cx w') : w'.heap = w.heap := by
  obtain ⟨vs, ip, h⟩ := h
  exact h.heap

end World

namespace Act

variable {α : Type} {cx : CtxId} {vs : Array Value} {x : Act α} {w : World}

theorem run_holding (cx : CtxId) (vs : Array Value) (x : Act α) (w : World) :
    (holding cx vs x).run w = match x.run (w.topped cx vs) with
      | .ok r w₁ => .ok r (w₁.modifyCtx cx fun c => { c with stack := c.stack.shrink (c.stack.size - vs.size) })
      | .error e w₁ => .error e w₁ := by
  show EStateM.run (x >>= _) (w.topped cx vs) = _
  cases hr : x.run (w.topped cx vs) with
  | ok r w₁ =>
    rw [run_bind_of_ok hr]
    rfl
  | error e w₁ => rw [run_bind_of_error hr]

/-- The values that have been held are dropped again. -/
theorem run_holding_of_ok {r : α} {w₁ : World} (hcx : cx < w.contexts.size)
    (hr : x.run (w.topped cx vs) = .ok r w₁) (hfirm : (w.topped cx vs).Firm w₁) :
    (holding cx vs x).run w = .ok r (w₁.stacked cx (w.ctx cx).stack) := by
  rw [run_holding, hr]
  refine congrArg (EStateM.Result.ok r) (modifyCtx_congr ?_)
  have hstack : (w₁.ctx cx).stack = (w.ctx cx).stack ++ vs := by
    rw [(hfirm.kept cx).stack, World.stack_topped hcx]
  rw [hstack, Array.size_append, Nat.add_sub_cancel, shrink_low]

theorem run_holding_of_error {e : Failure} {w₁ : World} (hr : x.run (w.topped cx vs) = .error e w₁) :
    (holding cx vs x).run w = .error e w₁ := by
  rw [run_holding, hr]

theorem shrink_shrink {α : Type} (xs : Array α) {m n k : Nat} (h : k = m + n) :
    (xs.shrink (xs.size - m)).shrink ((xs.shrink (xs.size - m)).size - n) = xs.shrink (xs.size - k) := by
  apply Array.toList_inj.mp
  simp only [Array.toList_shrink, Array.size_shrink, List.take_take]
  congr 1
  omega

/-- Values held one after the other are held together. -/
theorem holding_holding (cx : CtxId) (vs us : Array Value) (x : Act α) :
    holding cx vs (holding cx us x) = holding cx (vs ++ us) x := by
  funext w
  show (holding cx vs (holding cx us x)).run w = (holding cx (vs ++ us) x).run w
  rw [run_holding, run_holding, run_holding, World.topped_topped]
  cases x.run (w.topped cx (vs ++ us)) with
  | error e w₁ => rfl
  | ok r w₁ =>
    refine congrArg (EStateM.Result.ok r) ((modifyCtx_modifyCtx _ _).trans (modifyCtx_congr ?_))
    dsimp only
    rw [shrink_shrink _ (Array.size_append.trans (Nat.add_comm ..))]

/-- An activity that reads objects. -/
def Reads (x : Act α) : Prop :=
  ∃ r : Heap → Except Failure α, ∀ w : World, x.run w = match r w.heap with
    | .ok a => .ok a w
    | .error e => .error e w

theorem reads_pure (a : α) : Reads (pure a : Act α) := ⟨fun _ => .ok a, fun _ => rfl⟩

theorem reads_read {β : Type} (f : Heap → Except Cause β) (g : β → α) : Reads (do return g (← read f)) := by
  refine ⟨fun h => ((f h).map g).mapError fun c => { cause := c }, fun w => ?_⟩
  show EStateM.run (ofExcept (f w.heap) >>= fun b => pure (g b)) w = _
  dsimp only
  cases f w.heap with
  | ok b => rfl
  | error c => rfl

end Act

namespace Machine

/-- Some steps lead from one state to another. -/
def Leads (lib : Library) (m m' : Machine) : Prop := ∃ n, (step lib)^[n] m = m'

section

variable {lib : Library} {m m' m'' : Machine}

theorem Leads.refl (m : Machine) : Leads lib m m := ⟨0, rfl⟩

theorem Leads.single (h : m.step lib = m') : Leads lib m m' := ⟨1, h⟩

theorem Leads.trans (h : Leads lib m m') (h' : Leads lib m' m'') : Leads lib m m'' := by
  obtain ⟨k, rfl⟩ := h
  obtain ⟨n, rfl⟩ := h'
  exact ⟨n + k, Function.iterate_add_apply ..⟩

end

section

variable {α β : Type} (lib : Library) (waiting : List Waiting) (cx : CtxId) (code : Loaded)

/-- What executing code leads to that ends at `b` with what `outs` says on top, if an activity has led to a
result from `w`. -/
inductive Computed (b : Nat) (outs : α → Array Value) (w u : World) : EStateM.Result Failure World α → Prop
  | value {r : α} {w' u' : World} (leads : Leads lib ⟨u, waiting, .running cx⟩ ⟨u', waiting, .running cx⟩)
    (firm : w.Firm w') (agrees : u'.Agrees cx ((w'.topped cx (outs r)).moved cx b)) :
    Computed b outs w u (.ok r w')
  | failure {e : Failure} {w' u' : World}
    (leads : Leads lib ⟨u, waiting, .running cx⟩ ⟨u', waiting, .ended cx (.error e)⟩)
    (strays : w'.Strays cx u') : Computed b outs w u (.error e w')

/-- From `a` to `b` the code replaces the operands `ins` on top by what the activity gives, if there is room
for `room` operands. -/
def Computes (room a b : Nat) (ins : Array Value) (x : Act α) (outs : α → Array Value) : Prop :=
  ∀ ⦃w u : World⦄, w.Stands cx code → (w.ctx cx).stack.size + room ≤ w.options.maxStack →
    u.Agrees cx ((w.topped cx ins).moved cx a) → Computed lib waiting cx b outs w u (x.run w)

end

variable {α β : Type} {lib : Library} {waiting : List Waiting} {cx : CtxId} {code : Loaded}
  {room room' a b m : Nat} {ins mid vs : Array Value} {x : Act α} {outs : α → Array Value} {w u : World}

/-! ## putting code together -/

theorem Computed.after {u' : World} {r : EStateM.Result Failure World α}
    (h : Computed lib waiting cx b outs w u' r)
    (hleads : Leads lib ⟨u, waiting, .running cx⟩ ⟨u', waiting, .running cx⟩) :
    Computed lib waiting cx b outs w u r := by
  cases h with
  | value leads firm agrees => exact .value (hleads.trans leads) firm agrees
  | failure leads strays => exact .failure (hleads.trans leads) strays

theorem Computes.mono (h : Computes lib waiting cx code room a b ins x outs) (hle : room ≤ room') :
    Computes lib waiting cx code room' a b ins x outs :=
  fun _ _ hw hroom hu => h hw (Nat.le_trans (Nat.add_le_add_left hle _) hroom) hu

theorem Computes.bind {f : α → Act β} {outs' : β → Array Value}
    (h : Computes lib waiting cx code room a m ins x outs)
    (h' : ∀ r, Computes lib waiting cx code room m b (outs r) (f r) outs') :
    Computes lib waiting cx code room a b ins (x >>= f) outs' := by
  intro w u hw hroom hu
  have hx := h hw hroom hu
  generalize hr : x.run w = r at hx
  cases hx with
  | @value r w₁ u₁ leads firm agrees =>
    rw [run_bind_of_ok hr]
    have hroom₁ : (w₁.ctx cx).stack.size + room ≤ w₁.options.maxStack := by
      rw [(firm.kept cx).stack, firm.options]
      exact hroom
    have hf := (h' r (firm.stands hw) hroom₁ agrees).after leads
    generalize (f r).run w₁ = r' at hf
    cases hf with
    | value leads' firm' agrees' => exact .value leads' (firm.trans firm') agrees'
    | failure leads' strays => exact .failure leads' strays
  | failure leads strays =>
    rw [run_bind_of_error hr]
    exact .failure leads strays

theorem Computes.lead (h : Computes lib waiting cx code room a m ins (pure ()) fun _ => mid)
    (h' : Computes lib waiting cx code room m b mid x outs) :
    Computes lib waiting cx code room a b ins x outs := h.bind fun _ => h'

theorem Computes.trail (h : Computes lib waiting cx code room a m ins x outs) {outs' : α → Array Value}
    (h' : ∀ r, Computes lib waiting cx code room m b (outs r) (pure r) outs') :
    Computes lib waiting cx code room a b ins x outs' := by
  have hboth := h.bind h'
  rw [bind_pure] at hboth
  exact hboth

theorem Computes.hold (h : Computes lib waiting cx code room a b ins x outs) (vs : Array Value) :
    Computes lib waiting cx code (vs.size + room) a b (vs ++ ins) (holding cx vs x) fun r => vs ++ outs r := by
  intro w u hw hroom hu
  have hroom' : ((w.topped cx vs).ctx cx).stack.size + room ≤ (w.topped cx vs).options.maxStack := by
    rw [World.stack_topped hw.lt, Array.size_append, Nat.add_assoc]
    exact hroom
  rw [← World.topped_topped] at hu
  have hx := h hw.topped hroom' hu
  generalize hr : x.run (w.topped cx vs) = r at hx
  cases hx with
  | @value r w₁ u₁ leads firm agrees =>
    rw [Act.run_holding_of_ok hw.lt hr firm]
    refine .value leads firm.dropped ?_
    have hstack : (w₁.ctx cx).stack = (w.ctx cx).stack ++ vs := by
      rw [(firm.kept cx).stack, World.stack_topped hw.lt]
    rw [World.stacked_topped, ← Array.append_assoc, ← World.stacked_topped, World.stacked_of_eq hstack]
    exact agrees
  | failure leads strays =>
    rw [Act.run_holding_of_error hr]
    exact .failure leads strays

/-! ## instructions -/

theorem run_exec_at {op : Op} {arg : Nat} (hw : w.Stands cx code) (hin : Item.In ⟨a, op, arg⟩ code.words)
    (hu : u.Agrees cx (w.moved cx a)) : (Act.exec lib cx).run u =
      (Act.perform lib cx code op arg).run ((w.untemped cx).moved cx (a + op.length)) := by
  obtain ⟨f, fs, hframes, rfl, hip⟩ := hw.moved_frame a
  rw [← hu.frames] at hframes
  rw [Act.run_exec hframes hip.symm hin, hip]
  show EStateM.run _ ((u.untemped cx).moved cx _) = _
  rw [show u.untemped cx = (w.moved cx a).untemped cx from hu, World.untemped_moved, World.moved_moved]

theorem leads_next {op : Op} {arg : Nat} (hw : w.Stands cx code) (hin : Item.In ⟨a, op, arg⟩ code.words)
    (hu : u.Agrees cx (w.moved cx a)) {u' : World}
    (hp : (Act.perform lib cx code op arg).run ((w.untemped cx).moved cx (a + op.length)) = .ok .next u') :
    Leads lib ⟨u, waiting, .running cx⟩ ⟨u', waiting, .running cx⟩ := by
  refine .single ?_
  dsimp only [step]
  rw [run_exec_at hw hin hu, hp]

theorem leads_error {op : Op} {arg : Nat} (hw : w.Stands cx code) (hin : Item.In ⟨a, op, arg⟩ code.words)
    (hu : u.Agrees cx (w.moved cx a)) {e : Failure} {u' : World}
    (hp : (Act.perform lib cx code op arg).run ((w.untemped cx).moved cx (a + op.length)) = .error e u') :
    Leads lib ⟨u, waiting, .running cx⟩ ⟨u', waiting, .ended cx (.error e)⟩ := by
  refine .single ?_
  dsimp only [step]
  rw [run_exec_at hw hin hu, hp]

theorem computes_instr {op : Op} {arg : Nat} {x : Act Value}
    (h : Replaces cx ins x (Act.perform lib cx code op arg)) (hin : Item.In ⟨a, op, arg⟩ code.words)
    (hroom : 1 ≤ room) :
    Computes lib waiting cx code room a (a + op.length) ins (working cx ins x) fun v => #[v] := by
  intro w u hw hlimit hu
  have hw' : (w.topped cx ins).Stands cx code := hw.topped
  have hstack : (((w.topped cx ins).untemped cx).ctx cx).stack = (w.ctx cx).stack ++ ins := by
    rw [World.stack_untemped, World.stack_topped hw.lt]
  -- the activity does not depend on where the frame is
  have hrun := h.run (w := ((w.topped cx ins).untemped cx).moved cx (a + op.length))
    (by rw [World.moved, size_modifyCtx]; exact hw'.untemped.lt)
    (by rw [World.stack_moved]; exact hstack) (by
      show (w.ctx cx).stack.size < w.options.maxStack
      omega)
  rw [h.placeless.moved] at hrun
  have hworking : (do Act.modifyCtx cx fun c => { c with temps := #[] }; x : Act Value).run (w.topped cx ins) =
      x.run ((w.topped cx ins).untemped cx) := rfl
  cases hr : x.run ((w.topped cx ins).untemped cx) with
  | ok v w₁ =>
    rw [hr] at hrun hworking
    have hfirm := (World.firm_untemped _ cx).trans (h.placeless.of_ok hr)
    generalize hp : (Act.perform lib cx code op arg).run _ = r at hrun
    cases hrun
    rw [working, Act.run_holding_of_ok hw.lt hworking hfirm]
    refine .value (leads_next hw' hin hu hp) hfirm.dropped ?_
    rw [World.stacked_topped, World.stacked_moved]
    exact .refl _
  | error e w₁ =>
    rw [hr] at hrun hworking
    generalize hp : (Act.perform lib cx code op arg).run _ = r at hrun
    cases hrun
    rw [working, Act.run_holding_of_error hworking]
    exact .failure (leads_error hw' hin hu hp) (World.Agrees.refl _).strays

theorem Computes.below (h : Computes lib waiting cx code room a b ins (working cx ins x) outs)
    (vs : Array Value) : Computes lib waiting cx code (vs.size + room) a b (vs ++ ins)
      (working cx (vs ++ ins) x) fun r => vs ++ outs r := by
  have hheld := h.hold vs
  rw [working, Act.holding_holding] at hheld
  exact hheld

/-- An instruction whose value is one of its operands. -/
theorem Computes.discarded {v : Value} {y : Act Unit}
    (h : Computes lib waiting cx code room a b ins (working cx ins (do y; return v)) fun r => #[r]) :
    Computes lib waiting cx code room a b ins (working cx ins y) fun _ => #[v] := by
  intro w u hw hroom hu
  have hv := h hw hroom hu
  have hrun : (do Act.modifyCtx cx fun c => { c with temps := #[] }; y : Act Unit).run (w.topped cx ins) =
      y.run ((w.topped cx ins).untemped cx) := rfl
  have hrun' : (do Act.modifyCtx cx fun c => { c with temps := #[] }; y; return v : Act Value).run
      (w.topped cx ins) = (y >>= fun _ => pure v).run ((w.topped cx ins).untemped cx) := rfl
  rw [working, Act.run_holding] at hv ⊢
  rw [hrun'] at hv
  rw [hrun]
  cases hy : y.run ((w.topped cx ins).untemped cx) with
  | ok _ w₁ =>
    rw [run_bind_of_ok hy] at hv
    cases hv with
    | value leads firm agrees => exact .value leads firm agrees
  | error e w₁ =>
    rw [run_bind_of_error hy] at hv
    cases hv with
    | failure leads strays => exact .failure leads strays

/-- An activity that only reads need not hold what it reads. -/
theorem Computes.unheld {x : Act α} (h : Computes lib waiting cx code room a b ins (working cx ins x) outs)
    (hx : Act.Reads x) : Computes lib waiting cx code room a b ins x outs := by
  intro w u hw hroom hu
  obtain ⟨r, hread⟩ := hx
  have hworking := h hw hroom hu
  have hrun : (do Act.modifyCtx cx fun c => { c with temps := #[] }; x : Act α).run (w.topped cx ins) =
      x.run ((w.topped cx ins).untemped cx) := rfl
  have hheap : ((w.topped cx ins).untemped cx).heap = w.heap := rfl
  rw [hread, hheap] at hrun
  rw [hread]
  cases hr : r w.heap with
  | ok v =>
    rw [hr] at hrun
    have hfirm := World.firm_untemped (w.topped cx ins) cx
    rw [working, Act.run_holding_of_ok hw.lt hrun hfirm] at hworking
    have hback : (((w.topped cx ins).untemped cx).stacked cx (w.ctx cx).stack) = w.untemped cx := by
      rw [World.untemped_topped, World.topped, World.stacked, modifyCtx_modifyCtx]
      refine World.modifyCtx_of_eq ?_
      rw [World.stack_untemped.symm]
    cases hworking with
    | value leads firm agrees =>
      rw [hback] at agrees
      exact .value leads (.refl w) (agrees.trans (((World.untemped_agrees w cx).topped _).moved b))
  | error e =>
    rw [hr] at hrun
    rw [working, Act.run_holding_of_error hrun] at hworking
    cases hworking with
    | failure leads strays =>
      have hagrees := World.untemped_agrees (w.topped cx ins) cx
      exact .failure leads (strays.of_agrees hagrees).of_topped

theorem computes_shuffle {op : Op} {arg : Nat} (hin : Item.In ⟨a, op, arg⟩ code.words)
    (hp : ∀ (w : World) low, cx < w.contexts.size → (w.ctx cx).stack = low ++ ins →
      low.size + room ≤ w.options.maxStack →
      (Act.perform lib cx code op arg).run w = .ok .next (w.stacked cx (low ++ mid))) :
    Computes lib waiting cx code room a (a + op.length) ins (pure ()) fun _ => mid := by
  intro w u hw hroom hu
  have hw' : (w.topped cx ins).Stands cx code := hw.topped
  have hrun := hp (((w.topped cx ins).untemped cx).moved cx (a + op.length)) (w.ctx cx).stack
    (by rw [World.moved, size_modifyCtx]; exact hw'.untemped.lt)
    (by rw [World.stack_moved, World.stack_untemped, World.stack_topped hw.lt]) hroom
  refine .value (leads_next hw' hin hu hrun) (.refl w) ?_
  have hstacked : ((w.topped cx ins).untemped cx).stacked cx ((w.ctx cx).stack ++ mid) =
      (w.untemped cx).topped cx mid := by
    rw [World.untemped_topped, World.topped, World.topped, World.stacked, modifyCtx_modifyCtx]
    apply modifyCtx_congr
    rw [World.stack_untemped]
  rw [World.stacked_moved, hstacked]
  exact ((World.untemped_agrees w cx).topped mid).moved _

theorem computes_pop {v : Value} {arg : Nat} (hin : Item.In ⟨a, .pop, arg⟩ code.words) :
    Computes lib waiting cx code room a (a + 1) #[v] (pure ()) fun _ => #[] := by
  refine computes_shuffle hin fun w low _ hs _ => ?_
  rw [Array.append_empty]
  exact run_bind_of_ok (run_bind_of_ok (Act.run_pop hs))

theorem computes_dup {v : Value} {arg : Nat} (hin : Item.In ⟨a, .dup, arg⟩ code.words) (hroom : 2 ≤ room) :
    Computes lib waiting cx code room a (a + 1) #[v] (pure ()) fun _ => #[v, v] := by
  refine computes_shuffle hin fun w low _ hs hlimit => ?_
  have hsize : (low ++ #[v]).size < w.options.maxStack := by
    rw [Array.size_append, show (#[v] : Array Value).size = 1 from rfl]
    omega
  refine (run_bind_of_ok (Act.run_peek₁ hs)).trans ((run_bind_of_ok (Act.run_push hs hsize v)).trans ?_)
  rw [Array.push_append]
  rfl

theorem computes_dup2 {u v : Value} {arg : Nat} (hin : Item.In ⟨a, .dup2, arg⟩ code.words) (hroom : 4 ≤ room) :
    Computes lib waiting cx code room a (a + 1) #[u, v] (pure ()) fun _ => #[u, v, u, v] := by
  refine computes_shuffle hin fun w low hcx hs hlimit => ?_
  obtain ⟨htop, hnext⟩ := Act.run_peek₂ hs
  have hsize : (low ++ #[u, v]).size + 1 < w.options.maxStack := by
    rw [Array.size_append, show (#[u, v] : Array Value).size = 2 from rfl]
    omega
  have hpush := Act.run_push hs (Nat.lt_of_succ_lt hsize) u
  have hstacked : ((w.stacked cx ((low ++ #[u, v]).push u)).ctx cx).stack = _ := World.stack_stacked hcx
  have hpush' := Act.run_push hstacked (by rw [Array.size_push]; exact hsize) v
  refine (run_bind_of_ok hnext).trans ((run_bind_of_ok htop).trans ((run_bind_of_ok hpush).trans
    ((run_bind_of_ok hpush').trans ?_)))
  rw [World.stacked_stacked, Array.push_append]
  rfl

theorem computes_pushConst {i : Nat} (hin : Item.In ⟨a, .pushConst, i⟩ code.words) (hroom : ins.size < room) :
    Computes lib waiting cx code room a (a + 2) ins (pure ()) fun _ => ins.push (code.const i) := by
  refine computes_shuffle hin fun w low _ hs hlimit => ?_
  have hsize : (low ++ ins).size < w.options.maxStack := by
    rw [Array.size_append]
    omega
  refine (run_bind_of_ok (Act.run_push hs hsize (code.const i))).trans ?_
  rw [Array.push_append]
  rfl

theorem computes_jmp {target : Nat} (hin : Item.In ⟨a, .jmp, target⟩ code.words) :
    Computes lib waiting cx code room a target ins (pure ()) fun _ => ins := by
  intro w u hw hroom hu
  have hrun : (Act.perform lib cx code .jmp target).run (((w.topped cx ins).untemped cx).moved cx (a + 2)) =
      .ok .next ((((w.topped cx ins).untemped cx).moved cx (a + 2)).moved cx target) := rfl
  refine .value (leads_next hw.topped hin hu hrun) (.refl w) ?_
  rw [World.moved_moved]
  exact (World.untemped_agrees _ cx).moved target

/-! ## branches -/

/-- A test of the operand on top leads to one of two parts, and there to other operands. -/
theorem computes_test {op : Op} {v : Value} {target : Nat} {x y : Act α} {yes no : Nat} {held : Array Value}
    (hin : Item.In ⟨a, op, target⟩ code.words)
    (hp : ∀ (w : World) low, cx < w.contexts.size → (w.ctx cx).stack = low ++ #[v] → ∀ r, w.heap.truth v = r →
      (Act.perform lib cx code op target).run (w.moved cx (a + op.length)) = match r with
        | .ok t => .ok .next ((w.stacked cx (low ++ held)).moved cx (if t then yes else no))
        | .error c => .error { cause := c } ((w.stacked cx (low ++ held)).moved cx (a + op.length)))
    (hx : Computes lib waiting cx code room yes b held x outs)
    (hy : Computes lib waiting cx code room no b held y outs) :
    Computes lib waiting cx code room a b #[v] (do if ← Evaluate.truth v then x else y) outs := by
  intro w u hw hroom hu
  have hw' : (w.topped cx #[v]).Stands cx code := hw.topped
  have hrun := hp ((w.topped cx #[v]).untemped cx) (w.ctx cx).stack hw'.untemped.lt
    (by rw [World.stack_untemped, World.stack_topped hw.lt]) _ rfl
  have hheld : ((w.topped cx #[v]).untemped cx).stacked cx ((w.ctx cx).stack ++ held) =
      (w.untemped cx).topped cx held := by
    rw [World.untemped_topped, World.topped, World.topped, World.stacked, modifyCtx_modifyCtx]
    apply modifyCtx_congr
    rw [World.stack_untemped]
  have hagrees (ip : Nat) : (((w.untemped cx).topped cx held).moved cx ip).Agrees cx
      ((w.topped cx held).moved cx ip) := ((World.untemped_agrees w cx).topped held).moved ip
  have hread : (Evaluate.truth v).run w = (Act.ofExcept (w.heap.truth v)).run w := rfl
  rw [hheld, show ((w.topped cx #[v]).untemped cx).heap = w.heap from rfl] at hrun
  cases htruth : w.heap.truth v with
  | error c =>
    rw [htruth] at hrun hread
    rw [run_bind_of_error hread]
    exact .failure (leads_error hw' hin hu hrun) (hagrees _).strays.of_topped
  | ok t =>
    rw [htruth] at hrun hread
    rw [run_bind_of_ok hread]
    cases t with
    | true => exact (hx hw hroom (hagrees yes)).after (leads_next hw' hin hu hrun)
    | false => exact (hy hw hroom (hagrees no)).after (leads_next hw' hin hu hrun)

theorem computes_jifNotPop {v : Value} {target : Nat} {x y : Act α}
    (hin : Item.In ⟨a, .jifNotPop, target⟩ code.words)
    (hx : Computes lib waiting cx code room (a + 2) b #[] x outs)
    (hy : Computes lib waiting cx code room target b #[] y outs) :
    Computes lib waiting cx code room a b #[v] (do if ← Evaluate.truth v then x else y) outs := by
  refine computes_test hin (fun w low hcx hs r hr => ?_) hx hy
  have hpop := Act.run_pop (w := w.moved cx (a + 2)) (World.stack_moved.trans hs)
  have hread : (Act.read fun h => h.truth v).run ((w.moved cx (a + 2)).stacked cx low) =
      (Act.ofExcept (w.heap.truth v)).run ((w.moved cx (a + 2)).stacked cx low) := rfl
  unfold Act.perform
  dsimp only
  rw [Array.append_empty, show Op.jifNotPop.length = 2 from rfl, run_bind_of_ok hpop]
  rw [hr] at hread
  cases r with
  | error c =>
    rw [run_bind_of_error hread, World.stacked_moved]
  | ok t =>
    rw [run_bind_of_ok hread]
    cases t with
    | true => exact congrArg (EStateM.Result.ok _) World.stacked_moved
    | false =>
      show EStateM.Result.ok _ (((w.moved cx (a + 2)).stacked cx low).moved cx target) = _
      rw [World.stacked_moved, World.moved_moved]
      rfl

theorem run_jumpIf {v : Value} {low : Array Value} (want : Bool) (ip target : Nat)
    (hs : (w.ctx cx).stack = low ++ #[v]) {r : Except Cause Bool} (hr : w.heap.truth v = r) :
    (do Act.jumpIf cx want target; return Act.Outcome.next).run (w.moved cx ip) = match r with
      | .ok t => .ok .next ((w.stacked cx (low ++ #[v])).moved cx (if t == want then target else ip))
      | .error c => .error { cause := c } ((w.stacked cx (low ++ #[v])).moved cx ip) := by
  have hread : (Act.read fun h => h.truth v).run (w.moved cx ip) =
      (Act.ofExcept (w.heap.truth v)).run (w.moved cx ip) := rfl
  rw [hr] at hread
  rw [World.stacked_of_eq hs]
  unfold Act.jumpIf
  simp only [bind_assoc]
  rw [run_bind_of_ok (Act.run_peek₁ (World.stack_moved.trans hs))]
  cases r with
  | error c => exact run_bind_of_error hread
  | ok t =>
    rw [run_bind_of_ok hread]
    dsimp only
    split
    · exact congrArg (EStateM.Result.ok _) (World.moved_moved target)
    · rfl

theorem computes_jifNot {v : Value} {target : Nat} {x y : Act α}
    (hin : Item.In ⟨a, .jifNot, target⟩ code.words)
    (hx : Computes lib waiting cx code room (a + 2) b #[v] x outs)
    (hy : Computes lib waiting cx code room target b #[v] y outs) :
    Computes lib waiting cx code room a b #[v] (do if ← Evaluate.truth v then x else y) outs := by
  refine computes_test hin (fun w low _ hs r hr => (run_jumpIf false _ _ hs hr).trans ?_) hx hy
  cases r with
  | error c => rfl
  | ok t => cases t <;> rfl

theorem computes_jifTrue {v : Value} {target : Nat} {x y : Act α}
    (hin : Item.In ⟨a, .jifTrue, target⟩ code.words)
    (hx : Computes lib waiting cx code room target b #[v] x outs)
    (hy : Computes lib waiting cx code room (a + 2) b #[v] y outs) :
    Computes lib waiting cx code room a b #[v] (do if ← Evaluate.truth v then x else y) outs := by
  refine computes_test hin (fun w low _ hs r hr => (run_jumpIf true _ _ hs hr).trans ?_) hx hy
  cases r with
  | error c => rfl
  | ok t => cases t <;> rfl

theorem computes_pure {r : α} (h : outs r = ins) : Computes lib waiting cx code room a a ins (pure r) outs :=
  fun w _ _ _ hu => .value (.refl _) (.refl w) (h.symm ▸ hu)

end Machine

end ScriptEngine
