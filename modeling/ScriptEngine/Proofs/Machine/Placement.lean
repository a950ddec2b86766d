import ScriptEngine.Proofs.Machine.Evaluation
import ScriptEngine.Proofs.Machine.Neatness
import ScriptEngine.Proofs.Machine.Parting

/-!
# Instructions that compute

An instruction of an expression replaces some operands on top by one value, which an activity computes that
does not depend on where the frame is.

* `World.topped`, `World.moved`   further operands, and another place of the innermost frame;
* `World.Agrees`      the same engine but for temporaries;
* `Act.Placeless`     an activity that does not depend on the place;
* `Act.Replaces`      an instruction that computes;
* `Act.replaces_operate`, `Act.replaces_member`, ...   the instructions of expressions.
-/

namespace ScriptEngine

open World (ctx_modifyCtx_self size_modifyCtx modifyCtx_congr modifyCtx_modifyCtx modifyCtx_comm)

theorem flatMap_modify {α β : Type} {g : α → List β} {f : α → α} (h : ∀ a, g (f a) = g a) (l : List α)
    (i : Nat) : (l.modify i f).flatMap g = l.flatMap g := by
  induction l generalizing i with
  | nil => rw [List.modify_nil]
  | cons a l ih =>
    cases i with
    | zero => rw [List.modify_zero_cons, List.flatMap_cons, List.flatMap_cons, h]
    | succ i => rw [List.modify_succ_cons, List.flatMap_cons, List.flatMap_cons, ih]

theorem shrink_low {α : Type} (low top : Array α) : (low ++ top).shrink low.size = low := by
  apply Array.toList_inj.mp
  rw [Array.toList_shrink, Array.toList_append, List.take_left' Array.length_toList]

namespace World

variable {w w' w'' : World} {cx : CtxId} {vs us : Array Value} {ip : Nat}

def untemped (w : World) (cx : CtxId) : World := w.modifyCtx cx fun c => { c with temps := #[] }

def topped (w : World) (cx : CtxId) (vs : Array Value) : World :=
  w.modifyCtx cx fun c => { c with stack := c.stack ++ vs }

def stacked (w : World) (cx : CtxId) (vs : Array Value) : World :=
  w.modifyCtx cx fun c => { c with stack := vs }

def moved (w : World) (cx : CtxId) (ip : Nat) : World :=
  w.modifyCtx cx fun c => { c with frames := Act.movedTo c.frames ip }

/-- The same but for the temporaries of a context. -/
def Agrees (cx : CtxId) (w w' : World) : Prop := w.untemped cx = w'.untemped cx

theorem Agrees.refl (w : World) : w.Agrees cx w := rfl

theorem Agrees.trans (h : w.Agrees cx w') (h' : w'.Agrees cx w'') : w.Agrees cx w'' := Eq.trans h h'

theorem untemped_agrees (w : World) (cx : CtxId) : (w.untemped cx).Agrees cx w := by
  rw [Agrees, untemped, untemped, modifyCtx_modifyCtx]

theorem Agrees.modifyCtx (h : w.Agrees cx w') {f : Context → Context}
    (hf : ∀ c : Context, f { c with temps := #[] } = { f c with temps := #[] }) :
    (w.modifyCtx cx f).Agrees cx (w'.modifyCtx cx f) := by
  have hcomm (v : World) : (v.modifyCtx cx f).untemped cx = (v.untemped cx).modifyCtx cx f := by
    rw [untemped, untemped, modifyCtx_modifyCtx, modifyCtx_modifyCtx]
    exact modifyCtx_congr (hf _).symm
  rw [Agrees, hcomm, hcomm, show w.untemped cx = w'.untemped cx from h]

theorem moved_moved (ip' : Nat) : (w.moved cx ip).moved cx ip' = w.moved cx ip' := by
  rw [moved, moved, moved, modifyCtx_modifyCtx]
  apply modifyCtx_congr
  show ({ w.ctx cx with frames := Act.movedTo (Act.movedTo (w.ctx cx).frames ip) ip' } : Context) = _
  have hframes : Act.movedTo (Act.movedTo (w.ctx cx).frames ip) ip' = Act.movedTo (w.ctx cx).frames ip' := by
    rw [Act.movedTo, Act.movedTo, Array.size_modify, Act.movedTo]
    apply Array.ext_getElem?
    intro i
    simp only [Array.getElem?_modify]
    split
    · rw [Option.map_map]
      rfl
    · rfl
  rw [hframes]

theorem topped_topped : (w.topped cx vs).topped cx us = w.topped cx (vs ++ us) := by
  rw [topped, topped, topped, modifyCtx_modifyCtx]
  apply modifyCtx_congr
  dsimp only
  rw [Array.append_assoc]

theorem topped_empty : w.topped cx #[] = w := by
  have hput : w.topped cx #[] = w.put cx (w.ctx cx).allStacks := by
    apply modifyCtx_congr
    rw [Array.append_empty]
    rfl
  rw [hput, put_self]

theorem untemped_topped : (w.topped cx vs).untemped cx = (w.untemped cx).topped cx vs := by
  rw [topped, untemped, untemped, topped, modifyCtx_modifyCtx, modifyCtx_modifyCtx]

theorem untemped_moved : (w.moved cx ip).untemped cx = (w.untemped cx).moved cx ip := by
  rw [moved, untemped, untemped, moved, modifyCtx_modifyCtx, modifyCtx_modifyCtx]

theorem stacked_moved : (w.moved cx ip).stacked cx vs = (w.stacked cx vs).moved cx ip := by
  rw [moved, stacked, stacked, moved, modifyCtx_modifyCtx, modifyCtx_modifyCtx]

theorem stacked_of_eq (h : (w.ctx cx).stack = vs) : w.stacked cx vs = w := by
  have hput : w.stacked cx vs = w.put cx (w.ctx cx).allStacks := by
    apply modifyCtx_congr
    rw [← h]
    rfl
  rw [hput, put_self]

theorem stacked_stacked : (w.stacked cx us).stacked cx vs = w.stacked cx vs := by
  rw [stacked, stacked, stacked, modifyCtx_modifyCtx]

theorem stack_stacked (h : cx < w.contexts.size) : ((w.stacked cx vs).ctx cx).stack = vs := by
  rw [stacked, ctx_modifyCtx_self h]

theorem stack_topped (h : cx < w.contexts.size) : ((w.topped cx vs).ctx cx).stack = (w.ctx cx).stack ++ vs := by
  rw [topped, ctx_modifyCtx_self h]

theorem stack_untemped : ((w.untemped cx).ctx cx).stack = (w.ctx cx).stack :=
  field_modifyCtx Context.stack (f := fun c => { c with temps := #[] }) (fun _ => rfl) cx

theorem stack_moved : ((w.moved cx ip).ctx cx).stack = (w.ctx cx).stack :=
  field_modifyCtx Context.stack (f := fun c => { c with frames := Act.movedTo c.frames ip }) (fun _ => rfl) cx

/-- The innermost frame of a context runs some code. -/
structure Stands (w : World) (cx : CtxId) (code : Loaded) : Prop where
  lt : cx < w.contexts.size
  frame : ∃ f fs, fromTop (w.ctx cx).frames = f :: fs ∧ f.code = code

variable {code : Loaded}

theorem stands_of_back? {f : Frame} (hf : (w.ctx cx).frames.back? = some f) : w.Stands cx f.code := by
  rw [back?_eq_head?] at hf
  obtain ⟨fs, hframes⟩ := List.head?_eq_some_iff.mp hf
  refine ⟨Nat.lt_of_not_le fun hge => ?_, f, fs, hframes, rfl⟩
  rw [ctx_of_ge hge] at hf
  exact nomatch hf

theorem moved_of_back? {f : Frame} (hf : (w.ctx cx).frames.back? = some f) (hip : f.ip = ip) :
    w.moved cx ip = w := by
  have hsame : Act.movedTo (w.ctx cx).frames ip = (w.ctx cx).frames := by
    apply Array.ext_getElem?
    intro i
    rw [Act.movedTo, Array.getElem?_modify]
    split
    · rename_i hi
      rw [← hi, ← Array.back?_eq_getElem?, hf, ← hip]
      rfl
    · rfl
  refine modifyCtx_of_eq ?_
  rw [hsame]

theorem Firm.stands (h : w.Firm w') (hw : w.Stands cx code) : w'.Stands cx code := by
  refine ⟨by rw [h.size]; exact hw.lt, ?_⟩
  rw [(h.kept cx).frames]
  exact hw.frame

theorem Stands.modifyCtx (hw : w.Stands cx code) {f : Context → Context} (hf : ∀ c, (f c).frames = c.frames) :
    (w.modifyCtx cx f).Stands cx code := by
  refine ⟨by rw [size_modifyCtx]; exact hw.lt, ?_⟩
  rw [ctx_modifyCtx_self hw.lt, hf]
  exact hw.frame

theorem Stands.topped (hw : w.Stands cx code) : (w.topped cx vs).Stands cx code :=
  hw.modifyCtx fun _ => rfl

theorem Stands.untemped (hw : w.Stands cx code) : (w.untemped cx).Stands cx code :=
  hw.modifyCtx fun _ => rfl

end World

namespace Act

section

variable {α β : Type} {cx : CtxId} {x : Act α}

/-- An activity that leaves the stacks alone and does not depend on the place of the innermost frame. -/
structure Placeless (cx : CtxId) (x : Act α) : Prop where
  firm : ∀ w : World, w.Firm (World.after (x.run w))
  moved : ∀ (w : World) ip, x.run (w.moved cx ip) = after (·.moved cx ip) (x.run w)

theorem Placeless.of_ok (hx : Placeless cx x) {w w₁ : World} {a : α} (hr : x.run w = .ok a w₁) :
    w.Firm w₁ := by
  have hfirm := hx.firm w
  rw [hr] at hfirm
  exact hfirm

theorem Neat.placeless (hx : Neat x) : Placeless cx x := by
  refine ⟨hx.firm, fun w ip => ?_⟩
  have hput {v : World} (hv : (w.ctx cx).SameStacks (v.ctx cx)) : v.moved cx ip =
      v.put cx ⟨(w.ctx cx).stack, movedTo (w.ctx cx).frames ip, (w.ctx cx).marks⟩ := by
    rw [← hv.stack, ← hv.frames, ← hv.marks]
    exact modifyCtx_congr rfl
  have hcovers : w.Covers cx ⟨(w.ctx cx).stack, movedTo (w.ctx cx).frames ip, (w.ctx cx).marks⟩ := by
    have hroots : (movedTo (w.ctx cx).frames ip).toList.flatMap (fun f => [f.func, f.locals, f.closure]) =
        (w.ctx cx).frames.toList.flatMap fun f => [f.func, f.locals, f.closure] := by
      rw [movedTo, Array.toList_modify, flatMap_modify]
      exact fun _ => rfl
    intro a
    rw [Stacks.roots, hroots]
    exact Iff.rfl
  rw [hput (.refl _), hx.put hcovers]
  have hfirm := (hx.firm w).kept cx
  cases hr : x.run w with
  | ok a w₁ =>
    rw [hr] at hfirm
    exact congrArg (EStateM.Result.ok a) (hput hfirm).symm
  | error e w₁ =>
    rw [hr] at hfirm
    exact congrArg (EStateM.Result.error e) (hput hfirm).symm

theorem Placeless.bind {f : α → Act β} (hx : Placeless cx x) (hf : ∀ a, Placeless cx (f a)) :
    Placeless cx (x >>= f) := by
  refine ⟨fun w => ?_, fun w ip => ?_⟩
  · have hfirm := hx.firm w
    cases hr : x.run w with
    | ok a w₁ =>
      rw [hr] at hfirm
      rw [run_bind_of_ok hr]
      exact World.Firm.trans hfirm ((hf a).firm w₁)
    | error e w₁ =>
      rw [hr] at hfirm
      rw [run_bind_of_error hr]
      exact hfirm
  · have hmoved := hx.moved w ip
    cases hr : x.run w with
    | ok a w₁ =>
      rw [hr] at hmoved
      rw [run_bind_of_ok hr, run_bind_of_ok hmoved]
      exact (hf a).moved w₁ ip
    | error e w₁ =>
      rw [hr] at hmoved
      rw [run_bind_of_error hr, run_bind_of_error hmoved]
      rfl

/-- What is done with the innermost frame does not depend on its place. -/
theorem placeless_frame {f : Frame → Act α} (hf : ∀ g, Placeless cx (f g))
    (hip : ∀ (g : Frame) ip, f { g with ip } = f g) : Placeless cx (frame cx >>= f) := by
  have hnone {w : World} (h : fromTop (w.ctx cx).frames = []) :
      (frame cx).run w = .error { cause := .noFrame } w := by
    have hback : (w.ctx cx).frames.back? = none := by
      rw [back?_eq_head?, h]
      rfl
    rw [frame, run_ctx_bind]
    rw [hback]
    rfl
  have hkept (w : World) (ip : Nat) (h : cx < w.contexts.size) :
      ((w.moved cx ip).ctx cx).frames = movedTo (w.ctx cx).frames ip := by
    rw [World.moved, ctx_modifyCtx_self h]
  refine ⟨fun w => ?_, fun w ip => ?_⟩
  · cases hframes : fromTop (w.ctx cx).frames with
    | nil =>
      rw [run_bind_of_error (hnone hframes)]
      exact .refl w
    | cons g gs =>
      rw [run_bind_of_ok (run_frame hframes)]
      exact (hf g).firm w
  · cases hframes : fromTop (w.ctx cx).frames with
    | nil =>
      have hempty : (w.ctx cx).frames = #[] := fromTop_eq_nil.mp hframes
      have hsame : ((w.moved cx ip).ctx cx).frames = (w.ctx cx).frames := by
        by_cases h : cx < w.contexts.size
        · rw [hkept w ip h, hempty]
          rfl
        · have hge : w.contexts.size ≤ cx := Nat.le_of_not_lt h
          rw [World.ctx_of_ge hge, World.ctx_of_ge (by rw [World.moved, size_modifyCtx]; exact hge)]
      rw [run_bind_of_error (hnone hframes), run_bind_of_error (hnone (by rw [hsame]; exact hframes))]
      rfl
    | cons g gs =>
      have hlt : cx < w.contexts.size := by
        apply Nat.lt_of_not_le
        intro hge
        rw [World.ctx_of_ge hge] at hframes
        cases hframes
      have hmoved : fromTop ((w.moved cx ip).ctx cx).frames = { g with ip } :: gs := by
        rw [hkept w ip hlt]
        exact fromTop_movedTo hframes ip
      rw [run_bind_of_ok (run_frame hframes), run_bind_of_ok (run_frame hmoved), hip]
      exact (hf g).moved w ip

theorem placeless_lookupSym (sym : Value) (hash : UInt32) : Placeless cx (lookupSym cx sym hash) := by
  refine placeless_frame (fun f => ?_) fun _ _ => rfl
  refine Neat.placeless ((neat_heap.bind fun _ => neat_pure _).bind fun n => neat_heap.bind fun h => ?_)
  split
  · exact neat_pure _
  · split
    · exact neat_pure _
    · exact neat_fail _

theorem placeless_setSym (sym : Value) (hash : UInt32) (v : Value) : Placeless cx (setSym cx sym hash v) := by
  refine placeless_frame (fun f => ?_) fun _ _ => rfl
  refine Neat.placeless ((neat_heap.bind fun _ => neat_pure _).bind fun n => ?_)
  refine neat_heap.bind fun h => neat_ite ?_ ?_
  · exact neat_setHashed ..
  · exact neat_setHashed ..

end

end Act

structure Library.Placeless (lib : Library) : Prop where
  get : ∀ {type get}, (lib.ghost type).get = some get → ∀ cx obj name, Act.Placeless cx (get cx obj name)
  set : ∀ {type set}, (lib.ghost type).set = some set → ∀ cx obj name v, Act.Placeless cx (set cx obj name v)

namespace Act

section

variable {lib : Library} {cx : CtxId} {obj sym : Value} {hash : UInt32} {interned : Bool}

theorem placeless_member (hlib : lib.Placeless) : Placeless cx (member lib cx obj sym hash interned) := by
  refine neat_heap.placeless.bind fun h => ?_
  split
  · exact (neat_hashMember ..).placeless
  · split
    · rename_i hget
      exact hlib.get hget ..
    · exact (neat_fail _).placeless
  · exact (neat_fail _).placeless

theorem placeless_setMember (hlib : lib.Placeless) (v : Value) :
    Placeless cx (setMember lib cx obj sym hash interned v) := by
  refine neat_heap.placeless.bind fun h => ?_
  split
  · exact (neat_setHashed ..).placeless
  · split
    · rename_i hset
      exact hlib.set hset ..
    · exact (neat_fail _).placeless
  · exact (neat_fail _).placeless

end

/-! ## operands on top -/

section

variable {cx : CtxId} {w : World} {low args : Array Value}

theorem run_peek (hs : (w.ctx cx).stack = low ++ args) {d : Nat} (hd : d < args.size) :
    (peek cx d).run w = .ok (args[args.size - (d + 1)]?.getD .nil) w := by
  have hlt : d < (w.ctx cx).stack.size := by
    rw [hs, Array.size_append]
    omega
  have hitem : (w.ctx cx).stack[(w.ctx cx).stack.size - (d + 1)]? = args[args.size - (d + 1)]? := by
    have hplace : (w.ctx cx).stack.size - (d + 1) = low.size + (args.size - (d + 1)) := by
      rw [hs, Array.size_append]
      omega
    rw [hplace, hs, Array.getElem?_append_right (Nat.le_add_right ..), Nat.add_sub_cancel_left]
  show EStateM.run (if d < (w.ctx cx).stack.size then _ else _) w = _
  rw [if_pos hlt]
  show EStateM.Result.ok ((w.ctx cx).stack[(w.ctx cx).stack.size - (d + 1)]?.getD .nil) w = _
  rw [hitem]

theorem run_push (hs : (w.ctx cx).stack = low) (hroom : low.size < w.options.maxStack) (v : Value) :
    (push cx v).run w = .ok () (w.stacked cx (low.push v)) := by
  have hnot : ¬ w.options.maxStack ≤ (w.ctx cx).stack.size := by
    rw [hs]
    omega
  have hstacked : (w.modifyCtx cx fun c => { c with stack := c.stack.push v }) =
      w.stacked cx (low.push v) := by
    apply modifyCtx_congr
    rw [hs]
  show EStateM.run (if w.options.maxStack ≤ (w.ctx cx).stack.size then _ else _) w = _
  rw [if_neg hnot, ← hstacked]
  rfl

theorem run_cut (height : Nat) :
    (cut cx height).run w = .ok () (w.stacked cx ((w.ctx cx).stack.shrink height)) :=
  congrArg (EStateM.Result.ok ()) (modifyCtx_congr rfl)

theorem run_pop {v : Value} (hs : (w.ctx cx).stack = low ++ #[v]) :
    (pop cx).run w = .ok v (w.stacked cx low) := by
  have hstacked : (w.modifyCtx cx fun c => { c with stack := c.stack.pop }) = w.stacked cx low := by
    apply modifyCtx_congr
    rw [hs]
    exact congrArg (fun vs => ({ w.ctx cx with stack := vs } : Context)) Array.pop_push
  rw [pop, run_ctx_bind]
  rw [hs, ← Array.push_eq_append, Array.back?_push, ← hstacked]
  rfl

theorem run_replaceTop (hcx : cx < w.contexts.size) (hs : (w.ctx cx).stack = low ++ args)
    (hroom : low.size < w.options.maxStack) (v : Value) :
    (replaceTop cx args.size v).run w = .ok () (w.stacked cx (low.push v)) := by
  have hcut : (w.modifyCtx cx fun c => { c with stack := c.stack.shrink (c.stack.size - args.size) }) =
      w.stacked cx low := by
    apply modifyCtx_congr
    rw [hs, Array.size_append, Nat.add_sub_cancel, shrink_low]
  show EStateM.run (push cx v)
    (w.modifyCtx cx fun c => { c with stack := c.stack.shrink (c.stack.size - args.size) }) = _
  rw [hcut, run_push (World.stack_stacked hcx) hroom, World.stacked_stacked]

end

/-! ## instructions that compute -/

section

variable {cx : CtxId} {args : Array Value} {x : Act Value} {body : Act Outcome}

/-- What an instruction leads to that puts the value which an activity has given on the operands `low`. -/
inductive Replaced (cx : CtxId) (low : Array Value) :
    EStateM.Result Failure World Value → EStateM.Result Failure World Outcome → Prop
  | done {v : Value} {w : World} : Replaced cx low (.ok v w) (.ok .next (w.stacked cx (low.push v)))
  | failed {e : Failure} {w : World} : Replaced cx low (.error e w) (.error e w)

/-- An instruction that replaces the operands `args` on top by the value that `x` gives. -/
structure Replaces (cx : CtxId) (args : Array Value) (x : Act Value) (body : Act Outcome) : Prop where
  placeless : Placeless cx x
  run : ∀ {w : World} {low : Array Value}, cx < w.contexts.size → (w.ctx cx).stack = low ++ args →
    low.size < w.options.maxStack → Replaced cx low (x.run w) (body.run w)

/-- With the operands on top the instruction does the same as `body`. -/
theorem Replaces.congr (h : Replaces cx args x body) {body' : Act Outcome}
    (hb : ∀ {w : World} {low : Array Value}, (w.ctx cx).stack = low ++ args → body'.run w = body.run w) :
    Replaces cx args x body' := by
  refine ⟨h.placeless, fun hcx hs hroom => ?_⟩
  rw [hb hs]
  exact h.run hcx hs hroom

theorem replaces_push (hx : Placeless cx x) : Replaces cx #[] x (do push cx (← x); return .next) := by
  refine ⟨hx, fun {w low} hcx hs hroom => ?_⟩
  cases hr : x.run w with
  | ok v w₁ =>
    have hfirm := hx.of_ok hr
    have hs₁ : (w₁.ctx cx).stack = low := (hfirm.kept cx).stack.trans hs
    have hroom₁ : low.size < w₁.options.maxStack := by
      rw [hfirm.options]
      exact hroom
    rw [run_bind_of_ok hr, run_bind_of_ok (run_push hs₁ hroom₁ v)]
    exact .done
  | error e w₁ =>
    rw [run_bind_of_error hr]
    exact .failed

theorem replaces_top (hx : Placeless cx x) :
    Replaces cx args x (do replaceTop cx args.size (← x); return .next) := by
  refine ⟨hx, fun {w low} hcx hs hroom => ?_⟩
  cases hr : x.run w with
  | ok v w₁ =>
    have hfirm := hx.of_ok hr
    have hcx₁ : cx < w₁.contexts.size := Nat.lt_of_lt_of_eq hcx hfirm.size.symm
    have hs₁ : (w₁.ctx cx).stack = low ++ args := (hfirm.kept cx).stack.trans hs
    have hroom₁ : low.size < w₁.options.maxStack := by
      rw [hfirm.options]
      exact hroom
    rw [run_bind_of_ok hr, run_bind_of_ok (run_replaceTop hcx₁ hs₁ hroom₁ v)]
    exact .done
  | error e w₁ =>
    rw [run_bind_of_error hr]
    exact .failed

theorem replaces_kept {v : Value} {y : Act Unit} (hy : Placeless cx y) :
    Replaces cx #[v] (do y; return v) (do y; return .next) := by
  refine ⟨hy.bind fun _ => (neat_pure v).placeless, fun {w low} hcx hs hroom => ?_⟩
  cases hr : y.run w with
  | ok _ w₁ =>
    have hfirm := hy.of_ok hr
    have hs₁ : (w₁.ctx cx).stack = low.push v := (hfirm.kept cx).stack.trans hs
    have hw₁ := World.stacked_of_eq hs₁
    rw [run_bind_of_ok hr, run_bind_of_ok hr]
    show Replaced cx low (.ok v w₁) (.ok .next w₁)
    nth_rewrite 2 [← hw₁]
    exact .done
  | error e w₁ =>
    rw [run_bind_of_error hr, run_bind_of_error hr]
    exact .failed

/-- The lowest of the operands is the value, and the others are dropped. -/
theorem replaces_lowest {v : Value} {vs : Array Value} {y drop : Act Unit} (hy : Placeless cx y)
    (hdrop : ∀ {w : World} {low : Array Value}, (w.ctx cx).stack = low.push v ++ vs →
      drop.run w = .ok () (w.stacked cx (low.push v))) :
    Replaces cx (#[v] ++ vs) (do y; return v) (do y; drop; return .next) := by
  refine ⟨hy.bind fun _ => (neat_pure v).placeless, fun {w low} hcx hs hroom => ?_⟩
  cases hr : y.run w with
  | ok _ w₁ =>
    have hfirm := hy.of_ok hr
    have hs₁ : (w₁.ctx cx).stack = low.push v ++ vs := by
      rw [(hfirm.kept cx).stack, hs, ← Array.append_assoc]
      rfl
    rw [run_bind_of_ok hr, run_bind_of_ok hr, run_bind_of_ok (hdrop hs₁)]
    exact .done
  | error e w₁ =>
    rw [run_bind_of_error hr, run_bind_of_error hr]
    exact .failed

end

/-! ## the instructions of expressions -/

section

variable {lib : Library} {cx : CtxId} {code : Loaded} {arg : Nat} {u v k : Value}

theorem run_peek₁ {w : World} {low : Array Value} (hs : (w.ctx cx).stack = low ++ #[v]) :
    (peek cx 0).run w = .ok v w := run_peek hs (Nat.lt_succ_self 0)

theorem run_peek₂ {w : World} {low : Array Value} (hs : (w.ctx cx).stack = low ++ #[u, v]) :
    (peek cx 0).run w = .ok v w ∧ (peek cx 1).run w = .ok u w :=
  ⟨run_peek hs (Nat.zero_lt_two), run_peek hs (Nat.lt_succ_self 1)⟩

theorem run_peek₃ {w : World} {low : Array Value} (hs : (w.ctx cx).stack = low ++ #[u, k, v]) :
    (peek cx 0).run w = .ok v w ∧ (peek cx 1).run w = .ok k w ∧ (peek cx 2).run w = .ok u w :=
  ⟨run_peek hs (Nat.zero_lt_succ 2), run_peek hs (Nat.lt_of_sub_eq_succ rfl),
    run_peek hs (Nat.lt_succ_self 2)⟩

theorem replaces_pushConst : Replaces cx #[] (pure (code.const arg)) (perform lib cx code .pushConst arg) :=
  replaces_push (neat_pure _).placeless

theorem replaces_pushNil : Replaces cx #[] (pure .nil) (perform lib cx code .pushNil arg) :=
  replaces_push (neat_pure _).placeless

theorem replaces_pushZero : Replaces cx #[] (pure (.ofNat 0)) (perform lib cx code .pushZero arg) :=
  replaces_push (neat_pure _).placeless

theorem replaces_pushOne : Replaces cx #[] (pure (.ofNat 1)) (perform lib cx code .pushOne arg) :=
  replaces_push (neat_pure _).placeless

theorem replaces_newVec : Replaces cx #[] (newVec cx #[]) (perform lib cx code .newVec arg) :=
  replaces_push (neat_newVec _).placeless

theorem replaces_newHash : Replaces cx #[] (newHash cx) (perform lib cx code .newHash arg) :=
  replaces_push neat_newHash.placeless

theorem replaces_loadSym : Replaces cx #[] (lookupSym cx (code.const arg) (code.constHash arg))
    (perform lib cx code .loadSym arg) := replaces_push (placeless_lookupSym _ _)

theorem replaces_setSym : Replaces cx #[v] (do setSym cx (code.const arg) (code.constHash arg) v; return v)
    (perform lib cx code .setSym arg) :=
  (replaces_kept (placeless_setSym _ _ v)).congr fun hs => run_bind_of_ok (run_peek₁ hs)

/-- An instruction that reads a number, or whether a value is true. -/
theorem replaces_reading {α : Type} {args : Array Value} (f : Heap → Except Cause α) (g : α → Value) :
    Replaces cx args (do return g (← read f)) (do replaceTop cx args.size (g (← read f)); return .next) := by
  refine (replaces_top ((neat_read f).bind fun _ => neat_pure _).placeless).congr fun _ => ?_
  rw [bind_assoc]
  rfl

theorem replaces_neg : Replaces cx #[v] (do return .ofFloat (-(← read fun h => h.numOf v)))
    (perform lib cx code .neg arg) :=
  (replaces_reading _ _).congr fun hs => run_bind_of_ok (run_peek₁ hs)

theorem replaces_not : Replaces cx #[v] (do return .ofBool !(← Evaluate.truth v))
    (perform lib cx code .not arg) :=
  (replaces_reading (fun h => h.truth v) fun b => .ofBool !b).congr fun hs => run_bind_of_ok (run_peek₁ hs)

theorem replaces_arith (f : Float → Float → Value) : Replaces cx #[u, v] (Evaluate.onNumbers f u v)
    (do arith cx f; return .next) := by
  have hneat : Neat (Evaluate.onNumbers f u v) :=
    (neat_read _).bind fun _ => (neat_read _).bind fun _ => neat_pure _
  refine (replaces_top hneat.placeless).congr fun {w low} hs => ?_
  obtain ⟨htop, hnext⟩ := run_peek₂ hs
  unfold arith Evaluate.onNumbers
  simp only [bind_assoc, pure_bind]
  rw [run_bind_of_ok htop]
  cases hv : w.heap.numOf v with
  | error c =>
    have hread : (read fun h => h.numOf v).run w = .error { cause := c } w := by
      show (ofExcept (w.heap.numOf v)).run w = _
      rw [hv]
      rfl
    rw [run_bind_of_error hread, run_bind_of_error hread]
  | ok b =>
    have hread : (read fun h => h.numOf v).run w = .ok b w := by
      show (ofExcept (w.heap.numOf v)).run w = _
      rw [hv]
      rfl
    rw [run_bind_of_ok hread, run_bind_of_ok hread, run_bind_of_ok hnext]
    rfl

theorem replaces_equality (want : Bool) : Replaces cx #[u, v]
    (do return .ofBool ((← heap).valuesEqual u v == want)) (do equality cx want; return .next) := by
  refine (replaces_top (neat_heap.bind fun _ => neat_pure _).placeless).congr fun {w low} hs => ?_
  obtain ⟨htop, hnext⟩ := run_peek₂ hs
  unfold equality
  simp only [bind_assoc, pure_bind]
  rw [run_bind_of_ok hnext, run_bind_of_ok htop]
  rfl

/-- **The operators on two values.** -/
theorem replaces_operate {k : Tok} {op : Op} (h : Generate.binaryOp? k = some op) :
    Replaces cx #[u, v] (Evaluate.operate cx op u v) (perform lib cx code op arg) := by
  unfold Generate.binaryOp? at h
  split at h <;> cases h
  case h_5 =>
    refine (replaces_top (neat_concat u v).placeless).congr fun hs => ?_
    obtain ⟨htop, hnext⟩ := run_peek₂ hs
    exact (run_bind_of_ok htop).trans (run_bind_of_ok hnext)
  case h_10 =>
    have heq : Replaces cx #[u, v] (do return .ofBool ((← heap).valuesEqual u v == true)) _ :=
      replaces_equality true
    simp only [beq_true] at heq
    exact heq
  case h_11 =>
    have heq : Replaces cx #[u, v] (do return .ofBool ((← heap).valuesEqual u v == false)) _ :=
      replaces_equality false
    simp only [beq_false] at heq
    exact heq
  all_goals exact replaces_arith _

theorem replaces_member (hlib : lib.Placeless) {s : Bytes} {lex : Lexicon} (hc : code.const arg = lex.name s)
    (hh : code.constHash arg = hashBytes s) :
    Replaces cx #[v] (Evaluate.member lib cx lex v s) (perform lib cx code .member arg) := by
  have hx : Placeless cx (Evaluate.member lib cx lex v s) := by
    refine (placeless_member hlib).bind fun r => ?_
    cases r with
    | some v => exact (neat_pure v).placeless
    | none => exact (neat_heap.bind fun _ => neat_fail _).placeless
  refine (replaces_top hx).congr fun {w low} hs => ?_
  unfold perform Evaluate.member
  dsimp only
  rw [hc, hh, run_bind_of_ok (run_peek₁ hs), bind_assoc]
  refine congrArg (EStateM.run · w) (congrArg (_ >>= ·) (funext fun r => ?_))
  cases r with
  | some v => rfl
  | none => 
    simp only [bind_assoc]
    rfl

theorem replaces_setMember (hlib : lib.Placeless) {s : Bytes} {lex : Lexicon} (hc : code.const arg = lex.name s)
    (hh : code.constHash arg = hashBytes s) :
    Replaces cx #[u, v] (Evaluate.assignMember lib cx lex u s v) (perform lib cx code .setMember arg) := by
  have hset : Placeless cx (setMember lib cx u (lex.name s) (hashBytes s) true v) := placeless_setMember hlib v
  refine (replaces_top (hset.bind fun _ => (neat_pure v).placeless)).congr fun {w low} hs => ?_
  obtain ⟨htop, hnext⟩ := run_peek₂ hs
  unfold perform
  dsimp only
  rw [hc, hh, run_bind_of_ok htop, run_bind_of_ok hnext, bind_assoc]
  rfl

theorem replaces_extract : Replaces cx #[u, v] (extract u v) (perform lib cx code .extract arg) := by
  refine (replaces_top (neat_extract u v).placeless).congr fun hs => ?_
  obtain ⟨htop, hnext⟩ := run_peek₂ hs
  exact (run_bind_of_ok hnext).trans (run_bind_of_ok htop)

theorem replaces_insert : Replaces cx #[u, k, v] (Evaluate.assignElement u k v)
    (perform lib cx code .insert arg) := by
  refine (replaces_top ((neat_insert u k v).bind fun _ => neat_pure v).placeless).congr fun {w low} hs => ?_
  obtain ⟨htop, hnext, hlast⟩ := run_peek₃ hs
  unfold perform
  dsimp only
  rw [run_bind_of_ok htop, run_bind_of_ok hnext, run_bind_of_ok hlast, bind_assoc]
  rfl

theorem replaces_slice : Replaces cx #[u, k, v] (slice cx u k v) (perform lib cx code .slice arg) := by
  refine (replaces_top (neat_slice u k v).placeless).congr fun hs => ?_
  obtain ⟨htop, hnext, hlast⟩ := run_peek₃ hs
  exact (run_bind_of_ok htop).trans ((run_bind_of_ok hnext).trans (run_bind_of_ok hlast))

theorem replaces_vappend : Replaces cx #[u, v] (do discard <| vecPush u v; return u)
    (perform lib cx code .vappend arg) := by
  have hdrop {w : World} {low : Array Value} (hs : (w.ctx cx).stack = low.push u ++ #[v]) :
      (discard (pop cx)).run w = .ok () (w.stacked cx (low.push u)) :=
    run_bind_of_ok (run_pop hs)
  have happend : Placeless cx (discard (vecPush u v)) := (neat_modifyVec ..).discard.placeless
  refine (replaces_lowest happend hdrop).congr fun {w low} hs => ?_
  obtain ⟨htop, hnext⟩ := run_peek₂ hs
  exact (run_bind_of_ok htop).trans (run_bind_of_ok hnext)

theorem replaces_happend : Replaces cx #[u, k, v] (do hashSet u k v; return u)
    (perform lib cx code .happend arg) := by
  have hdrop {w : World} {low : Array Value} (hs : (w.ctx cx).stack = low.push u ++ #[k, v]) :
      (do cut cx ((← ctx cx).stack.size - 2) : Act Unit).run w = .ok () (w.stacked cx (low.push u)) := by
    show (cut cx ((w.ctx cx).stack.size - 2)).run w = _
    rw [run_cut, hs, Array.size_append, show (#[k, v] : Array Value).size = 2 from rfl, Nat.add_sub_cancel,
      shrink_low]
  have happend : Placeless cx (hashSet u k v) := (neat_hashSet ..).placeless
  refine (replaces_lowest happend hdrop).congr fun {w low} hs => ?_
  obtain ⟨htop, hnext, hlast⟩ := run_peek₃ hs
  exact (run_bind_of_ok htop).trans ((run_bind_of_ok hnext).trans (run_bind_of_ok hlast))

end

end Act

end ScriptEngine
