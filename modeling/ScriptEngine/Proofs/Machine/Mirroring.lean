import ScriptEngine.Machine.Step
import ScriptEngine.Proofs.Machine.Mirrors
import ScriptEngine.Proofs.Machine.Operands
import ScriptEngine.Proofs.Machine.Running
import ScriptEngine.Proofs.Natives.Habits

/-!
# Instructions on engines that look the same

An instruction does the same on two engines that look the same from its context, provided that the natives
and the ghosts it calls do so.  A native that asks for a run on a child may leave the engines in a closer
relation than the one they were in.

* `Library.Mirrors`    natives and ghosts that do the same on related engines;
* `Act.mirrors_exec`   an instruction;
* `Act.mirrors_beginCall`, `Act.mirrors_prepareResume`, `Act.mirrors_finish`   the parts of a request;
* `Library.mirrors_core`   the core library.
-/

namespace ScriptEngine

open World (Rel Mirror)

def Reply.Leaves (R N : Rel) : Reply → Rel
  | .done _ | .halt => R
  | .run _ _ _ => N

def Act.Outcome.Leaves (R N : Rel) : Act.Outcome → Rel
  | .native _ _ (.ok r) => r.Leaves R N
  | _ => R

theorem Reply.leaves_self (R : Rel) : Reply.Leaves R R = fun _ => R :=
  funext fun r => by cases r <;> rfl

theorem Act.Outcome.leaves_self (R : Rel) : Act.Outcome.Leaves R R = fun _ => R := by
  funext o
  cases o with
  | native base n r =>
    cases r with
    | ok r => exact congrFun (Reply.leaves_self R) r
    | error e => rfl
  | _ => rfl

/-- A library whose natives and ghosts do the same on related engines when a context calls them; the
relation is `N` if a native asks for a run. -/
structure Library.Mirrors (lib : Library) (cx : CtxId) (R N : Rel) : Prop where
  start : ∀ {name b}, lib.native name = some b → ∀ n me args,
    Act.MirrorsTo R (Reply.Leaves R N) (b.start cx n me args)
  get : ∀ {type get}, (lib.ghost type).get = some get → ∀ obj name, Act.Mirrors R (get cx obj name)
  set : ∀ {type set}, (lib.ghost type).set = some set → ∀ obj name v, Act.Mirrors R (set cx obj name v)

namespace Act

theorem run_push_eq (cx : CtxId) (v : Value) (w : World) : (push cx v).run w =
    if w.options.maxStack ≤ (w.ctx cx).stack.size then .error { cause := .stackOverflow } w
    else .ok () (w.modifyCtx cx fun c => { c with stack := c.stack.push v }) := by
  show (ite _ _ _ : Act Unit) w = _
  split <;> rfl

theorem run_pushFrame_eq (cx : CtxId) (func : Value) (code : Loaded) (locals scope : Value) (bp : Nat)
    (w : World) : (pushFrame cx func code locals scope bp).run w =
      if w.options.maxCallDepth ≤ (w.ctx cx).frames.size then .error { cause := .callDepth } w
      else .ok () (w.modifyCtx cx fun c => { c with
        frames := c.frames.push
          { func, code, ip := 0, locals, closure := scope, bp, markBase := c.marks.size } }) := by
  show (ite _ _ _ : Act Unit) w = _
  split <;> rfl

/-- A mark at the height of the operands. -/
def mark (cx : CtxId) : Act Unit := do
  if (← options).maxMarks ≤ (← ctx cx).marks.size then fail .markOverflow
  modifyCtx cx fun c => { c with marks := c.marks.push c.stack.size }

theorem run_mark_eq (cx : CtxId) (w : World) : (mark cx).run w =
    if w.options.maxMarks ≤ (w.ctx cx).marks.size then .error { cause := .markOverflow } w
    else .ok () (w.modifyCtx cx fun c => { c with marks := c.marks.push c.stack.size }) := by
  show (ite _ _ _ : Act Unit) w = _
  split <;> rfl

theorem perform_mark (lib : Library) (cx : CtxId) (code : Loaded) (arg : Nat) :
    perform lib cx code .mark arg = (do mark cx; return .next) := by
  funext w
  show (ite _ _ _ : Act Outcome) w = EStateM.bind (mark cx) (fun _ => pure .next) w
  rw [EStateM.bind, show mark cx w = _ from run_mark_eq cx w]
  split <;> rfl

theorem size_pop_le {α : Type} (xs : Array α) : xs.pop.size ≤ xs.size := by
  rw [Array.size_pop]
  exact Nat.sub_le _ _

theorem size_shrink_le {α : Type} (xs : Array α) (n : Nat) : (xs.shrink n).size ≤ xs.size := by
  rw [Array.size_shrink]
  exact Nat.min_le_right _ _

section

variable {α : Type} {lib : Library} {cx : CtxId} {R N : Rel} {S : α → Rel} (hR : Mirror cx R)

theorem MirrorsTo.next {x : Act Unit} (hx : Mirrors R x) :
    MirrorsTo R (Outcome.Leaves R N) (x >>= fun _ => pure .next) :=
  hx.bind fun _ => mirrors_return _ id

section
include hR

/-! ### operands and frames -/

/-- What is done on the context only where there is room for it. -/
theorem mirrors_room {x : Act Unit} (full : Options → Context → Prop) [∀ o c, Decidable (full o c)] {e : Failure}
    {g : Context → Context} (hrun : ∀ w : World,
      x.run w = if full w.options (w.ctx cx) then .error e w else .ok () (w.modifyCtx cx g))
    (hfull : ∀ o (c : Context) error child, full o { c with error, child } = full o c)
    (hg : Context.Private g) (hroom : ∀ o c, ¬ full o c → c.Limited o → (g c).Limited o) : Mirrors R x := by
  refine ⟨fun w => ?_, fun {w w'} h _ => ?_⟩
  · rw [hrun]
    split <;> exact Nat.le_refl _
  · obtain ⟨contexts, freeContexts, hw'⟩ := hR.shelved h
    obtain ⟨error, child, hctx⟩ := hR.seen h
    have hoptions : w'.options = w.options := by rw [hw']; rfl
    have hsame : full w'.options (w'.ctx cx) ↔ full w.options (w.ctx cx) := by rw [hoptions, hctx, hfull]
    rw [hrun, hrun]
    by_cases hf : full w.options (w.ctx cx)
    · rw [if_pos hf, if_pos (hsame.mpr hf)]
      exact .error h
    · rw [if_neg hf, if_neg fun h => hf (hsame.mp h)]
      exact .ok (hR.edit h hg (hroom _ _ hf))

theorem mirrors_push (v : Value) : Mirrors R (push cx v) := by
  refine mirrors_room hR (fun o c => o.maxStack ≤ c.stack.size) (run_push_eq cx v) (fun _ _ _ _ => rfl)
    (.of_blind (fun _ _ _ => rfl) fun _ => ⟨rfl, rfl⟩) fun o c hf hc => { hc with stack := ?_ }
  rw [Array.size_push]
  exact Nat.lt_of_not_le hf

theorem mirrors_pop : Mirrors R (pop cx) := by
  have hpop : Mirrors R (modifyCtx cx fun c => { c with stack := c.stack.pop }) :=
    mirrors_touch hR ⟨.of_blind (fun _ _ _ => rfl) fun _ => ⟨rfl, rfl⟩, fun c => size_pop_le _, fun _ => Nat.le_refl _,
      fun _ => Nat.le_refl _, fun _ => rfl⟩
  unfold pop
  refine mirrors_ctx hR (fun c => ?_) fun _ _ _ => rfl
  split
  · exact hpop.bind fun _ => mirrors_pure _
  · exact mirrors_fail _

theorem mirrors_peek (depth : Nat) : Mirrors R (peek cx depth) :=
  mirrors_ctx hR (fun _ => mirrors_ite (mirrors_pure _) (mirrors_fail _)) fun _ _ _ => rfl

theorem mirrors_shrink (height : Context → Nat) (frames : Array Frame → Array Frame)
    (marks : Array Nat → Array Nat) (hheight : ∀ (c : Context) error child, height { c with error, child } = height c)
    (hframes : ∀ fs, (frames fs).size ≤ fs.size) (hmarks : ∀ ms, (marks ms).size ≤ ms.size) :
    Mirrors R (modifyCtx cx fun c =>
      { c with stack := c.stack.shrink (height c), frames := frames c.frames, marks := marks c.marks }) :=
  mirrors_touch hR ⟨.of_blind (fun c e d => by simp only [hheight]) fun _ => ⟨rfl, rfl⟩, fun c => size_shrink_le _ _,
    fun c => hframes c.frames, fun c => hmarks c.marks, fun _ => rfl⟩

theorem mirrors_drop (height : Context → Nat)
    (hheight : ∀ (c : Context) error child, height { c with error, child } = height c) :
    Mirrors R (modifyCtx cx fun c => { c with stack := c.stack.shrink (height c) }) :=
  mirrors_shrink hR height id id hheight (fun _ => Nat.le_refl _) fun _ => Nat.le_refl _

theorem mirrors_cut (height : Nat) : Mirrors R (cut cx height) :=
  mirrors_drop hR (fun _ => height) fun _ _ _ => rfl

theorem mirrors_replaceTop (n : Nat) (v : Value) : Mirrors R (replaceTop cx n v) :=
  (mirrors_drop hR (fun c => c.stack.size - n) fun _ _ _ => rfl).bind fun _ => mirrors_push hR v

theorem mirrors_frame : Mirrors R (frame cx) := by
  unfold frame
  refine mirrors_ctx hR (fun c => ?_) fun _ _ _ => rfl
  split
  · exact mirrors_pure _
  · exact mirrors_fail _

theorem mirrors_jump (ip : Nat) : Mirrors R (jump cx ip) :=
  mirrors_touch hR ⟨.of_blind (fun _ _ _ => rfl) fun _ => ⟨rfl, rfl⟩, fun _ => Nat.le_refl _,
    fun _ => Nat.le_of_eq Array.size_modify, fun _ => Nat.le_refl _, fun _ => rfl⟩

theorem mirrors_unmark : Mirrors R (modifyCtx cx fun c => { c with marks := c.marks.pop }) :=
  mirrors_touch hR ⟨.of_blind (fun _ _ _ => rfl) fun _ => ⟨rfl, rfl⟩, fun _ => Nat.le_refl _, fun _ => Nat.le_refl _,
    fun _ => size_pop_le _, fun _ => rfl⟩

theorem mirrors_mark : Mirrors R (mark cx) := by
  refine mirrors_room hR (fun o c => o.maxMarks ≤ c.marks.size) (run_mark_eq cx) (fun _ _ _ _ => rfl)
    (.of_blind (fun _ _ _ => rfl) fun _ => ⟨rfl, rfl⟩) fun o c hf hc => { hc with marks := ?_ }
  rw [Array.size_push]
  exact Nat.lt_of_not_le hf

theorem mirrors_pushFrame (func : Value) (code : Loaded) (locals scope : Value) (bp : Nat) :
    Mirrors R (pushFrame cx func code locals scope bp) := by
  refine mirrors_room hR (fun o c => o.maxCallDepth ≤ c.frames.size)
    (run_pushFrame_eq cx func code locals scope bp) (fun _ _ _ _ => rfl)
    (.of_blind (fun _ _ _ => rfl) fun _ => ⟨rfl, rfl⟩) fun o c hf hc => { hc with frames := ?_ }
  rw [Array.size_push]
  exact Nat.lt_of_not_le hf

/-! ### names -/

theorem mirrors_chainBound : Mirrors R chainBound := (mirrors_heap hR).bind fun _ => mirrors_pure _

theorem mirrors_lookupSym (sym : Value) (hash : UInt32) : Mirrors R (lookupSym cx sym hash) := by
  unfold lookupSym
  refine (mirrors_frame hR).bind fun f => (mirrors_chainBound hR).bind fun n => (mirrors_heap hR).bind fun h => ?_
  split
  · exact mirrors_pure _
  · split
    · exact mirrors_pure _
    · exact mirrors_fail _

theorem mirrors_setSym (sym : Value) (hash : UInt32) (v : Value) : Mirrors R (setSym cx sym hash v) := by
  unfold setSym
  refine (mirrors_frame hR).bind fun f => (mirrors_chainBound hR).bind fun n => (mirrors_heap hR).bind fun h => ?_
  dsimp only
  exact mirrors_ite (mirrors_setHashed hR ..) (mirrors_setHashed hR ..)

/-! ### operators and loops -/

theorem mirrors_iterate (values : Bool) : Mirrors R (iterate cx values) := by
  unfold iterate
  refine (mirrors_peek hR 1).bind fun box => (mirrors_peek hR 0).bind fun count => (mirrors_heap hR).bind fun h => ?_
  split
  · exact mirrors_fail _
  · exact mirrors_ite (mirrors_push hR _) ((mirrors_replaceTop hR ..).bind fun _ => mirrors_push hR _)

theorem mirrors_arith (f : Float → Float → Value) : Mirrors R (arith cx f) := by
  refine (mirrors_peek hR 0).bind fun y => (mirrors_read hR _).bind fun b => ?_
  refine (mirrors_peek hR 1).bind fun x => (mirrors_read hR _).bind fun a => ?_
  exact mirrors_replaceTop hR ..

theorem mirrors_equality (want : Bool) : Mirrors R (equality cx want) := by
  refine (mirrors_peek hR 1).bind fun a => (mirrors_peek hR 0).bind fun b => ?_
  exact (mirrors_heap hR).bind fun h => mirrors_replaceTop hR ..

theorem mirrors_jumpIf (want : Bool) (target : Nat) : Mirrors R (jumpIf cx want target) := by
  refine (mirrors_peek hR 0).bind fun v => (mirrors_read hR _).bind fun b => ?_
  exact mirrors_ite (mirrors_jump hR _) (mirrors_pure _)

theorem mirrors_returnFrom : MirrorsTo R (Outcome.Leaves R N) (returnFrom cx) := by
  unfold returnFrom
  refine (mirrors_pop hR).bind fun v => (mirrors_frame hR).bind fun f => ?_
  refine (mirrors_shrink hR (fun _ => f.bp) Array.pop (·.shrink f.markBase) (fun _ _ _ => rfl) size_pop_le
    fun _ => size_shrink_le _ _).bind fun _ => ?_
  refine mirrors_ctx hR (fun c => ?_) fun _ _ _ => rfl
  exact mirrors_ite (mirrors_return _ id) ((mirrors_push hR v).next)

end

/-! ### calls -/

section

variable (hlib : lib.Mirrors cx R N)
include hlib

theorem mirrors_startNative (n : Native) (me : Value) (args : Array Value) :
    MirrorsTo R (Reply.Leaves R N) (startNative lib cx n me args) := by
  unfold startNative
  split
  · rename_i hb
    exact hlib.start hb ..
  · exact mirrors_fail _

theorem mirrors_attempt (base : Nat) (n : Native) (me : Value) (args : Array Value) :
    MirrorsTo R (Outcome.Leaves R N) (do
      let r ← tryCatch (do return .ok (← startNative lib cx n me args)) fun e => pure (.error e)
      return .native base n r) := by
  have hx := mirrors_startNative hlib n me args
  generalize startNative lib cx n me args = x at hx
  refine ⟨fun w => ?_, fun {w w'} h hl => ?_⟩
  · have hmono := hx.mono w
    cases hr : x.run w with
    | ok a w₁ =>
      rw [hr] at hmono
      rw [run_bind_of_ok (run_attempt_ok hr)]
      exact hmono
    | error e w₁ =>
      rw [hr] at hmono
      rw [run_bind_of_ok (run_attempt_error hr)]
      exact hmono
  · have hsame := hx.run h
    generalize hr : x.run w = r, hr' : x.run w' = r' at hsame
    cases r with
    | ok a w₁ =>
      rw [run_bind_of_ok (run_attempt_ok hr)] at hl ⊢
      cases hsame hl with
      | ok h =>
        rw [run_bind_of_ok (run_attempt_ok hr')]
        exact .ok h
    | error e w₁ =>
      rw [run_bind_of_ok (run_attempt_error hr)] at hl ⊢
      cases hsame hl with
      | error h =>
        rw [run_bind_of_ok (run_attempt_error hr')]
        exact .ok h

include hR

theorem mirrors_member (obj sym : Value) (hash : UInt32) (interned : Bool) :
    Mirrors R (member lib cx obj sym hash interned) := by
  unfold member
  refine (mirrors_heap hR).bind fun h => ?_
  split
  · exact mirrors_hashMember hR ..
  · split
    · rename_i hget
      exact hlib.get hget ..
    · exact mirrors_fail _
  · exact mirrors_fail _

theorem mirrors_setMember (obj sym : Value) (hash : UInt32) (interned : Bool) (v : Value) :
    Mirrors R (setMember lib cx obj sym hash interned v) := by
  unfold setMember
  refine (mirrors_heap hR).bind fun h => ?_
  split
  · exact mirrors_setHashed hR ..
  · split
    · rename_i hset
      exact hlib.set hset ..
    · exact mirrors_fail _
  · exact mirrors_fail _

theorem mirrors_callAt (base fidx : Nat) (me : Value) (named : Bool) :
    MirrorsTo R (Outcome.Leaves R N) (callAt lib cx base fidx me named) := by
  have hframe (func : Value) (code : Loaded) (locals scope : Value) : MirrorsTo R (Outcome.Leaves R N) (do
      cut cx base
      pushFrame cx func code locals scope base
      return Outcome.next) :=
    (mirrors_cut hR base).bind fun _ => (mirrors_pushFrame hR ..).next
  unfold callAt
  refine mirrors_ctx hR (fun c => (mirrors_heap hR).bind fun h => ?_) fun _ _ _ => rfl
  split
  · exact mirrors_attempt hlib ..
  · refine (mirrors_newHash hR).bind fun locals => mirrors_ite ?_ ?_
    · exact (mirrors_bindNamed hR ..).bind fun _ => hframe ..
    · exact (mirrors_bindArgs hR ..).bind fun _ => hframe ..
  · exact mirrors_fail _
  · exact mirrors_fail _

theorem mirrors_callWith (argc : Nat) (method named : Bool) :
    MirrorsTo R (Outcome.Leaves R N) (callWith lib cx argc method named) := by
  unfold callWith
  refine mirrors_ctx hR (fun c => ?_) fun _ _ _ => rfl
  have hcall : MirrorsTo R (Outcome.Leaves R N) (if method = true then
      callAt lib cx (c.stack.size - argc - 1 - 1) (c.stack.size - argc - 1)
        (c.stack[c.stack.size - argc - 1 - 1]?.getD .nil) named
      else callAt lib cx (c.stack.size - argc - 1) (c.stack.size - argc - 1) .nil named) :=
    mirrors_ite (mirrors_callAt hR hlib ..) (mirrors_callAt hR hlib ..)
  exact mirrors_ite ((mirrors_fail _).bind fun _ => hcall) hcall

/-! ### instructions -/

/-- **An instruction does the same on related engines.** -/
theorem mirrors_perform (code : Loaded) (op : Op) (arg : Nat) :
    MirrorsTo R (Outcome.Leaves R N) (perform lib cx code op arg) := by
  have hpeek := mirrors_peek hR
  have hpush := mirrors_push hR
  have htop := mirrors_replaceTop hR
  have hread {α : Type} (f : Heap → Except Cause α) := mirrors_read hR f
  unfold perform
  cases op with
  | nop => exact mirrors_return _ id
  | pop => exact (mirrors_pop hR).discard.next
  | dup => exact (hpeek 0).bind fun v => (hpush v).next
  | dup2 =>
    refine (hpeek 1).bind fun a => (hpeek 0).bind fun b => ?_
    exact (hpush a).bind fun _ => (hpush b).next
  | pushConst | pushOne | pushZero | pushNil => exact (hpush _).next
  | newVec => exact (mirrors_newVec hR _).bind fun v => (hpush v).next
  | vappend =>
    refine (hpeek 0).bind fun v => (hpeek 1).bind fun box => ?_
    exact (mirrors_modifyVec hR ..).discard.bind fun _ => (mirrors_pop hR).discard.next
  | newHash => exact (mirrors_newHash hR).bind fun v => (hpush v).next
  | happend =>
    refine (hpeek 0).bind fun v => (hpeek 1).bind fun k => (hpeek 2).bind fun box => ?_
    refine (mirrors_hashSet hR ..).bind fun _ => mirrors_ctx hR (fun c => ?_) fun _ _ _ => rfl
    exact (mirrors_cut hR _).next
  | mark =>
    have hmark : MirrorsTo R (Outcome.Leaves R N) (do mark cx; return .next) := (mirrors_mark hR).next
    rw [← perform_mark lib cx code arg] at hmark
    exact hmark
  | unmark => exact (mirrors_unmark hR).next
  | cutBack =>
    refine mirrors_ctx hR (fun c => ?_) fun _ _ _ => rfl
    split
    · exact (mirrors_cut hR _).next
    · exact (mirrors_pure (R := R) ()).next
  | cutBackPop =>
    refine mirrors_ctx hR (fun c => ?_) fun _ _ _ => rfl
    split
    · exact (mirrors_unmark hR).bind fun _ => (mirrors_cut hR _).next
    · exact (mirrors_pure (R := R) ()).next
  | not => exact (hpeek 0).bind fun v => (hread _).bind fun b => (htop ..).next
  | neg => exact (hpeek 0).bind fun v => (hread _).bind fun b => (htop ..).next
  | plus | minus | mul | div | lt | lte | gt | gte => exact (mirrors_arith hR _).next
  | cat =>
    refine (hpeek 0).bind fun b => (hpeek 1).bind fun a => ?_
    exact (mirrors_concat hR a b).bind fun v => (htop ..).next
  | eq | neq => exact (mirrors_equality hR _).next
  | jmp => exact (mirrors_jump hR _).next
  | jmpLoop => exact (mirrors_jump hR _).bind fun _ => (mirrors_poll hR).next
  | jifNotPop =>
    refine (mirrors_pop hR).bind fun v => (hread _).bind fun b => ?_
    exact mirrors_ite (mirrors_jump hR _).next (mirrors_pure (R := R) ()).next
  | jifEnd =>
    refine (hpeek 0).bind fun v => mirrors_ite ?_ (mirrors_pure (R := R) ()).next
    exact (mirrors_pop hR).discard.bind fun _ => (mirrors_jump hR _).next
  | jifTrue | jifNot => exact (mirrors_jumpIf hR ..).next
  | fcall | mcall | fcallh | mcallh => exact mirrors_callWith hR hlib ..
  | ret => exact mirrors_returnFrom hR
  | loadSym => exact (mirrors_lookupSym hR ..).bind fun v => (hpush v).next
  | setSym => exact (hpeek 0).bind fun v => (mirrors_setSym hR ..).next
  | setLocal =>
    refine (hpeek 0).bind fun v => (mirrors_frame hR).bind fun f => ?_
    exact (mirrors_setHashed hR ..).next
  | member =>
    refine (hpeek 0).bind fun obj => (mirrors_member hR hlib ..).bind fun r => ?_
    cases r with
    | some v => exact (htop ..).next
    | none => exact (mirrors_heap hR).bind fun h => (mirrors_fail (α := Unit) _).next
  | setMember =>
    refine (hpeek 0).bind fun v => (hpeek 1).bind fun obj => ?_
    exact (mirrors_setMember hR hlib ..).bind fun _ => (htop ..).next
  | extract =>
    refine (hpeek 1).bind fun box => (hpeek 0).bind fun key => ?_
    exact (mirrors_extract hR box key).bind fun v => (htop ..).next
  | insert =>
    refine (hpeek 0).bind fun v => (hpeek 1).bind fun key => (hpeek 2).bind fun box => ?_
    exact (mirrors_insert hR box key v).bind fun _ => (htop ..).next
  | slice =>
    refine (hpeek 0).bind fun stop => (hpeek 1).bind fun start => (hpeek 2).bind fun box => ?_
    exact (mirrors_slice hR box start stop).bind fun v => (htop ..).next
  | func =>
    refine (mirrors_frame hR).bind fun f => (mirrors_newClosure hR ..).bind fun scope => ?_
    exact (mirrors_newFunc hR ..).bind fun v => (hpush v).next
  | each | index => exact (mirrors_iterate hR _).next

theorem mirrors_exec : MirrorsTo R (Outcome.Leaves R N) (exec lib cx) := by
  unfold exec
  refine (mirrors_cache hR (fun _ => #[]) id).bind fun _ => (mirrors_frame hR).bind fun f => ?_
  split
  · exact mirrors_fail _
  · refine (mirrors_jump hR _).bind fun _ => ?_
    split
    · exact mirrors_perform hR hlib ..
    · exact mirrors_fail _

end

/-! ### requests -/

section
include hR

theorem mirrors_clearStacks : Mirrors R (modifyCtx cx Context.clearStacks) :=
  mirrors_edit hR (.of_blind (fun _ _ _ => rfl) fun _ => ⟨rfl, rfl⟩) fun _ _ h =>
    ⟨Nat.zero_le _, Nat.zero_le _, Nat.zero_le _, h.nesting, nofun⟩

theorem mirrors_prepareCall : Mirrors R (prepareCall cx) := by
  have hrun : prepareCall cx = (do
      freeChild cx
      modifyCtx cx Context.clearStacks
      modifyCtx cx ({ · with error := none })) := by
    refine congrArg (freeChild cx >>= ·) (funext fun _ => funext fun w => congrArg (EStateM.Result.ok ()) ?_)
    exact (World.modifyCtx_modifyCtx Context.clearStacks ({ · with error := none })).symm
  rw [hrun]
  exact hR.freeChild.bind fun _ => (mirrors_clearStacks hR).bind fun _ => mirrors_error hR none

theorem mirrors_settle (height : Nat) (v : Value) : Mirrors R (do cut cx height; push cx v : Act Unit) :=
  (mirrors_cut hR height).bind fun _ => mirrors_push hR v

theorem mirrors_prepareResume (height : Nat) (v : Value) : Mirrors R (prepareResume cx height v) :=
  hR.freeChild.bind fun _ => (mirrors_error hR none).bind fun _ => mirrors_settle hR height v

theorem mirrors_finish (r : Except Failure Value) : Mirrors R (finish cx r) := by
  cases r with
  | ok v => exact (mirrors_clearStacks hR).bind fun _ => hR.freeChild.bind fun _ => mirrors_pure _
  | error e =>
    exact mirrors_ctx hR (fun c => (mirrors_error hR _).bind fun _ => mirrors_pure _) fun _ _ _ => rfl

theorem mirrors_beginCall (hlib : lib.Mirrors cx R R) (func : Value) (args : Array Value) (me locals : Value) :
    Mirrors R (beginCall lib cx func args me locals) := by
  have hstart (n : Native) : Mirrors R (startNative lib cx n me args) := by
    have h := mirrors_startNative hlib n me args
    rwa [Reply.leaves_self] at h
  have hframe (func : Value) (code : Loaded) (locals scope : Value) : Mirrors R (do
      bindArgs cx code locals args me
      cut cx 0
      pushFrame cx func code locals scope 0
      return Begun.frame) :=
    (mirrors_bindArgs hR ..).bind fun _ => (mirrors_cut hR 0).bind fun _ =>
      (mirrors_pushFrame hR ..).bind fun _ => mirrors_pure _
  unfold beginCall
  refine (mirrors_push hR func).bind fun _ => ?_
  rw [forM_toList]
  refine (mirrors_forM (fun a => mirrors_push hR a) _).bind fun _ => ?_
  refine (mirrors_push hR me).bind fun _ => (mirrors_push hR locals).bind fun _ => (mirrors_heap hR).bind fun h => ?_
  cases h.callee func with
  | native n => exact (hstart n).bind fun _ => mirrors_pure _
  | script code scope =>
    refine (mirrors_heap hR).bind fun h => mirrors_ite (hframe ..) ?_
    exact (mirrors_newHash hR).bind fun ns => hframe ..
  | bare code =>
    have hbound (ns : Value) : Mirrors R (do
        let bound ← newFunc cx func .nil
        bindArgs cx code ns args me
        cut cx 0
        pushFrame cx bound code ns .nil 0
        return Begun.frame) := (mirrors_newFunc hR ..).bind fun bound => hframe ..
    refine (mirrors_heap hR).bind fun h => mirrors_ite (hbound _) ?_
    exact (mirrors_newHash hR).bind fun ns => hbound ns
  | none =>
    refine (mirrors_heap hR).bind fun h => mirrors_ite (mirrors_fail _) ?_
    exact (mirrors_newHash hR).bind fun ns => mirrors_fail _

end

/-! ### code -/

mutual
theorem mirrors_loadConst (hR : Mirror cx R) : ∀ c : Const, Mirrors R (loadConst cx c)
  | .nil | .number _ => mirrors_pure _
  | .text s => (mirrors_newStr hR s).bind fun _ => (mirrors_hashKey hR _).bind fun _ => mirrors_pure _
  | .name s => (mirrors_intern hR s).bind fun _ => (mirrors_hashKey hR _).bind fun _ => mirrors_pure _
  | .code c => (mirrors_load hR c).bind fun _ => mirrors_pure _
theorem mirrors_load (hR : Mirror cx R) : ∀ c : Code Const, Mirrors R (load cx c)
  | ⟨_, consts, _, _, _, _, _, _⟩ => (mirrors_loadConsts hR consts).bind fun _ => mirrors_alloc hR ..
theorem mirrors_loadConsts (hR : Mirror cx R) : ∀ cs : Array Const, Mirrors R (loadConsts cx cs)
  | ⟨cs⟩ => mirrors_loadList hR cs _ _
theorem mirrors_loadList (hR : Mirror cx R) : ∀ (cs : List Const) (vs : Array Value) (hs : Array UInt32),
    Mirrors R (loadList cx cs vs hs)
  | [], _, _ => mirrors_pure _
  | c :: cs, _, _ => (mirrors_loadConst hR c).bind fun _ => mirrors_loadList hR cs _ _
end

theorem mirrors_compile (hR : Mirror cx R) (src : Bytes) (file : String) (firstLine : Nat) :
    Mirrors R (compile cx src file firstLine) := by
  unfold compile
  split
  · exact (mirrors_load hR _).bind fun _ => mirrors_pure _
  · exact (mirrors_forM (fun consts => (mirrors_loadConsts hR consts).discard) _).bind fun _ => mirrors_pure _

end

end Act

/-! ## natives -/

section

variable {cx : CtxId} {R N : Rel}

/-- What a native does, it does the same on engines that look the same. -/
theorem World.Mirror.habit (hR : Mirror cx R) : Habit cx (fun _ => True) fun _ x => Act.Mirrors R x where
  allows _ _ := trivial
  done := Act.mirrors_pure
  throws _ := Act.mirrors_throw _
  next := Act.MirrorsTo.bind
  heap := Act.mirrors_heap hR
  context hf hframes := Act.mirrors_ctx hR hf fun c _ _ => hframes c _ rfl
  printed text := by
    have hprint (w : World) : Act.Mirrors R (do
        modify World.leave
        modify fun u => { u with printed := text :: w.printed } : Act Unit) :=
      (Act.mirrors_leave hR).bind fun _ =>
        Act.mirrors_modify hR (fun _ _ _ => rfl) (fun _ => rfl) (fun _ => rfl) fun _ => rfl
    have h : Act.Mirrors R (get >>= fun w => do
        modify World.leave
        modify fun u => { u with printed := text :: w.printed } : Act Unit) :=
      Act.mirrors_get hR hprint fun _ _ _ => rfl
    exact h
  entered := Act.mirrors_enter hR
  newStr := Act.mirrors_newStr hR
  newVec := Act.mirrors_newVec hR
  newHash := Act.mirrors_newHash hR
  newClosure := Act.mirrors_newClosure hR
  newFunc := Act.mirrors_newFunc hR
  modifyVec := Act.mirrors_modifyVec hR
  hashGet := Act.mirrors_hashGet hR
  hashDelete := Act.mirrors_hashDelete hR
  compile := Act.mirrors_compile hR
  subContext := hR.subContext
  freeChild := hR.freeChild
  rethrow _ := Act.mirrors_rethrow hR _

theorem Act.MirrorsTo.leaves {x : Act Reply} (hx : Act.Mirrors R x)
    (hdone : ∀ w r w', x.run w = .ok r w' → r = .halt ∨ ∃ v, r = .done v) : Act.MirrorsTo R (Reply.Leaves R N) x := by
  refine ⟨hx.mono, fun {w w'} h hl => ?_⟩
  have hsame := hx.run h hl
  generalize hr : x.run w = r, x.run w' = r' at hsame
  cases hsame with
  | ok h =>
    obtain rfl | ⟨v, rfl⟩ := hdone _ _ _ hr
    · exact .ok h
    · exact .ok h
  | error h => exact .error h

/-- **The core library does the same on engines that look the same**, and asks for a run only after it has
made a child for it. -/
theorem Library.mirrors_core (hR : Mirror cx R) (hsub : Act.MirrorsTo R (fun _ => N) (Act.subContext cx)) :
    Library.core.Mirrors cx R N where
  start hb n me args := by
    have hstart := hR.habit.start me args hb n
    rcases Natives.native_cases hb with ⟨f, rfl⟩ | ⟨-, rfl⟩ | ⟨-, rfl⟩
    · refine hstart.leaves fun w r w' hr => ?_
      obtain ⟨v, w₁, -, h⟩ := run_bind_ok hr
      cases h
      exact .inr ⟨v, rfl⟩
    · exact hstart.leaves fun w r w' => Natives.callerStart_asks n me args
    · refine (Act.mirrors_heap hR).bind fun h => (Act.mirrors_ofExcept _).bind fun list => ?_
      exact Act.mirrors_ite ((Act.mirrors_fail _).bind fun _ => hsub.give id) (hsub.give id)
  get h := nomatch h
  set h := nomatch h

end

end ScriptEngine
