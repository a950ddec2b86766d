import ScriptEngine.Machine.Step
import ScriptEngine.Proofs.Natives.Core

/-!
# One instruction keeps what the machine uses

Each instruction starts by dropping the values made by the one before it, and works on operands,
which the stack keeps, on the constants of its code and on frames.  Wherever it allocates or stores,
a collection may run; what it still uses then is kept.

* `Act.Outcome.Live`   what an instruction has led to is live;
* `Act.safe_callAt`    calling a function, by place and by name;
* `Act.safe_perform`   every operation;
* `Act.safe_exec`      one instruction.
-/

namespace ScriptEngine

open World (Sound Extends Kept kept_nil kept_of_ctx kept_of_stack kept_of_temps kept_of_frame)

namespace Act

def Outcome.Live (w : World) : Outcome → Prop
  | next => True
  | returned v => w.heap.Live v
  | native _ _ (.ok r) => r.Live w
  | native _ _ (.error e) => w.heap.Live e.value

section

variable {used : CtxId → Prop} {w : World} {cx : CtxId}

/-! ## calls -/

theorem Safe.attempt {α : Type} {P : α → World → Prop} {x : Act α} (hx : Safe used P (x.run w)) :
    Safe used (fun r w' => match r with | .ok a => P a w' | .error e => w'.heap.Live e.value)
      (EStateM.run (tryCatch (do return .ok (← x)) fun e => pure (.error e) :
        Act (Except Failure α)) w) := by
  have hx' : Safe used P (x w) := hx
  show Safe used _ (EStateM.tryCatch (EStateM.bind x fun a => pure (Except.ok a)) _ w)
  rw [EStateM.tryCatch, EStateM.bind]
  cases hr : x w with
  | ok a w' =>
    rw [hr] at hx'
    cases hx' with
    | done hs ha => exact .done hs ha
  | error e w' =>
    rw [hr] at hx'
    cases hx' with
    | failed hs he => exact .done hs he

theorem kept_operand (i : Nat) : w.Kept ((w.ctx cx).stack[i]?.getD .nil) := by
  cases hi : (w.ctx cx).stack[i]? with
  | none => exact kept_nil
  | some v => exact kept_of_stack (Array.mem_of_getElem? hi)

theorem safe_startNative (hs : w.Sound used) (hcx : used cx) (n : Native) (me : Value)
    {args : Array Value} (hargs : ∀ v ∈ args, w.Kept v) :
    Safe used (fun r w' => r.Live w') ((startNative .core cx n me args).run w) := by
  unfold startNative
  split
  · rename_i b hb
    exact Natives.safe_start hb hs hcx n me hargs
  · exact safe_fail hs _

/-- The operands of a call make room for its frame. -/
theorem safe_frameAt {α : Type} {ok : α → World → Prop} {x : α} (hs : w.Sound used) (hcx : used cx)
    (base : Nat) {func target scope locals : Value} {code : Loaded}
    (hbound : w.heap.bodyOf func = .func target scope)
    (htarget : w.heap.bodyOf target = .code code) (hfunc : w.heap.Live func)
    (hlocals : w.heap.Live locals) (hok : ∀ w', ok x w') :
    Safe used ok (EStateM.run (do
      cut cx base
      pushFrame cx func code locals scope base
      return x) w) := by
  refine (safe_cut hs hcx base).bind fun _ w₁ hs₁ h => ?_
  have hheap : w₁.heap = w.heap := by
    rw [h]
    rfl
  rw [← hheap] at hbound htarget hfunc hlocals
  have hscope : w₁.heap.Live scope :=
    hfunc.of_bodyOf hbound (List.mem_cons_of_mem _ List.mem_cons_self)
  refine (safe_pushFrame hs₁ hcx base ⟨target, scope, hbound, htarget⟩ hfunc hlocals hscope).bind ?_
  exact fun _ w₂ hs₂ _ => safe_pure hs₂ (hok w₂)

/-- A call of the function at an operand with the operands above it as arguments. -/
theorem safe_callAt (hs : w.Sound used) (hcx : used cx) (base fidx : Nat) {me : Value}
    (hme : w.Kept me) (named : Bool) :
    Safe used (fun o w' => o.Live w') ((callAt .core cx base fidx me named).run w) := by
  have hfunc : w.Kept ((w.ctx cx).stack[fidx]?.getD .nil) := kept_operand fidx
  have hargs : ∀ v ∈ (w.ctx cx).stack.extract (fidx + 1) (w.ctx cx).stack.size, w.Kept v :=
    fun v hv => kept_of_stack (mem_of_mem_extract hv)
  rw [callAt, run_ctx_bind]
  dsimp only
  rw [run_heap_bind]
  split
  · rename_i n _
    refine (Safe.attempt (safe_startNative hs hcx n me hargs)).bind fun r w₁ hs₁ hr => ?_
    refine safe_pure hs₁ ?_
    cases r with
    | ok r => exact hr
    | error e => exact hr
  · rename_i code scope hcallee
    obtain ⟨target, hbound, htarget⟩ := bodyOf_of_callee hcallee
    have hkt : w.Kept target := hfunc.of_bodyOf hbound trivial List.mem_cons_self
    have hcode : KeepsCode w code := ⟨target, hkt, htarget⟩
    have hframe {w' : World} (hs' : w'.Sound used) (he : w.Extends w') {locals : Value}
        (hlocals : w'.Kept locals) :
        Safe used (fun o w' => Outcome.Live w' o) (EStateM.run (do
          cut cx base
          pushFrame cx ((w.ctx cx).stack[fidx]?.getD .nil) code locals scope base
          return .next) w') :=
      safe_frameAt hs' hcx base (he.bodyOf hfunc hbound trivial) (he.bodyOf hkt htarget trivial)
        (hs'.live_kept (he.kept hfunc)) (hs'.live_kept hlocals) fun _ => trivial
    refine (safe_newHash hs hcx).bind fun locals w₁ hs₁ ⟨he, hempty, hl⟩ => ?_
    have hl := kept_of_temps hl
    split
    · have hnamed : w.Kept (((w.ctx cx).stack.extract (fidx + 1) (w.ctx cx).stack.size)[0]?.getD
          .nil) := by
        cases hi : ((w.ctx cx).stack.extract (fidx + 1) (w.ctx cx).stack.size)[0]? with
        | none => exact kept_nil
        | some v => exact hargs v (Array.mem_of_getElem? hi)
      refine (safe_bindNamed hs₁ hcx (hcode.mono he) hempty (he.kept hnamed) (he.kept hme)).bind ?_
      exact fun _ w₂ hs₂ he₂ => hframe hs₂ (he.trans he₂) (he₂.kept hl)
    · refine (safe_bindArgs hs₁ hcx (hcode.mono he) locals (fun v hv => he.kept (hargs v hv))
        (he.kept hme)).bind ?_
      exact fun _ w₂ hs₂ he₂ => hframe hs₂ (he.trans he₂) (he₂.kept hl)
  · exact safe_fail hs _
  · exact safe_fail hs _

theorem safe_callWith (hs : w.Sound used) (hcx : used cx) (argc : Nat) (method named : Bool) :
    Safe used (fun o w' => o.Live w') ((callWith .core cx argc method named).run w) := by
  unfold callWith
  show Safe used _ ((ite _ _ _ : Act Outcome).run w)
  split
  · split
    · exact safe_fail_bind hs _
    · exact safe_callAt hs hcx _ _ (kept_operand _) named
  · split
    · exact safe_fail_bind hs _
    · exact safe_callAt hs hcx _ _ kept_nil named

/-! ## instructions -/

theorem Safe.next {P : World → Prop} {x : Act Unit} (hx : Safe used (fun _ w' => P w') (x.run w)) :
    Safe used (fun o w' => Outcome.Live w' o) ((x >>= fun _ => pure Outcome.next).run w) :=
  hx.bind fun _ _ hs _ => safe_pure hs trivial

theorem safe_arith (hs : w.Sound used) (hcx : used cx) {f : Float → Float → Value}
    (hf : ∀ a b, ∃ n, f a b = .num n) :
    Safe used (fun _ _ => True) ((arith cx f).run w) := by
  unfold arith
  refine (safe_peek hs 0).bind fun y w₁ hs₁ _ => ?_
  refine (safe_read hs₁).bind fun b w₂ hs₂ _ => ?_
  refine (safe_peek hs₂ 1).bind fun x w₃ hs₃ _ => ?_
  refine (safe_read hs₃).bind fun a w₄ hs₄ _ => ?_
  obtain ⟨n, hn⟩ := hf a b
  rw [hn]
  exact (safe_replaceTop hs₄ hcx 2 (Heap.live_num n)).mono fun _ _ _ => trivial

theorem safe_equality (hs : w.Sound used) (hcx : used cx) (want : Bool) :
    Safe used (fun _ _ => True) ((equality cx want).run w) := by
  unfold equality
  refine (safe_peek hs 1).bind fun a w₁ hs₁ _ => ?_
  refine (safe_peek hs₁ 0).bind fun b w₂ hs₂ _ => ?_
  exact (safe_replaceTop hs₂ hcx 2 (Heap.live_num _)).mono fun _ _ _ => trivial

theorem safe_jumpIf (hs : w.Sound used) (hcx : used cx) (want : Bool) (target : Nat) :
    Safe used (fun _ _ => True) ((jumpIf cx want target).run w) := by
  unfold jumpIf
  refine (safe_peek hs 0).bind fun v w₁ hs₁ _ => ?_
  refine (safe_read hs₁).bind fun b w₂ hs₂ _ => ?_
  split
  · exact (safe_jump hs₂ hcx target).mono fun _ _ _ => trivial
  · exact safe_pure hs₂ trivial

theorem safe_iterate (hs : w.Sound used) (hcx : used cx) (values : Bool) :
    Safe used (fun _ _ => True) ((iterate cx values).run w) := by
  unfold iterate
  refine (safe_peek hs 1).bind fun box w₁ hs₁ ⟨he, hbox⟩ => ?_
  subst he
  refine (safe_peek hs 0).bind fun count w₂ hs₂ ⟨he, _⟩ => ?_
  subst he
  refine safe_heap ?_
  split
  · exact safe_fail hs _
  · rename_i items hitems
    split
    · exact (safe_push hs hcx Heap.live_done).mono fun _ _ _ => trivial
    · refine (safe_replaceTop hs hcx 1 (Heap.live_num _)).bind fun _ w₃ hs₃ he => ?_
      refine (safe_push hs₃ hcx ?_).mono fun _ _ _ => trivial
      split
      · cases hi : items[Numeral.toCount (count.num?.getD 0.0)]? with
        | none => exact Heap.live_nil
        | some v =>
          rw [he]
          exact (hs.live_kept (kept_of_stack hbox)).item (Heap.bodyOf_of_vec? hitems)
            (Array.mem_of_getElem? hi)
      · exact Heap.live_num _

theorem safe_returnFrom (hs : w.Sound used) (hcx : used cx) :
    Safe used (fun o w' => Outcome.Live w' o) ((returnFrom cx).run w) := by
  unfold returnFrom
  refine (safe_pop hs hcx).bind fun v w₁ hs₁ ⟨hv, he₁⟩ => ?_
  have hlive : w₁.heap.Live v := he₁ ▸ hs.live_kept (kept_of_stack hv)
  refine (safe_frame hs₁).bind fun f w₂ hs₂ ⟨he₂, _⟩ => ?_
  subst he₂
  have hdrop : (w₂.modifyCtx cx fun c => { c with
      frames := c.frames.pop
      stack := c.stack.shrink f.bp
      marks := c.marks.shrink f.markBase }).Sound used := by
    refine hs₂.changeCtx (hs₂.known cx hcx) rfl rfl (fun u hu => .inl ?_) fun _ g hg =>
      .inl (mem_of_mem_pop hg)
    rw [Context.mem_roots] at hu ⊢
    rcases hu with hu | hu | ⟨g, hg, hu⟩ | hu
    · exact .inl (mem_of_mem_shrink hu)
    · exact .inr (.inl hu)
    · exact .inr (.inr (.inl ⟨g, mem_of_mem_pop hg, hu⟩))
    · exact .inr (.inr (.inr hu))
  refine (safe_update hdrop).bind fun _ w₃ hs₃ he₃ => ?_
  have hlive₃ : w₃.heap.Live v := by
    rw [he₃]
    exact hlive
  show Safe used _ ((ite _ _ _ : Act Outcome).run w₃)
  split
  · exact safe_pure hs₃ hlive₃
  · exact (safe_push hs₃ hcx hlive₃).bind fun _ w₄ hs₄ _ => safe_pure hs₄ trivial

theorem safe_marks (hs : w.Sound used) (f : Context → Array Nat) :
    Safe used (fun _ w' => w' = w.modifyCtx cx fun c => { c with marks := f c })
      ((modifyCtx cx fun c => { c with marks := f c }).run w) :=
  .done (sound_note hs cx (fun _ => rfl) (fun _ => rfl) (fun _ => rfl) (hs.linked cx)) rfl

theorem safe_push_next (hs : w.Sound used) (hcx : used cx) {v : Value} (hv : w.heap.Live v) :
    Safe used (fun o w' => Outcome.Live w' o) ((push cx v >>= fun _ => pure Outcome.next).run w) :=
  Safe.next (safe_push hs hcx hv)

theorem safe_replaceTop_next (hs : w.Sound used) (hcx : used cx) (n : Nat) {v : Value} (hv : w.heap.Live v) :
    Safe used (fun o w' => Outcome.Live w' o) ((replaceTop cx n v >>= fun _ => pure Outcome.next).run w) :=
  Safe.next ((safe_replaceTop hs hcx n hv).mono fun _ _ h => h)

/-- Instructions that only move operands about or push a constant. -/
theorem safe_moving (hs : w.Sound used) (hcx : used cx) {code : Loaded} (hcode : KeepsCode w code) {op : Op}
    (hop : op ∈ [.nop, .pop, .dup, .dup2, .pushConst, .pushOne, .pushZero, .pushNil]) (arg : Nat) :
    Safe used (fun o w' => Outcome.Live w' o) ((perform .core cx code op arg).run w) := by
  unfold perform
  cases op with
  | nop => exact safe_pure hs trivial
  | pop => exact Safe.next ((safe_pop hs hcx).mono fun _ _ _ => trivial).discard
  | dup =>
    refine (safe_peek hs 0).bind fun v w₁ hs₁ ⟨he, hv⟩ => ?_
    subst he
    exact safe_push_next hs hcx (hs.live_kept (kept_of_stack hv))
  | dup2 =>
    refine (safe_peek hs 1).bind fun a w₁ hs₁ ⟨he, ha⟩ => ?_
    subst he
    refine (safe_peek hs 0).bind fun b w₂ hs₂ ⟨he, hb⟩ => ?_
    subst he
    refine (safe_push hs hcx (hs.live_kept (kept_of_stack ha))).bind fun _ w₃ hs₃ he => ?_
    refine safe_push_next hs₃ hcx ?_
    rw [he]
    exact hs.live_kept (kept_of_stack hb)
  | pushConst => exact safe_push_next hs hcx (hcode.live_const hs arg)
  | pushOne => exact safe_push_next hs hcx (Heap.live_num _)
  | pushZero => exact safe_push_next hs hcx (Heap.live_num _)
  | pushNil => exact safe_push_next hs hcx Heap.live_nil
  | _ => exact absurd hop (by decide)

/-- Instructions that make containers and fill them, and those that read and write their elements. -/
theorem safe_containers (hs : w.Sound used) (hcx : used cx) {code : Loaded} {op : Op}
    (hop : op ∈ [.newVec, .vappend, .newHash, .happend, .extract, .insert, .slice, .cat]) (arg : Nat) :
    Safe used (fun o w' => Outcome.Live w' o) ((perform .core cx code op arg).run w) := by
  unfold perform
  cases op with
  | newVec =>
    refine (safe_newVec hs hcx fun v hv => absurd hv (Array.not_mem_empty v)).bind
      fun v w₁ hs₁ ⟨_, hv⟩ => ?_
    exact safe_push_next hs₁ hcx (hs₁.live_kept (kept_of_temps hv))
  | vappend =>
    refine (safe_peek hs 0).bind fun v w₁ hs₁ ⟨he, hv⟩ => ?_
    subst he
    refine (safe_peek hs 1).bind fun box w₂ hs₂ ⟨he, _⟩ => ?_
    subst he
    refine (safe_vecPush hs box (hs.live_kept (kept_of_stack hv))).discard.bind fun _ w₃ hs₃ _ => ?_
    exact Safe.next ((safe_pop hs₃ hcx).mono fun _ _ _ => trivial).discard
  | newHash =>
    refine (safe_newHash hs hcx).bind fun v w₁ hs₁ ⟨_, _, hv⟩ => ?_
    exact safe_push_next hs₁ hcx (hs₁.live_kept (kept_of_temps hv))
  | happend =>
    refine (safe_peek hs 0).bind fun v w₁ hs₁ ⟨he, hv⟩ => ?_
    subst he
    refine (safe_peek hs 1).bind fun key w₂ hs₂ ⟨he, hkey⟩ => ?_
    subst he
    refine (safe_peek hs 2).bind fun box w₃ hs₃ ⟨he, _⟩ => ?_
    subst he
    refine (safe_hashSet hs box (hs.live_kept (kept_of_stack hkey))
      (hs.live_kept (kept_of_stack hv))).bind fun _ w₄ hs₄ _ => ?_
    exact Safe.next (safe_cut hs₄ hcx _)
  | extract =>
    refine (safe_peek hs 1).bind fun box w₁ hs₁ ⟨he, hbox⟩ => ?_
    subst he
    refine (safe_peek hs 0).bind fun key w₂ hs₂ ⟨he, _⟩ => ?_
    subst he
    refine (safe_extract hs (hs.live_kept (kept_of_stack hbox)) key).bind fun v w₃ hs₃ ⟨_, hv⟩ => ?_
    exact safe_replaceTop_next hs₃ hcx 2 hv
  | insert =>
    refine (safe_peek hs 0).bind fun v w₁ hs₁ ⟨he, hv⟩ => ?_
    subst he
    refine (safe_peek hs 1).bind fun key w₂ hs₂ ⟨he, hkey⟩ => ?_
    subst he
    refine (safe_peek hs 2).bind fun box w₃ hs₃ ⟨he, _⟩ => ?_
    subst he
    refine (safe_insert hs box (hs.live_kept (kept_of_stack hkey))
      (hs.live_kept (kept_of_stack hv))).bind fun _ w₄ hs₄ he => ?_
    exact safe_replaceTop_next hs₄ hcx 3 (hs₄.live_kept (he.kept (kept_of_stack hv)))
  | slice =>
    refine (safe_peek hs 0).bind fun stop w₁ hs₁ ⟨he, _⟩ => ?_
    subst he
    refine (safe_peek hs 1).bind fun start w₂ hs₂ ⟨he, _⟩ => ?_
    subst he
    refine (safe_peek hs 2).bind fun box w₃ hs₃ ⟨he, hbox⟩ => ?_
    subst he
    refine (safe_slice hs hcx (hs.live_kept (kept_of_stack hbox)) start stop).bind
      fun v w₄ hs₄ ⟨_, hv⟩ => ?_
    exact safe_replaceTop_next hs₄ hcx 3 (hs₄.live_kept (kept_of_temps hv))
  | cat =>
    refine (safe_peek hs 0).bind fun b w₁ hs₁ ⟨he, hb⟩ => ?_
    subst he
    refine (safe_peek hs 1).bind fun a w₂ hs₂ ⟨he, ha⟩ => ?_
    subst he
    refine (safe_concat hs hcx (hs.live_kept (kept_of_stack ha))
      (hs.live_kept (kept_of_stack hb))).bind fun v w₃ hs₃ ⟨_, hv⟩ => ?_
    exact safe_replaceTop_next hs₃ hcx 2 (hs₃.live_kept (kept_of_temps hv))
  | _ => exact absurd hop (by decide)

theorem safe_marking (hs : w.Sound used) (hcx : used cx) {code : Loaded} {op : Op}
    (hop : op ∈ [.mark, .unmark, .cutBack, .cutBackPop]) (arg : Nat) :
    Safe used (fun o w' => Outcome.Live w' o) ((perform .core cx code op arg).run w) := by
  unfold perform
  cases op with
  | mark =>
    show Safe used _ ((ite _ _ _ : Act Outcome).run w)
    split
    · exact safe_fail_bind hs _
    · exact Safe.next (safe_marks hs _)
  | unmark => exact Safe.next (safe_marks hs _)
  | cutBack =>
    rw [run_ctx_bind]
    split
    · exact Safe.next (safe_cut hs hcx _)
    · exact safe_pure hs trivial
  | cutBackPop =>
    rw [run_ctx_bind]
    split
    · exact (safe_marks hs _).bind fun _ w₁ hs₁ _ => Safe.next (safe_cut hs₁ hcx _)
    · exact safe_pure hs trivial
  | _ => exact absurd hop (by decide)

/-- Instructions whose result is a number. -/
theorem safe_numeric (hs : w.Sound used) (hcx : used cx) {code : Loaded} {op : Op}
    (hop : op ∈ [.not, .neg, .plus, .minus, .mul, .div, .lt, .lte, .gt, .gte, .eq, .neq]) (arg : Nat) :
    Safe used (fun o w' => Outcome.Live w' o) ((perform .core cx code op arg).run w) := by
  unfold perform
  cases op with
  | not =>
    refine (safe_peek hs 0).bind fun v w₁ hs₁ _ => ?_
    refine (safe_read hs₁).bind fun b w₂ hs₂ _ => ?_
    exact safe_replaceTop_next hs₂ hcx 1 (Heap.live_num _)
  | neg =>
    refine (safe_peek hs 0).bind fun v w₁ hs₁ _ => ?_
    refine (safe_read hs₁).bind fun x w₂ hs₂ _ => ?_
    exact safe_replaceTop_next hs₂ hcx 1 (Heap.live_num _)
  | plus | minus | mul | div => exact Safe.next (safe_arith hs hcx fun _ _ => ⟨_, rfl⟩)
  | lt | lte | gt | gte => exact Safe.next (safe_arith hs hcx fun _ _ => ⟨_, rfl⟩)
  | eq => exact Safe.next (safe_equality hs hcx true)
  | neq => exact Safe.next (safe_equality hs hcx false)
  | _ => exact absurd hop (by decide)

theorem safe_jumping (hs : w.Sound used) (hcx : used cx) {code : Loaded} {op : Op}
    (hop : op ∈ [.jmp, .jmpLoop, .jifNotPop, .jifEnd, .jifTrue, .jifNot]) (arg : Nat) :
    Safe used (fun o w' => Outcome.Live w' o) ((perform .core cx code op arg).run w) := by
  unfold perform
  cases op with
  | jmp => exact Safe.next (safe_jump hs hcx arg)
  | jmpLoop =>
    refine (safe_jump hs hcx arg).bind fun _ w₁ hs₁ _ => ?_
    exact Safe.next (safe_update hs₁.poll.1)
  | jifNotPop =>
    refine (safe_pop hs hcx).bind fun v w₁ hs₁ _ => ?_
    refine (safe_read hs₁).bind fun b w₂ hs₂ _ => ?_
    split
    · exact Safe.next (safe_jump hs₂ hcx arg)
    · exact safe_pure hs₂ trivial
  | jifEnd =>
    refine (safe_peek hs 0).bind fun v w₁ hs₁ _ => ?_
    split
    · refine ((safe_pop hs₁ hcx).mono fun _ _ _ => trivial).discard.bind fun _ w₂ hs₂ _ => ?_
      exact Safe.next (safe_jump hs₂ hcx arg)
    · exact safe_pure hs₁ trivial
  | jifTrue => exact Safe.next (safe_jumpIf hs hcx true arg)
  | jifNot => exact Safe.next (safe_jumpIf hs hcx false arg)
  | _ => exact absurd hop (by decide)

/-- Instructions whose operand is a name. -/
theorem safe_naming (hs : w.Sound used) (hcx : used cx) {code : Loaded} (hcode : KeepsCode w code) {op : Op}
    (hop : op ∈ [.loadSym, .setSym, .setLocal, .member, .setMember]) (arg : Nat) :
    Safe used (fun o w' => Outcome.Live w' o) ((perform .core cx code op arg).run w) := by
  have hconst := hcode.live_const hs arg
  unfold perform
  cases op with
  | loadSym =>
    refine (safe_lookupSym hs _ _).bind fun v w₁ hs₁ ⟨he, hv⟩ => ?_
    subst he
    exact safe_push_next hs hcx hv
  | setSym =>
    refine (safe_peek hs 0).bind fun v w₁ hs₁ ⟨he, hv⟩ => ?_
    subst he
    exact Safe.next (safe_setSym hs _ hconst (hs.live_kept (kept_of_stack hv)))
  | setLocal =>
    refine (safe_peek hs 0).bind fun v w₁ hs₁ ⟨he, hv⟩ => ?_
    subst he
    refine (safe_frame hs).bind fun f w₂ hs₂ ⟨he, _⟩ => ?_
    subst he
    exact Safe.next ((safe_setHashed hs f.locals _ true hconst
      (hs.live_kept (kept_of_stack hv))).mono fun _ _ h => h.1)
  | member =>
    refine (safe_peek hs 0).bind fun obj w₁ hs₁ ⟨he, hobj⟩ => ?_
    subst he
    refine (safe_member hs (hs.live_kept (kept_of_stack hobj)) _ _ true).bind
      fun r w₂ hs₂ ⟨he, hr⟩ => ?_
    subst he
    cases r with
    | some v => exact safe_replaceTop_next hs hcx 1 (hr v rfl)
    | none => exact safe_heap (safe_fail_bind hs _)
  | setMember =>
    refine (safe_peek hs 0).bind fun v w₁ hs₁ ⟨he, hv⟩ => ?_
    subst he
    refine (safe_peek hs 1).bind fun obj w₂ hs₂ ⟨he, _⟩ => ?_
    subst he
    refine (safe_setMember hs obj _ true hconst (hs.live_kept (kept_of_stack hv))).bind
      fun _ w₃ hs₃ he => ?_
    exact safe_replaceTop_next hs₃ hcx 2 (hs₃.live_kept (he.kept (kept_of_stack hv)))
  | _ => exact absurd hop (by decide)

/-- A function literal closes over the scope of the innermost frame. -/
theorem safe_func (hs : w.Sound used) (hcx : used cx) {code : Loaded} (hcode : KeepsCode w code) (arg : Nat) :
    Safe used (fun o w' => Outcome.Live w' o) ((perform .core cx code .func arg).run w) := by
  unfold perform
  refine (safe_frame hs).bind fun f w₁ hs₁ ⟨he, hf⟩ => ?_
  subst he
  have hk := kept_of_frame hf
  refine (safe_newClosure hs hcx (hs.live_kept hk.2.1) (hs.live_kept hk.2.2)).bind
    fun scope w₂ hs₂ ⟨he, hscope⟩ => ?_
  refine (safe_newFunc hs₂ hcx ((hcode.mono he).live_const hs₂ arg)
    (hs₂.live_kept (kept_of_temps hscope))).bind fun v w₃ hs₃ ⟨_, _, hv⟩ => ?_
  exact safe_push_next hs₃ hcx (hs₃.live_kept (kept_of_temps hv))

/-- One instruction, given that its code is kept. -/
theorem safe_perform (hs : w.Sound used) (hcx : used cx) {code : Loaded} (hcode : KeepsCode w code)
    (op : Op) (arg : Nat) :
    Safe used (fun o w' => Outcome.Live w' o) ((perform .core cx code op arg).run w) := by
  cases op with
  | nop | pop | dup | dup2 | pushConst | pushOne | pushZero | pushNil =>
    exact safe_moving hs hcx hcode (by decide) arg
  | newVec | vappend | newHash | happend | extract | insert | slice | cat =>
    exact safe_containers hs hcx (by decide) arg
  | mark | unmark | cutBack | cutBackPop => exact safe_marking hs hcx (by decide) arg
  | not | neg | plus | minus | mul | div | lt | lte | gt | gte | eq | neq =>
    exact safe_numeric hs hcx (by decide) arg
  | jmp | jmpLoop | jifNotPop | jifEnd | jifTrue | jifNot => exact safe_jumping hs hcx (by decide) arg
  | loadSym | setSym | setLocal | member | setMember => exact safe_naming hs hcx hcode (by decide) arg
  | func => exact safe_func hs hcx hcode arg
  | fcall => exact safe_callWith hs hcx arg false false
  | mcall => exact safe_callWith hs hcx arg true false
  | fcallh => exact safe_callWith hs hcx 1 false true
  | mcallh => exact safe_callWith hs hcx 1 true true
  | ret => exact safe_returnFrom hs hcx
  | each => exact Safe.next (safe_iterate hs hcx true)
  | index => exact Safe.next (safe_iterate hs hcx false)

theorem sound_dropTemps (hs : w.Sound used) (hcx : used cx) :
    (w.modifyCtx cx fun c => { c with temps := #[] }).Sound used := by
  refine hs.changeCtx (hs.known cx hcx) rfl rfl (fun v hv => .inl ?_) fun _ g hg => .inl hg
  rw [Context.mem_roots] at hv ⊢
  rcases hv with hv | hv | hv
  · exact .inl hv
  · exact absurd hv (Array.not_mem_empty v)
  · exact .inr (.inr hv)

/-- **One instruction keeps the engine sound.** -/
theorem safe_exec (hs : w.Sound used) (hcx : used cx) :
    Safe used (fun o w' => Outcome.Live w' o) ((exec .core cx).run w) := by
  unfold exec
  refine (safe_update (sound_dropTemps hs hcx)).bind fun _ w₁ hs₁ _ => ?_
  refine (safe_frame hs₁).bind fun f w₂ hs₂ ⟨he, hf⟩ => ?_
  subst he
  split
  · exact safe_fail hs₁ _
  · rename_i word _
    dsimp only
    refine (safe_jump hs₁ hcx _).bind fun _ w₃ hs₃ he => ?_
    have hcode : KeepsCode w₃ f.code := by
      obtain ⟨g, hg, hcode⟩ := code_mem_modify_ip hf ((w₂.ctx cx).frames.size - 1) _
      rw [← hcode]
      refine keepsCode_frame hs₃ hcx ?_
      rw [he, World.ctx_modifyCtx_self (hs₁.known cx hcx)]
      exact hg
    split
    · exact safe_perform hs₃ hcx hcode _ _
    · exact safe_fail hs₃ _

end

end Act

end ScriptEngine
