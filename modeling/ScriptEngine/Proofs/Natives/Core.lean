import ScriptEngine.Proofs.Machine.Binding

/-!
# The core natives keep what they use

A native is started with arguments that the operand stack keeps.  Each of the core natives leaves
the engine sound and answers with a live value, or asks for a call of live values on a child; when
that call is over it goes on with a live outcome.

* `Reply.Live`            what a core native may reply;
* `Act.safe_load`         loading code keeps the constants made before;
* `Natives.safe_start`    every core native when it starts;
* `Natives.safe_resume`   every core native when it goes on.
-/

namespace ScriptEngine

open World (Sound Extends Kept kept_nil kept_of_ctx kept_of_stack kept_of_temps kept_of_frame)
open Act (Safe safe_heap safe_update safe_pure safe_fail safe_fail_bind safe_check safe_newStr safe_newVec)

def Request.Live (h : Heap) : Request → Prop
  | call func args me locals =>
    h.Live func ∧ (∀ v ∈ args, h.Live v) ∧ h.Live me ∧ h.Live locals
  | resume _ => False

/-- An answer that is live, or a request to a context that there is. -/
def Reply.Live (w : World) : Reply → Prop
  | done v => w.heap.Live v
  | run sub request _ => sub < w.contexts.size ∧ request.Live w.heap
  | halt => True

def OutcomeLive (h : Heap) : Except Failure Value → Prop
  | .ok v => h.Live v
  | .error e => h.Live e.value

section

variable {used : CtxId → Prop} {w : World} {cx : CtxId}

/-! ## loading code -/

namespace Act

theorem safe_loadText (hs : w.Sound used) (hcx : used cx) (s : Bytes) :
    Safe used (fun p w' => w.Extends w' ∧ w'.Kept p.1) ((loadText cx s).run w) := by
  refine (safe_newStr hs hcx s).bind fun v w₁ hs₁ ⟨he, hv⟩ => ?_
  refine (safe_hashKey hs₁ v).bind fun x w₂ hs₂ h => ?_
  exact safe_pure hs₂ ⟨he.trans h.1, h.1.kept (kept_of_temps hv)⟩

theorem safe_loadName (hs : w.Sound used) (s : Bytes) :
    Safe used (fun p w' => w.Extends w' ∧ w'.Kept p.1) ((loadName s).run w) := by
  refine (safe_intern hs s).bind fun v w₁ hs₁ ⟨he, hv, _⟩ => ?_
  refine (safe_hashKey hs₁ v).bind fun x w₂ hs₂ h => ?_
  exact safe_pure hs₂ ⟨he.trans h.1, h.1.kept hv⟩

mutual
theorem safe_loadConst {w : World} (hs : w.Sound used) (hcx : used cx) (c : Const) :
    Safe used (fun p w' => w.Extends w' ∧ w'.Kept p.1) ((loadConst cx c).run w) := by
  cases c with
  | nil => exact safe_pure hs ⟨.refl w, kept_nil⟩
  | number x => exact safe_pure hs ⟨.refl w, .plain fun _ => Value.noConfusion⟩
  | text s => exact safe_loadText hs hcx s
  | name s => exact safe_loadName hs s
  | code c =>
    refine (safe_load hs hcx c).bind fun v w₁ hs₁ h => ?_
    exact safe_pure hs₁ ⟨h.1, kept_of_temps h.2⟩
/-- Loading a unit makes one object after the other, and keeps each of them. -/
theorem safe_load {w : World} (hs : w.Sound used) (hcx : used cx) (c : Code Const) :
    Safe used (fun v w' => w.Extends w' ∧ v ∈ (w'.ctx cx).temps) ((load cx c).run w) := by
  obtain ⟨words, consts, lines, file, params, optional, rest, needsRest⟩ := c
  refine (safe_loadConsts hs hcx consts).bind fun p w₁ hs₁ ⟨he, hp⟩ => ?_
  refine (safe_alloc hs₁ hcx .code Body.noConfusion fun v hv => ?_).mono
    fun _ _ h => ⟨he.trans h.1, h.2.2⟩
  exact hs₁.live_kept (hp v (Array.mem_toList_iff.mp hv))
theorem safe_loadConsts {w : World} (hs : w.Sound used) (hcx : used cx) (cs : Array Const) :
    Safe used (fun p w' => w.Extends w' ∧ ∀ v ∈ p.1, w'.Kept v) ((loadConsts cx cs).run w) := by
  obtain ⟨cs⟩ := cs
  exact safe_loadList hs hcx cs fun v hv => absurd hv (Array.not_mem_empty v)
theorem safe_loadList {w : World} (hs : w.Sound used) (hcx : used cx) (cs : List Const) {vs : Array Value}
    {hashes : Array UInt32} (hvs : ∀ v ∈ vs, w.Kept v) :
    Safe used (fun p w' => w.Extends w' ∧ ∀ v ∈ p.1, w'.Kept v)
      ((loadList cx cs vs hashes).run w) := by
  cases cs with
  | nil => exact safe_pure hs ⟨.refl w, hvs⟩
  | cons c cs =>
    refine (safe_loadConst hs hcx c).bind fun p w₁ hs₁ ⟨he, hp⟩ => ?_
    refine (safe_loadList hs₁ hcx cs fun v hv => ?_).mono fun _ _ h => ⟨he.trans h.1, h.2⟩
    rcases Array.mem_push.mp hv with hv | rfl
    · exact he.kept (hvs v hv)
    · exact hp
end

theorem safe_compile (hs : w.Sound used) (hcx : used cx) (src : Bytes) (file : String)
    (firstLine : Nat) :
    Safe used (fun r w' => w.Extends w' ∧ ∀ v, r = .ok v → v ∈ (w'.ctx cx).temps)
      ((compile cx src file firstLine).run w) := by
  unfold compile
  split
  · rename_i c _
    refine (safe_load hs hcx c).bind fun v w₁ hs₁ h => safe_pure hs₁ ⟨h.1, ?_⟩
    rintro _ ⟨⟩
    exact h.2
  · rename_i u _
    refine (safe_forM hs (Extends.refl w) fun cs _ w' hs' he => ?_).bind fun _ w₁ hs₁ he => ?_
    · exact ((safe_loadConsts hs' hcx cs).mono fun _ _ h => he.trans h.1).discard
    · exact safe_pure hs₁ ⟨he, fun _ h => nomatch h⟩

theorem safe_bindTo (hs : w.Sound used) (hcx : used cx) {code ns next : Value}
    (hcode : w.Kept code) (hns : w.heap.Live ns) (hnext : w.heap.Live next) :
    Safe used (fun v w' => w'.heap.Live v) ((bindTo cx code ns next).run w) := by
  unfold bindTo
  refine (safe_newClosure hs hcx hns hnext).bind fun scope w₁ hs₁ ⟨he, hscope⟩ => ?_
  have hcode₁ := hs₁.live_kept (he.kept hcode)
  refine Safe.after (safe_newFunc hs₁ hcx hcode₁ (hs₁.live_kept (kept_of_temps hscope))) ?_
  exact fun v w₂ hs₂ h => hs₂.live_kept (kept_of_temps h.2.2)

theorem safe_bindToCaller (hs : w.Sound used) (hcx : used cx) {code : Value}
    (hcode : w.Kept code) :
    Safe used (fun v w' => w'.heap.Live v) ((bindToCaller cx code).run w) := by
  unfold bindToCaller
  show Safe used _ ((ite _ _ _ : Act Value).run w)
  split
  · exact safe_fail_bind hs _
  · rw [run_ctx_bind]
    split
    · rename_i f hf
      have hk := kept_of_frame (Array.mem_of_back? hf)
      exact safe_bindTo hs hcx hcode (hs.live_kept hk.2.1) (hs.live_kept hk.2.2)
    · refine (safe_newHash hs hcx).bind fun ns w₁ hs₁ ⟨he, _, hns⟩ => ?_
      exact safe_bindTo hs₁ hcx (he.kept hcode) (hs₁.live_kept (kept_of_temps hns)) Heap.live_nil

end Act

/-! ## natives that answer at once -/

namespace Natives

variable {args : Array Value}

theorem kept_argument (hargs : ∀ v ∈ args, w.Kept v) (i : Nat) : w.Kept (argument args i) := by
  rw [argument]
  cases hi : args[i]? with
  | none => exact kept_nil
  | some v => exact hargs v (Array.mem_of_getElem? hi)

theorem live_made {mid : Value → World → Prop} {r : EStateM.Result Failure World Value}
    (hr : Safe used (fun v w' => mid v w' ∧ v ∈ (w'.ctx cx).temps) r) :
    Safe used (fun v w' => w'.heap.Live v) r :=
  hr.after fun _ _ hs h => hs.live_kept (kept_of_temps h.2)

theorem safe_print (hs : w.Sound used) (hcx : used cx) (me : Value) :
    Safe used (fun v w' => w'.heap.Live v) ((print cx me args).run w) := by
  unfold print
  have hleave : { w.leave with printed := args.toList.flatMap w.heap.render :: w.printed }.Sound
      used := hs.leave.1.same (by constructor <;> rfl)
  refine safe_heap ?_
  refine (safe_update hleave).bind fun _ w₁ hs₁ _ => ?_
  refine (safe_update hs₁.enter.1).bind fun _ w₂ hs₂ _ => ?_
  exact live_made (safe_newStr hs₂ hcx _)

theorem safe_size (hs : w.Sound used) (me : Value) :
    Safe used (fun v w' => w'.heap.Live v) ((size cx me args).run w) := by
  unfold size
  rw [Act.run_heap_bind]
  split
  · exact safe_pure hs (Heap.live_num _)
  · exact safe_pure hs (Heap.live_num _)
  · exact safe_pure hs (Heap.live_num _)
  · split
    · exact safe_pure hs (Heap.live_num _)
    · exact safe_fail hs _

theorem safe_append (hs : w.Sound used) (me : Value) (hargs : ∀ v ∈ args, w.Kept v) :
    Safe used (fun v w' => w'.heap.Live v) ((append cx me args).run w) := by
  unfold append
  refine (Act.safe_modifyVec hs (argument args 0) fun items x hx => ?_).bind
    fun found w₁ hs₁ h => ?_
  · exact (Array.mem_append.mp hx).imp_right fun hx =>
      hs.live_kept (hargs x (mem_of_mem_extract hx))
  · split
    · exact safe_pure hs₁ (h.2 _ (hs.live_kept (kept_argument hargs 0)))
    · exact safe_fail hs₁ _

theorem safe_setsize (hs : w.Sound used) (me : Value) (hargs : ∀ v ∈ args, w.Kept v) :
    Safe used (fun v w' => w'.heap.Live v) ((setsize cx me args).run w) := by
  unfold setsize
  refine (Act.safe_read hs).bind fun x w₁ hs₁ ⟨he, _⟩ => ?_
  subst he
  show Safe used _ ((ite _ _ _ : Act Value).run w₁)
  split
  · exact safe_fail_bind hs _
  · show Safe used _ ((ite _ _ _ : Act Value).run w₁)
    split
    · exact safe_fail_bind hs _
    · refine (Act.safe_modifyVec hs (argument args 0) fun items v hv => ?_).bind
        fun found w₂ hs₂ h => ?_
      · rw [resized] at hv
        rcases Array.mem_append.mp hv with hv | hv
        · exact .inl (mem_of_mem_shrink hv)
        · rw [(Array.mem_replicate.mp hv).2]
          exact .inr Heap.live_nil
      · split
        · exact safe_pure hs₂ (h.2 _ (hs.live_kept (kept_argument hargs 0)))
        · exact safe_fail hs₂ _

theorem safe_subvec (hs : w.Sound used) (hcx : used cx) (me : Value)
    (hargs : ∀ v ∈ args, w.Kept v) :
    Safe used (fun v w' => w'.heap.Live v) ((subvec cx me args).run w) := by
  unfold subvec
  rw [Act.run_heap_bind]
  split
  · exact safe_fail hs _
  · rename_i items hitems
    refine safe_check hs fun start _ => ?_
    refine safe_check hs fun n _ => ?_
    refine live_made (safe_newVec hs hcx fun v hv => ?_)
    exact (hs.live_kept (kept_argument hargs 0)).item (Heap.bodyOf_of_vec? hitems)
      (mem_of_mem_extract hv)

theorem safe_keys (hs : w.Sound used) (hcx : used cx) (me : Value)
    (hargs : ∀ v ∈ args, w.Kept v) :
    Safe used (fun v w' => w'.heap.Live v) ((keys cx me args).run w) := by
  unfold keys
  rw [Act.run_heap_bind]
  split
  · rename_i t ht
    refine live_made (safe_newVec hs hcx fun v hv => ?_)
    obtain ⟨e, he, rfl⟩ := List.mem_map.mp (List.mem_toArray.mp hv)
    exact ((hs.live_kept (kept_argument hargs 0)).entry (Heap.bodyOf_of_table? ht) he).1
  · exact safe_fail hs _

theorem safe_delete (hs : w.Sound used) (me : Value) (hargs : ∀ v ∈ args, w.Kept v) :
    Safe used (fun v w' => w'.heap.Live v) ((delete cx me args).run w) := by
  unfold delete
  refine (Act.safe_hashDelete hs (argument args 0) (argument args 1)).discard.bind
    fun _ w₁ hs₁ he => ?_
  exact safe_pure hs₁ (hs₁.live_kept (he.kept (kept_argument hargs 0)))

theorem safe_contains (hs : w.Sound used) (me : Value) :
    Safe used (fun v w' => w'.heap.Live v) ((contains cx me args).run w) := by
  unfold contains
  show Safe used _ ((ite _ _ _ : Act Value).run w)
  split
  · refine (Act.safe_hashGet hs (argument args 0) (argument args 1)).bind fun _ w₁ hs₁ _ => ?_
    exact safe_pure hs₁ (Heap.live_num _)
  · exact safe_fail hs _

theorem safe_typeOf (hs : w.Sound used) (hcx : used cx) (me : Value) :
    Safe used (fun v w' => w'.heap.Live v) ((typeOf cx me args).run w) := by
  unfold typeOf
  refine safe_heap ?_
  split
  · exact live_made (safe_newStr hs hcx _)
  · exact live_made (safe_newStr hs hcx _)

theorem safe_int (hs : w.Sound used) (me : Value) :
    Safe used (fun v w' => w'.heap.Live v) ((int cx me args).run w) := by
  unfold int
  refine safe_heap ?_
  split
  · exact safe_pure hs (Heap.live_num _)
  · exact safe_pure hs Heap.live_nil

theorem safe_num (hs : w.Sound used) (me : Value) :
    Safe used (fun v w' => w'.heap.Live v) ((num cx me args).run w) := by
  unfold num
  refine safe_heap ?_
  split
  · exact safe_pure hs (Heap.live_num _)
  · exact safe_pure hs Heap.live_nil

theorem safe_streq (hs : w.Sound used) (me : Value) :
    Safe used (fun v w' => w'.heap.Live v) ((streq cx me args).run w) := by
  unfold streq
  refine safe_heap ?_
  split
  · exact safe_pure hs (Heap.live_num _)
  · exact safe_pure hs (Heap.live_num _)

theorem safe_substr (hs : w.Sound used) (hcx : used cx) (me : Value) :
    Safe used (fun v w' => w'.heap.Live v) ((substr cx me args).run w) := by
  unfold substr
  refine safe_heap ?_
  split
  · exact safe_fail hs _
  · refine safe_check hs fun start _ => ?_
    refine safe_check hs fun n _ => ?_
    exact live_made (safe_newStr hs hcx _)

theorem safe_chr (hs : w.Sound used) (hcx : used cx) (me : Value) :
    Safe used (fun v w' => w'.heap.Live v) ((chr cx me args).run w) := by
  unfold chr
  refine (Act.safe_read hs).bind fun x w₁ hs₁ _ => ?_
  split
  · exact live_made (safe_newStr hs₁ hcx _)
  · exact safe_fail hs₁ _

theorem safe_id (hs : w.Sound used) (hcx : used cx) (me : Value) :
    Safe used (fun v w' => w'.heap.Live v) ((Natives.id cx me args).run w) := by
  unfold Natives.id
  refine safe_heap ?_
  split
  · exact live_made (safe_newStr hs hcx _)
  · exact safe_fail hs _

theorem safe_die (hs : w.Sound used) (me : Value) (hargs : ∀ v ∈ args, w.Kept v) :
    Safe used (fun v w' => w'.heap.Live v) ((die cx me args).run w) := by
  have hv := hs.live_kept (kept_argument hargs 0)
  unfold die
  refine safe_heap ?_
  split
  · exact .failed hs hv
  · exact .failed hs hv

theorem safe_compile (hs : w.Sound used) (hcx : used cx) (me : Value) :
    Safe used (fun v w' => w'.heap.Live v) ((compile cx me args).run w) := by
  unfold compile
  refine safe_heap ?_
  split
  · exact safe_fail hs _
  · refine (Act.safe_compile hs hcx _ _ _).bind fun r w₁ hs₁ h => ?_
    split
    · rename_i code
      exact Act.safe_bindToCaller hs₁ hcx (kept_of_temps (h.2 code rfl))
    · exact safe_fail hs₁ _

theorem safe_bind (hs : w.Sound used) (hcx : used cx) (me : Value)
    (hargs : ∀ v ∈ args, w.Kept v) :
    Safe used (fun v w' => w'.heap.Live v) ((bind cx me args).run w) := by
  unfold bind
  refine safe_heap ?_
  split
  · exact safe_fail hs _
  · rename_i code _ hfunc
    have hcode : w.Kept code := (kept_argument hargs 0).of_bodyOf (Heap.bodyOf_of_func? hfunc)
      trivial List.mem_cons_self
    have hns := hs.live_kept (kept_argument hargs 1)
    show Safe used _ ((ite _ _ _ : Act Value).run w)
    split
    · exact safe_fail_bind hs _
    · show Safe used _ ((ite _ _ _ : Act Value).run w)
      split
      · exact Act.safe_bindTo hs hcx hcode hns Heap.live_nil
      · split
        · rename_i _ next houter
          refine Act.safe_bindTo hs hcx hcode hns ?_
          exact (hs.live_kept (kept_argument hargs 2)).of_bodyOf (Heap.bodyOf_of_func? houter)
            (List.mem_cons_of_mem _ List.mem_cons_self)
        · exact safe_fail hs _

theorem safe_closure (hs : w.Sound used) (me : Value) (hargs : ∀ v ∈ args, w.Kept v) :
    Safe used (fun v w' => w'.heap.Live v) ((closure cx me args).run w) := by
  unfold closure
  refine safe_heap ?_
  split
  · exact safe_fail hs _
  · rename_i _ scope hfunc
    have hscope : w.heap.Live scope := (hs.live_kept (kept_argument hargs 0)).of_bodyOf
      (Heap.bodyOf_of_func? hfunc) (List.mem_cons_of_mem _ List.mem_cons_self)
    have hanswer (level : Nat) :
        w.heap.Live ((w.heap.scopes (w.heap.cells.size + 1) scope)[level]?.getD .nil) := by
      cases hi : (w.heap.scopes (w.heap.cells.size + 1) scope)[level]? with
      | none => exact Heap.live_nil
      | some ns => exact hscope.scopes _ ns (List.mem_of_getElem? hi)
    show Safe used _ ((ite _ _ _ : Act Value).run w)
    split
    · exact safe_pure hs (hanswer 0)
    · refine Safe.bind (P := fun _ w' => w' = w) ?_ ?_
      · cases w.heap.numOf (argument args 1) with
        | ok x => exact .done hs rfl
        | error c => exact .failed hs Heap.live_nil
      · rintro level _ - rfl
        exact safe_pure hs (hanswer level)

def callerAt (cx : CtxId) (level : Nat) : Act Reply := do
  match (← Act.ctx cx).frameAt level with
  | none => return .halt
  | some none => return .done .nil
  | some (some f) =>
    let file ← Act.newText cx f.place.file
    return .done (← Act.newVec cx #[f.locals, f.func, file, .ofNat f.place.line])

theorem callerStart_eq (cx : CtxId) (n : Native) (me : Value) (args : Array Value) :
    callerStart cx n me args =
      if (argument args 0).isNil then pure 1 >>= callerAt cx
      else (Numeral.toCount <$> Act.read fun h => h.numOf (argument args 0)) >>= callerAt cx := rfl

theorem mem_of_frameAt {c : Context} {level : Nat} {f : Frame} (h : c.frameAt level = some (some f)) :
    f ∈ c.frames := by
  obtain ⟨n, -, hn⟩ := Option.map_eq_some_iff.mp h
  split at hn
  · exact Array.mem_of_getElem? hn
  · cases hn

theorem callerStart_asks (n : Native) (me : Value) (args : Array Value) {w w' : World} {r : Reply}
    (h : (callerStart cx n me args).run w = .ok r w') : r = .halt ∨ ∃ v, r = .done v := by
  have hanswer {level : Nat} {w₁ : World} (h : (callerAt cx level).run w₁ = .ok r w') :
      r = .halt ∨ ∃ v, r = .done v := by
    rw [callerAt, Act.run_ctx_bind] at h
    split at h
    · cases h
      exact .inl rfl
    · cases h
      exact .inr ⟨_, rfl⟩
    · obtain ⟨_, _, -, h⟩ := run_bind_ok h
      obtain ⟨_, _, -, h⟩ := run_bind_ok h
      cases h
      exact .inr ⟨_, rfl⟩
  rw [callerStart_eq] at h
  split at h
  · exact hanswer h
  · obtain ⟨_, _, -, h⟩ := run_bind_ok h
    exact hanswer h

theorem safe_callerStart (hs : w.Sound used) (hcx : used cx) (n : Native) (me : Value) :
    Safe used (fun r w' => r.Live w') ((callerStart cx n me args).run w) := by
  have hanswer (level : Nat) : Safe used (fun r w' => r.Live w') ((callerAt cx level).run w) := by
    rw [callerAt, Act.run_ctx_bind]
    split
    · exact safe_pure hs trivial
    · exact safe_pure hs Heap.live_nil
    · rename_i f hf
      have hk := kept_of_frame (mem_of_frameAt hf)
      refine (safe_newStr hs hcx _).bind fun file w₁ hs₁ hmade => ?_
      obtain ⟨he, hfile⟩ := hmade
      refine (live_made (safe_newVec hs₁ hcx fun v hv => ?_)).bind fun _ _ hs₂ hv => safe_pure hs₂ hv
      simp only [List.mem_toArray, List.mem_cons, List.not_mem_nil, or_false] at hv
      rcases hv with rfl | rfl | rfl | rfl
      · exact hs₁.live_kept (he.kept hk.2.1)
      · exact hs₁.live_kept (he.kept hk.1)
      · exact hs₁.live_kept (kept_of_temps hfile)
      · exact Heap.live_num _
  rw [callerStart_eq]
  split
  · exact hanswer 1
  · refine Safe.bind (P := fun _ w' => w' = w) ?_ ?_
    · show Safe used _ (EStateM.map Numeral.toCount (Act.ofExcept (w.heap.numOf (argument args 0))) w)
      cases w.heap.numOf (argument args 0) with
      | ok x => exact .done hs rfl
      | error c => exact .failed hs Heap.live_nil
    · rintro level _ - rfl
      exact hanswer level

/-! ## natives that wait -/

/-- Whatever vector the errors go to, a live text is appended to it. -/
theorem safe_report (hs : w.Sound used) (hcx : used cx) (errors : Value) (e : Failure) :
    Safe used (fun _ _ => True) ((report cx errors e).run w) := by
  have happend {w' : World} (hs' : w'.Sound used) {v : Value} (hv : w'.heap.Live v) :
      Safe used (fun _ _ => True) ((discard (Act.vecPush errors v) : Act Unit).run w') :=
    ((Act.safe_vecPush hs' errors hv).mono fun _ _ _ => trivial).discard
  unfold report
  refine (safe_newStr hs hcx _).bind fun v w₁ hs₁ ⟨_, hv⟩ => ?_
  refine (happend hs₁ (hs₁.live_kept (kept_of_temps hv))).bind fun _ w₂ hs₂ _ => ?_
  refine Act.safe_forM (I := fun _ => True) hs₂ trivial fun p _ w' hs' _ => ?_
  refine (safe_newStr hs' hcx _).bind fun file w₃ hs₃ ⟨_, hfile⟩ => ?_
  refine (happend hs₃ (hs₃.live_kept (kept_of_temps hfile))).bind fun _ w₄ hs₄ _ => ?_
  exact happend hs₄ (Heap.live_num _)

theorem safe_callStart (hs : w.Sound used) (n : Native) (me : Value)
    (hargs : ∀ v ∈ args, w.Kept v) :
    Safe used (fun r w' => r.Live w') ((callStart cx n me args).run w) := by
  have hlive (i : Nat) : w.heap.Live (argument args i) := hs.live_kept (kept_argument hargs i)
  unfold callStart
  refine safe_heap (safe_check hs fun list hlist => ?_)
  have hitems : ∀ v ∈ list, w.heap.Live v := by
    intro v hv
    unfold argumentList at hlist
    split at hlist
    · cases hlist
      exact absurd hv (Array.not_mem_empty v)
    · split at hlist
      · rename_i items hvec
        cases hlist
        exact (hlive 1).item (Heap.bodyOf_of_vec? hvec) hv
      · exact nomatch hlist
  show Safe used _ ((ite _ _ _ : Act Reply).run w)
  split
  · exact safe_fail_bind hs _
  · refine (Act.safe_subContext hs cx).bind fun sub w₁ hs₁ ⟨he, hsub⟩ => ?_
    exact safe_pure hs₁ ⟨hsub, he ▸ ⟨hlive 0, hitems, hlive 2, hlive 3⟩⟩

theorem safe_callEnd (hs : w.Sound used) (hcx : used cx) (n : Native) (wait : Wait)
    {r : Except Failure Value} (hr : OutcomeLive w.heap r) :
    Safe used (fun r w' => r.Live w') ((callEnd cx n wait r).run w) := by
  unfold callEnd
  refine (Act.safe_freeChild hs cx).bind fun _ w₁ hs₁ ⟨he, _⟩ => ?_
  rw [← he] at hr
  split
  · exact safe_pure hs₁ hr
  · rename_i e
    show Safe used _ ((ite _ _ _ : Act Reply).run w₁)
    split
    · refine (safe_report hs₁ hcx _ e).bind fun _ w₂ hs₂ _ => ?_
      exact safe_pure hs₂ Heap.live_nil
    · exact Act.safe_rethrow hs₁ hcx hr

/-! ## all of them -/

theorem safe_plain {f : CtxId → Value → Array Value → Act Value} {me : Value}
    (hf : Safe used (fun v w' => w'.heap.Live v) ((f cx me args).run w)) (n : Native) :
    Safe used (fun r w' => r.Live w') (((Behaviour.plain f).start cx n me args).run w) :=
  hf.bind fun _ _ hs hv => safe_pure hs hv

/-- **Every core native, started with values that are kept, leaves the engine sound** and replies
with what is live. -/
theorem safe_start {name : String} {b : Behaviour} (hb : Library.core.native name = some b)
    (hs : w.Sound used) (hcx : used cx) (n : Native) (me : Value)
    (hargs : ∀ v ∈ args, w.Kept v) :
    Safe used (fun r w' => r.Live w') ((b.start cx n me args).run w) := by
  have hmem : (name, b) ∈ core := by
    obtain ⟨pre, post, h, -⟩ := List.lookup_eq_some_iff.mp hb
    exact h ▸ List.mem_append_right _ List.mem_cons_self
  simp only [core, List.mem_cons, Prod.mk.injEq, List.not_mem_nil, or_false] at hmem
  rcases hmem with ⟨-, rfl⟩ | ⟨-, rfl⟩ | ⟨-, rfl⟩ | ⟨-, rfl⟩ | ⟨-, rfl⟩ | ⟨-, rfl⟩ | ⟨-, rfl⟩ |
    ⟨-, rfl⟩ | ⟨-, rfl⟩ | ⟨-, rfl⟩ | ⟨-, rfl⟩ | ⟨-, rfl⟩ | ⟨-, rfl⟩ | ⟨-, rfl⟩ | ⟨-, rfl⟩ |
    ⟨-, rfl⟩ | ⟨-, rfl⟩ | ⟨-, rfl⟩ | ⟨-, rfl⟩ | ⟨-, rfl⟩ | ⟨-, rfl⟩
  · exact safe_plain (safe_print hs hcx me) n
  · exact safe_plain (safe_size hs me) n
  · exact safe_plain (safe_append hs me hargs) n
  · exact safe_plain (safe_setsize hs me hargs) n
  · exact safe_plain (safe_subvec hs hcx me hargs) n
  · exact safe_plain (safe_keys hs hcx me hargs) n
  · exact safe_plain (safe_delete hs me hargs) n
  · exact safe_plain (safe_contains hs me) n
  · exact safe_plain (safe_typeOf hs hcx me) n
  · exact safe_plain (safe_die hs me hargs) n
  · exact safe_callStart hs n me hargs
  · exact safe_plain (safe_compile hs hcx me) n
  · exact safe_plain (safe_bind hs hcx me hargs) n
  · exact safe_plain (safe_closure hs me hargs) n
  · exact safe_callerStart hs hcx n me
  · exact safe_plain (safe_int hs me) n
  · exact safe_plain (safe_num hs me) n
  · exact safe_plain (safe_streq hs me) n
  · exact safe_plain (safe_substr hs hcx me) n
  · exact safe_plain (safe_chr hs hcx me) n
  · exact safe_plain (safe_id hs hcx me) n

theorem safe_handOn (hs : w.Sound used) (n : Native) (wait : Wait) {r : Except Failure Value}
    (hr : OutcomeLive w.heap r) :
    Safe used (fun r w' => r.Live w') ((Behaviour.handOn cx n wait r).run w) := by
  cases r with
  | ok v => exact .done hs hr
  | error e => exact .failed hs hr

/-- The core natives answer at once, `caller` and `call` apart. -/
theorem native_cases {name : String} {b : Behaviour} (hb : Library.core.native name = some b) :
    (∃ f, b = .plain f) ∨ name = "caller" ∧ b = ⟨callerStart, Behaviour.handOn⟩ ∨
      name = "call" ∧ b = ⟨callStart, callEnd⟩ := by
  have hmem : (name, b) ∈ core := by
    obtain ⟨pre, post, h, -⟩ := List.lookup_eq_some_iff.mp hb
    exact h ▸ List.mem_append_right _ List.mem_cons_self
  simp only [core, List.mem_cons, Prod.mk.injEq, List.not_mem_nil, or_false] at hmem
  grind

theorem resume_cases {name : String} {b : Behaviour} (hb : Library.core.native name = some b) :
    b.resume = Behaviour.handOn ∨ b = ⟨callStart, callEnd⟩ := by
  rcases native_cases hb with ⟨f, rfl⟩ | ⟨-, rfl⟩ | ⟨-, rfl⟩
  · exact .inl rfl
  · exact .inl rfl
  · exact .inr rfl

/-- Every core native that goes on with a live outcome leaves the engine sound. -/
theorem safe_resume {name : String} {b : Behaviour} (hb : Library.core.native name = some b)
    (hs : w.Sound used) (hcx : used cx) (n : Native) (wait : Wait) {r : Except Failure Value}
    (hr : OutcomeLive w.heap r) :
    Safe used (fun r w' => r.Live w') ((b.resume cx n wait r).run w) := by
  rcases resume_cases hb with h | rfl
  · rw [h]
    exact safe_handOn hs n wait hr
  · exact safe_callEnd hs hcx n wait hr

end Natives

end

end ScriptEngine
