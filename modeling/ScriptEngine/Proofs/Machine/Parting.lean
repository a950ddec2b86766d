import ScriptEngine.Proofs.Machine.Sealing

/-!
# Instructions of a call

Each instruction of a call, and of the calls it makes, does the same whatever is below the call, and leaves
that alone.  When the call returns, its result is all that stands there beside it.

* `Act.Called`        what a call of a function has led to;
* `Act.Parted`        what an instruction of a call has led to;
* `Act.parted_exec`   **one instruction.**
-/

namespace ScriptEngine

open World (ctx_modifyCtx_self)

namespace Act

/-! ## instructions -/

/-- What an instruction of a call has led to, in both engines.  Either it is still the call or one it has
made that goes on; or the call has returned, and where it was made there is one operand more. -/
inductive Parted (q : Seal) (outer : List CtxId) (base : Array Frame) :
    EStateM.Result Failure World Outcome → EStateM.Result Failure World Outcome → Prop
  | next {fr : Array Frame} {upper : Array Nat} {k : Nat} {w w' : World} (h : q.Pair outer fr upper k w w')
    (above : Above q.low.size q.marks.size base fr) : Parted q outer base (.ok .next w) (.ok .next w')
  | back {w w' : World} (h : q.Pair outer base #[] 1 w w') : Parted q outer base (.ok .next w) (.ok .next w')
  | native {fr : Array Frame} {upper : Array Nat} {k height : Nat} {n : Native} {r : Except Failure Reply}
    {w w' : World} (h : q.Pair outer fr upper k w w') (above : Above q.low.size q.marks.size base fr)
    (hh : q.low.size ≤ height) :
    Parted q outer base (.ok (.native height n r) w) (.ok (.native height n r) w')
  | failed {fr : Array Frame} {upper : Array Nat} {k : Nat} {e : Failure} {w w' : World}
    (h : q.Pair outer fr upper k w w') (above : Above q.low.size q.marks.size base fr) :
    Parted q outer base (.error e w) (.error e w')

section

variable {q : Seal} {outer : List CtxId} {base fr : Array Frame} {upper : Array Nat} {k n : Nat}
  {w w' : World} {lib : Library} {f : Frame} {fs : List Frame} {rest : List Nat} {op : Op} {arg : Nat}
  {t : Shape}

theorem Even.parted {α : Type} {Q : α → Prop} {x : Act α} {g : α → Act Outcome}
    (hx : Even q outer fr upper k n Q x) (h : q.Pair outer fr upper k w w')
    (ha : Above q.low.size q.marks.size base fr)
    (hg : ∀ a w₁ w₁', Q a → q.Pair outer fr upper n w₁ w₁' →
      Parted q outer base ((g a).run w₁) ((g a).run w₁')) :
    Parted q outer base ((x >>= g).run w) ((x >>= g).run w') := by
  have hm := hx.run h
  generalize hr : x.run w = r, hr' : x.run w' = r' at hm
  cases hm with
  | done h₁ hq =>
    rw [run_bind_of_ok hr, run_bind_of_ok hr']
    exact hg _ _ _ hq h₁
  | failed h₁ =>
    rw [run_bind_of_error hr, run_bind_of_error hr']
    exact .failed h₁ ha

/-- There is enough above the call for the instruction. -/
theorem pair_takes (h : q.Pair outer fr upper k w w') (ha : Above q.low.size q.marks.size base fr)
    (hp : Poised (w.ctx q.cx) f fs rest op arg t) : op.takes arg ≤ k ∧ k = f.bp - q.low.size + t.height := by
  have hsize := h.size
  have hheight := hp.height
  have htakes := hp.takes
  have hframes := hp.frames
  rw [h.frames] at hframes
  have hbp := (ha.head hframes).1
  omega

def movedTo (fr : Array Frame) (ip : Nat) : Array Frame := fr.modify (fr.size - 1) ({ · with ip })

theorem fromTop_movedTo (hf : fromTop fr = f :: fs) (ip : Nat) :
    fromTop (movedTo fr ip) = { f with ip } :: fs := fromTop_modify_last hf _

theorem pair_jump (h : q.Pair outer fr upper k w w') (ip : Nat) :
    q.Pair outer (movedTo fr ip) upper k
      (w.modifyCtx q.cx fun c => { c with frames := c.frames.modify (c.frames.size - 1) ({ · with ip }) })
      (w'.modifyCtx q.cx fun c => { c with frames := c.frames.modify (c.frames.size - 1) ({ · with ip }) }) := by
  have hbusy : movedTo fr ip ≠ #[] := by
    intro h0
    have hsize := congrArg Array.size h0
    rw [movedTo, Array.size_modify] at hsize
    exact h.busy (Array.eq_empty_of_size_eq_zero hsize)
  refine h.change (fun _ => rfl) (fun _ => rfl) (fun _ => rfl) (fun _ => rfl) hbusy h.room ?_
  intro c top hk hstack hmarks hframes
  exact ⟨top, hk, hstack, hmarks, by rw [hframes]; rfl, rfl⟩

theorem pair_untemped (h : q.Pair outer fr upper k w w') :
    q.Pair outer fr upper k (w.modifyCtx q.cx fun c => { c with temps := #[] })
      (w'.modifyCtx q.cx fun c => { c with temps := #[] }) := by
  refine h.change (fun _ => rfl) (fun _ => rfl) (fun _ => rfl) (fun _ => rfl) h.busy h.room ?_
  exact fun c top hk hstack hmarks hframes => ⟨top, hk, hstack, hmarks, hframes, rfl⟩

theorem parted_jump (h : q.Pair outer fr upper k w w') (ha : Above q.low.size q.marks.size base fr)
    (hf : fromTop fr = f :: fs) (ip : Nat) :
    Parted q outer base ((jump q.cx ip >>= fun _ => pure Outcome.next).run w)
      ((jump q.cx ip >>= fun _ => pure Outcome.next).run w') :=
  .next (pair_jump h ip) (ha.moved hf (fromTop_movedTo hf ip) rfl rfl)

theorem parted_jumpIf (h : q.Pair outer fr upper k w w') (ha : Above q.low.size q.marks.size base fr)
    (hf : fromTop fr = f :: fs) (hk : 0 < k) (want : Bool) (ip : Nat) :
    Parted q outer base ((jumpIf q.cx want ip >>= fun _ => pure Outcome.next).run w)
      ((jumpIf q.cx want ip >>= fun _ => pure Outcome.next).run w') := by
  have hsplit : (jumpIf q.cx want ip >>= fun _ => pure Outcome.next) =
      (peek q.cx 0 >>= fun v => (read fun h => h.truth v) >>= fun b =>
        (if b == want then jump q.cx ip else pure ()) >>= fun _ => pure Outcome.next) := by
    simp only [jumpIf, bind_assoc]
  rw [hsplit]
  refine (even_peek hk).parted h ha fun v w₁ w₁' _ h₁ => ?_
  refine (even_read fun h => h.mild_truth v).parted h₁ ha fun b w₂ w₂' _ h₂ => ?_
  split
  · exact parted_jump h₂ ha hf ip
  · exact .next h₂ ha

theorem parted_jifNotPop (h : q.Pair outer fr upper (k + 1) w w')
    (ha : Above q.low.size q.marks.size base fr) (hf : fromTop fr = f :: fs) (code : Loaded) (ip : Nat) :
    Parted q outer base ((perform lib q.cx code .jifNotPop ip).run w)
      ((perform lib q.cx code .jifNotPop ip).run w') := by
  unfold perform
  refine even_pop.parted h ha fun v w₁ w₁' _ h₁ => ?_
  refine (even_read fun h => h.mild_truth v).parted h₁ ha fun b w₂ w₂' _ h₂ => ?_
  split
  · exact parted_jump h₂ ha hf ip
  · exact .next h₂ ha

theorem parted_jifEnd (h : q.Pair outer fr upper (k + 1) w w')
    (ha : Above q.low.size q.marks.size base fr) (hf : fromTop fr = f :: fs) (code : Loaded) (ip : Nat) :
    Parted q outer base ((perform lib q.cx code .jifEnd ip).run w)
      ((perform lib q.cx code .jifEnd ip).run w') := by
  unfold perform
  refine (even_peek (Nat.succ_pos k)).parted h ha fun v w₁ w₁' _ h₁ => ?_
  split
  · refine even_pop.discard.parted h₁ ha fun _ w₂ w₂' _ h₂ => ?_
    exact parted_jump h₂ ha hf ip
  · exact .next h₁ ha

/-! ### marks -/

theorem parted_mark (h : q.Pair outer fr upper k w w') (ha : Above q.low.size q.marks.size base fr)
    (code : Loaded) (arg : Nat) :
    Parted q outer base ((perform lib q.cx code .mark arg).run w)
      ((perform lib q.cx code .mark arg).run w') := by
  have hoptions := h.options'
  have hsize : (w'.ctx q.cx).marks.size = (w.ctx q.cx).marks.size := by
    rw [h.marks', h.marks, Array.size_append, Array.size_append, q.size_marks]
  unfold perform
  show Parted q outer base
    (EStateM.run (if w.options.maxMarks ≤ (w.ctx q.cx).marks.size then _ else _) w)
    (EStateM.run (if w'.options.maxMarks ≤ (w'.ctx q.cx).marks.size then _ else _) w')
  rw [hsize, hoptions]
  split
  · exact .failed h ha
  · have hpair : q.Pair outer fr (upper.push (q.low.size + k)) k
        (w.modifyCtx q.cx fun c => { c with marks := c.marks.push c.stack.size })
        (w'.modifyCtx q.cx fun c => { c with marks := c.marks.push c.stack.size }) := by
      refine h.change (fun _ => rfl) (fun _ => rfl) (fun _ => rfl) (fun _ => rfl) h.busy h.room ?_
      intro c top hk hstack hmarks hframes
      have hheight : c.stack.size = q.low.size + k := by rw [hstack, Array.size_append, hk]
      refine ⟨top, hk, hstack, ?_, hframes, ?_⟩
      · show c.marks.push c.stack.size = _
        rw [hheight, hmarks, Array.push_append]
      · simp only [Context.put, Seal.stacks', Array.size_append, q.size_low, hk, Array.push_append]
    exact .next hpair ha

/-- The last mark belongs to the call or to one it has made, and it is not below the call. -/
theorem pair_exists_mark (h : q.Pair outer fr upper k w w')
    (ha : Above q.low.size q.marks.size base fr) (hp : Poised (w.ctx q.cx) f fs rest op arg t)
    (hu : op.usesMark = true) :
    upper ≠ #[] ∧ ∃ m, (w.ctx q.cx).marks.back? = some m ∧ (w'.ctx q.cx).marks.back? = some m ∧
      q.low.size ≤ m := by
  have hframes := hp.frames
  rw [h.frames] at hframes
  obtain ⟨hbp, hbase⟩ := ha.head hframes
  obtain ⟨m, ms, hm, hback⟩ := hp.exists_mark hu
  have hne : upper ≠ #[] := by
    rintro rfl
    have hlength := congrArg List.length hp.marks
    rw [length_fromTop, h.marks, hm, List.length_append, hp.base] at hlength
    simp at hlength
    omega
  refine ⟨hne, f.bp + m, hback, ?_, by omega⟩
  have hlast (xs : Array Nat) : (xs ++ upper).back? = upper.back? := by
    rw [Array.back?_append]
    cases hu : upper.back? with
    | some => rfl
    | none => exact absurd (Array.back?_eq_none_iff.mp hu) hne
  rw [h.marks, hlast] at hback
  rw [h.marks', hlast]
  exact hback

theorem pair_unmark (h : q.Pair outer fr upper k w w') (hu : upper ≠ #[]) :
    q.Pair outer fr upper.pop k (w.modifyCtx q.cx fun c => { c with marks := c.marks.pop })
      (w'.modifyCtx q.cx fun c => { c with marks := c.marks.pop }) := by
  refine h.change (fun _ => rfl) (fun _ => rfl) (fun _ => rfl) (fun _ => rfl) h.busy h.room ?_
  intro c top hk hstack hmarks hframes
  refine ⟨top, hk, hstack, ?_, hframes, ?_⟩
  · rw [hmarks, Array.pop_append_of_ne_empty hu]
  · simp only [Context.put, Seal.stacks', Array.pop_append_of_ne_empty hu]

/-! ### calls -/

/-- What a call of a function has led to, in both engines: a frame with its operands from `height` on, or a
native. -/
inductive Called (q : Seal) (outer : List CtxId) (fr : Array Frame) (upper : Array Nat) (k height : Nat) :
    EStateM.Result Failure World Outcome → EStateM.Result Failure World Outcome → Prop
  | frame {g : Frame} {w w' : World}
    (h : q.Pair outer (fr.push g) upper (min k (height - q.low.size)) w w') (bp : g.bp = height)
    (markBase : g.markBase = q.marks.size + upper.size) :
    Called q outer fr upper k height (.ok .next w) (.ok .next w')
  | native {m : Nat} {n : Native} {r : Except Failure Reply} {w w' : World} (h : q.Pair outer fr upper m w w') :
    Called q outer fr upper k height (.ok (.native height n r) w) (.ok (.native height n r) w')
  | failed {m : Nat} {e : Failure} {w w' : World} (h : q.Pair outer fr upper m w w') :
    Called q outer fr upper k height (.error e w) (.error e w')

variable {height fidx : Nat}

/-- A call made by a call or by one it has made. -/
theorem Called.parted {r r' : EStateM.Result Failure World Outcome}
    (h : Called q outer fr upper k height r r') (ha : Above q.low.size q.marks.size base fr)
    (hh : q.low.size ≤ height) : Parted q outer base r r' := by
  cases h with
  | frame h bp markBase => exact .next h (ha.push (by omega) (by omega))
  | native h => exact .native h ha hh
  | failed h => exact .failed h ha

theorem Even.called {α : Type} {Q : α → Prop} {x : Act α} {g : α → Act Outcome}
    (hx : Even q outer fr upper k n Q x) (h : q.Pair outer fr upper k w w')
    (hg : ∀ a w₁ w₁', q.Pair outer fr upper n w₁ w₁' →
      Called q outer fr upper k height ((g a).run w₁) ((g a).run w₁')) :
    Called q outer fr upper k height ((x >>= g).run w) ((x >>= g).run w') := by
  have hm := hx.run h
  generalize hr : x.run w = r, hr' : x.run w' = r' at hm
  cases hm with
  | done h₁ _ =>
    rw [run_bind_of_ok hr, run_bind_of_ok hr']
    exact hg _ _ _ h₁
  | failed h₁ =>
    rw [run_bind_of_error hr, run_bind_of_error hr']
    exact .failed h₁

/-- The frame of a call takes the place of its operands. -/
theorem called_pushFrame (h : q.Pair outer fr upper k w w') (hh : q.low.size ≤ height)
    (func locals scope : Value) (code : Loaded) :
    Called q outer fr upper k height
      ((do cut q.cx height; pushFrame q.cx func code locals scope height; return Outcome.next : Act _).run w)
      ((do cut q.cx height; pushFrame q.cx func code locals scope height; return Outcome.next : Act _).run w') := by
  refine (even_cut hh rfl).called h fun _ w₁ w₁' h₁ => ?_
  unfold pushFrame
  show Called q outer fr upper k height
    (EStateM.run ((if w₁.options.maxCallDepth ≤ (w₁.ctx q.cx).frames.size then _ else _) >>= fun _ => _) w₁)
    (EStateM.run ((if w₁'.options.maxCallDepth ≤ (w₁'.ctx q.cx).frames.size then _ else _) >>= fun _ => _) w₁')
  rw [h₁.options', h₁.frames', h₁.frames]
  split
  · exact .failed h₁
  · refine .frame (g := ⟨func, code, 0, locals, scope, height, q.marks.size + upper.size⟩) ?_ rfl rfl
    refine h₁.change (fun _ => rfl) (fun _ => rfl) (fun _ => rfl) (fun _ => rfl) Array.push_ne_empty h₁.room ?_
    intro c top hk hstack hmarks hframes
    refine ⟨top, hk, hstack, hmarks, ?_, ?_⟩
    · rw [hmarks, hframes, Array.size_append]
    · simp only [Context.put, Seal.stacks', Array.size_append, q.size_marks]

theorem Calm.attempt {x : Act Reply} (hx : Calm (q.cx :: outer) x) : Calm (q.cx :: outer)
    (tryCatch (do return .ok (← x)) fun e => pure (.error e) : Act (Except Failure Reply)) := by
  refine ⟨fun w hw => ?_⟩
  obtain ⟨r, w₁, hrun, hkeeps, -⟩ := led_attempt hx hw
  rw [hrun]
  exact .done hkeeps

theorem called_callAt (hcalm : lib.Calm) (hlib : lib.Aloof) (h : q.Pair outer fr upper k w w')
    (hh : q.low.size ≤ height) (hf : q.low.size ≤ fidx) (me : Value) (named : Bool) :
    Called q outer fr upper k height ((callAt lib q.cx height fidx me named).run w)
      ((callAt lib q.cx height fidx me named).run w') := by
  have hframe (func locals scope : Value) (code : Loaded) {w₁ w₁' : World}
      (h₁ : q.Pair outer fr upper k w₁ w₁') := called_pushFrame h₁ hh func locals scope code
  have hheap : w'.heap = w.heap := by
    obtain ⟨top, -, -, rfl⟩ := h.operands
    rfl
  have hargs : (w'.ctx q.cx).stack.extract (fidx + 1) (w'.ctx q.cx).stack.size =
      (w.ctx q.cx).stack.extract (fidx + 1) (w.ctx q.cx).stack.size := by
    rw [h.size', h.size]
    obtain ⟨top, -, hstack, rfl⟩ := h.operands
    rw [World.ctx_put_self h.fit.lt, hstack]
    exact extract_above q.size_low (by omega)
  rw [callAt, run_ctx_bind, run_ctx_bind]
  dsimp only
  rw [run_heap_bind, run_heap_bind]
  rw [hheap, h.getElem? hf, hargs]
  generalize (w.ctx q.cx).stack[fidx]?.getD .nil = func,
    (w.ctx q.cx).stack.extract (fidx + 1) (w.ctx q.cx).stack.size = args
  split
  · refine ((aloof_startNative hlib _ me args).attempt.even (calm_startNative hcalm _ me args).attempt).called h ?_
    exact fun r _ _ h₁ => .native h₁
  · refine (neat_newHash.even calm_newHash).called h fun locals w₁ w₁' h₁ => ?_
    split
    · exact ((neat_bindNamed ..).even (calm_bindNamed ..)).called h₁ fun _ _ _ h₂ => hframe _ _ _ _ h₂
    · exact ((neat_bindArgs ..).even (calm_bindArgs ..)).called h₁ fun _ _ _ h₂ => hframe _ _ _ _ h₂
  · exact .failed h
  · exact .failed h

theorem run_callWith_method {cx : CtxId} {u : World} {s argc : Nat} (hs : (u.ctx cx).stack.size = s)
    (h : argc + 1 + 1 ≤ s) (named : Bool) :
    (callWith lib cx argc true named).run u = (callAt lib cx (s - argc - 1 - 1) (s - argc - 1)
      ((u.ctx cx).stack[s - argc - 1 - 1]?.getD .nil) named).run u := by
  subst hs
  have henough : ¬(u.ctx cx).stack.size < argc + 1 + if true then 1 else 0 := Nat.not_lt.mpr h
  unfold callWith
  show EStateM.run (ite _ _ _) u = _
  rw [if_neg henough]
  rfl

theorem run_callWith_plain {cx : CtxId} {u : World} {s argc : Nat} (hs : (u.ctx cx).stack.size = s)
    (h : argc + 1 ≤ s) (named : Bool) :
    (callWith lib cx argc false named).run u =
      (callAt lib cx (s - argc - 1) (s - argc - 1) .nil named).run u := by
  subst hs
  have henough : ¬(u.ctx cx).stack.size < argc + 1 + if false then 1 else 0 := Nat.not_lt.mpr h
  unfold callWith
  show EStateM.run (ite _ _ _) u = _
  rw [if_neg henough]
  rfl

theorem called_callWith (hcalm : lib.Calm) (hlib : lib.Aloof) (h : q.Pair outer fr upper k w w') {argc : Nat}
    (method : Bool) (htakes : (argc + 1 + if method then 1 else 0) ≤ k)
    (hh : height = q.low.size + k - (argc + 1 + if method then 1 else 0)) (named : Bool) :
    Called q outer fr upper k height ((callWith lib q.cx argc method named).run w)
      ((callWith lib q.cx argc method named).run w') := by
  cases method with
  | true =>
    have hk : argc + 1 + 1 ≤ k := htakes
    obtain rfl : height = q.low.size + k - argc - 1 - 1 := hh
    rw [run_callWith_method h.size (by omega), run_callWith_method h.size' (by omega), h.getElem? (by omega)]
    exact called_callAt hcalm hlib h (by omega) (by omega) _ named
  | false =>
    have hk : argc + 1 ≤ k := htakes
    obtain rfl : height = q.low.size + k - argc - 1 := hh
    rw [run_callWith_plain h.size (by omega), run_callWith_plain h.size' (by omega)]
    exact called_callAt hcalm hlib h (by omega) (by omega) _ named

theorem called_perform (hcalm : lib.Calm) (hlib : lib.Aloof) (h : q.Pair outer fr upper k w w')
    (hop : op = .fcall ∨ op = .mcall ∨ op = .fcallh ∨ op = .mcallh) (htakes : op.takes arg ≤ k)
    (code : Loaded) : Called q outer fr upper k (q.low.size + k - op.takes arg)
      ((perform lib q.cx code op arg).run w) ((perform lib q.cx code op arg).run w') := by
  rcases hop with rfl | rfl | rfl | rfl
  · exact called_callWith hcalm hlib h false htakes rfl false
  · exact called_callWith hcalm hlib h true htakes rfl false
  · exact called_callWith hcalm hlib h false htakes rfl true
  · exact called_callWith hcalm hlib h true htakes rfl true

/-! ### returning -/

def leaveFrame (f : Frame) (c : Context) : Context :=
  { c with frames := c.frames.pop, stack := c.stack.shrink f.bp, marks := c.marks.shrink f.markBase }

theorem pair_leaveFrame (h : q.Pair outer fr upper k w w') (hne : fr.pop ≠ #[])
    (hbp : q.low.size ≤ f.bp) (hmark : q.marks.size ≤ f.markBase) :
    q.Pair outer fr.pop (upper.shrink (f.markBase - q.marks.size)) (min k (f.bp - q.low.size))
      (w.modifyCtx q.cx (leaveFrame f)) (w'.modifyCtx q.cx (leaveFrame f)) := by
  have hroom := h.room
  refine h.change (fun _ => rfl) (fun _ => rfl) (fun _ => rfl) (fun _ => rfl) hne (by omega) ?_
  intro c top hk hstack hmarks hframes
  have hlow {xs : Array Value} (hx : xs.size = q.low.size) :
      (xs ++ top).shrink f.bp = xs ++ top.shrink (f.bp - q.low.size) := by
    rw [← shrink_append, hx, Nat.add_sub_cancel' hbp]
  have hunder {xs : Array Nat} (hx : xs.size = q.marks.size) :
      (xs ++ upper).shrink f.markBase = xs ++ upper.shrink (f.markBase - q.marks.size) := by
    rw [← shrink_append, hx, Nat.add_sub_cancel' hmark]
  refine ⟨top.shrink (f.bp - q.low.size), by rw [Array.size_shrink]; omega, ?_, ?_, ?_, ?_⟩
  · show c.stack.shrink f.bp = _
    rw [hstack, hlow rfl]
  · show c.marks.shrink f.markBase = _
    rw [hmarks, hunder rfl]
  · show c.frames.pop = _
    rw [hframes]
  · simp only [Context.put, Seal.stacks', Act.leaveFrame, hlow q.size_low, hunder q.size_marks]

theorem parted_returnFrom (h : q.Pair outer fr upper (k + 1) w w') (ha : Above q.low.size q.marks.size base fr)
    (hslack : q.slack = 0) (hbase : base ≠ #[]) (hf : fromTop fr = f :: fs) :
    Parted q outer base ((returnFrom q.cx).run w) ((returnFrom q.cx).run w') := by
  obtain ⟨hbp, hmark⟩ := ha.head hf
  have hlimit : q.low.size < q.limit := by
    have hroom := h.room
    omega
  have hne : fr.pop ≠ #[] := by
    rcases ha.pop hf with ha' | ⟨-, -, hpop⟩
    · exact ha'.frames_ne
    · rw [hpop]
      exact hbase
  unfold returnFrom
  refine even_pop.parted h ha fun v w₁ w₁' _ h₁ => even_frame.parted h₁ ha fun g w₂ w₂' hg h₂ => ?_
  obtain rfl : f = g := by
    rw [back?_eq_head?, hf] at hg
    exact Option.some.inj hg
  have h₃ := pair_leaveFrame h₂ hne hbp hmark
  show Parted q outer base
    (EStateM.run (if ((w₂.modifyCtx q.cx (leaveFrame f)).ctx q.cx).frames.isEmpty then
      pure (Outcome.returned v) else push q.cx v >>= fun _ => pure Outcome.next)
      (w₂.modifyCtx q.cx (leaveFrame f)))
    (EStateM.run (if ((w₂'.modifyCtx q.cx (leaveFrame f)).ctx q.cx).frames.isEmpty then
      pure (Outcome.returned v) else push q.cx v >>= fun _ => pure Outcome.next)
      (w₂'.modifyCtx q.cx (leaveFrame f)))
  generalize w₂.modifyCtx q.cx (leaveFrame f) = w₃, w₂'.modifyCtx q.cx (leaveFrame f) = w₃' at h₃
  have hempty : ¬fr.pop.isEmpty = true := fun h0 => hne (Array.isEmpty_iff.mp h0)
  rw [h₃.frames, h₃.frames', if_neg hempty]
  rcases ha.pop hf with ha' | ⟨hbp', hmark', hpop⟩
  · exact (even_push v).parted h₃ ha' fun _ _ _ _ h₄ => .next h₄ ha'
  · have hnone : upper.shrink 0 = #[] := by simp
    rw [hbp', hmark', hpop, Nat.sub_self, Nat.sub_self, Nat.min_zero, hnone] at h₃
    obtain ⟨w₄, w₄', hrun, hrun', h₄⟩ := pair_push h₃ hlimit v
    rw [run_bind_of_ok hrun, run_bind_of_ok hrun']
    exact .back h₄

/-! ### every instruction -/

/-- **Every operation** of a call. -/
theorem parted_perform (hcalm : lib.Calm) (hlib : lib.Aloof) (h : q.Pair outer fr upper k w w')
    (ha : Above q.low.size q.marks.size base fr) (hslack : q.slack = 0) (hbase : base ≠ #[])
    (hp : Poised (w.ctx q.cx) f fs rest op arg t) (code : Loaded) :
    Parted q outer base ((perform lib q.cx code op arg).run w) ((perform lib q.cx code op arg).run w') := by
  obtain ⟨htakes, -⟩ := pair_takes h ha hp
  have hf : fromTop fr = f :: fs := by
    rw [← h.frames]
    exact hp.frames
  have hplain (hpl : op.isPlain = true)
      (hno : op ≠ .fcall ∧ op ≠ .mcall ∧ op ≠ .fcallh ∧ op ≠ .mcallh) :
      Parted q outer base ((perform lib q.cx code op arg).run w) ((perform lib q.cx code op arg).run w') := by
    have heven : Even q outer fr upper (k - op.takes arg + op.takes arg) _ _ _ :=
      even_perform hcalm hlib code arg hpl hno
    rw [Nat.sub_add_cancel htakes] at heven
    have hm := heven.run h
    generalize (perform lib q.cx code op arg).run w = r, (perform lib q.cx code op arg).run w' = r' at hm
    cases hm with
    | done h₁ ho =>
      subst ho
      exact .next h₁ ha
    | failed h₁ => exact .failed h₁ ha
  have hcall (hop : op = .fcall ∨ op = .mcall ∨ op = .fcallh ∨ op = .mcallh) :
      Parted q outer base ((perform lib q.cx code op arg).run w) ((perform lib q.cx code op arg).run w') :=
    (called_perform hcalm hlib h hop htakes code).parted ha (by omega)
  cases op with
  | mark => exact parted_mark h ha code arg
  | unmark =>
    obtain ⟨hne, -⟩ := pair_exists_mark h ha hp rfl
    exact .next (pair_unmark h hne) ha
  | cutBack =>
    obtain ⟨-, m, hback, hback', hm⟩ := pair_exists_mark h ha hp rfl
    unfold perform
    rw [run_ctx_bind, run_ctx_bind]
    rw [hback, hback']
    exact (even_cut hm rfl).parted h ha fun _ _ _ _ h₁ => .next h₁ ha
  | cutBackPop =>
    obtain ⟨hne, m, hback, hback', hm⟩ := pair_exists_mark h ha hp rfl
    unfold perform
    rw [run_ctx_bind, run_ctx_bind]
    rw [hback, hback']
    exact (even_cut hm rfl).parted (pair_unmark h hne) ha fun _ _ _ _ h₁ => .next h₁ ha
  | jmp => exact parted_jump h ha hf arg
  | jmpLoop =>
    have hjump := pair_jump h arg
    have hpoll : Calm (q.cx :: outer) (modify World.poll : Act Unit) := calm_modify World.still_poll
    refine ((neat_modify World.parallel_poll).even hpoll).parted hjump ?_ fun _ _ _ _ h₁ => .next h₁ ?_
    · exact ha.moved hf (fromTop_movedTo hf arg) rfl rfl
    · exact ha.moved hf (fromTop_movedTo hf arg) rfl rfl
  | jifNotPop =>
    obtain ⟨j, rfl⟩ := Nat.exists_eq_add_of_le' (show 1 ≤ k from htakes)
    exact parted_jifNotPop h ha hf code arg
  | jifEnd =>
    obtain ⟨j, rfl⟩ := Nat.exists_eq_add_of_le' (show 1 ≤ k from htakes)
    exact parted_jifEnd h ha hf code arg
  | jifTrue => exact parted_jumpIf h ha hf htakes true arg
  | jifNot => exact parted_jumpIf h ha hf htakes false arg
  | fcall => exact hcall (.inl rfl)
  | mcall => exact hcall (.inr (.inl rfl))
  | fcallh => exact hcall (.inr (.inr (.inl rfl)))
  | mcallh => exact hcall (.inr (.inr (.inr rfl)))
  | ret =>
    obtain ⟨j, rfl⟩ := Nat.exists_eq_add_of_le' (show 1 ≤ k from htakes)
    exact parted_returnFrom h ha hslack hbase hf
  | _ => exact hplain rfl ⟨Op.noConfusion, Op.noConfusion, Op.noConfusion, Op.noConfusion⟩

/-- **One instruction of a call.** -/
theorem parted_exec (hcalm : lib.Calm) (hlib : lib.Aloof) (h : q.Pair outer fr upper k w w')
    (ha : Above q.low.size q.marks.size base fr) (hslack : q.slack = 0) (hbase : base ≠ #[])
    (hready : (w.ctx q.cx).Ready) :
    Parted q outer base ((exec lib q.cx).run w) ((exec lib q.cx).run w') := by
  obtain ⟨f, fs, rest, i, t, hframes, hplace, hin, -, hpoised⟩ := hready.poised
  have hf : fromTop fr = f :: fs := by
    rw [← h.frames]
    exact hframes
  have hf' : fromTop (w'.ctx q.cx).frames = f :: fs := by
    rw [h.frames']
    exact hf
  have h₁ := pair_untemped h
  have h₂ := pair_jump h₁ (f.ip + i.op.length)
  have ha₂ := ha.moved hf (fromTop_movedTo hf (f.ip + i.op.length)) rfl rfl
  rw [run_exec hframes hplace hin, run_exec hf' hplace hin]
  refine parted_perform hcalm hlib h₂ ha₂ hslack hbase (hpoised _ ?_ ?_ ?_ ?_) f.code
  all_goals rw [ctx_modifyCtx_self h₁.fit.lt, ctx_modifyCtx_self h.fit.lt]
  exact fromTop_modify_last hframes _

end

end Act

end ScriptEngine
