import ScriptEngine.Proofs.Machine.Bounds
import ScriptEngine.Proofs.Machine.Parting

/-!
# While a call lasts

From the call of a function until its return the context keeps what is below the call, whatever else the
engine does: other contexts run, natives wait and fail, the run is given up and resumed later.  Only a new
call on the context, or freeing it, ends the call before it returns.

* `Caller`            what a call of a function finds below it;
* `Caller.Under`      a context in the middle of the call;
* `Machine.Guards`    a machine in the middle of the call;
* `Machine.Guards.step`   **a step keeps what is below the call.**
-/

namespace ScriptEngine

open World (ctx_modifyCtx_self ctx_modifyCtx_of_ne)

/-- Where a function is called: the operands and marks below the call, and the frames, the innermost of them
behind the call. -/
structure Caller where
  stack : Array Value
  marks : Array Nat
  frames : Array Frame

namespace Caller

variable {k : Caller} {c c' : Context} {limit : Nat} {w w' : World} {cx : CtxId} {outer : List CtxId}

/-- A context in the middle of the call.  No native that has failed in it is to be resumed below the call. -/
structure Under (k : Caller) (limit : Nat) (c : Context) : Prop where
  stack : ∃ top : Array Value, c.stack = k.stack ++ top ∧ (top.size ≤ 0 ∨ k.stack.size < limit)
  marks : ∃ upper, c.marks = k.marks ++ upper
  frames : Above k.stack.size k.marks.size k.frames c.frames
  resume : ∀ height, c.resumeAt = some height → k.stack.size ≤ height

theorem Under.same (h : k.Under limit c) (hs : c.SameStacks c') : k.Under limit c' where
  stack := by
    rw [hs.stack]
    exact h.stack
  marks := by
    rw [hs.marks]
    exact h.marks
  frames := by
    rw [hs.frames]
    exact h.frames
  resume := by
    rw [hs.resumeAt]
    exact h.resume

/-- The call with other operands and marks below it. -/
def toSeal (k : Caller) (cx : CtxId) (limit : Nat) {low : Array Value} {marks : Array Nat}
    (hlow : low.size = k.stack.size) (hmarks : marks.size = k.marks.size) : Seal :=
  ⟨cx, limit, 0, k.stack, k.marks, low, marks, hlow, hmarks⟩

@[simp] theorem toSeal_cx {low : Array Value} {marks : Array Nat} (hlow : low.size = k.stack.size)
    (hmarks : marks.size = k.marks.size) : (k.toSeal cx limit hlow hmarks).cx = cx := rfl

theorem Under.pair (h : k.Under w.options.maxStack (w.ctx cx)) (hw : w.Fit (cx :: outer))
    (hresume : (w.ctx cx).resumeAt = none) {low : Array Value} {marks : Array Nat}
    (hlow : low.size = k.stack.size) (hmarks : marks.size = k.marks.size)
    (hpinned : ∀ a, .obj a ∈ low ∨ .obj a ∈ w.roots ↔ .obj a ∈ k.stack ∨ .obj a ∈ w.roots) :
    ∃ (upper : Array Nat) (top : Array Value), (w.ctx cx).stack = k.stack ++ top ∧ (w.ctx cx).marks = k.marks ++ upper ∧
      (k.toSeal cx w.options.maxStack hlow hmarks).Pair outer (w.ctx cx).frames upper top.size w
        (w.put cx ⟨low ++ top, (w.ctx cx).frames, marks ++ upper⟩) := by
  obtain ⟨top, hstack, hroom⟩ := h.stack
  obtain ⟨upper, hupper⟩ := h.marks
  exact ⟨upper, top, hstack, hupper, hw, rfl, h.frames.frames_ne, hresume, hupper, ⟨top, rfl, hstack, rfl⟩,
    hpinned, rfl, hroom⟩

/-- The call beside itself. -/
def self (k : Caller) (cx : CtxId) (limit : Nat) : Seal := .self cx limit 0 k.stack k.marks

@[simp] theorem self_cx : (k.self cx limit).cx = cx := rfl

theorem Under.self (h : k.Under w.options.maxStack (w.ctx cx)) (hw : w.Fit (cx :: outer))
    (hresume : (w.ctx cx).resumeAt = none) :
    ∃ upper n, (k.self cx w.options.maxStack).Pair outer (w.ctx cx).frames upper n w w := by
  obtain ⟨top, hstack, hroom⟩ := h.stack
  obtain ⟨upper, hmarks⟩ := h.marks
  exact ⟨upper, top.size, Seal.pair_self hw hresume h.frames.frames_ne hstack hmarks hroom⟩

/-- What is in the middle of the call beside itself is in the middle of the call. -/
theorem under_of_pair {fr : Array Frame} {upper : Array Nat} {n : Nat}
    (h : (k.self cx limit).Pair outer fr upper n w w') (ha : Above k.stack.size k.marks.size k.frames fr) :
    k.Under w.options.maxStack (w.ctx cx) := by
  obtain ⟨top, rfl, hstack, -⟩ := h.operands
  have hframes : (w.ctx cx).frames = fr := h.frames
  have hresume : (w.ctx cx).resumeAt = none := h.resume
  refine ⟨⟨top, hstack, by rw [h.limit]; exact h.room⟩, ⟨upper, h.marks⟩, by rw [hframes]; exact ha, ?_⟩
  intro height hh
  rw [hresume] at hh
  exact nomatch hh

/-- Whatever looks at no stacks leaves the context in the middle of the call, unless it drops it. -/
theorem Under.of_aloof {α : Type} {x : Act α} (h : k.Under w.options.maxStack (w.ctx cx))
    (hlt : cx < w.contexts.size) (hx : Act.Aloof cx x)
    (hd : k.frames.size < ((World.after (x.run w)).ctx cx).frames.size) :
    cx < (World.after (x.run w)).contexts.size ∧
      k.Under (World.after (x.run w)).options.maxStack ((World.after (x.run w)).ctx cx) := by
  rcases hx.holds hlt with hh | hg
  · refine ⟨hh.lt, ?_⟩
    rw [hh.options]
    exact h.same hh.same
  · rw [hg.frames] at hd
    exact absurd hd (Nat.not_lt_zero _)

end Caller

/-! ## starting anew -/

namespace Act

section

variable {α β : Type} {cx : CtxId} {n : Nat} {x : Act α}

/-- An activity that adds at most `n` frames to a context. -/
structure Grows (cx : CtxId) (n : Nat) (x : Act α) : Prop where
  le : ∀ w : World, cx < w.contexts.size → cx < (World.after (x.run w)).contexts.size ∧
    ((World.after (x.run w)).ctx cx).frames.size ≤ (w.ctx cx).frames.size + n

theorem Grows.bind {f : α → Act β} (hx : Grows cx 0 x) (hf : ∀ a, Grows cx n (f a)) :
    Grows cx n (x >>= f) := by
  refine ⟨fun w hlt => ?_⟩
  obtain ⟨hlt₁, hle₁⟩ := hx.le w hlt
  cases hr : x.run w with
  | ok a w₁ =>
    rw [hr] at hlt₁ hle₁
    rw [run_bind_of_ok hr]
    obtain ⟨hlt₂, hle₂⟩ := (hf a).le w₁ hlt₁
    exact ⟨hlt₂, Nat.le_trans hle₂ (Nat.add_le_add_right hle₁ n)⟩
  | error e w₁ =>
    rw [hr] at hlt₁ hle₁
    rw [run_bind_of_error hr]
    exact ⟨hlt₁, Nat.le_trans hle₁ (Nat.add_le_add_left (Nat.zero_le n) _)⟩

theorem Grows.result (hx : Grows cx n x) (b : β) : Grows cx n (x >>= fun _ => pure b) := by
  refine ⟨fun w hlt => ?_⟩
  have h := hx.le w hlt
  cases hr : x.run w with
  | ok a w₁ =>
    rw [hr] at h
    rw [run_bind_of_ok hr]
    exact h
  | error e w₁ =>
    rw [hr] at h
    rw [run_bind_of_error hr]
    exact h

theorem Aloof.grows (hx : Aloof cx x) : Grows cx n x := by
  refine ⟨fun w hlt => ?_⟩
  rcases hx.holds hlt with hh | hg
  · exact ⟨hh.lt, by rw [hh.same.frames]; exact Nat.le_add_right _ n⟩
  · exact ⟨hg.lt, by rw [hg.frames]; exact Nat.zero_le _⟩

theorem Neat.grows (hx : Neat x) : Grows cx n x := hx.aloof.grows

theorem grows_modifyCtx {f : Context → Context} (hf : ∀ c, (f c).frames.size ≤ c.frames.size + n) :
    Grows cx n (modifyCtx cx f) := by
  refine ⟨fun w hlt => ?_⟩
  show cx < (w.modifyCtx cx f).contexts.size ∧ ((w.modifyCtx cx f).ctx cx).frames.size ≤ _
  rw [World.size_modifyCtx, ctx_modifyCtx_self hlt]
  exact ⟨hlt, hf _⟩

theorem grows_ctx {f : Context → Act β} (hf : ∀ c, Grows cx n (f c)) : Grows cx n (ctx cx >>= f) :=
  ⟨fun w hlt => (hf (w.ctx cx)).le w hlt⟩

theorem grows_ite {p : Prop} [Decidable p] {x y : Act α} (hx : Grows cx n x) (hy : Grows cx n y) :
    Grows cx n (if p then x else y) := by
  split
  · exact hx
  · exact hy

theorem grows_push (v : Value) : Grows cx 0 (push cx v) := by
  have hpush : Grows cx 0 (modifyCtx cx fun c => { c with stack := c.stack.push v }) :=
    grows_modifyCtx fun _ => Nat.le_refl _
  refine neat_options.grows.bind fun o => grows_ctx fun c => ?_
  exact grows_ite ((neat_fail _).grows.bind fun _ => hpush) hpush

theorem grows_pushFrame (func : Value) (code : Loaded) (locals scope : Value) (bp : Nat) :
    Grows cx 1 (pushFrame cx func code locals scope bp) := by
  have hpush : Grows cx 1 (modifyCtx cx fun c => { c with
      frames := c.frames.push
        { func, code, ip := 0, locals, closure := scope, bp, markBase := c.marks.size } }) :=
    grows_modifyCtx fun c => Nat.le_of_eq (Array.size_push _)
  refine neat_options.grows.bind fun o => grows_ctx fun c => ?_
  exact grows_ite ((neat_fail _).grows.bind fun _ => hpush) hpush

variable {lib : Library}

/-- The start of a call adds no more than its frame. -/
theorem grows_beginCall (hlib : lib.Aloof) (func : Value) (args : Array Value) (me locals : Value) :
    Grows cx 1 (beginCall lib cx func args me locals) := by
  have hframe (func : Value) (code : Loaded) (locals scope : Value) : Grows cx 1 (do
      bindArgs cx code locals args me
      cut cx 0
      pushFrame cx func code locals scope 0
      return Begun.frame) := by
    refine (neat_bindArgs ..).grows.bind fun _ => ?_
    refine Grows.bind (grows_modifyCtx fun _ => Nat.le_refl _) fun _ => ?_
    exact (grows_pushFrame ..).result _
  have hpushes : Grows cx 0 (args.toList.forM fun a => push cx a) := by
    induction args.toList with
    | nil => exact (neat_pure ()).grows
    | cons a as ih => exact (grows_push a).bind fun _ => ih
  unfold beginCall
  refine (grows_push func).bind fun _ => ?_
  rw [forM_toList]
  refine hpushes.bind fun _ => (grows_push me).bind fun _ => (grows_push locals).bind fun _ => ?_
  refine neat_heap.grows.bind fun h => ?_
  cases h.callee func with
  | native n => exact (aloof_startNative hlib ..).grows.bind fun _ => (neat_pure _).grows
  | script code scope =>
    refine neat_heap.grows.bind fun h => ?_
    apply grows_ite
    · exact hframe ..
    · exact neat_newHash.grows.bind fun ns => hframe ..
  | bare code =>
    have hbound (ns : Value) : Grows cx 1 (do
        let bound ← newFunc cx func .nil
        bindArgs cx code ns args me
        cut cx 0
        pushFrame cx bound code ns .nil 0
        return Begun.frame) := (neat_newFunc ..).grows.bind fun bound => hframe ..
    refine neat_heap.grows.bind fun h => ?_
    apply grows_ite
    · exact hbound _
    · exact neat_newHash.grows.bind fun ns => hbound ns
  | none =>
    refine neat_heap.grows.bind fun h => ?_
    apply grows_ite
    · exact (neat_fail _).grows
    · exact neat_newHash.grows.bind fun ns => (neat_fail _).grows

end

/-! ## going on -/

section

variable {q : Seal} {outer : List CtxId} {fr : Array Frame} {upper : Array Nat} {k height : Nat}

/-- A result is put at a height that is not below the call. -/
theorem even_result (hh : q.low.size ≤ height) (v : Value) :
    Even q outer fr upper k (min k (height - q.low.size) + 1) (fun _ => True)
      (do cut q.cx height; push q.cx v) := (even_cut hh rfl).bind fun _ _ => even_push v

theorem even_prepareResume (hh : q.low.size ≤ height) (v : Value) :
    Even q outer fr upper k (min k (height - q.low.size) + 1) (fun _ => True)
      (prepareResume q.cx height v) := by
  have herror : Neat (modifyCtx q.cx fun c => { c with error := none }) :=
    neat_modify (World.parallel_modifyCtx q.cx (fun _ _ => rfl) fun _ => ⟨rfl, rfl, rfl, rfl⟩)
  have hcalm : Calm (q.cx :: outer) (modifyCtx q.cx fun c => { c with error := none }) :=
    calm_modify fun _ => World.still_modifyCtx q.cx fun _ => rfl
  refine (aloof_freeChild.even calm_freeChild).bind fun _ _ => (herror.even hcalm).bind fun _ _ => ?_
  exact even_result hh v

end

end Act

/-! ## the machine -/

/-- The native was called by an instruction, and its result does not belong below the call. -/
def Site.Above (k : Caller) : Site → Prop
  | .request => False
  | .instruction height => k.stack.size ≤ height

/-- What the machine does next with the context is no end of the call and not about what is below it. -/
def Mode.Guards (k : Caller) (cx : CtxId) : Mode → Prop
  | .replied c _ site _ => c = cx → site.Above k
  | .ended c r => c = cx → ∃ e, r = .error e
  | _ => True

namespace Machine

structure Guards (k : Caller) (cx : CtxId) (m : Machine) : Prop where
  lt : cx < m.world.contexts.size
  under : k.Under m.world.options.maxStack (m.world.ctx cx)
  waiting : ∀ who ∈ m.waiting, who.cx = cx → who.site.Above k
  mode : m.mode.Guards k cx

section

variable {lib : Library} {k : Caller} {limit : Nat} {cx d : CtxId} {w : World} {waiting : List Waiting}

/-- Whatever looks at no stacks keeps the context in the middle of the call, unless it drops it. -/
theorem Guards.of_aloof {α : Type} {x : Act α} {m m' : Machine} (hg : m.Guards k cx) (hx : Act.Aloof cx x)
    (hworld : m'.world = World.after (x.run m.world)) (hwaiting : ∀ who ∈ m'.waiting, who ∈ m.waiting)
    (hmode : m'.mode.Guards k cx) (hd : k.frames.size < (m'.world.ctx cx).frames.size) : m'.Guards k cx := by
  rw [hworld] at hd
  obtain ⟨hlt, hunder⟩ := hg.under.of_aloof hg.lt hx hd
  refine ⟨?_, ?_, fun who hwho => hg.waiting who (hwaiting who hwho), hmode⟩
  · rw [hworld]
    exact hlt
  · rw [hworld]
    exact hunder

theorem Guards.of_pair {outer : List CtxId} {fr : Array Frame} {upper : Array Nat} {n : Nat} {m m' : Machine}
    {w' : World} (hg : m.Guards k cx) (h : (k.self cx limit).Pair outer fr upper n m'.world w')
    (ha : Above k.stack.size k.marks.size k.frames fr) (hwaiting : ∀ who ∈ m'.waiting, who ∈ m.waiting)
    (hmode : m'.mode.Guards k cx) : m'.Guards k cx :=
  ⟨h.fit.lt, Caller.under_of_pair h ha, fun who hwho => hg.waiting who (hwaiting who hwho), hmode⟩

section

variable {func me locals v : Value} {args : Array Value}

theorem world_start_call (lib : Library) (w : World) (waiting : List Waiting) (d : CtxId) :
    (start lib w waiting d (.call func args me locals)).world =
      World.after ((Act.prepareCall d >>= fun _ => Act.beginCall lib d func args me locals).run w) := by
  unfold start
  dsimp only
  cases (Act.prepareCall d >>= fun _ => Act.beginCall lib d func args me locals).run w with
  | ok a w₁ => cases a <;> rfl
  | error e w₁ => rfl

theorem guards_call (hlib : lib.Aloof) (hk : k.frames ≠ #[])
    (hm : Steady ⟨w, waiting, .begin d (.call func args me locals)⟩)
    (hg : Guards k cx ⟨w, waiting, .begin d (.call func args me locals)⟩)
    (hd : k.frames.size < ((start lib w waiting d (.call func args me locals)).world.ctx cx).frames.size) :
    Guards k cx (start lib w waiting d (.call func args me locals)) := by
  have hne : cx ≠ d := by
    rintro rfl
    -- a new call drops the old one
    obtain ⟨⟨hw, hheld⟩, hwaits, -⟩ := hm
    obtain ⟨w₁, hrun, hw₁, -, hframes, -⟩ := run_prepareCall (hw.join hheld) hwaits
    obtain ⟨-, hle⟩ := (Act.grows_beginCall hlib func args me locals).le w₁ hw₁.lt
    have hpos : 0 < k.frames.size := Array.size_pos_iff.mpr hk
    rw [world_start_call, run_bind_of_ok hrun] at hd
    rw [hframes] at hle
    exact absurd (Nat.lt_of_lt_of_le hd hle) (Nat.not_lt.mpr hpos)
  have hx : Act.Aloof cx (Act.prepareCall d >>= fun _ => Act.beginCall lib d func args me locals) :=
    (Act.aloof_prepareCall hne).bind fun _ => Act.aloof_beginCall hlib hne ..
  unfold start at hd ⊢
  dsimp only at hd ⊢
  generalize hr : (Act.prepareCall d >>= fun _ => Act.beginCall lib d func args me locals).run w = r at hd ⊢
  cases r with
  | ok a w₁ =>
    cases a with
    | frame => exact hg.of_aloof hx (by rw [hr]; rfl) (fun _ h => h) trivial hd
    | native n r => exact hg.of_aloof hx (by rw [hr]; rfl) (fun _ h => h) (fun h => absurd h.symm hne) hd
  | error e w₁ => exact hg.of_aloof hx (by rw [hr]; rfl) (fun _ h => h) (fun h => absurd h.symm hne) hd

/-- A context that is resumed goes on above the call. -/
theorem guards_resume_self (hm : Steady ⟨w, waiting, .begin cx (.resume v)⟩)
    (hg : Guards k cx ⟨w, waiting, .begin cx (.resume v)⟩) :
    Guards k cx (start lib w waiting cx (.resume v)) := by
  obtain ⟨⟨hw, hheld⟩, -, -⟩ := hm
  have hctx := ctx_modifyCtx_self hg.lt fun c => { c with resumeAt := none }
  have hfit : (w.modifyCtx cx fun c => { c with resumeAt := none }).Fit (cx :: outer waiting) :=
    (hw.join hheld).modifyCtx (fun _ => rfl) (fun _ => rfl) fun _ => rfl
  have hunder : k.Under w.options.maxStack ((w.modifyCtx cx fun c => { c with resumeAt := none }).ctx cx) := by
    rw [hctx]
    exact ⟨hg.under.stack, hg.under.marks, hg.under.frames, nofun⟩
  have hframes : ((w.modifyCtx cx fun c => { c with resumeAt := none }).ctx cx).frames = (w.ctx cx).frames := by
    rw [hctx]
  have hresume : ((w.modifyCtx cx fun c => { c with resumeAt := none }).ctx cx).resumeAt = none := by
    rw [hctx]
  have hbusy : ¬(w.ctx cx).frames.isEmpty = true := fun h0 => hg.under.frames.frames_ne (Array.isEmpty_iff.mp h0)
  unfold start
  dsimp only
  rw [if_neg hbusy]
  have hoptions : (w.modifyCtx cx fun c => { c with resumeAt := none }).options = w.options := rfl
  generalize w.modifyCtx cx (fun c => { c with resumeAt := none }) = w₁ at hfit hunder hframes hresume hoptions ⊢
  rw [← hoptions] at hunder
  cases hat : (w.ctx cx).resumeAt with
  | none => exact ⟨hfit.lt, hunder, hg.waiting, trivial⟩
  | some height =>
    obtain ⟨upper, n, hpair⟩ := hunder.self hfit hresume
    have hm := (Act.even_prepareResume (hg.under.resume height hat) v).run hpair
    rw [Caller.self_cx] at hm
    dsimp only
    generalize (Act.prepareResume cx height v).run w₁ = r at hm ⊢
    cases hm with
    | done h₁ => exact hg.of_pair h₁ (hframes ▸ hg.under.frames) (fun _ h => h) trivial
    | failed h₁ => exact hg.of_pair h₁ (hframes ▸ hg.under.frames) (fun _ h => h) trivial

theorem guards_resume (lib : Library) (hm : Steady ⟨w, waiting, .begin d (.resume v)⟩)
    (hg : Guards k cx ⟨w, waiting, .begin d (.resume v)⟩)
    (hd : k.frames.size < ((start lib w waiting d (.resume v)).world.ctx cx).frames.size) :
    Guards k cx (start lib w waiting d (.resume v)) := by
  by_cases hne : cx = d
  · subst hne
    exact guards_resume_self hm hg
  have hreset := Act.aloof_other hne fun c => { c with resumeAt := none }
  unfold start at hd ⊢
  dsimp only at hd ⊢
  split at hd
  · rename_i height _
    have hx := hreset.bind fun _ => Act.aloof_prepareResume hne height v
    generalize hr : (Act.prepareResume d height v).run (w.modifyCtx d fun c => { c with resumeAt := none }) = r
      at hd ⊢
    have hworld : World.after r = World.after ((Act.modifyCtx d (fun c => { c with resumeAt := none }) >>= fun _ =>
        Act.prepareResume d height v).run w) := congrArg World.after hr.symm
    cases r with
    | ok a w₁ => exact hg.of_aloof hx hworld (fun _ h => h) trivial hd
    | error e w₁ => exact hg.of_aloof hx hworld (fun _ h => h) trivial hd
  · exact hg.of_aloof hreset rfl (fun _ h => h) trivial hd

theorem guards_exec (hcalm : lib.Calm) (hlib : lib.Aloof) (hk : k.frames ≠ #[])
    (hm : Steady ⟨w, waiting, .running d⟩) (hg : Guards k cx ⟨w, waiting, .running d⟩)
    (hd : k.frames.size < ((step lib ⟨w, waiting, .running d⟩).world.ctx cx).frames.size) :
    Guards k cx (step lib ⟨w, waiting, .running d⟩) := by
  obtain ⟨⟨hw, hready⟩, -, -⟩ := hm
  unfold step at hd ⊢
  dsimp only at hd ⊢
  by_cases hne : cx = d
  · subst hne
    obtain ⟨upper, n, hpair⟩ := hg.under.self hw hready.resume
    have hparted := Act.parted_exec hcalm hlib hpair hg.under.frames rfl hk hready
    rw [Caller.self_cx] at hparted
    generalize (Act.exec lib cx).run w = r at hparted hd ⊢
    cases hparted with
    | next h ha => exact hg.of_pair h ha (fun _ h => h) trivial
    | back h =>
      have hframes : (World.ctx _ cx).frames = k.frames := h.frames
      dsimp only at hd
      rw [hframes] at hd
      exact absurd hd (Nat.lt_irrefl _)
    | native h ha hh => exact hg.of_pair h ha (fun _ h => h) fun _ => hh
    | failed h ha => exact hg.of_pair h ha (fun _ h => h) fun _ => ⟨_, rfl⟩
  · have hx := Act.aloof_exec hlib hne
    generalize hr : (Act.exec lib d).run w = r at hd ⊢
    cases r with
    | ok o w₁ =>
      cases o with
      | next => exact hg.of_aloof hx (by rw [hr]; rfl) (fun _ h => h) trivial hd
      | returned v => exact hg.of_aloof hx (by rw [hr]; rfl) (fun _ h => h) (fun h => absurd h.symm hne) hd
      | native base n r => exact hg.of_aloof hx (by rw [hr]; rfl) (fun _ h => h) (fun h => absurd h.symm hne) hd
    | error e w₁ => exact hg.of_aloof hx (by rw [hr]; rfl) (fun _ h => h) (fun h => absurd h.symm hne) hd

end

/-! ### natives -/

variable {mode : Mode} {site : Site} {e : Failure}

theorem guards_settle (v : Value) (hw : w.Fit (d :: outer waiting)) (hat : (w.ctx d).At site)
    (hg : Guards k cx ⟨w, waiting, mode⟩) (hsite : d = cx → site.Above k)
    (hd : k.frames.size < ((settle w waiting d site v).world.ctx cx).frames.size) :
    Guards k cx (settle w waiting d site v) := by
  by_cases hne : cx = d
  · subst hne
    cases site with
    | request => exact (hsite rfl).elim
    | instruction height =>
      obtain ⟨upper, n, hpair⟩ := hg.under.self hw hat.1
      have hm := (Act.even_result (hsite rfl) v).run hpair
      rw [Caller.self_cx] at hm
      unfold settle
      dsimp only
      generalize (do Act.cut cx height; Act.push cx v : Act Unit).run w = r at hm ⊢
      cases hm with
      | done h => exact hg.of_pair h hg.under.frames (fun _ h => h) trivial
      | failed h => exact hg.of_pair h hg.under.frames (fun _ h => h) fun _ => ⟨_, rfl⟩
  · unfold settle at hd ⊢
    cases site with
    | request => exact hg.of_aloof (Act.aloof_other hne _) rfl (fun _ h => h) (fun h => absurd h.symm hne) hd
    | instruction height =>
      have hx : Act.Aloof cx (do Act.cut d height; Act.push d v : Act Unit) :=
        (Act.aloof_other hne _).bind fun _ => Act.aloof_push hne v
      dsimp only at hd ⊢
      generalize hr : (do Act.cut d height; Act.push d v : Act Unit).run w = r at hd ⊢
      cases r with
      | ok a w₁ => exact hg.of_aloof hx (by rw [hr]; rfl) (fun _ h => h) trivial hd
      | error e w₁ => exact hg.of_aloof hx (by rw [hr]; rfl) (fun _ h => h) (fun h => absurd h.symm hne) hd

theorem guards_upset (hg : Guards k cx ⟨w, waiting, mode⟩) (hsite : d = cx → site.Above k)
    (hd : k.frames.size < ((upset w waiting d site e).world.ctx cx).frames.size) :
    Guards k cx (upset w waiting d site e) := by
  cases site with
  | request => exact ⟨hg.lt, hg.under, hg.waiting, fun _ => ⟨e, rfl⟩⟩
  | instruction height =>
    by_cases hne : cx = d
    · subst hne
      refine ⟨by rw [upset, World.size_modifyCtx]; exact hg.lt, ?_, hg.waiting, fun _ => ⟨e, rfl⟩⟩
      show k.Under w.options.maxStack ((w.modifyCtx cx _).ctx cx)
      rw [ctx_modifyCtx_self hg.lt]
      refine ⟨hg.under.stack, hg.under.marks, hg.under.frames, ?_⟩
      rintro _ ⟨⟩
      exact hsite rfl
    · exact hg.of_aloof (Act.aloof_other hne _) rfl (fun _ h => h) (fun h => absurd h.symm hne) hd

theorem guards_delegate (hg : Guards k cx ⟨w, waiting, mode⟩) (hsite : d = cx → site.Above k) (n : Native)
    (sub : CtxId) (request : Request) (wait : Wait) :
    Guards k cx (delegate w waiting d n site sub request wait) := by
  have hwaiting : ∀ who ∈ (⟨d, n, site, wait⟩ :: waiting : List Waiting), who.cx = cx → who.site.Above k := by
    intro who hwho
    rcases List.mem_cons.mp hwho with rfl | hwho
    · exact hsite
    · exact hg.waiting who hwho
  unfold delegate
  dsimp only
  split
  · exact ⟨hg.lt, hg.under, hwaiting, trivial⟩
  · exact ⟨hg.lt, hg.under, hwaiting, trivial⟩

theorem guards_end {r : Except Failure Value} (hg : Guards k cx ⟨w, waiting, .ended d r⟩)
    (hd : k.frames.size < ((step lib ⟨w, waiting, .ended d r⟩).world.ctx cx).frames.size) :
    Guards k cx (step lib ⟨w, waiting, .ended d r⟩) := by
  by_cases hne : cx = d
  · subst hne
    obtain ⟨e, rfl⟩ := hg.mode rfl
    refine ⟨?_, ?_, hg.waiting, trivial⟩
    · show cx < (w.modifyCtx cx _).contexts.size
      rw [World.size_modifyCtx]
      exact hg.lt
    · show k.Under w.options.maxStack ((w.modifyCtx cx _).ctx cx)
      rw [ctx_modifyCtx_self hg.lt]
      exact hg.under.same ⟨rfl, rfl, rfl, rfl⟩
  · have hx := Act.aloof_finish hne r
    unfold step at hd ⊢
    dsimp only at hd ⊢
    generalize hr : (Act.finish d r).run w = r' at hd ⊢
    cases r' with
    | ok a w₁ => exact hg.of_aloof hx (by rw [hr]; rfl) (fun _ h => h) trivial hd
    | error e w₁ => exact hg.of_aloof hx (by rw [hr]; rfl) (fun _ h => h) trivial hd

theorem guards_wake (hlib : lib.Aloof) {who : Waiting} {r : Except Failure Value}
    (hg : Guards k cx ⟨w, who :: waiting, .outcome r⟩)
    (hd : k.frames.size < ((wake lib w waiting who r).world.ctx cx).frames.size) :
    Guards k cx (wake lib w waiting who r) := by
  have hsite := hg.waiting who List.mem_cons_self
  have hrest : ∀ other ∈ waiting, other ∈ who :: waiting := fun _ h => List.mem_cons_of_mem _ h
  unfold wake at hd ⊢
  split at hd
  · rename_i b hb
    have hx := hlib.resume hb cx who.cx who.native who.wait r
    generalize hr : (b.resume who.cx who.native who.wait r).run w = r' at hd ⊢
    cases r' with
    | ok a w₁ => exact hg.of_aloof hx (by rw [hr]; rfl) hrest hsite hd
    | error e w₁ => exact hg.of_aloof hx (by rw [hr]; rfl) hrest hsite hd
  · exact ⟨hg.lt, hg.under, fun other h => hg.waiting other (hrest other h), hsite⟩

/-- **A step keeps what is below the call**, as long as the call lasts. -/
theorem Guards.step (hcalm : lib.Calm) (hlib : lib.Aloof) (hk : k.frames ≠ #[]) {m : Machine} (hm : m.Steady)
    (hg : m.Guards k cx) (hd : k.frames.size < ((m.step lib).world.ctx cx).frames.size) :
    (m.step lib).Guards k cx := by
  obtain ⟨w, waiting, mode⟩ := m
  cases mode with
  | begin d request =>
    cases request with
    | call func args me locals => exact guards_call hlib hk hm hg hd
    | resume v => exact guards_resume lib hm hg hd
  | running d => exact guards_exec hcalm hlib hk hm hg hd
  | replied d n site r =>
    obtain ⟨⟨hw, hat⟩, -, -⟩ := hm
    cases r with
    | error e => exact guards_upset hg hg.mode hd
    | ok reply =>
      cases reply with
      | done v => exact guards_settle v hw hat hg hg.mode hd
      | run sub request wait => exact guards_delegate hg hg.mode n sub request wait
      | halt => exact hg
  | ended d r => exact guards_end hg hd
  | outcome r =>
    cases waiting with
    | nil => exact hg
    | cons who waiting => exact guards_wake hlib hg hd

end

end Machine

end ScriptEngine
