import ScriptEngine.Proofs.Machine.Neatness
import ScriptEngine.Proofs.Machine.Passages

/-!
# Two engines that look the same from a context

What is done on a context looks at most of an engine: at the objects, the gate, and at the stacks of the
context itself.  It does not look at the error the context keeps nor, except to replace it, at its child.
So two engines that agree in all that is looked at stay so, as long as no collection finds them to differ.

* `Act.Mirrors`    an activity that does the same on related engines and leads to related ones;
* `World.Mirror`   a relation between engines that look the same from a context;
* `Act.mirrors_alloc`, `Act.mirrors_setHashed`, ...   the activities on objects.
-/

namespace ScriptEngine

/-- A relation between engines. -/
abbrev World.Rel := World → World → Prop

namespace World

variable {R : Rel} {w w₁ w₂ : World}

/-- An engine with other contexts. -/
def shelve (w : World) (contexts : Array Context) (freeContexts : Array CtxId) : World :=
  { w with contexts, freeContexts }

/-- The relation outlasts collections, or none has run. -/
def Lasts (R : Rel) (w w₁ : World) : Prop :=
  (∀ u u', R u u' → R u.collectGarbage u'.collectGarbage) ∨ w₁.stats.collections ≤ w.stats.collections

theorem Lasts.head (h : Lasts R w w₂) (hle : w₁.stats.collections ≤ w₂.stats.collections) : Lasts R w w₁ :=
  h.imp_right fun h => Nat.le_trans hle h

theorem Lasts.tail (h : Lasts R w w₂) (hle : w.stats.collections ≤ w₁.stats.collections) : Lasts R w₁ w₂ :=
  h.imp_right fun h => Nat.le_trans h hle

end World

namespace Act

open World (Rel Lasts)

section

variable {α β : Type} {R : Rel} {S : α → Rel} {T : β → Rel} {x : Act α}

/-- The same outcome in engines that are related. -/
inductive Same (R : Rel) (S : α → Rel) :
    EStateM.Result Failure World α → EStateM.Result Failure World α → Prop
  | ok {a : α} {w w' : World} (h : S a w w') : Same R S (.ok a w) (.ok a w')
  | error {e : Failure} {w w' : World} (h : R w w') : Same R S (.error e w) (.error e w')

/-- An activity that does the same on related engines, with a relation `S` when it succeeds. -/
structure MirrorsTo (R : Rel) (S : α → Rel) (x : Act α) : Prop where
  mono : ∀ w : World, w.stats.collections ≤ (World.after (x.run w)).stats.collections
  run : ∀ {w w' : World}, R w w' → Lasts R w (World.after (x.run w)) → Same R S (x.run w) (x.run w')

/-- An activity that does the same on related engines and leads to related ones. -/
abbrev Mirrors (R : Rel) (x : Act α) : Prop := MirrorsTo R (fun _ => R) x

theorem MirrorsTo.bind {f : α → Act β} (hx : Mirrors R x) (hf : ∀ a, MirrorsTo R T (f a)) :
    MirrorsTo R T (x >>= f) := by
  refine ⟨fun w => ?_, fun {w w'} h hl => ?_⟩
  · have hmono := hx.mono w
    cases hr : x.run w with
    | ok a w₁ =>
      rw [hr] at hmono
      rw [run_bind_of_ok hr]
      exact Nat.le_trans hmono ((hf a).mono w₁)
    | error e w₁ =>
      rw [hr] at hmono
      rw [run_bind_of_error hr]
      exact hmono
  · have hmono := hx.mono w
    have hsame := hx.run h
    cases hr : x.run w with
    | ok a w₁ =>
      rw [run_bind_of_ok hr] at hl ⊢
      rw [hr] at hmono hsame
      have h₁ := hsame (hl.head ((hf a).mono w₁))
      generalize hr' : x.run w' = r' at h₁
      cases h₁ with
      | ok h₁ =>
        rw [run_bind_of_ok hr']
        exact (hf a).run h₁ (hl.tail hmono)
    | error e w₁ =>
      rw [run_bind_of_error hr] at hl ⊢
      rw [hr] at hsame
      have h₁ := hsame hl
      generalize hr' : x.run w' = r' at h₁
      cases h₁ with
      | error h₁ =>
        rw [run_bind_of_error hr']
        exact .error h₁

theorem mirrors_return (a : α) (hS : ∀ {w w' : World}, R w w' → S a w w') : MirrorsTo R S (pure a : Act α) :=
  ⟨fun _ => Nat.le_refl _, fun h _ => .ok (hS h)⟩

theorem mirrors_pure (a : α) : Mirrors R (pure a : Act α) := mirrors_return a id

theorem mirrors_throw (e : Failure) : MirrorsTo R S (throw e : Act α) :=
  ⟨fun _ => Nat.le_refl _, fun h _ => .error h⟩

theorem mirrors_fail (c : Cause) : MirrorsTo R S (fail c : Act α) := mirrors_throw _

theorem mirrors_ofExcept (r : Except Cause α) : Mirrors R (ofExcept r) := by
  cases r with
  | ok a => exact mirrors_pure a
  | error c => exact mirrors_fail c

theorem mirrors_ite {p : Prop} [Decidable p] {x y : Act α} (hx : MirrorsTo R S x) (hy : MirrorsTo R S y) :
    MirrorsTo R S (if p then x else y) := by
  split
  · exact hx
  · exact hy

theorem MirrorsTo.mono_to (hx : MirrorsTo R S x) {T : α → Rel} (h : ∀ {a w w'}, S a w w' → T a w w') :
    MirrorsTo R T x := by
  refine ⟨hx.mono, fun {w w'} hr hl => ?_⟩
  have hsame := hx.run hr hl
  generalize x.run w = r, x.run w' = r' at hsame
  cases hsame with
  | ok hs => exact .ok (h hs)
  | error hr => exact .error hr

/-- What is given is made of the result alone. -/
theorem MirrorsTo.give {f : α → β} (hx : MirrorsTo R S x) (hf : ∀ {a w w'}, S a w w' → T (f a) w w') :
    MirrorsTo R T (do return f (← x)) := by
  refine ⟨fun w => ?_, fun {w w'} h hl => ?_⟩
  · have hmono := hx.mono w
    cases hr : x.run w with
    | ok a w₁ =>
      rw [hr] at hmono
      rw [run_bind_of_ok hr]
      exact hmono
    | error e w₁ =>
      rw [hr] at hmono
      rw [run_bind_of_error hr]
      exact hmono
  · have hsame := hx.run h
    generalize hr : x.run w = r, hr' : x.run w' = r' at hsame
    cases r with
    | ok a w₁ =>
      rw [run_bind_of_ok hr] at hl ⊢
      cases hsame hl with
      | ok h =>
        rw [run_bind_of_ok hr']
        exact .ok (hf h)
    | error e w₁ =>
      rw [run_bind_of_error hr] at hl ⊢
      cases hsame hl with
      | error h =>
        rw [run_bind_of_error hr']
        exact .error h

theorem MirrorsTo.discard (hx : Mirrors R x) : Mirrors R (discard x : Act PUnit) := hx.bind fun _ => mirrors_pure _

theorem mirrors_forM {f : α → Act Unit} (hf : ∀ a, Mirrors R (f a)) (as : List α) : Mirrors R (as.forM f) := by
  induction as with
  | nil => exact mirrors_pure ()
  | cons a as ih => exact (hf a).bind fun _ => ih

end

end Act

namespace Context

/-- A context within the limits: neither its stacks nor its nesting exceed them, and where a failed
native is to be resumed there is room for a result. -/
structure Limited (o : Options) (c : Context) : Prop where
  stack : c.stack.size ≤ o.maxStack
  frames : c.frames.size ≤ o.maxCallDepth
  marks : c.marks.size ≤ o.maxMarks
  nesting : c.nesting ≤ o.maxNesting
  resumeAt : ∀ height, c.resumeAt = some height → height < o.maxStack

/-- A change of a context that has nothing to do with its error and its child. -/
def Blind (g : Context → Context) : Prop :=
  ∀ (c : Context) error child, g { c with error, child } = { g c with error, child }

namespace Blind

variable {g : Context → Context}

theorem child (hg : Blind g) (c : Context) : (g c).child = c.child :=
  (congrArg Context.child (hg c c.error c.child) :)

theorem error (hg : Blind g) (c : Context) (error : Option Failure) :
    g { c with error } = { g c with error } :=
  (hg c error c.child).trans (congrArg (fun child => { g c with error, child }) (hg.child c).symm)

theorem childless (hg : Blind g) (c : Context) : g { c with child := none } = { g c with child := none } :=
  have herror : (g c).error = c.error := (congrArg Context.error (hg c c.error c.child) :)
  (hg c c.error none).trans (congrArg (fun error => { g c with error, child := none }) herror.symm)

end Blind

/-- A change of a context that is no matter to its error and its kin. -/
structure Private (g : Context → Context) : Prop where
  blind : Blind g
  parent : ∀ c, (g c).parent = c.parent
  nesting : ∀ c, (g c).nesting = c.nesting

/-- Such a change that adds no operand, frame or mark and is not about resuming. -/
structure Slight (g : Context → Context) : Prop extends Private g where
  stack : ∀ c, (g c).stack.size ≤ c.stack.size
  frames : ∀ c, (g c).frames.size ≤ c.frames.size
  marks : ∀ c, (g c).marks.size ≤ c.marks.size
  resumeAt : ∀ c, (g c).resumeAt = c.resumeAt

theorem Private.of_blind {g : Context → Context} (hg : Blind g)
    (hkin : ∀ c, (g c).parent = c.parent ∧ (g c).nesting = c.nesting) : Private g :=
  ⟨hg, fun c => (hkin c).1, fun c => (hkin c).2⟩

theorem Slight.limited {g : Context → Context} (hg : Slight g) {o : Options} {c : Context} (h : c.Limited o) :
    (g c).Limited o where
  stack := Nat.le_trans (hg.stack c) h.stack
  frames := Nat.le_trans (hg.frames c) h.frames
  marks := Nat.le_trans (hg.marks c) h.marks
  nesting := by rw [hg.nesting]; exact h.nesting
  resumeAt := by rw [hg.resumeAt]; exact h.resumeAt

end Context

/-- A relation between engines that look the same from a context: what is done on the context respects
it, up to collections. -/
structure World.Mirror (cx : CtxId) (R : World.Rel) : Prop where
  shelved : ∀ {w w' : World}, R w w' → ∃ contexts freeContexts, w' = w.shelve contexts freeContexts
  seen : ∀ {w w' : World}, R w w' → ∃ error child, w'.ctx cx = { w.ctx cx with error, child }
  rest : ∀ {w w' : World}, R w w' → ∀ v : World, v.options = w.options →
    R (v.shelve w.contexts w.freeContexts) (v.shelve w'.contexts w'.freeContexts)
  edit : ∀ {w w' : World}, R w w' → ∀ {g : Context → Context}, Context.Private g →
    ((w.ctx cx).Limited w.options → (g (w.ctx cx)).Limited w.options) →
    R (w.modifyCtx cx g) (w'.modifyCtx cx g)
  error : ∀ {w w' : World}, R w w' → ∀ error,
    R (w.modifyCtx cx ({ · with error })) (w'.modifyCtx cx ({ · with error }))
  freeChild : Act.Mirrors R (Act.freeChild cx)
  subContext : Act.Mirrors R (Act.subContext cx)

namespace Act

open World (Mirror Rel Lasts)

section

variable {α : Type} {cx : CtxId} {R : Rel} {S : α → Rel} (hR : Mirror cx R)
include hR

/-! ### the state -/

/-- What is done with the state does not depend on the contexts. -/
theorem mirrors_get {f : World → Act α} (hf : ∀ w, MirrorsTo R S (f w))
    (hsame : ∀ (w : World) contexts freeContexts, f (w.shelve contexts freeContexts) = f w) :
    MirrorsTo R S (get >>= f) := by
  refine ⟨fun w => (hf w).mono w, fun {w w'} h hl => ?_⟩
  obtain ⟨contexts, freeContexts, rfl⟩ := hR.shelved h
  show Same R S ((f w).run w) ((f (w.shelve contexts freeContexts)).run _)
  rw [hsame]
  exact (hf w).run h hl

theorem mirrors_heap : Mirrors R heap := mirrors_get hR (fun _ => mirrors_pure _) fun _ _ _ => rfl

theorem mirrors_options : Mirrors R options := mirrors_get hR (fun _ => mirrors_pure _) fun _ _ _ => rfl

theorem mirrors_read (f : Heap → Except Cause α) : Mirrors R (read f) :=
  (mirrors_heap hR).bind fun _ => mirrors_ofExcept _

/-- What is read of the context is neither its error nor its child. -/
theorem mirrors_ctx {f : Context → Act α} (hf : ∀ c, MirrorsTo R S (f c))
    (hsame : ∀ (c : Context) error child, f { c with error, child } = f c) : MirrorsTo R S (ctx cx >>= f) := by
  refine ⟨fun w => (hf _).mono w, fun {w w'} h hl => ?_⟩
  obtain ⟨error, child, hctx⟩ := hR.seen h
  have hf' : f (w'.ctx cx) = f (w.ctx cx) := (congrArg f hctx).trans (hsame _ _ _)
  show Same R S ((f (w.ctx cx)).run w) ((f (w'.ctx cx)).run w')
  rw [hf']
  exact (hf _).run h hl

/-- A change that leaves the contexts alone and does not look at them. -/
theorem mirrors_modifyGet {f : World → α × World}
    (hsame : ∀ (w : World) contexts freeContexts,
      f (w.shelve contexts freeContexts) = ((f w).1, (f w).2.shelve contexts freeContexts))
    (hkept : ∀ w, (f w).2 = (f w).2.shelve w.contexts w.freeContexts)
    (hoptions : ∀ w, (f w).2.options = w.options)
    (hcollections : ∀ w, (f w).2.stats.collections = w.stats.collections) :
    Mirrors R (modifyGet f : Act α) := by
  refine ⟨fun w => Nat.le_of_eq (hcollections w).symm, fun {w w'} h _ => ?_⟩
  obtain ⟨contexts, freeContexts, rfl⟩ := hR.shelved h
  show Same R _ (.ok (f w).1 (f w).2) (.ok (f (w.shelve contexts freeContexts)).1 (f _).2)
  have hrest := hR.rest h (f w).2 (hoptions w)
  rw [hsame]
  rw [← hkept w] at hrest
  exact .ok hrest

theorem mirrors_modify {f : World → World}
    (hsame : ∀ (w : World) contexts freeContexts,
      f (w.shelve contexts freeContexts) = (f w).shelve contexts freeContexts)
    (hkept : ∀ w, f w = (f w).shelve w.contexts w.freeContexts) (hoptions : ∀ w, (f w).options = w.options)
    (hcollections : ∀ w, (f w).stats.collections = w.stats.collections) :
    Mirrors R (modify f : Act Unit) :=
  mirrors_modifyGet hR (f := fun w => ((), f w)) (fun w cs fs => by rw [hsame]) hkept hoptions hcollections

theorem mirrors_cells (f : Heap → α × Heap) :
    Mirrors R (modifyGet fun w => ((f w.heap).1, { w with heap := (f w.heap).2 }) : Act α) :=
  mirrors_modifyGet hR (fun _ _ _ => rfl) (fun _ => rfl) (fun _ => rfl) fun _ => rfl

theorem mirrors_modifyHeap (f : Heap → Heap) : Mirrors R (modifyHeap f) :=
  mirrors_modify hR (fun _ _ _ => rfl) (fun _ => rfl) (fun _ => rfl) fun _ => rfl

theorem mirrors_gate (f : Gate → Gate) : Mirrors R (modify fun w => { w with gate := f w.gate } : Act Unit) :=
  mirrors_modify hR (fun _ _ _ => rfl) (fun _ => rfl) (fun _ => rfl) fun _ => rfl

theorem mirrors_edit {g : Context → Context} (hg : Context.Private g)
    (hlimited : ∀ (o : Options) (c : Context), c.Limited o → (g c).Limited o) : Mirrors R (modifyCtx cx g) :=
  ⟨fun _ => Nat.le_refl _, fun h _ => .ok (hR.edit h hg (hlimited _ _))⟩

theorem mirrors_touch {g : Context → Context} (hg : Context.Slight g) : Mirrors R (modifyCtx cx g) :=
  mirrors_edit hR hg.toPrivate fun _ _ h => hg.limited h

theorem mirrors_cache (f : Array Value → Array Value) (g : PerKind (Array Addr) → PerKind (Array Addr)) :
    Mirrors R (modifyCtx cx fun c => { c with temps := f c.temps, cache := g c.cache }) :=
  mirrors_touch hR ⟨.of_blind (fun _ _ _ => rfl) fun _ => ⟨rfl, rfl⟩, fun _ => Nat.le_refl _, fun _ => Nat.le_refl _,
    fun _ => Nat.le_refl _, fun _ => rfl⟩

theorem mirrors_error (error : Option Failure) : Mirrors R (modifyCtx cx ({ · with error })) :=
  ⟨fun _ => Nat.le_refl _, fun h _ => .ok (hR.error h error)⟩

theorem mirrors_rethrow (e : Failure) : MirrorsTo R S (rethrow cx e : Act α) :=
  (mirrors_error hR (some e)).bind fun _ => mirrors_throw e

/-! ### the gate -/

omit hR in
theorem mirrors_collectGarbage : Mirrors R (modify World.collectGarbage : Act Unit) := by
  refine ⟨fun w => Nat.le_succ _, fun {w w'} h hl => .ok ?_⟩
  rcases hl with hl | hl
  · exact hl w w' h
  · exact absurd hl (Nat.not_succ_le_self _)

theorem mirrors_choose {f g : World → World} (hf : Mirrors R (modify f : Act Unit))
    (hg : Mirrors R (modify g : Act Unit)) (p : World → Bool)
    (hp : ∀ (w : World) contexts freeContexts, p (w.shelve contexts freeContexts) = p w) :
    Mirrors R (modify fun w => if p w then f w else g w : Act Unit) := by
  have hrun : (modify fun w => if p w then f w else g w : Act Unit) =
      get >>= fun w => if p w then modify f else modify g := by
    funext w
    show EStateM.Result.ok () (if p w then f w else g w) = (ite _ _ _ : Act Unit) w
    split <;> rfl
  rw [hrun]
  refine mirrors_get hR (fun w => mirrors_ite hf hg) fun w cs fs => ?_
  rw [hp]

omit hR in
theorem mirrors_then {f g : World → World} (hf : Mirrors R (modify f : Act Unit))
    (hg : Mirrors R (modify g : Act Unit)) : Mirrors R (modify fun w => g (f w) : Act Unit) :=
  hf.bind fun _ => hg

omit hR in
theorem mirrors_same : Mirrors R (modify fun w => w : Act Unit) := mirrors_pure ()

theorem mirrors_serve : Mirrors R (modify World.serve : Act Unit) := by
  have hdead : Mirrors R (modify World.freeDead : Act Unit) :=
    mirrors_modify hR (fun _ _ _ => rfl) (fun _ => rfl) (fun _ => rfl) fun _ => rfl
  have hcollect := mirrors_choose hR mirrors_collectGarbage mirrors_same (·.gate.needGc) fun _ _ _ => rfl
  have h := mirrors_then (mirrors_then hdead hcollect)
    (mirrors_gate hR fun g => { g with raised := false, pending := false })
  exact h

theorem mirrors_raised : Mirrors R (modify fun w => if w.gate.raised then w.serve else w : Act Unit) :=
  mirrors_choose hR (mirrors_serve hR) mirrors_same (·.gate.raised) fun _ _ _ => rfl

theorem mirrors_request (gc : Bool) : Mirrors R (modify (World.request · gc) : Act Unit) :=
  mirrors_modify hR (fun _ _ _ => rfl) (fun _ => rfl) (fun _ => rfl) fun _ => rfl

theorem mirrors_poll : Mirrors R (modify World.poll : Act Unit) :=
  mirrors_choose hR (mirrors_serve hR) mirrors_same
    (fun w => w.gate.pending && w.mayServe && w.gate.raised) fun _ _ _ => rfl

theorem mirrors_retire : Mirrors R retire := by
  have hdead : Mirrors R (modify fun w => { w with dead := w.dead + 1 } : Act Unit) :=
    mirrors_modify hR (fun _ _ _ => rfl) (fun _ => rfl) (fun _ => rfl) fun _ => rfl
  have hserve := mirrors_choose hR (mirrors_serve hR) (mirrors_request hR false) World.mayServe
    fun _ _ _ => rfl
  have hrest := mirrors_choose hR hserve mirrors_same (fun w => decide (w.options.deadBlocks ≤ w.dead))
    fun _ _ _ => rfl
  simp only [decide_eq_true_eq] at hrest
  have h := mirrors_then hdead hrest
  exact h

theorem mirrors_enter : Mirrors R (modify World.enter : Act Unit) := by
  have hdepth := mirrors_gate hR fun g => { g with depth := g.depth + 1 }
  have hthreads := mirrors_gate hR fun g => { g with threads := g.threads + 1 }
  have hrest := mirrors_choose hR mirrors_same (mirrors_then hthreads (mirrors_raised hR))
    (fun w => decide (1 < w.gate.depth)) fun _ _ _ => rfl
  simp only [decide_eq_true_eq] at hrest
  have h := mirrors_then hdepth hrest
  exact h

theorem mirrors_leave : Mirrors R (modify World.leave : Act Unit) := by
  have hdepth := mirrors_gate hR fun g => { g with depth := g.depth - 1 }
  have hthreads := mirrors_gate hR fun g => { g with threads := g.threads - 1 }
  have hrest := mirrors_choose hR mirrors_same (mirrors_then (mirrors_raised hR) hthreads)
    (fun w => decide (0 < w.gate.depth)) fun _ _ _ => rfl
  simp only [decide_eq_true_eq] at hrest
  have h := mirrors_then hdepth hrest
  exact h

theorem mirrors_collectNow : Mirrors R (modify World.collectNow : Act Unit) :=
  mirrors_choose hR (mirrors_then (mirrors_gate hR fun g => { g with needGc := true }) (mirrors_serve hR))
    (mirrors_request hR true) World.mayServe fun _ _ _ => rfl

theorem mirrors_collect : Mirrors R (modify World.collect : Act Unit) := by
  have hinside := mirrors_then (mirrors_then (mirrors_enter hR) (mirrors_collectNow hR)) (mirrors_leave hR)
  have h := mirrors_choose hR (mirrors_request hR true) hinside (fun w => decide (0 < w.gate.depth))
    fun _ _ _ => rfl
  simp only [decide_eq_true_eq] at h
  exact h

/-! ### making objects -/

/-- The same for a change that gives a result. -/
theorem mirrors_chooseGet {f g : World → α × World} (hf : Mirrors R (modifyGet f : Act α))
    (hg : Mirrors R (modifyGet g : Act α)) (p : World → Bool)
    (hp : ∀ (w : World) contexts freeContexts, p (w.shelve contexts freeContexts) = p w) :
    Mirrors R (modifyGet fun w => if p w then f w else g w : Act α) := by
  have hrun : (modifyGet fun w => if p w then f w else g w : Act α) =
      get >>= fun w => if p w then modifyGet f else modifyGet g := by
    funext w
    show EStateM.Result.ok (if p w then f w else g w).1 (if p w then f w else g w).2 = (ite _ _ _ : Act α) w
    split <;> rfl
  rw [hrun]
  refine mirrors_get hR (fun w => mirrors_ite hf hg) fun w cs fs => ?_
  rw [hp]

omit hR in
theorem mirrors_thenGet {f : World → World} {g : World → α × World} (hf : Mirrors R (modify f : Act Unit))
    (hg : Mirrors R (modifyGet g : Act α)) : Mirrors R (modifyGet fun w => g (f w) : Act α) :=
  hf.bind fun _ => hg

omit hR in
theorem mirrors_congr {f g : World → α × World} (hf : Mirrors R (modifyGet f : Act α)) (h : ∀ w, g w = f w) :
    Mirrors R (modifyGet g : Act α) := by
  rwa [funext h]

theorem mirrors_cellsOf (k : Kind) (n : Nat) : Mirrors R (modifyGet fun w => w.cellsOf k n : Act (Array Addr)) := by
  have hserve := mirrors_choose hR (mirrors_serve hR) mirrors_same (fun w => w.gate.raised && w.mayServe)
    fun _ _ _ => rfl
  have hwant := mirrors_gate hR fun g => { g with needGc := true }
  have htake := mirrors_cells hR fun h => h.take k n
  have hgrow : Mirrors R (modifyGet fun w => w.growCells k n : Act (Array Addr)) :=
    mirrors_cells hR fun h => (((h.takeOrGrow k).2.take k (n - 1)).1.push (h.takeOrGrow k).1,
      ((h.takeOrGrow k).2.take k (n - 1)).2)
  have htry := mirrors_chooseGet hR htake hgrow (fun w => !(w.heap.take k n).1.isEmpty) fun _ _ _ => rfl
  have hdry := mirrors_chooseGet hR (mirrors_thenGet (mirrors_then hwant (mirrors_serve hR)) htry)
    (mirrors_thenGet hwant hgrow) World.mayServe fun _ _ _ => rfl
  have hall := mirrors_thenGet hserve
    (mirrors_chooseGet hR htake hdry (fun w => !(w.heap.take k n).1.isEmpty) fun _ _ _ => rfl)
  refine mirrors_congr hall fun w => ?_
  have hmay : (if w.gate.raised && w.mayServe then w.serve else w).mayServe = w.mayServe := by
    split
    · exact World.mayServe_serve w
    · rfl
  unfold World.cellsOf
  extract_lets serves w₁
  rw [show serves = w₁.mayServe from hmay.symm]

theorem mirrors_refill (k : Kind) (b : Body) : Mirrors R (modifyGet fun w => w.refill cx k b : Act Addr) := by
  have hrun : (modifyGet fun w => w.refill cx k b : Act Addr) = (do
      let c ← ctx cx
      modifyCtx cx fun c => { c with temps := c.temps ++ b.children.toArray }
      let o ← options
      let cells ← modifyGet fun w => w.cellsOf k o.allocBatch
      modifyCtx cx fun d => { d with temps := d.temps.take c.temps.size, cache := d.cache.modify k (· ++ cells.pop) }
      return cells.back?.getD 0) := rfl
  rw [hrun]
  refine mirrors_ctx hR (fun c => ?_) fun _ _ _ => rfl
  refine (mirrors_cache hR (· ++ b.children.toArray) id).bind fun _ => ?_
  refine (mirrors_options hR).bind fun o => (mirrors_cellsOf hR k _).bind fun cells => ?_
  exact (mirrors_cache hR (·.take c.temps.size) (·.modify k (· ++ cells.pop))).bind fun _ => mirrors_pure _

theorem mirrors_alloc (k : Kind) (b : Body) : Mirrors R (alloc cx k b) := by
  have hrun : alloc cx k b = (do
      let c ← ctx cx
      let a ← (c.cache.of k).back?.elim (modifyGet fun w => w.refill cx k b : Act Addr) fun a => do
        modifyCtx cx fun c => { c with cache := c.cache.modify k Array.pop }
        return a
      modifyHeap fun h => h.install a b
      modifyCtx cx fun c => { c with temps := c.temps.push (.obj a) }
      return .obj a) := by
    funext w
    show EStateM.Result.ok (w.alloc cx k b).1 (w.alloc cx k b).2 =
      EStateM.bind (((w.ctx cx).cache.of k).back?.elim _ _) _ w
    unfold World.alloc
    cases ((w.ctx cx).cache.of k).back? <;> rfl
  rw [hrun]
  refine mirrors_ctx hR (fun c => ?_) fun _ _ _ => rfl
  have hcell : Mirrors R ((c.cache.of k).back?.elim (modifyGet fun w => w.refill cx k b : Act Addr) fun a => do
      modifyCtx cx fun c => { c with cache := c.cache.modify k Array.pop }
      return a) := by
    cases (c.cache.of k).back? with
    | some a => exact (mirrors_cache hR id (·.modify k Array.pop)).bind fun _ => mirrors_pure a
    | none => exact mirrors_refill hR k b
  refine hcell.bind fun a => (mirrors_modifyHeap hR _).bind fun _ => ?_
  exact (mirrors_cache hR (·.push (.obj a)) id).bind fun _ => mirrors_pure _

theorem mirrors_newStr (bs : Bytes) : Mirrors R (newStr cx bs) := mirrors_alloc hR ..

theorem mirrors_newVec (items : Array Value) : Mirrors R (newVec cx items) := mirrors_alloc hR ..

theorem mirrors_newHash : Mirrors R (newHash cx) := mirrors_alloc hR ..

theorem mirrors_newClosure (ns next : Value) : Mirrors R (newClosure cx ns next) := mirrors_alloc hR ..

theorem mirrors_newFunc (target scope : Value) : Mirrors R (newFunc cx target scope) := mirrors_alloc hR ..

/-! ### tables and vectors -/

theorem mirrors_intern (name : Bytes) : Mirrors R (intern name) :=
  mirrors_cells hR fun h => (Value.obj (h.intern name).1, (h.intern name).2)

theorem mirrors_hashKey (key : Value) : Mirrors R (hashKey key) := mirrors_cells hR fun h => h.hashKey key

theorem mirrors_setHashed (box key : Value) (hash : UInt32) (interned : Bool) (v : Value) :
    Mirrors R (setHashed box key hash interned v) := by
  unfold setHashed
  refine (mirrors_heap hR).bind fun h => mirrors_ite ?_ (mirrors_fail _)
  refine (mirrors_cells hR fun h => h.store box key hash interned v).bind fun retired => ?_
  exact mirrors_ite (mirrors_retire hR) (mirrors_pure _)

theorem mirrors_hashSet (box key v : Value) : Mirrors R (hashSet box key v) :=
  (mirrors_hashKey hR key).bind fun _ => mirrors_setHashed hR ..

theorem mirrors_hashGet (box key : Value) : Mirrors R (hashGet box key) := by
  unfold hashGet
  refine (mirrors_heap hR).bind fun h => ?_
  split
  · exact (mirrors_hashKey hR key).bind fun _ => (mirrors_heap hR).bind fun _ => mirrors_pure _
  · exact mirrors_pure _

theorem mirrors_hashDelete (box key : Value) : Mirrors R (hashDelete box key) := by
  unfold hashDelete
  refine (mirrors_heap hR).bind fun h => mirrors_ite ?_ (mirrors_fail _)
  refine (mirrors_hashKey hR key).bind fun k => ?_
  refine (mirrors_cells hR fun h => h.remove box key k.1 k.2).bind fun r => ?_
  exact mirrors_ite ((mirrors_retire hR).bind fun _ => mirrors_pure _) (mirrors_pure _)

theorem mirrors_modifyVec (v : Value) (f : Array Value → Array Value) : Mirrors R (modifyVec v f) := by
  unfold modifyVec
  refine (mirrors_heap hR).bind fun h => ?_
  split
  · exact (mirrors_modifyHeap hR _).bind fun _ => mirrors_pure _
  · exact mirrors_pure _

theorem mirrors_vecSet (v : Value) (i : Nat) (item : Value) : Mirrors R (vecSet v i item) := by
  unfold vecSet
  refine (mirrors_heap hR).bind fun h => ?_
  split
  · exact mirrors_ite (mirrors_modifyVec hR _ _) (mirrors_pure _)
  · exact mirrors_pure _

/-! ### members and elements -/

theorem mirrors_hashMember (obj sym : Value) (hash : UInt32) (interned : Bool) :
    Mirrors R (hashMember obj sym hash interned) := by
  unfold hashMember
  refine mirrors_get hR (fun w => ?_) fun _ _ _ => rfl
  dsimp only
  split
  · exact mirrors_pure _
  · exact mirrors_fail _

theorem mirrors_extract (box key : Value) : Mirrors R (extract box key) := by
  unfold extract
  refine (mirrors_heap hR).bind fun h => ?_
  exact mirrors_ite ((mirrors_hashKey hR key).discard.bind fun _ => mirrors_read hR _) (mirrors_read hR _)

theorem mirrors_insert (box key v : Value) : Mirrors R (insert box key v) := by
  unfold insert
  refine (mirrors_heap hR).bind fun h => ?_
  split
  · exact mirrors_ite (mirrors_hashSet hR ..) (mirrors_fail _)
  · exact (mirrors_ofExcept _).bind fun i => (mirrors_vecSet hR ..).discard
  · refine (mirrors_ofExcept _).bind fun b => (mirrors_ofExcept _).bind fun i => ?_
    split
    · exact mirrors_modifyHeap hR _
    · exact mirrors_fail _
  · exact mirrors_fail _

theorem mirrors_slice (box start stop : Value) : Mirrors R (slice cx box start stop) := by
  unfold slice
  refine (mirrors_heap hR).bind fun h => ?_
  split
  · refine (mirrors_ofExcept _).bind fun b => ?_
    split
    · exact mirrors_newVec hR _
    · exact mirrors_newVec hR _
  · refine (mirrors_ofExcept _).bind fun b => ?_
    split
    · exact mirrors_newStr hR _
    · exact mirrors_newStr hR _
  · exact mirrors_fail _

theorem mirrors_concat (a b : Value) : Mirrors R (concat cx a b) := by
  unfold concat
  refine (mirrors_heap hR).bind fun h => ?_
  split
  · exact mirrors_newVec hR _
  · exact (mirrors_ofExcept _).bind fun s => (mirrors_ofExcept _).bind fun t => mirrors_newStr hR _

/-! ### functions and arguments -/

theorem mirrors_bindMe (locals me : Value) : Mirrors R (bindMe locals me) := by
  unfold bindMe
  refine mirrors_ite ?_ (mirrors_pure _)
  exact mirrors_get hR (fun _ => mirrors_hashSet hR ..) fun _ _ _ => rfl

theorem mirrors_bindRest (code : Loaded) (locals : Value) (rest : Option Nat) (needed : Bool) (extra : Array Value) :
    Mirrors R (match rest with
      | some i => if needed then do bindConst code locals i (← newVec cx extra) else pure ()
      | none => pure () : Act Unit) := by
  split
  · exact mirrors_ite ((mirrors_newVec hR _).bind fun _ => mirrors_setHashed hR ..) (mirrors_pure _)
  · exact mirrors_pure _

theorem mirrors_bindArgs (code : Loaded) (locals : Value) (args : Array Value) (me : Value) :
    Mirrors R (bindArgs cx code locals args me) := by
  have hconst (i : Nat) (v : Value) : Mirrors R (bindConst code locals i v) := mirrors_setHashed hR ..
  unfold bindArgs
  refine (mirrors_bindMe hR locals me).bind fun _ => ?_
  extract_lets need extra rest
  have hrest : Mirrors R (rest ()) := by
    refine (mirrors_forM (fun _ => hconst _ _) _).bind fun _ => ?_
    refine (mirrors_forM (fun _ => hconst _ _) _).bind fun _ => ?_
    exact mirrors_bindRest hR ..
  exact mirrors_ite ((mirrors_fail _).bind fun _ => hrest) hrest

theorem mirrors_bindNamed (code : Loaded) (locals named me : Value) :
    Mirrors R (bindNamed cx code locals named me) := by
  have hconst (i : Nat) (v : Value) : Mirrors R (bindConst code locals i v) := mirrors_setHashed hR ..
  have hbound (i : Nat) : Mirrors R (isBound code locals i) := (mirrors_heap hR).bind fun _ => mirrors_pure _
  unfold bindNamed
  refine (mirrors_heap hR).bind fun _ => (mirrors_bindMe hR locals me).bind fun _ => ?_
  refine (mirrors_forM (fun _ => mirrors_hashSet hR ..) _).bind fun _ => ?_
  refine (mirrors_forM (fun i => ?_) _).bind fun _ => ?_
  · exact (hbound i).bind fun _ => mirrors_ite ((mirrors_heap hR).bind fun _ => mirrors_fail _) (mirrors_pure _)
  refine (mirrors_forM (fun i => ?_) _).bind fun _ => ?_
  · exact (hbound i.1).bind fun _ => mirrors_ite (hconst _ _) (mirrors_pure _)
  exact mirrors_bindRest hR ..

end

end Act

end ScriptEngine
