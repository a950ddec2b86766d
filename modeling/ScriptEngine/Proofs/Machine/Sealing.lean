import ScriptEngine.Proofs.Machine.Aloofness
import ScriptEngine.Proofs.Machine.Operands

/-!
# What is below a call

A context that executes a call is compared with the same context with other operands and marks below the
call.  What the call does with its own operands is the same in both, and leaves what is below alone in both.

* `Above`              the frames of a call and of those it makes;
* `Seal`               what is below a call, and what is there in its stead;
* `Seal.Pair`          two engines that differ in what is below a call;
* `Act.Even`           an activity that does the same in both and leaves some number of operands;
* `Act.even_perform`   **instructions that replace operands.**
-/

namespace ScriptEngine

open World (ctx_modifyCtx_self)

/-! ## stacks with a lower part -/

section

variable {α : Type} {low low' top : Array α} {n : Nat}

theorem shrink_append (low top : Array α) (n : Nat) :
    (low ++ top).shrink (low.size + n) = low ++ top.shrink n := by
  apply Array.toList_inj.mp
  rw [Array.toList_shrink, Array.toList_append, Array.toList_append, Array.toList_shrink,
    List.take_append, Array.length_toList, List.take_of_length_le (by simp)]
  simp

theorem getElem?_above (h : low'.size = low.size) {i : Nat} (hi : low.size ≤ i) :
    (low' ++ top)[i]? = (low ++ top)[i]? := by
  rw [Array.getElem?_append_right hi, Array.getElem?_append_right (h ▸ hi), h]

theorem extract_above (h : low'.size = low.size) {i j : Nat} (hi : low.size ≤ i) :
    (low' ++ top).extract i j = (low ++ top).extract i j := by
  rw [Array.extract_append, Array.extract_append, h]
  have hnil (xs : Array α) (hx : xs.size ≤ i) : xs.extract i j = #[] := by
    apply Array.extract_empty_of_size_le_start
    exact hx
  rw [hnil low hi, hnil low' (h ▸ hi)]

end

/-! ## frames -/

/-- The frames of a call and of those it makes stand on the frames `base`: that of the call has its operands
from `height` on and its marks from `depth` on, and none of the others has any below. -/
structure Above (height depth : Nat) (base frames : Array Frame) : Prop where
  stacked : ∃ l g, fromTop frames = l ++ g :: fromTop base ∧ g.bp = height ∧ g.markBase = depth ∧
    ∀ f ∈ l, height ≤ f.bp ∧ depth ≤ f.markBase

namespace Above

variable {height depth : Nat} {base frames frames' : Array Frame} {f f' : Frame} {fs : List Frame}

theorem frames_ne (h : Above height depth base frames) : frames ≠ #[] := by
  obtain ⟨l, g, hfr, -⟩ := h.stacked
  rintro rfl
  cases l with
  | nil => exact nomatch hfr
  | cons => exact nomatch hfr

theorem size_lt (h : Above height depth base frames) : base.size < frames.size := by
  obtain ⟨l, g, hfr, -⟩ := h.stacked
  rw [← length_fromTop frames, hfr, List.length_append, List.length_cons, length_fromTop]
  omega

theorem head (h : Above height depth base frames) (hf : fromTop frames = f :: fs) :
    height ≤ f.bp ∧ depth ≤ f.markBase := by
  obtain ⟨l, g, hfr, hbp, hmark, hl⟩ := h.stacked
  rw [hfr] at hf
  cases l with
  | nil =>
    obtain ⟨rfl, -⟩ := List.cons.inj hf
    exact ⟨Nat.le_of_eq hbp.symm, Nat.le_of_eq hmark.symm⟩
  | cons x l =>
    obtain ⟨rfl, -⟩ := List.cons.inj hf
    exact hl x List.mem_cons_self

theorem moved (h : Above height depth base frames) (hf : fromTop frames = f :: fs)
    (hf' : fromTop frames' = f' :: fs) (hbp : f'.bp = f.bp) (hmark : f'.markBase = f.markBase) :
    Above height depth base frames' := by
  obtain ⟨l, g, hfr, hg, hgm, hl⟩ := h.stacked
  rw [hfr] at hf
  cases l with
  | nil =>
    obtain ⟨rfl, rfl⟩ := List.cons.inj hf
    exact ⟨[], f', hf', hbp.trans hg, hmark.trans hgm, nofun⟩
  | cons x l =>
    obtain ⟨rfl, rfl⟩ := List.cons.inj hf
    refine ⟨f' :: l, g, hf', hg, hgm, fun y hy => ?_⟩
    rcases List.mem_cons.mp hy with rfl | hy
    · rw [hbp, hmark]
      exact hl x List.mem_cons_self
    · exact hl y (List.mem_cons_of_mem _ hy)

theorem push (h : Above height depth base frames) {g : Frame} (hbp : height ≤ g.bp)
    (hmark : depth ≤ g.markBase) : Above height depth base (frames.push g) := by
  obtain ⟨l, g', hfr, hg, hgm, hl⟩ := h.stacked
  refine ⟨g :: l, g', by rw [fromTop_push, hfr]; rfl, hg, hgm, fun y hy => ?_⟩
  rcases List.mem_cons.mp hy with rfl | hy
  · exact ⟨hbp, hmark⟩
  · exact hl y hy

/-- A return leads to a call that was made before, or back to where the first one was made. -/
theorem pop (h : Above height depth base frames) (hf : fromTop frames = f :: fs) :
    Above height depth base frames.pop ∨ f.bp = height ∧ f.markBase = depth ∧ frames.pop = base := by
  obtain ⟨l, g, hfr, hg, hgm, hl⟩ := h.stacked
  rw [hfr] at hf
  have hpop : fromTop frames.pop = (l ++ g :: fromTop base).tail := by rw [fromTop_pop, hfr]
  cases l with
  | nil =>
    obtain ⟨rfl, rfl⟩ := List.cons.inj hf
    refine .inr ⟨hg, hgm, ?_⟩
    have hlists : frames.pop.toList = base.toList := List.reverse_injective hpop
    exact Array.toList_inj.mp hlists
  | cons x l => exact .inl ⟨l, g, hpop, hg, hgm, fun y hy => hl y (List.mem_cons_of_mem _ hy)⟩

end Above

theorem above_push (base : Array Frame) (g : Frame) : Above g.bp g.markBase base (base.push g) :=
  ⟨[], g, fromTop_push base g, rfl, rfl, nofun⟩

/-! ## two engines -/

/-- What is below a call in its context, and what is there in its stead in another run. -/
structure Seal where
  cx : CtxId
  /-- How many operands a context can have. -/
  limit : Nat
  /-- With more operands than these above the call there is room for one at least. -/
  slack : Nat
  low : Array Value
  marks : Array Nat
  otherLow : Array Value
  otherMarks : Array Nat
  size_low : otherLow.size = low.size
  size_marks : otherMarks.size = marks.size

namespace Seal

/-- A run beside itself. -/
def self (cx : CtxId) (limit slack : Nat) (low : Array Value) (marks : Array Nat) : Seal :=
  ⟨cx, limit, slack, low, marks, low, marks, rfl, rfl⟩

@[simp] theorem self_cx {cx : CtxId} {limit slack : Nat} {low : Array Value} {marks : Array Nat} :
    (self cx limit slack low marks).cx = cx := rfl

def stacks' (q : Seal) (frames : Array Frame) (upper : Array Nat) (top : Array Value) : Stacks :=
  ⟨q.otherLow ++ top, frames, q.otherMarks ++ upper⟩

/-- Two engines that differ in what is below a call.  There are `k` operands above it.  Both keep the same
objects alive. -/
structure Pair (q : Seal) (outer : List CtxId) (fr : Array Frame) (upper : Array Nat) (k : Nat)
    (w w' : World) : Prop where
  fit : w.Fit (q.cx :: outer)
  frames : (w.ctx q.cx).frames = fr
  busy : fr ≠ #[]
  resume : (w.ctx q.cx).resumeAt = none
  marks : (w.ctx q.cx).marks = q.marks ++ upper
  operands : ∃ top : Array Value, top.size = k ∧ (w.ctx q.cx).stack = q.low ++ top ∧
    w' = w.put q.cx (q.stacks' fr upper top)
  pinned : ∀ a, .obj a ∈ q.otherLow ∨ .obj a ∈ w.roots ↔ .obj a ∈ q.low ∨ .obj a ∈ w.roots
  limit : w.options.maxStack = q.limit
  room : k ≤ q.slack ∨ q.low.size < q.limit

namespace Pair

variable {q : Seal} {outer : List CtxId} {fr fr₁ : Array Frame} {upper upper₁ : Array Nat} {k k₁ : Nat}
  {w w' w₁ : World}

theorem size (h : q.Pair outer fr upper k w w') : (w.ctx q.cx).stack.size = q.low.size + k := by
  obtain ⟨top, rfl, hstack, -⟩ := h.operands
  rw [hstack, Array.size_append]

theorem size' (h : q.Pair outer fr upper k w w') :
    (w'.ctx q.cx).stack.size = q.low.size + k := by
  obtain ⟨top, rfl, -, rfl⟩ := h.operands
  rw [World.ctx_put_self h.fit.lt]
  show (q.otherLow ++ top).size = _
  rw [Array.size_append, q.size_low]

theorem frames' (h : q.Pair outer fr upper k w w') : (w'.ctx q.cx).frames = fr := by
  obtain ⟨top, -, -, rfl⟩ := h.operands
  rw [World.ctx_put_self h.fit.lt]
  rfl

theorem options' (h : q.Pair outer fr upper k w w') : w'.options = w.options := by
  obtain ⟨top, -, -, rfl⟩ := h.operands
  rfl

/-- What is read of the operands above the call is the same. -/
theorem getElem? (h : q.Pair outer fr upper k w w') {i : Nat} (hi : q.low.size ≤ i) :
    (w'.ctx q.cx).stack[i]? = (w.ctx q.cx).stack[i]? := by
  obtain ⟨top, -, hstack, rfl⟩ := h.operands
  rw [World.ctx_put_self h.fit.lt, hstack]
  exact getElem?_above q.size_low hi

theorem marks' (h : q.Pair outer fr upper k w w') : (w'.ctx q.cx).marks = q.otherMarks ++ upper := by
  obtain ⟨top, -, -, rfl⟩ := h.operands
  rw [World.ctx_put_self h.fit.lt]
  rfl

theorem covers (h : q.Pair outer fr upper k w w') {top : Array Value}
    (hstack : (w.ctx q.cx).stack = q.low ++ top) : w.Covers q.cx (q.stacks' fr upper top) := by
  intro a
  have hp := h.pinned a
  simp only [Stacks.roots, stacks', Context.allStacks, hstack, h.frames, Array.toList_append,
    List.mem_append, Array.mem_toList_iff]
  tauto

/-- A change of both that leaves the stacks alone. -/
theorem same (h : q.Pair outer fr upper k w w') (hh : w.Holds q.cx w₁) (hf : w₁.Fit (q.cx :: outer)) {top : Array Value}
    (hk : top.size = k) (hstack : (w.ctx q.cx).stack = q.low ++ top) :
    q.Pair outer fr upper k w₁ (w₁.put q.cx (q.stacks' fr upper top)) where
  fit := hf
  frames := hh.same.frames.trans h.frames
  busy := h.busy
  resume := hh.same.resumeAt.trans h.resume
  marks := hh.same.marks.trans h.marks
  operands := ⟨top, hk, hh.same.stack.trans hstack, rfl⟩
  pinned a := by
    have hp := h.pinned a
    have hr := hh.roots (.obj a)
    tauto
  limit := by
    rw [hh.options]
    exact h.limit
  room := h.room

/-- A change of the stacks above the call, in both. -/
theorem change (h : q.Pair outer fr upper k w w') {g : Context → Context}
    (hchild : ∀ c, (g c).child = c.child) (hparent : ∀ c, (g c).parent = c.parent)
    (hnesting : ∀ c, (g c).nesting = c.nesting) (hresume : ∀ c, (g c).resumeAt = c.resumeAt)
    (hbusy : fr₁ ≠ #[]) (hroom : k₁ ≤ q.slack ∨ q.low.size < q.limit)
    (hg : ∀ (c : Context) (top : Array Value), top.size = k → c.stack = q.low ++ top →
      c.marks = q.marks ++ upper → c.frames = fr →
      ∃ top₁ : Array Value, top₁.size = k₁ ∧ (g c).stack = q.low ++ top₁ ∧ (g c).marks = q.marks ++ upper₁ ∧
        (g c).frames = fr₁ ∧ g (c.put (q.stacks' fr upper top)) = (g c).put (q.stacks' fr₁ upper₁ top₁)) :
    q.Pair outer fr₁ upper₁ k₁ (w.modifyCtx q.cx g) (w'.modifyCtx q.cx g) := by
  obtain ⟨top, hk, hstack, rfl⟩ := h.operands
  obtain ⟨top₁, hk₁, hstack₁, hmarks₁, hframes₁, hput⟩ := hg _ top hk hstack h.marks h.frames
  have hctx := ctx_modifyCtx_self h.fit.lt g
  refine ⟨h.fit.modifyCtx hchild hparent hnesting, ?_, hbusy, ?_, ?_, ⟨top₁, hk₁, ?_, ?_⟩, h.pinned, h.limit, hroom⟩
  · rw [hctx]
    exact hframes₁
  · rw [hctx, hresume]
    exact h.resume
  · rw [hctx]
    exact hmarks₁
  · rw [hctx]
    exact hstack₁
  · rw [World.put, World.put, World.modifyCtx_modifyCtx, World.modifyCtx_modifyCtx]
    exact World.modifyCtx_congr hput

end Pair

theorem pair_self {cx : CtxId} {slack : Nat} {low top : Array Value} {marks upper : Array Nat}
    {outer : List CtxId} {w : World} (hw : w.Fit (cx :: outer)) (hresume : (w.ctx cx).resumeAt = none)
    (hbusy : (w.ctx cx).frames ≠ #[]) (hstack : (w.ctx cx).stack = low ++ top)
    (hmarks : (w.ctx cx).marks = marks ++ upper) (hroom : top.size ≤ slack ∨ low.size < w.options.maxStack) :
    (self cx w.options.maxStack slack low marks).Pair outer (w.ctx cx).frames upper top.size w w := by
  refine ⟨hw, rfl, hbusy, hresume, hmarks, ⟨top, rfl, hstack, ?_⟩, fun _ => Iff.rfl, rfl, hroom⟩
  have hself : stacks' (self cx w.options.maxStack slack low marks) (w.ctx cx).frames upper top =
      (w.ctx cx).allStacks := by
    rw [Context.allStacks, hstack, hmarks]
    rfl
  rw [hself, self_cx, World.put_self]

end Seal

/-! ## activities -/

namespace Act

/-- What an activity has led to in both engines. -/
inductive Matched {α : Type} (q : Seal) (outer : List CtxId) (fr : Array Frame) (upper : Array Nat) (n : Nat)
    (Q : α → Prop) : EStateM.Result Failure World α → EStateM.Result Failure World α → Prop
  | done {a : α} {w w' : World} (h : q.Pair outer fr upper n w w') (ha : Q a) :
    Matched q outer fr upper n Q (.ok a w) (.ok a w')
  | failed {e : Failure} {m : Nat} {w w' : World} (h : q.Pair outer fr upper m w w') :
    Matched q outer fr upper n Q (.error e w) (.error e w')

/-- From `k` operands above a call the activity comes to `n`, and to the same result whatever is below. -/
structure Even {α : Type} (q : Seal) (outer : List CtxId) (fr : Array Frame) (upper : Array Nat) (k n : Nat)
    (Q : α → Prop) (x : Act α) : Prop where
  run : ∀ {w w' : World}, q.Pair outer fr upper k w w' → Matched q outer fr upper n Q (x.run w) (x.run w')

section

variable {α β : Type} {q : Seal} {outer : List CtxId} {fr : Array Frame} {upper : Array Nat} {k m n : Nat}
  {Q : α → Prop} {Q' : β → Prop} {x : Act α} {f : α → Act β}

theorem Even.bind (hx : Even q outer fr upper k m Q x) (hf : ∀ a, Q a → Even q outer fr upper m n Q' (f a)) :
    Even q outer fr upper k n Q' (x >>= f) := by
  refine ⟨fun {w w'} h => ?_⟩
  have hm := hx.run h
  generalize hr : x.run w = r, hr' : x.run w' = r' at hm
  cases hm with
  | done h₁ ha =>
    rw [run_bind_of_ok hr, run_bind_of_ok hr']
    exact (hf _ ha).run h₁
  | failed h₁ =>
    rw [run_bind_of_error hr, run_bind_of_error hr']
    exact .failed h₁

theorem even_pure {a : α} (ha : Q a) : Even q outer fr upper k k Q (pure a) := ⟨fun h => .done h ha⟩

theorem even_fail (c : Cause) : Even q outer fr upper k n Q (fail c : Act α) := ⟨fun h => .failed h⟩

/-- What neither looks at the stacks nor drops the context. -/
theorem Aloof.even (hx : Aloof q.cx x) (hc : Calm (q.cx :: outer) x) :
    Even q outer fr upper k k (fun _ => True) x := by
  refine ⟨fun {w w'} h => ?_⟩
  obtain ⟨top, hk, hstack, rfl⟩ := h.operands
  have hled := hc.led w h.fit
  have halike := hx.run h.fit.lt h.frames.symm (h.covers hstack)
  generalize x.run w = r, x.run (w.put q.cx (q.stacks' fr upper top)) = r' at hled halike
  -- its frames are still there, so the context is not dropped
  have hkept {w₁ : World} (hkeeps : w.Keeps (q.cx :: outer) w₁) : ¬w₁.Dropped q.cx := by
    intro hd
    exact h.busy (h.frames.symm.trans (hkeeps.head.frames.symm.trans hd.frames))
  cases halike with
  | kept hh =>
    cases hled with
    | done hkeeps => exact .done (h.same hh hkeeps.fit hk hstack) trivial
    | failed hkeeps => exact .failed (h.same hh hkeeps.fit hk hstack)
  | gone hd =>
    cases hled with
    | done hkeeps => exact absurd hd (hkept hkeeps)
    | failed hkeeps => exact absurd hd (hkept hkeeps)

theorem Neat.even (hx : Neat x) (hc : Calm (q.cx :: outer) x) :
    Even q outer fr upper k k (fun _ => True) x := hx.aloof.even hc

theorem even_heap : Even q outer fr upper k k (fun _ => True) heap := neat_heap.even calm_heap

theorem even_read {f : Heap → Except Cause α} (hf : ∀ h, Mild (f h)) :
    Even q outer fr upper k k (fun _ => True) (read f) := (neat_read f).even (calm_read hf)

theorem Even.discard (hx : Even q outer fr upper k n Q x) :
    Even q outer fr upper k n (fun _ => True) (discard x : Act PUnit) := hx.bind fun _ _ => even_pure trivial

theorem Even.next {x : Act Unit} {Q : Unit → Prop} (hx : Even q outer fr upper k n Q x) :
    Even q outer fr upper k n (· = Outcome.next) (x >>= fun _ => pure Outcome.next) :=
  hx.bind fun _ _ => even_pure rfl

/-! ### operands and frames -/

theorem even_peek {depth : Nat} (hd : depth < k) :
    Even q outer fr upper k k (fun _ => True) (peek q.cx depth) := by
  refine ⟨fun {w w'} h => ?_⟩
  have hsize := h.size
  have hsize' := h.size'
  have hsame := h.getElem? (i := q.low.size + k - (depth + 1)) (by omega)
  show Matched _ _ _ _ _ _ (EStateM.run (ite _ _ _) w) (EStateM.run (ite _ _ _) w')
  rw [hsize, hsize', if_pos (by omega), if_pos (by omega), hsame]
  exact .done h trivial

/-- One of the top `n` operands, where `n` is a numeral. -/
theorem even_operand {depth : Nat} (h : Nat.ble (depth + 1) n = true) :
    Even q outer fr upper (k + n) (k + n) (fun _ => True) (peek q.cx depth) :=
  even_peek (Nat.lt_of_lt_of_le (Nat.le_of_ble_eq_true h) (Nat.le_add_left n k))

theorem pair_push {w w' : World} (h : q.Pair outer fr upper k w w') (hk : q.low.size + k < q.limit)
    (v : Value) : ∃ w₁ w₁', (push q.cx v).run w = .ok () w₁ ∧ (push q.cx v).run w' = .ok () w₁' ∧
      q.Pair outer fr upper (k + 1) w₁ w₁' := by
  have hroom {u : World} (hs : (u.ctx q.cx).stack.size = q.low.size + k) (hl : u.options.maxStack = q.limit) :
      (Act.push q.cx v).run u = .ok () (u.modifyCtx q.cx fun c => { c with stack := c.stack.push v }) := by
    unfold Act.push
    show EStateM.run (if u.options.maxStack ≤ (u.ctx q.cx).stack.size then _ else _) u = _
    rw [if_neg (by omega)]
    rfl
  refine ⟨_, _, hroom h.size h.limit, hroom h.size' ((congrArg _ h.options').trans h.limit), ?_⟩
  refine h.change (fun _ => rfl) (fun _ => rfl) (fun _ => rfl) (fun _ => rfl) h.busy (.inr (by omega)) ?_
  intro c top hk hstack hmarks hframes
  refine ⟨top.push v, by rw [Array.size_push, hk], ?_, hmarks, hframes, ?_⟩
  · rw [hstack, Array.push_append]
  · simp only [Context.put, Seal.stacks', Array.push_append]

theorem even_push (v : Value) : Even q outer fr upper k (k + 1) (fun _ => True) (push q.cx v) := by
  refine ⟨fun {w w'} h => ?_⟩
  by_cases hk : q.low.size + k < q.limit
  · obtain ⟨w₁, w₁', hrun, hrun', h₁⟩ := pair_push h hk v
    rw [hrun, hrun']
    exact .done h₁ trivial
  · have hfull {u : World} (hs : (u.ctx q.cx).stack.size = q.low.size + k) (hl : u.options.maxStack = q.limit) :
        (push q.cx v).run u = .error { cause := .stackOverflow } u := by
      unfold push
      show EStateM.run (if u.options.maxStack ≤ (u.ctx q.cx).stack.size then _ else _) u = _
      rw [if_pos (by omega)]
      rfl
    rw [hfull h.size h.limit, hfull h.size' ((congrArg _ h.options').trans h.limit)]
    exact .failed h

/-- Cutting the operands to a height that is not below the call. -/
theorem even_cut {height : Nat} (hh : q.low.size ≤ height) (hn : n = min k (height - q.low.size)) :
    Even q outer fr upper k n (fun _ => True) (cut q.cx height) := by
  refine ⟨fun {w w'} h => ?_⟩
  refine .done (h.change (fun _ => rfl) (fun _ => rfl) (fun _ => rfl) (fun _ => rfl) h.busy ?_
    fun c top hk hstack hmarks hframes => ?_) trivial
  · have hroom := h.room
    omega
  · have hheight : height = q.low.size + (height - q.low.size) := by omega
    refine ⟨top.shrink (height - q.low.size), by rw [Array.size_shrink]; omega, ?_, hmarks, hframes, ?_⟩
    · show c.stack.shrink height = _
      rw [hheight, hstack, shrink_append, ← hheight]
    · have hother : (q.otherLow ++ top).shrink height = q.otherLow ++ top.shrink (height - q.low.size) := by
        rw [← shrink_append, q.size_low, ← hheight]
      simp only [Context.put, Seal.stacks', hother]

theorem even_pop : Even q outer fr upper (k + 1) k (fun _ => True) (pop q.cx) := by
  refine ⟨fun {w w'} h => ?_⟩
  have hback : (w'.ctx q.cx).stack.back? = (w.ctx q.cx).stack.back? := by
    rw [Array.back?_eq_getElem?, Array.back?_eq_getElem?, h.size', h.size]
    exact h.getElem? (by omega)
  obtain ⟨v, hv⟩ : ∃ v, (w.ctx q.cx).stack.back? = some v := by
    have hsize := h.size
    rw [Array.back?_eq_getElem?, Array.getElem?_eq_getElem (by omega)]
    exact ⟨_, rfl⟩
  rw [pop, run_ctx_bind, run_ctx_bind]
  rw [hback, hv]
  refine .done (h.change (fun _ => rfl) (fun _ => rfl) (fun _ => rfl) (fun _ => rfl) h.busy ?_
    fun c top hk hstack hmarks hframes => ?_) trivial
  · have hroom := h.room
    omega
  · have hne : top ≠ #[] := by
      rintro rfl
      cases hk
    refine ⟨top.pop, by rw [Array.size_pop]; omega, ?_, hmarks, hframes, ?_⟩
    · rw [hstack, Array.pop_append_of_ne_empty hne]
    · simp only [Context.put, Seal.stacks', Array.pop_append_of_ne_empty hne]

theorem even_replaceTop (v : Value) :
    Even q outer fr upper (k + n) (k + 1) (fun _ => True) (replaceTop q.cx n v) := by
  have hcut : Even q outer fr upper (k + n) k (fun _ => True)
      (modifyCtx q.cx fun c => { c with stack := c.stack.shrink (c.stack.size - n) }) := by
    refine ⟨fun {w w'} h => ?_⟩
    refine .done (h.change (fun _ => rfl) (fun _ => rfl) (fun _ => rfl) (fun _ => rfl) h.busy ?_
      fun c top hk hstack hmarks hframes => ?_) trivial
    · have hroom := h.room
      omega
    · have hsize : (q.low ++ top).size - n = q.low.size + k := by
        rw [Array.size_append]
        omega
      have hsize' : (q.otherLow ++ top).size - n = q.otherLow.size + k := by
        rw [Array.size_append]
        omega
      refine ⟨top.shrink k, by rw [Array.size_shrink]; omega, ?_, hmarks, hframes, ?_⟩
      · rw [hstack, hsize, shrink_append]
      · simp only [Context.put, Seal.stacks', hsize', shrink_append]
  exact hcut.bind fun _ _ => even_push v

theorem even_frame : Even q outer fr upper k k (fun f => fr.back? = some f) (frame q.cx) := by
  refine ⟨fun {w w'} h => ?_⟩
  rw [frame, run_ctx_bind, run_ctx_bind]
  rw [h.frames', h.frames]
  cases hf : fr.back? with
  | some f => exact .done h rfl
  | none => exact .failed h

/-! ### instructions that replace operands -/

theorem even_arith (f : Float → Float → Value) :
    Even q outer fr upper (k + 2) (k + 1) (fun _ => True) (arith q.cx f) := by
  refine (even_peek (by omega)).bind fun y _ => (even_read fun h => h.mild_numOf y).bind fun b _ => ?_
  refine (even_peek (by omega)).bind fun x _ => (even_read fun h => h.mild_numOf x).bind fun a _ => ?_
  exact even_replaceTop _

theorem even_equality (want : Bool) :
    Even q outer fr upper (k + 2) (k + 1) (fun _ => True) (equality q.cx want) := by
  refine (even_peek (by omega)).bind fun a _ => (even_peek (by omega)).bind fun b _ => ?_
  exact even_heap.bind fun h _ => even_replaceTop _

theorem even_iterate (values : Bool) :
    Even q outer fr upper (k + 2) (k + 3) (fun _ => True) (iterate q.cx values) := by
  unfold iterate
  refine (even_peek (by omega)).bind fun box _ => (even_peek (by omega)).bind fun count _ => ?_
  refine even_heap.bind fun h _ => ?_
  split
  · exact even_fail _
  · split
    · exact even_push _
    · exact (even_replaceTop (k := k + 1) (n := 1) _).bind fun _ _ => even_push _

theorem even_chainBound : Even q outer fr upper k k (fun _ => True) chainBound :=
  even_heap.bind fun _ _ => even_pure trivial

theorem even_lookupSym (sym : Value) (hash : UInt32) :
    Even q outer fr upper k k (fun _ => True) (lookupSym q.cx sym hash) := by
  unfold lookupSym
  refine even_frame.bind fun f _ => even_chainBound.bind fun n _ => even_heap.bind fun h _ => ?_
  split
  · exact even_pure trivial
  · split
    · exact even_pure trivial
    · exact even_fail _

theorem even_setSym (sym : Value) (hash : UInt32) (v : Value) :
    Even q outer fr upper k k (fun _ => True) (setSym q.cx sym hash v) := by
  unfold setSym
  refine even_frame.bind fun f _ => even_chainBound.bind fun n _ => even_heap.bind fun h _ => ?_
  dsimp only
  split
  · exact (neat_setHashed ..).even (calm_setHashed ..)
  · exact (neat_setHashed ..).even (calm_setHashed ..)

variable {lib : Library}

/-- Instructions that replace operands by others and are no calls. -/
theorem even_perform (hcalm : lib.Calm) (hlib : lib.Aloof) (code : Loaded) {op : Op} (arg : Nat)
    (hp : op.isPlain = true) (hno : op ≠ .fcall ∧ op ≠ .mcall ∧ op ≠ .fcallh ∧ op ≠ .mcallh) :
    Even q outer fr upper (k + op.takes arg) (k + op.gives) (· = Outcome.next)
      (perform lib q.cx code op arg) := by
  unfold perform
  cases op with
  | mark | unmark | cutBack | cutBackPop | ret => exact nomatch hp
  | jmp | jmpLoop | jifNotPop | jifEnd | jifTrue | jifNot => exact nomatch hp
  | fcall => exact absurd rfl hno.1
  | mcall => exact absurd rfl hno.2.1
  | fcallh => exact absurd rfl hno.2.2.1
  | mcallh => exact absurd rfl hno.2.2.2
  | nop => exact even_pure rfl
  | pop => exact even_pop.discard.next
  | dup => exact (even_operand rfl).bind fun v _ => (even_push v).next
  | dup2 =>
    refine (even_operand rfl).bind fun a _ => (even_operand rfl).bind fun b _ => ?_
    exact (even_push a).bind fun _ _ => (even_push b).next
  | pushConst | pushOne | pushZero | pushNil => exact (even_push _).next
  | newVec => exact ((neat_newVec _).even (calm_newVec _)).bind fun v _ => (even_push v).next
  | vappend =>
    refine (even_operand rfl).bind fun v _ => (even_operand rfl).bind fun box _ => ?_
    exact ((neat_modifyVec ..).even (calm_modifyVec ..)).discard.bind fun _ _ => even_pop.discard.next
  | newHash => exact (neat_newHash.even calm_newHash).bind fun v _ => (even_push v).next
  | happend =>
    refine (even_operand rfl).bind fun v _ => (even_operand rfl).bind fun key _ => ?_
    refine (even_operand rfl).bind fun box _ => ((neat_hashSet ..).even (calm_hashSet ..)).bind fun _ _ => ?_
    refine ⟨fun {w w'} h => ?_⟩
    have hcut : Even q outer fr upper (k + 3) (k + 1) (· = Outcome.next)
        (cut q.cx (q.low.size + (k + 1)) >>= fun _ => pure Outcome.next) := (even_cut (by omega) (by omega)).next
    show Matched _ _ _ _ _ _
      ((cut q.cx ((w.ctx q.cx).stack.size - 2) >>= fun _ => pure Outcome.next).run w)
      ((cut q.cx ((w'.ctx q.cx).stack.size - 2) >>= fun _ => pure Outcome.next).run w')
    rw [h.size, h.size']
    exact hcut.run h
  | not =>
    refine (even_operand rfl).bind fun v _ => (even_read fun h => h.mild_truth v).bind fun b _ => ?_
    exact (even_replaceTop _).next
  | neg =>
    refine (even_operand rfl).bind fun v _ => (even_read fun h => h.mild_numOf v).bind fun b _ => ?_
    exact (even_replaceTop _).next
  | plus | minus | mul | div | lt | lte | gt | gte => exact (even_arith _).next
  | cat =>
    refine (even_operand rfl).bind fun b _ => (even_operand rfl).bind fun a _ => ?_
    exact ((neat_concat a b).even (calm_concat a b)).bind fun v _ => (even_replaceTop v).next
  | eq | neq => exact (even_equality _).next
  | loadSym => exact (even_lookupSym ..).bind fun v _ => (even_push v).next
  | setSym => exact (even_operand rfl).bind fun v _ => (even_setSym ..).next
  | setLocal =>
    refine (even_operand rfl).bind fun v _ => even_frame.bind fun f _ => ?_
    exact ((neat_setHashed ..).even (calm_setHashed ..)).next
  | member =>
    refine (even_operand rfl).bind fun obj _ => ?_
    refine ((aloof_member hlib ..).even (calm_member hcalm ..)).bind fun r _ => ?_
    cases r with
    | some v => exact (even_replaceTop v).next
    | none =>
      exact even_heap.bind fun h _ => (even_fail (n := k) (Q := fun _ => False) _).bind fun _ h => h.elim
  | setMember =>
    refine (even_operand rfl).bind fun v _ => (even_operand rfl).bind fun obj _ => ?_
    exact ((aloof_setMember hlib ..).even (calm_setMember hcalm ..)).bind fun _ _ => (even_replaceTop v).next
  | extract =>
    refine (even_operand rfl).bind fun box _ => (even_operand rfl).bind fun key _ => ?_
    exact ((neat_extract box key).even (calm_extract box key)).bind fun v _ => (even_replaceTop v).next
  | insert =>
    refine (even_operand rfl).bind fun v _ => (even_operand rfl).bind fun key _ => ?_
    refine (even_operand rfl).bind fun box _ => ?_
    exact ((neat_insert box key v).even (calm_insert box key v)).bind fun _ _ => (even_replaceTop v).next
  | slice =>
    refine (even_operand rfl).bind fun stop _ => (even_operand rfl).bind fun start _ => ?_
    refine (even_operand rfl).bind fun box _ => ?_
    exact ((neat_slice box start stop).even (calm_slice box start stop)).bind fun v _ =>
      (even_replaceTop v).next
  | func =>
    refine even_frame.bind fun f _ => ((neat_newClosure ..).even (calm_newClosure ..)).bind fun scope _ => ?_
    exact ((neat_newFunc ..).even (calm_newFunc ..)).bind fun v _ => (even_push v).next
  | each | index => exact (even_iterate _).next

end

end Act

end ScriptEngine
