import ScriptEngine.Proofs.Machine.Stillness

/-!
# Where a context stands

Each call of a context is at a place of its code, with some operands and marks of its own: those on the
stacks, or for a call that waits for another one, those that there will be when that one returns.  In
every typing of its code the place has a shape that is related to them.

* `Standing`         a place of code, with the operands and marks there are;
* `Calls`            the calls of a context, innermost first, with the marks and the operands there are;
* `Context.Ready`    a context that can go on with the instruction it is at;
* `Context.Parked`   a context that can go on with the result of a native at a height;
* `Context.Rested`   a context that can be resumed, if it says where;
* `Poised`           a context in the middle of an instruction.
-/

namespace ScriptEngine

/-! ## stacks from the top -/

section

variable {α : Type} {xs : Array α}

def fromTop (xs : Array α) : List α := xs.toList.reverse

@[simp] theorem fromTop_empty : fromTop (#[] : Array α) = [] := rfl

@[simp] theorem fromTop_push (xs : Array α) (x : α) : fromTop (xs.push x) = x :: fromTop xs := by
  rw [fromTop, Array.toList_push, List.reverse_append]
  rfl

@[simp] theorem fromTop_pop (xs : Array α) : fromTop xs.pop = (fromTop xs).tail := by
  rw [fromTop, fromTop, Array.toList_pop, List.tail_reverse]

theorem length_fromTop (xs : Array α) : (fromTop xs).length = xs.size := by
  rw [fromTop, List.length_reverse, Array.length_toList]

theorem back?_eq_head? (xs : Array α) : xs.back? = (fromTop xs).head? := by
  rw [fromTop, List.head?_reverse, Array.getLast?_toList]

theorem fromTop_eq_nil : fromTop xs = [] ↔ xs = #[] := by
  rw [fromTop, List.reverse_eq_nil_iff, Array.toList_eq_nil_iff]

theorem fromTop_shrink {l r : List α} (h : fromTop xs = l ++ r) :
    fromTop (xs.shrink r.length) = r := by
  have hlist : xs.toList = r.reverse ++ l.reverse := by
    rw [← List.reverse_append, ← h, fromTop, List.reverse_reverse]
  rw [fromTop, Array.toList_shrink, hlist, List.take_left' List.length_reverse, List.reverse_reverse]

theorem fromTop_modify_last {x : α} {l : List α} (h : fromTop xs = x :: l) (f : α → α) :
    fromTop (xs.modify (xs.size - 1) f) = f x :: l := by
  have hlist : xs.toList = l.reverse ++ [x] := by
    rw [← List.reverse_cons, ← h, fromTop, List.reverse_reverse]
  have hsize : xs.size - 1 = l.reverse.length := by
    rw [← Array.length_toList, hlist, List.length_append]
    rfl
  have hmod : (l.reverse ++ [x]).modify (l.reverse.length + 0) f = l.reverse ++ [f x] :=
    List.modifyTailIdx_add _ 0 _ _
  rw [fromTop, Array.toList_modify, hlist, hsize, ← Nat.add_zero l.reverse.length, hmod,
    List.reverse_append, List.reverse_reverse]
  rfl

end

/-! ## calls -/

/-- In every typing of the words the place has a shape that is related to `t`. -/
structure Standing (words : Array UInt16) (ip : Nat) (t : Shape) : Prop where
  shape : ∀ {R : Shape → Shape → Prop} {consts : Nat} {K : Nat → Shape → Prop}, Kept R →
    Typing R words consts K → ∃ u, K ip u ∧ R u t

theorem standing_start (words : Array UInt16) : Standing words 0 .none :=
  ⟨fun hR hK => ⟨_, hK.start, hR.refl _⟩⟩

section

variable {words : Array UInt16} {consts : Nat} {K : Nat → Shape → Prop} {ip : Nat} {t : Shape}

/-- **One instruction further**: where it goes on, and where it may jump, code stands as well. -/
theorem Standing.item (h : Standing words ip t) (hK : Typing (· ≤ ·) words consts K) :
    ∃ i : Item, i.place = ip ∧ i.In words ∧ (i.op.takesConst = true → i.arg < consts) ∧
      i.op.takes i.arg ≤ t.height ∧ (i.op.usesMark = true → t.marks ≠ []) ∧
      (∀ t', i.op.next i.arg t = some t' → Standing words (ip + i.op.length) t') ∧
      ∀ t', i.op.target t = some t' → Standing words i.arg t' := by
  obtain ⟨u, hu, hle⟩ := h.shape kept_le hK
  obtain ⟨i, rfl, hin, hconst, hflows⟩ := hK.fits ip u hu
  refine ⟨i, rfl, hin, hconst, Nat.le_trans hflows.takes hle.height, fun hm h0 => ?_,
    fun t' ht' => ⟨fun {R n L} hR hL => ?_⟩, fun t' ht' => ⟨fun {R n L} hR hL => ?_⟩⟩
  · have hmarks := hle.marks
    cases hu : u.marks with
    | nil => exact hflows.marked hm hu
    | cons m ms =>
      rw [hu, h0] at hmarks
      exact hmarks
  -- the same instruction is there for every typing
  · obtain ⟨v, hv, hRv⟩ := h.shape hR hL
    obtain ⟨k, hplace, hk, -, hkflows⟩ := hL.fits i.place v hv
    obtain rfl := hk.unique hin hplace
    obtain ⟨v', hv', hRv'⟩ := hR.next hRv ht'
    obtain ⟨x, hx, hRx⟩ := hkflows.next v' hv'
    exact ⟨x, hx, hR.trans hRx hRv'⟩
  · obtain ⟨v, hv, hRv⟩ := h.shape hR hL
    obtain ⟨k, hplace, hk, -, hkflows⟩ := hL.fits i.place v hv
    obtain rfl := hk.unique hin hplace
    obtain ⟨v', hv', hRv'⟩ := hR.target hRv ht'
    obtain ⟨x, hx, hRx⟩ := hkflows.jump v' hv'
    exact ⟨x, hx, hR.trans hRx hRv'⟩

end

/-- Calls, innermost first, with the marks there are, topmost first, and the operands. -/
inductive Calls : List Frame → List Nat → Nat → Prop
  | nil {marks : List Nat} {room : Nat} : Calls [] marks room
  | cons {f : Frame} {fs : List Frame} {marks rest : List Nat} {room : Nat} (t : Shape)
    (code : f.code.Typed) (standing : Standing f.code.words f.ip t)
    (height : room = f.bp + t.height) (marked : marks = t.marks.map (f.bp + ·) ++ rest)
    (base : rest.length = f.markBase) (below : Calls fs rest (f.bp + 1)) : Calls (f :: fs) marks room

namespace Context

/-- There is a call, and it can go on with `room` operands. -/
def Goes (c : Context) (room : Nat) : Prop :=
  c.frames ≠ #[] ∧ Calls (fromTop c.frames) (fromTop c.marks) room

/-- Ready for the next instruction. -/
structure Ready (c : Context) : Prop where
  goes : c.Goes c.stack.size
  resume : c.resumeAt = none

/-- Ready for a result at the height `base`. -/
structure Parked (base : Nat) (c : Context) : Prop where
  goes : c.Goes (base + 1)
  room : base < c.stack.size

/-- If it is to be resumed, it is ready for the result. -/
def Rested (c : Context) : Prop := ∀ base, c.resumeAt = some base → c.frames ≠ #[] → c.Parked base

theorem Rested.of_none {c : Context} (h : c.resumeAt = none) : c.Rested := by
  intro base hb
  rw [h] at hb
  exact nomatch hb

structure SameStacks (c c' : Context) : Prop where
  stack : c'.stack = c.stack
  frames : c'.frames = c.frames
  marks : c'.marks = c.marks
  resumeAt : c'.resumeAt = c.resumeAt

namespace SameStacks

variable {c c' c'' : Context}

theorem refl (c : Context) : c.SameStacks c := ⟨rfl, rfl, rfl, rfl⟩

theorem trans (h : c.SameStacks c') (h' : c'.SameStacks c'') : c.SameStacks c'' :=
  ⟨h'.stack.trans h.stack, h'.frames.trans h.frames, h'.marks.trans h.marks,
    h'.resumeAt.trans h.resumeAt⟩

theorem of_bare (h : c'.bare = c.bare) : c.SameStacks c' :=
  ⟨(congrArg Context.stack h :), (congrArg Context.frames h :), (congrArg Context.marks h :),
    (congrArg Context.resumeAt h :)⟩

theorem goes (h : c.SameStacks c') {room : Nat} (hg : c.Goes room) : c'.Goes room := by
  rw [Goes, h.frames, h.marks]
  exact hg

theorem parked (h : c.SameStacks c') {base : Nat} (hp : c.Parked base) : c'.Parked base :=
  ⟨h.goes hp.goes, by rw [h.stack]; exact hp.room⟩

theorem ready (h : c.SameStacks c') (hr : c.Ready) : c'.Ready :=
  ⟨by rw [h.stack]; exact h.goes hr.goes, h.resumeAt.trans hr.resume⟩

theorem rested (h : c.SameStacks c') (hr : c.Rested) : c'.Rested := by
  intro base hb hf
  rw [h.resumeAt] at hb
  rw [h.frames] at hf
  exact h.parked (hr base hb hf)

end SameStacks

/-- Nothing but the operands changes, and there are `n` of them then. -/
structure Level (n : Nat) (c c' : Context) : Prop where
  size : c'.stack.size = n
  frames : c'.frames = c.frames
  marks : c'.marks = c.marks
  resumeAt : c'.resumeAt = c.resumeAt

theorem Level.trans {m n : Nat} {c c' c'' : Context} (h : Level m c c') (h' : Level n c' c'') :
    Level n c c'' :=
  ⟨h'.size, h'.frames.trans h.frames, h'.marks.trans h.marks, h'.resumeAt.trans h.resumeAt⟩

theorem SameStacks.level {c c' : Context} (h : c.SameStacks c') : Level c.stack.size c c' :=
  ⟨by rw [h.stack], h.frames, h.marks, h.resumeAt⟩

end Context

/-! ## instructions -/

/-- A context about to execute `op` with the operand `arg`, with the operands and marks `t`: its
innermost frame is already at the next instruction. -/
structure Poised (c : Context) (f : Frame) (fs : List Frame) (rest : List Nat) (op : Op) (arg : Nat)
    (t : Shape) : Prop where
  frames : fromTop c.frames = f :: fs
  height : c.stack.size = f.bp + t.height
  marks : fromTop c.marks = t.marks.map (f.bp + ·) ++ rest
  resume : c.resumeAt = none
  base : rest.length = f.markBase
  below : Calls fs rest (f.bp + 1)
  code : f.code.Typed
  takes : op.takes arg ≤ t.height
  marked : op.usesMark = true → t.marks ≠ []
  next : ∀ t', op.next arg t = some t' → Standing f.code.words f.ip t'
  jump : ∀ t', op.target t = some t' → Standing f.code.words arg t'

namespace Poised

variable {c c' : Context} {f : Frame} {fs : List Frame} {rest : List Nat} {op : Op} {arg : Nat}
  {t : Shape}

theorem enough (h : Poised c f fs rest op arg t) : f.bp + op.takes arg ≤ c.stack.size := by
  rw [h.height]
  exact Nat.add_le_add_left h.takes _

theorem enough_takes (h : Poised c f fs rest op arg t) : op.takes arg ≤ c.stack.size :=
  Nat.le_trans (Nat.le_add_left _ _) h.enough

theorem same (h : Poised c f fs rest op arg t) (hs : c.SameStacks c') :
    Poised c' f fs rest op arg t :=
  { h with
    frames := by rw [hs.frames]; exact h.frames
    height := by rw [hs.stack]; exact h.height
    marks := by rw [hs.marks]; exact h.marks
    resume := hs.resumeAt.trans h.resume }

/-- Going on at `ip` with the operands and marks `t'`. -/
theorem calls (h : Poised c f fs rest op arg t) {ip : Nat} {t' : Shape}
    (hs : Standing f.code.words ip t') {marks : List Nat}
    (hmarks : marks = t'.marks.map (f.bp + ·) ++ rest) :
    Calls ({ f with ip } :: fs) marks (f.bp + t'.height) :=
  .cons t' h.code hs rfl hmarks h.base h.below

theorem frames_ne (h : fromTop c.frames = f :: fs) : c.frames ≠ #[] := by
  intro h0
  rw [h0] at h
  exact nomatch h

theorem tail_suffix (h : Poised c f fs rest op arg t) (hf : c'.frames = c.frames) :
    (fromTop c'.frames).tail <:+ f :: fs := by
  rw [hf, h.frames]
  exact List.suffix_cons ..

theorem goOn (h : Poised c f fs rest op arg t) (hp : op.isPlain = true) {room : Nat}
    (hroom : room = c.stack.size - op.takes arg + op.gives) (hframes : c'.frames = c.frames)
    (hmarks : c'.marks = c.marks) : c'.Goes room := by
  have hheight := h.height
  have htakes := h.takes
  have hnext := h.next _ (Op.next_of_isPlain hp arg t)
  refine ⟨by rw [hframes]; exact frames_ne h.frames, ?_⟩
  rw [hframes, hmarks, h.frames,
    show room = f.bp + (t.height - op.takes arg + op.gives) by omega]
  exact h.calls hnext h.marks

theorem plain (h : Poised c f fs rest op arg t) (hp : op.isPlain = true)
    (hl : Context.Level (c.stack.size - op.takes arg + op.gives) c c') : c'.Ready :=
  ⟨h.goOn hp hl.size hl.frames hl.marks, hl.resumeAt.trans h.resume⟩

/-- A call of a native, whose result takes the place of `base` and what is above it. -/
theorem parked (h : Poised c f fs rest op arg t) (hp : op.isPlain = true)
    (hg : op.gives = 1) (hpos : 0 < op.takes arg) (hs : c.SameStacks c') :
    c'.Parked (c.stack.size - op.takes arg) := by
  refine ⟨h.goOn hp (by rw [hg]) hs.frames hs.marks, ?_⟩
  rw [hs.stack]
  exact Nat.sub_lt (Nat.lt_of_lt_of_le hpos h.enough_takes) hpos

theorem called (h : Poised c f fs rest op arg t) (hp : op.isPlain = true)
    (hg : op.gives = 1) {g : Frame} (hcode : g.code.Typed) (hip : g.ip = 0)
    (hbp : g.bp = c.stack.size - op.takes arg) (hbase : g.markBase = c.marks.size)
    (hsize : c'.stack.size = c.stack.size - op.takes arg) (hframes : c'.frames = c.frames.push g)
    (hmarks : c'.marks = c.marks) (hresume : c'.resumeAt = c.resumeAt) : c'.Ready := by
  have hbelow : c.Goes (g.bp + 1) := by
    rw [hbp]
    exact h.goOn hp (by rw [hg]) rfl rfl
  refine ⟨⟨?_, ?_⟩, hresume.trans h.resume⟩
  · rw [hframes]
    exact Array.push_ne_empty
  · rw [hframes, hmarks, fromTop_push]
    refine .cons .none hcode ?_ (by rw [hsize, hbp]; rfl) rfl ?_ hbelow.2
    · rw [hip]
      exact standing_start _
    · exact (length_fromTop c.marks).trans hbase.symm

theorem jumped (h : Poised c f fs rest op arg t) {t' : Shape} (ht : op.target t = some t')
    (hm : t'.marks = t.marks) (hsize : c'.stack.size = f.bp + t'.height)
    (hframes : fromTop c'.frames = { f with ip := arg } :: fs) (hmarks : c'.marks = c.marks)
    (hresume : c'.resumeAt = c.resumeAt) : c'.Ready := by
  refine ⟨⟨frames_ne hframes, ?_⟩, hresume.trans h.resume⟩
  rw [hframes, hmarks, hsize]
  exact h.calls (h.jump t' ht) (by rw [hm]; exact h.marks)

/-! ### marks -/

theorem remarked (h : Poised c f fs rest op arg t) {t' : Shape} (ht : op.next arg t = some t')
    (hsize : c'.stack.size = f.bp + t'.height) (hframes : c'.frames = c.frames)
    (hmarks : fromTop c'.marks = t'.marks.map (f.bp + ·) ++ rest)
    (hresume : c'.resumeAt = c.resumeAt) : c'.Ready := by
  refine ⟨⟨by rw [hframes]; exact frames_ne h.frames, ?_⟩, hresume.trans h.resume⟩
  rw [hframes, h.frames, hsize]
  exact h.calls (h.next t' ht) hmarks

theorem mark (h : Poised c f fs rest .mark arg t) :
    { c with marks := c.marks.push c.stack.size }.Ready := by
  refine h.remarked rfl h.height rfl ?_ rfl
  rw [fromTop_push, h.marks, h.height]
  rfl

/-- The last mark of a call that uses it. -/
theorem exists_mark (h : Poised c f fs rest op arg t) (hu : op.usesMark = true) :
    ∃ m ms, t.marks = m :: ms ∧ c.marks.back? = some (f.bp + m) := by
  cases hm : t.marks with
  | nil => exact absurd hm (h.marked hu)
  | cons m ms =>
    refine ⟨m, ms, rfl, ?_⟩
    rw [back?_eq_head?, h.marks, hm]
    rfl

theorem unmark (h : Poised c f fs rest .unmark arg t) :
    { c with marks := c.marks.pop }.Ready := by
  obtain ⟨m, ms, hm, -⟩ := h.exists_mark rfl
  refine h.remarked rfl h.height rfl ?_ rfl
  show fromTop c.marks.pop = t.marks.tail.map _ ++ rest
  rw [fromTop_pop, h.marks, hm]
  rfl

theorem size_cut (h : Poised c f fs rest op arg t) (m : Nat) :
    (c.stack.shrink (f.bp + m)).size = f.bp + min t.height m := by
  rw [Array.size_shrink, h.height]
  omega

theorem cutBack (h : Poised c f fs rest .cutBack arg t) :
    ∃ x, c.marks.back? = some x ∧ { c with stack := c.stack.shrink x }.Ready := by
  obtain ⟨m, ms, hm, hback⟩ := h.exists_mark rfl
  refine ⟨_, hback, h.remarked rfl ?_ rfl h.marks rfl⟩
  show _ = f.bp + min t.height (t.marks.headD 0)
  rw [hm]
  exact h.size_cut m

theorem cutBackPop (h : Poised c f fs rest .cutBackPop arg t) :
    ∃ x, c.marks.back? = some x ∧
      { c with marks := c.marks.pop, stack := c.stack.shrink x }.Ready := by
  obtain ⟨m, ms, hm, hback⟩ := h.exists_mark rfl
  refine ⟨_, hback, h.remarked rfl ?_ rfl ?_ rfl⟩
  · show _ = f.bp + min t.height (t.marks.headD 0)
    rw [hm]
    exact h.size_cut m
  · show fromTop c.marks.pop = t.marks.tail.map _ ++ rest
    rw [fromTop_pop, h.marks, hm]
    rfl

/-- Behind a return the call below goes on, if there is one. -/
theorem returned (h : Poised c f fs rest .ret arg t) (hne : c.frames.pop ≠ #[])
    (hsize : c'.stack.size = f.bp + 1) (hframes : c'.frames = c.frames.pop)
    (hmarks : c'.marks = c.marks.shrink f.markBase) (hresume : c'.resumeAt = c.resumeAt) :
    c'.Ready := by
  refine ⟨⟨by rw [hframes]; exact hne, ?_⟩, hresume.trans h.resume⟩
  rw [hframes, hmarks, hsize, fromTop_pop, h.frames, ← h.base, fromTop_shrink h.marks]
  exact h.below

end Poised

/-- **The instruction a ready context is at**: it is there, its operand is in bounds, and there is
enough for it. -/
theorem Context.Ready.poised {c : Context} (h : c.Ready) :
    ∃ (f : Frame) (fs : List Frame) (rest : List Nat) (i : Item) (t : Shape), fromTop c.frames = f :: fs ∧ i.place = f.ip ∧ i.In f.code.words ∧
      (i.op.takesConst = true → i.arg < f.code.consts.size) ∧
      ∀ c', fromTop c'.frames = { f with ip := f.ip + i.op.length } :: fs → c'.stack = c.stack →
        c'.marks = c.marks → c'.resumeAt = c.resumeAt →
        Poised c' { f with ip := f.ip + i.op.length } fs rest i.op i.arg t := by
  obtain ⟨⟨hne, hcalls⟩, hresume⟩ := h
  generalize hfr : fromTop c.frames = frames at hcalls
  cases hcalls with
  | nil => exact absurd (fromTop_eq_nil.mp hfr) hne
  | @cons f fs _ rest _ t hcode hstanding hheight hmarks hbase hbelow =>
    obtain ⟨K, hK⟩ := hcode.shapes
    obtain ⟨i, hplace, hin, hconst, htakes, hmarked, hnext, hjump⟩ := hstanding.item hK
    refine ⟨f, fs, rest, i, t, rfl, hplace, hin, hconst, fun c' hf hst hm hr => ?_⟩
    exact ⟨hf, by rw [hst]; exact hheight, by rw [hm]; exact hmarks, hr.trans hresume, hbase, hbelow,
      hcode, htakes, hmarked, hnext, hjump⟩

end ScriptEngine
