import ScriptEngine.Proofs.Machine.Fresh
import ScriptEngine.Proofs.Machine.Guarding
import ScriptEngine.Proofs.Natives.Aloofness

/-!
# Calls are isolated

Whatever happens between the call of a script function and its return, what is below the call stays as it
was, and no instruction of the call looks at it.  The call may make other calls, natives may wait for other
contexts, the run may fail and be resumed by the host; when the call returns at last, its result stands where
its operands were, and the caller goes on behind the call.

* `Scene`, `Scene.Next`    an engine with its host, and what can happen next;
* `Scene.Lasts`            what can happen while a call lasts;
* `Context.Within`         inside a call, with everything below as it was;
* `Context.Back`           behind it;
* `Machine.call_isolated`   **calls are isolated.**
-/

namespace ScriptEngine

open World (ctx_modifyCtx_self)

/-! ## an engine with its host -/

/-- An engine between two requests of its host, or at work on one. -/
inductive Scene where
  | idle (w : World)
  | busy (m : Machine)

namespace Scene

def world : Scene → World
  | idle w => w
  | busy m => m.world

/-- What can happen next.  Besides making, using and dropping contexts a host may do inside the engine whatever
leaves the stacks alone. -/
inductive Next (lib : Library) : Scene → Scene → Prop
  | newContext (w : World) : Next lib (idle w) (idle w.newContext.2)
  | drop {w : World} {cx : CtxId} (hcx : w.InUse cx) (hroot : w.Unlinked cx) :
    Next lib (idle w) (idle (w.freeContext cx))
  | visit (w : World) {α : Type} {x : Act α} (hcalm : Act.Calm [] x) (hx : ∀ c, Act.Aloof c x) :
    Next lib (idle w) (idle (Engine.visit x w).2)
  | request {w : World} {cx : CtxId} (hcx : w.InUse cx) (q : Request) :
    Next lib (idle w) (busy ⟨w.enter, [], .begin cx q⟩)
  | step (m : Machine) : Next lib (busy m) (busy (m.step lib))
  | done {m : Machine} {r : Except Failure Value} (hr : m.result? = some r) :
    Next lib (busy m) (idle m.world.leave)

/-- What can happen as long as a context has more than `depth` frames. -/
inductive Lasts (lib : Library) (cx : CtxId) (depth : Nat) (s : Scene) : Scene → Prop
  | now (hd : depth < (s.world.ctx cx).frames.size) : Lasts lib cx depth s s
  | later {t u : Scene} (h : Lasts lib cx depth s t) (hn : Next lib t u)
    (hd : depth < (u.world.ctx cx).frames.size) : Lasts lib cx depth s u

/-- The contexts at work can go on, and all others are at rest. -/
def Sound : Scene → Prop
  | idle w => w.Fit []
  | busy m => m.Steady

/-- The context is in the middle of a call. -/
def Guards (k : Caller) (cx : CtxId) : Scene → Prop
  | idle w => cx < w.contexts.size ∧ k.Under w.options.maxStack (w.ctx cx)
  | busy m => m.Guards k cx

variable {lib : Library} {k : Caller} {cx : CtxId} {s t : Scene} {w : World}

theorem Next.sound (hcalm : lib.Calm) (hn : Next lib s t) (hs : s.Sound) : t.Sound := by
  cases hn with
  | newContext w => exact (World.Fit.keeps_newContext hs).fit
  | drop hcx hroot => exact (World.Fit.keeps_freeContext hs hcx.lt hroot (World.clear_nil _ _)).fit
  | visit w hx _ => exact World.Fit.visit hs hx
  | request hcx q => exact World.Fit.steady hs hcx q
  | step m => exact Machine.Steady.step hcalm hs
  | @done m r hr =>
    obtain ⟨hwaiting, hmode⟩ := Machine.of_result? hr
    have hworks := hs.works
    rw [hmode, hwaiting] at hworks
    exact (World.Fit.still hworks (World.still_leave _)).fit

/-- What leaves the stacks of all contexts alone leaves the context in the middle of the call. -/
theorem under_of_firm {w' : World} (hf : w.Firm w') (hg : cx < w.contexts.size ∧ k.Under w.options.maxStack (w.ctx cx)) :
    cx < w'.contexts.size ∧ k.Under w'.options.maxStack (w'.ctx cx) := by
  rw [hf.size, hf.options]
  exact ⟨hg.1, hg.2.same (hf.kept cx)⟩

theorem Next.guards (hcalm : lib.Calm) (hlib : lib.Aloof) (hk : k.frames ≠ #[]) (hn : Next lib s t)
    (hs : s.Sound) (hg : s.Guards k cx) (hd : k.frames.size < (t.world.ctx cx).frames.size) :
    t.Guards k cx := by
  cases hn with
  | newContext w => exact hg.2.of_aloof hg.1 Act.aloof_newContext hd
  | drop hcx hroot => exact hg.2.of_aloof hg.1 (Act.aloof_freeContext _) hd
  | @visit w α x hx haloof =>
    have hentered := under_of_firm (World.parallel_enter.firm w) hg
    have hleave := World.parallel_leave.firm (World.after (x.run w.enter))
    have hworld : (Engine.visit x w).2 = (World.after (x.run w.enter)).leave := by
      unfold Engine.visit
      cases x.run w.enter <;> rfl
    have hd' : k.frames.size < ((Engine.visit x w).2.ctx cx).frames.size := hd
    show cx < (Engine.visit x w).2.contexts.size ∧ k.Under _ ((Engine.visit x w).2.ctx cx)
    rw [hworld] at hd' ⊢
    rw [(hleave.kept cx).frames] at hd'
    exact under_of_firm hleave (hentered.2.of_aloof hentered.1 (haloof cx) hd')
  | @request w d hcx q =>
    obtain ⟨hlt, hunder⟩ := under_of_firm (World.parallel_enter.firm w) hg
    exact ⟨hlt, hunder, nofun, trivial⟩
  | step m => exact Machine.Guards.step hcalm hlib hk hs hg hd
  | @done m r hr => exact under_of_firm (World.parallel_leave.firm m.world) ⟨hg.lt, hg.under⟩

/-- **As long as the call lasts** the context is in the middle of it. -/
theorem Lasts.guards (hcalm : lib.Calm) (hlib : lib.Aloof) (hk : k.frames ≠ #[]) (hs : s.Sound)
    (hg : s.Guards k cx) (h : Lasts lib cx k.frames.size s t) : t.Sound ∧ t.Guards k cx := by
  induction h with
  | now hd => exact ⟨hs, hg⟩
  | later _ hn hd ih => exact ⟨hn.sound hcalm ih.1, hn.guards hcalm hlib hk ih.1 ih.2 hd⟩

end Scene

/-! ## calls -/

/-- What a call leaves below it in a context that is at a call with the frame `f`. -/
def Context.caller (c : Context) (f : Frame) (op : Op) (arg : Nat) : Caller where
  stack := c.stack.shrink (c.stack.size - op.takes arg)
  marks := c.marks
  frames := c.frames.pop.push { f with ip := f.ip + op.length }

/-- Inside the call, with everything below as it was. -/
structure Context.Within (c : Context) (k : Caller) : Prop where
  deeper : k.frames.size < c.frames.size
  frames : k.frames.toList <+: c.frames.toList
  stack : k.stack.toList <+: c.stack.toList
  marks : k.marks.toList <+: c.marks.toList

/-- Behind the call, which has returned `v`. -/
structure Context.Back (c : Context) (k : Caller) (v : Value) : Prop where
  frames : c.frames = k.frames
  stack : c.stack = k.stack.push v
  marks : c.marks = k.marks

/-- The context with other operands and marks at the bottom of its stacks. -/
def Context.onto (c : Context) (low : Array Value) (marks : Array Nat) : Context :=
  { c with
    stack := low ++ c.stack.extract low.size c.stack.size
    marks := marks ++ c.marks.extract marks.size c.marks.size }

/-- The same for one context of a machine. -/
def Machine.onto (m : Machine) (cx : CtxId) (low : Array Value) (marks : Array Nat) : Machine :=
  { m with world := m.world.modifyCtx cx (·.onto low marks) }

/-- As many operands and marks as are below the call; the objects among the operands are the same, but for
those that are pinned. -/
structure Caller.Alike (k : Caller) (w : World) (low : Array Value) (marks : Array Nat) : Prop where
  size : low.size = k.stack.size
  size_marks : marks.size = k.marks.size
  objects : ∀ a, .obj a ∈ low ∨ .obj a ∈ w.roots ↔ .obj a ∈ k.stack ∨ .obj a ∈ w.roots

section

variable {k : Caller} {c : Context} {limit : Nat} {q : Seal} {outer : List CtxId} {fr base : Array Frame}
  {upper : Array Nat} {n : Nat} {w w' : World}

theorem Above.isPrefix {height depth : Nat} (h : Above height depth base fr) : base.toList <+: fr.toList := by
  obtain ⟨l, g, hfr, -⟩ := h.stacked
  rw [← List.reverse_suffix]
  show fromTop base <:+ fromTop fr
  rw [hfr]
  exact List.suffix_append_of_suffix (List.suffix_cons g _)

theorem Caller.Under.within (h : k.Under limit c) : c.Within k := by
  obtain ⟨top, hstack, -⟩ := h.stack
  obtain ⟨upper, hmarks⟩ := h.marks
  refine ⟨h.frames.size_lt, h.frames.isPrefix, ?_, ?_⟩
  · rw [hstack, Array.toList_append]
    exact List.prefix_append _ _
  · rw [hmarks, Array.toList_append]
    exact List.prefix_append _ _

/-- The other engine is the first with other operands and marks below the call. -/
theorem Seal.Pair.onto (h : q.Pair outer fr upper n w w') :
    w' = w.modifyCtx q.cx (·.onto q.otherLow q.otherMarks) := by
  obtain ⟨top, -, hstack, rfl⟩ := h.operands
  have hupper {α : Type} {xs ys zs : Array α} (hs : ys.size = xs.size) :
      (xs ++ zs).extract ys.size (xs ++ zs).size = zs := by
    rw [hs, Array.size_append, Array.extract_append_right, Array.extract_size]
  apply World.modifyCtx_congr
  rw [Context.onto, hstack, h.marks, hupper q.size_low, hupper q.size_marks]
  show _ = ({ w.ctx q.cx with stack := _, frames := _, marks := _ } : Context)
  rw [← h.frames]
  rfl

theorem Context.back_of_pair {cx : CtxId} (h : (k.self cx limit).Pair outer k.frames #[] 1 w w') :
    ∃ v, (w.ctx cx).Back k v := by
  obtain ⟨top, hsize, hstack, -⟩ := h.operands
  obtain ⟨v, rfl⟩ : ∃ v, top = #[v] := Array.size_eq_one_iff.mp hsize
  refine ⟨v, h.frames, hstack, ?_⟩
  have hmarks : (w.ctx cx).marks = k.marks ++ #[] := h.marks
  rw [hmarks, Array.append_empty]

/-- The instruction that is read at a place is the one that is there. -/
theorem Context.InBounds.item {c : Context} {f : Frame} {op : Op} {arg : Nat} (h : c.InBounds f op arg) {i : Item}
    (hplace : i.place = f.ip) (hi : i.In f.code.words) :
    op = i.op ∧ (op.hasOperand = true → arg = i.arg) := by
  have hword : op.word = i.op.word := by
    have hi := hi.word
    rw [hplace, h.word] at hi
    exact Option.some.inj hi
  obtain rfl : op = i.op := by
    have hop := congrArg Op.ofWord? hword
    rw [Op.ofWord?_word, Op.ofWord?_word] at hop
    exact Option.some.inj hop
  refine ⟨rfl, fun ho => ?_⟩
  obtain ⟨x, hx, rfl⟩ := h.operand ho
  have harg := hi.arg
  rw [Op.argAt, if_pos ho, hplace, hx] at harg
  exact harg

theorem Context.caller_frames {c : Context} {f : Frame} {op : Op} {arg : Nat} (h : c.frames.back? = some f) :
    (c.caller f op arg).frames = Act.movedTo c.frames (f.ip + op.length) := by
  obtain ⟨fs, hfs⟩ : ∃ fs, fromTop c.frames = f :: fs := by
    rw [back?_eq_head?] at h
    exact List.head?_eq_some_iff.mp h
  have hsame : fromTop (c.caller f op arg).frames = fromTop (Act.movedTo c.frames (f.ip + op.length)) := by
    rw [Act.fromTop_movedTo hfs, Context.caller, fromTop_push, fromTop_pop, hfs]
    rfl
  exact Array.toList_inj.mp (List.reverse_injective hsame)

theorem shrink_append_extract {α : Type} (xs : Array α) (n : Nat) :
    xs = xs.shrink n ++ xs.extract n xs.size := by
  rw [Array.shrink_eq_take, Array.take_eq_extract, Array.extract_append_extract, Nat.zero_min,
    Array.extract_eq_self_of_le (Nat.le_max_right _ _)]

/-- **The call of a function**, as an instruction of the caller. -/
theorem Act.called_exec {lib : Library} {cx : CtxId} (hcalm : lib.Calm) (hlib : lib.Aloof)
    (hw : w.Fit (cx :: outer)) (hready : (w.ctx cx).Ready) {f : Frame} {op : Op} {arg : Nat}
    (hin : (w.ctx cx).InBounds f op arg)
    (hop : op = .fcall ∨ op = .mcall ∨ op = .fcallh ∨ op = .mcallh) :
    let k := (w.ctx cx).caller f op arg
    Act.Called (.self cx w.options.maxStack (op.takes arg) k.stack k.marks) outer k.frames #[] (op.takes arg)
      k.stack.size ((Act.exec lib cx).run w) ((Act.exec lib cx).run w) := by
  intro k
  obtain ⟨f', fs, rest, i, t, hframes, hplace, hi, -, -⟩ := hready.poised
  obtain rfl : f' = f := by
    have hback := hin.frame
    rw [back?_eq_head?, hframes] at hback
    exact Option.some.inj hback
  obtain ⟨rfl, harg⟩ := hin.item hplace hi
  have htakes : i.op.takes i.arg = i.op.takes arg := by
    rcases hop with h | h | h | h
    · rw [harg (by rw [h]; rfl)]
    · rw [harg (by rw [h]; rfl)]
    · rw [h]
      rfl
    · rw [h]
      rfl
  have henough := hin.takes
  have hsize : ((w.ctx cx).stack.extract ((w.ctx cx).stack.size - i.op.takes arg) (w.ctx cx).stack.size).size =
      i.op.takes arg := by
    rw [Array.size_extract]
    omega
  have hself : Seal.Pair (.self cx w.options.maxStack (i.op.takes arg) k.stack k.marks) outer (w.ctx cx).frames #[]
      (i.op.takes arg) w w := by
    have hpair := Seal.pair_self hw hready.resume hready.goes.1
      (shrink_append_extract _ ((w.ctx cx).stack.size - i.op.takes arg))
      Array.append_empty.symm (.inl (Nat.le_refl _))
    rw [hsize] at hpair
    exact hpair
  have hmoved := Act.pair_jump (Act.pair_untemped hself) (f'.ip + i.op.length)
  have hframes' : Act.movedTo (w.ctx cx).frames (f'.ip + i.op.length) = k.frames :=
    (Context.caller_frames hin.frame).symm
  rw [hframes', Seal.self_cx] at hmoved
  have hcall := Act.called_perform hcalm hlib hmoved hop (Nat.le_of_eq htakes) f'.code
  rw [Act.run_exec hframes hplace hi]
  rw [Seal.self_cx, htakes, Nat.add_sub_cancel] at hcall
  exact hcall

namespace Machine

variable {lib : Library} {m : Machine} {cx : CtxId}

/-- **What is below the call is not looked at** by an instruction of the call. -/
theorem step_onto (hcalm : lib.Calm) (hlib : lib.Aloof) (hk : k.frames ≠ #[]) (hm : m.Steady)
    (hg : m.Guards k cx) (hrun : m.mode = .running cx) {low : Array Value} {marks : Array Nat}
    (ha : k.Alike m.world low marks) : (m.onto cx low marks).step lib = (m.step lib).onto cx low marks := by
  obtain ⟨w, waiting, mode⟩ := m
  obtain rfl : mode = .running cx := hrun
  obtain ⟨⟨hw, hready⟩, -, -⟩ := hm
  obtain ⟨upper, top, -, -, hpair⟩ := hg.under.pair hw hready.resume ha.size ha.size_marks ha.objects
  have hparted := Act.parted_exec hcalm hlib hpair hg.under.frames rfl hk hready
  rw [hpair.onto, Caller.toSeal_cx] at hparted
  have honto {fr : Array Frame} {upper : Array Nat} {n : Nat} {w₁ w₁' : World}
      (h : (k.toSeal cx w.options.maxStack ha.size ha.size_marks).Pair (outer waiting) fr upper n w₁ w₁') :
      w₁' = w₁.modifyCtx cx (·.onto low marks) := h.onto
  show step lib ⟨w.modifyCtx cx (·.onto low marks), waiting, .running cx⟩ = _
  unfold step
  dsimp only
  have hlow : (k.toSeal cx w.options.maxStack ha.size ha.size_marks).otherLow = low := rfl
  have hmarks : (k.toSeal cx w.options.maxStack ha.size ha.size_marks).otherMarks = marks := rfl
  rw [hlow, hmarks] at hparted
  generalize (Act.exec lib cx).run w = r, (Act.exec lib cx).run (w.modifyCtx cx (·.onto low marks)) = r'
    at hparted ⊢
  cases hparted with
  | next h => rw [honto h]; rfl
  | back h => rw [honto h]; rfl
  | native h => rw [honto h]; rfl
  | failed h => rw [honto h]; rfl

/-- **An instruction of the call stays inside it**, or it returns from it. -/
theorem within_or_back (hcalm : lib.Calm) (hlib : lib.Aloof) (hk : k.frames ≠ #[]) (hm : m.Steady)
    (hg : m.Guards k cx) (hrun : m.mode = .running cx) : ((m.step lib).world.ctx cx).Within k ∨
      (m.step lib).mode = .running cx ∧ ∃ v, ((m.step lib).world.ctx cx).Back k v := by
  obtain ⟨w, waiting, mode⟩ := m
  obtain rfl : mode = .running cx := hrun
  obtain ⟨⟨hw, hready⟩, -, -⟩ := hm
  obtain ⟨upper, n, hpair⟩ := hg.under.self hw hready.resume
  have hparted := Act.parted_exec hcalm hlib hpair hg.under.frames rfl hk hready
  rw [Caller.self_cx] at hparted
  unfold step
  dsimp only
  generalize (Act.exec lib cx).run w = r at hparted ⊢
  cases hparted with
  | next h ha => exact .inl (Caller.under_of_pair h ha).within
  | back h => exact .inr ⟨rfl, Context.back_of_pair h⟩
  | native h ha => exact .inl (Caller.under_of_pair h ha).within
  | failed h ha => exact .inl (Caller.under_of_pair h ha).within

/-! ## where the call begins -/

/-- A call of a script function begins with nothing above what it leaves below. -/
theorem guards_of_call (hcalm : lib.Calm) (hlib : lib.Aloof) (hm : m.Steady) (hrun : m.mode = .running cx)
    {f : Frame} {op : Op} {arg : Nat} (hin : (m.world.ctx cx).InBounds f op arg)
    (hop : op = .fcall ∨ op = .mcall ∨ op = .fcallh ∨ op = .mcallh)
    (hcalled : (m.world.ctx cx).frames.size < ((m.step lib).world.ctx cx).frames.size) :
    (m.step lib).Guards ((m.world.ctx cx).caller f op arg) cx ∧
      ∃ g : Frame, g.bp = ((m.world.ctx cx).caller f op arg).stack.size ∧
        g.markBase = ((m.world.ctx cx).caller f op arg).marks.size ∧
        ((m.step lib).world.ctx cx).frames = ((m.world.ctx cx).caller f op arg).frames.push g := by
  obtain ⟨w, waiting, mode⟩ := m
  obtain rfl : mode = .running cx := hrun
  obtain ⟨⟨hw, hready⟩, -, -⟩ := hm
  have hcall := Act.called_exec hcalm hlib hw hready hin hop
  have hdepth : ((w.ctx cx).caller f op arg).frames.size = (w.ctx cx).frames.size := by
    rw [Context.caller_frames hin.frame, Act.movedTo, Array.size_modify]
  unfold step at hcalled ⊢
  dsimp only at hcalled ⊢
  generalize (w.ctx cx).caller f op arg = k at hcall hdepth ⊢
  generalize (Act.exec lib cx).run w = r at hcall hcalled ⊢
  cases hcall with
  | @frame g w₁ w₁' h bp markBase =>
    have hframes : (w₁.ctx cx).frames = k.frames.push g := h.frames
    have hresume : (w₁.ctx cx).resumeAt = none := h.resume
    obtain ⟨top, htop, hstack, -⟩ := h.operands
    have hnone : top.size ≤ 0 := by
      rw [htop]
      exact Nat.le_trans (Nat.min_le_right ..) (Nat.le_of_eq (Nat.sub_self _))
    refine ⟨⟨h.fit.lt, ⟨⟨top, hstack, .inl hnone⟩, ⟨#[], h.marks⟩, ?_, ?_⟩, ?_, trivial⟩, g, bp, markBase, hframes⟩
    · have habove := above_push k.frames g
      rw [bp, markBase] at habove
      rw [hframes]
      exact habove
    · intro height hh
      rw [hresume] at hh
      cases hh
    · intro who hwho hcx
      exact absurd hcx.symm (h.fit.ne (List.mem_map_of_mem hwho))
  | @native n _ _ w₁ w₁' h =>
    have hframes : (w₁.ctx cx).frames = k.frames := h.frames
    dsimp only at hcalled
    rw [hframes, hdepth] at hcalled
    exact absurd hcalled (Nat.lt_irrefl _)
  | @failed n _ w₁ w₁' h =>
    have hframes : (w₁.ctx cx).frames = k.frames := h.frames
    dsimp only at hcalled
    rw [hframes, hdepth] at hcalled
    exact absurd hcalled (Nat.lt_irrefl _)

/-- **Calls are isolated.**  Take any run of a request, on any engine a host can come to, and in it the call of
a script function by any of the four calling instructions.  The frame of the function has its operands and
its marks above all that are there, but for the operands of the call.  As long as the call lasts, whatever
happens, these stay as they are, and so do the frames of the caller.  No instruction of the call, or of the
calls it makes, does anything else when there are others in their place.  Nor does one end the call but by
returning: then the context goes on behind the call, with its result on top of them. -/
theorem call_isolated (hcalm : lib.Calm) (hlib : lib.Aloof) {w : World} (hw : w.Reached lib) {root : CtxId}
    (hroot : w.InUse root) (q : Request) (n : Nat) {f : Frame} {op : Op} {arg : Nat} :
    let m := (step lib)^[n] ⟨w.enter, [], .begin root q⟩
    let k := (m.world.ctx cx).caller f op arg
    m.mode = .running cx → (m.world.ctx cx).InBounds f op arg →
    op = .fcall ∨ op = .mcall ∨ op = .fcallh ∨ op = .mcallh →
    (m.world.ctx cx).frames.size < ((m.step lib).world.ctx cx).frames.size →
    (∃ g : Frame, g.bp = k.stack.size ∧ g.markBase = k.marks.size ∧
      ((m.step lib).world.ctx cx).frames = k.frames.push g) ∧
    ∀ s, Scene.Lasts lib cx k.frames.size (.busy (m.step lib)) s →
      (s.world.ctx cx).Within k ∧
      ∀ m', s = .busy m' → m'.mode = .running cx →
        (∀ low marks, k.Alike m'.world low marks →
          (m'.onto cx low marks).step lib = (m'.step lib).onto cx low marks) ∧
        (((m'.step lib).world.ctx cx).Within k ∨
          (m'.step lib).mode = .running cx ∧ ∃ v, ((m'.step lib).world.ctx cx).Back k v) := by
  intro m k hrun hin hop hcalled
  have hm : m.Steady := ((hw.fit hcalm).steady hroot q).run hcalm n
  obtain ⟨hg, hframe⟩ := guards_of_call hcalm hlib hm hrun hin hop hcalled
  have hk : k.frames ≠ #[] := Array.push_ne_empty
  have hbegun : (Scene.busy (m.step lib)).Sound := hm.step hcalm
  refine ⟨hframe, fun s hs => ?_⟩
  obtain ⟨hsound, hguards⟩ := hs.guards hcalm hlib hk hbegun hg
  constructor
  · cases s with
    | idle w => exact hguards.2.within
    | busy m' => exact hguards.under.within
  · rintro m' rfl hrun'
    exact ⟨fun low marks ha => step_onto hcalm hlib hk hsound hguards hrun' ha,
      within_or_back hcalm hlib hk hsound hguards hrun'⟩

/-- A function without a body that is called in a loop: its frame begins above the mark of the loop, and the
call lasts for one instruction at least. -/
theorem call_isolated_sample :
    ∃ f : Frame,
      let m := Sample.run 3
      let k := (m.world.ctx 0).caller f .fcall 0
      (m.world.ctx 0).InBounds f .fcall 0 ∧ k.marks.size = 1 ∧
      (∃ g : Frame, g.bp = k.stack.size ∧ g.markBase = k.marks.size ∧
        ((m.step .core).world.ctx 0).frames = k.frames.push g) ∧
      ((m.step .core).world.ctx 0).Within k := by
  have hrun : (Sample.run 3).mode = .running 0 := mode_of_running? (by decide +kernel)
  have hat : (((Sample.run 3).world.ctx 0).frames.back?.map fun f =>
      (f.code.words[f.ip]?, f.code.words[f.ip + 1]?)) = some (some 35, some 0) := by decide +kernel
  obtain ⟨f, hf, hwords⟩ := Option.map_eq_some_iff.mp hat
  have hin : ((Sample.run 3).world.ctx 0).InBounds f .fcall 0 :=
    ⟨hf, congrArg Prod.fst hwords, fun _ => ⟨0, congrArg Prod.snd hwords, rfl⟩, nofun, by decide +kernel⟩
  obtain ⟨hframe, hlasts⟩ := call_isolated Library.calm_core Library.aloof_core Sample.reached Sample.inUse
    (.call Sample.engine.1 #[] .nil .nil) 3 hrun hin (.inl rfl) (by decide +kernel)
  have hmark : ((Sample.run 3).world.ctx 0).marks.size = 1 := by decide +kernel
  have hdeeper : (((Sample.run 3).world.ctx 0).caller f .fcall 0).frames.size <
      (((Sample.run 3).step .core).world.ctx 0).frames.size := by
    rw [Context.caller, Array.size_push, Array.size_pop]
    decide +kernel
  refine ⟨f, hin, ?_, hframe, (hlasts _ (.now hdeeper)).1⟩
  rw [Context.caller, hmark]

end Machine

end

end ScriptEngine
