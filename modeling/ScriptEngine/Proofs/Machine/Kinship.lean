import Mathlib.Logic.Relation
import ScriptEngine.Machine.Act
import ScriptEngine.Proofs.Machine.Footing
import ScriptEngine.Proofs.Runs

/-!
# Contexts inside contexts

A context works on its child while a native of it waits, so the contexts that are at work form a
chain of children; or the native works on a context that is not above any of them.  Freeing what is
below the innermost of them, or giving it a new child, touches none of them: nesting grows from parent
to child, and a free context is nobody's child.

* `World.Kin`     how contexts, their children and the free contexts are related;
* `World.Clear`   a context that is not above any of those in a list;
* `World.Held`    contexts at work, innermost first;
* `World.Fit`     an engine with some contexts at work and all others at rest;
* `World.Keeps`, `World.Moves`   what is kept of the contexts at work;
* `World.Fit.freeChild`, `World.Fit.keeps_freeContext`   freeing;
* `World.Fit.keeps_newContext`, `World.Fresh.adopt`   making contexts and children.
-/

namespace ScriptEngine.World

open Relation (ReflTransGen TransGen)

/-- Children know their parents and are nested deeper; free contexts have no kin. -/
structure Kin (w : World) : Prop where
  lt : ∀ c d, (w.ctx c).child = some d → d < w.contexts.size
  used : ∀ c d, (w.ctx c).child = some d → d ∉ w.freeContexts
  parent : ∀ c d, (w.ctx c).child = some d → (w.ctx d).parent = some c
  deeper : ∀ c d, (w.ctx c).child = some d → (w.ctx c).nesting < (w.ctx d).nesting
  spare_lt : ∀ c ∈ w.freeContexts, c < w.contexts.size
  spare_child : ∀ c ∈ w.freeContexts, (w.ctx c).child = none
  nodup : w.freeContexts.toList.Nodup

def Child (w : World) (a b : CtxId) : Prop := (w.ctx a).child = some b

/-- None of the contexts in the list is the context `c` or below it. -/
def Clear (w : World) (c : CtxId) (held : List CtxId) : Prop := ∀ d ∈ held, ¬ ReflTransGen w.Child c d

theorem clear_nil (w : World) (c : CtxId) : w.Clear c [] := fun _ hd => nomatch hd

/-- Contexts at work, innermost first: each is the child of the next one, or it is above none of those
further out. -/
inductive Held (w : World) : List CtxId → Prop
  | nil : Held w []
  | root {c : CtxId} {l : List CtxId} (hlt : c < w.contexts.size) (hused : c ∉ w.freeContexts)
    (hclear : w.Clear c l) (hrest : Held w l) : Held w (c :: l)
  | child {c d : CtxId} {l : List CtxId} (hchild : (w.ctx d).child = some c)
    (hrest : Held w (d :: l)) : Held w (c :: d :: l)

/-- An engine in which the contexts of `held` are at work. -/
structure Fit (held : List CtxId) (w : World) : Prop where
  kin : w.Kin
  chain : w.Held held
  typed : w.heap.Typed
  rested : ∀ c, c ∉ held → (w.ctx c).Rested

/-- The stacks of the contexts at work are kept. -/
structure Keeps (held : List CtxId) (w w' : World) : Prop where
  fit : w'.Fit held
  same : ∀ c ∈ held, (w.ctx c).SameStacks (w'.ctx c)

/-- The stacks of all of them but the innermost are kept. -/
structure Moves (cx : CtxId) (outer : List CtxId) (w w' : World) : Prop where
  fit : w'.Fit (cx :: outer)
  same : ∀ c ∈ outer, (w.ctx c).SameStacks (w'.ctx c)
  resumeAt : (w'.ctx cx).resumeAt = (w.ctx cx).resumeAt

section

variable {held outer : List CtxId} {cx : CtxId} {w w' w'' : World}

theorem Keeps.refl (hw : w.Fit held) : w.Keeps held w := ⟨hw, fun _ _ => .refl _⟩

theorem Keeps.trans (h : w.Keeps held w') (h' : w'.Keeps held w'') : w.Keeps held w'' :=
  ⟨h'.fit, fun c hc => (h.same c hc).trans (h'.same c hc)⟩

theorem Moves.refl (hw : w.Fit (cx :: outer)) : w.Moves cx outer w := ⟨hw, fun _ _ => .refl _, rfl⟩

theorem Moves.trans (h : w.Moves cx outer w') (h' : w'.Moves cx outer w'') :
    w.Moves cx outer w'' :=
  ⟨h'.fit, fun c hc => (h.same c hc).trans (h'.same c hc), h'.resumeAt.trans h.resumeAt⟩

theorem Keeps.head (h : w.Keeps (cx :: outer) w') : (w.ctx cx).SameStacks (w'.ctx cx) :=
  h.same cx List.mem_cons_self

theorem Keeps.moves (h : w.Keeps (cx :: outer) w') : w.Moves cx outer w' :=
  ⟨h.fit, fun c hc => h.same c (List.mem_cons_of_mem _ hc), h.head.resumeAt⟩

theorem Held.tail (h : w.Held (cx :: outer)) : w.Held outer := by
  cases h with
  | root _ _ _ hrest => exact hrest
  | child _ hrest => exact hrest

theorem Held.in_use (h : w.Held held) (hk : w.Kin) {c : CtxId} (hc : c ∈ held) :
    c < w.contexts.size ∧ c ∉ w.freeContexts := by
  induction h with
  | nil => exact nomatch hc
  | root hlt hused _ _ ih =>
    rcases List.mem_cons.mp hc with rfl | hc
    · exact ⟨hlt, hused⟩
    · exact ih hc
  | child hchild _ ih =>
    rcases List.mem_cons.mp hc with rfl | hc
    · exact ⟨hk.lt _ _ hchild, hk.used _ _ hchild⟩
    · exact ih hc

theorem Kin.nesting_lt (hk : w.Kin) {c d : CtxId} (h : TransGen w.Child c d) :
    (w.ctx c).nesting < (w.ctx d).nesting := by
  induction h with
  | single h => exact hk.deeper _ _ h
  | tail _ h ih => exact Nat.lt_trans ih (hk.deeper _ _ h)

/-- The innermost context is above none of the others. -/
theorem Held.clear (h : w.Held (cx :: outer)) (hk : w.Kin) : w.Clear cx outer := by
  generalize hl : cx :: outer = l at h
  induction h generalizing cx outer with
  | nil => exact nomatch hl
  | root _ _ hclear _ _ =>
    cases hl
    exact hclear
  | child hchild _ ih =>
    cases hl
    intro x hx hbelow
    rcases List.mem_cons.mp hx with rfl | hx
    · exact Nat.lt_irrefl _ (hk.nesting_lt (.head' hchild hbelow))
    · exact ih rfl x hx (.head hchild hbelow)

theorem Held.nodup (h : w.Held held) (hk : w.Kin) : held.Nodup := by
  induction held with
  | nil => exact .nil
  | cons c l ih => exact List.nodup_cons.mpr ⟨fun hc => h.clear hk c hc .refl, ih h.tail⟩

theorem Fit.lt (hw : w.Fit (cx :: outer)) : cx < w.contexts.size :=
  (hw.chain.in_use hw.kin List.mem_cons_self).1

theorem Fit.ne (hw : w.Fit (cx :: outer)) {c : CtxId} (hc : c ∈ outer) : cx ≠ c := by
  rintro rfl
  exact hw.chain.clear hw.kin cx hc .refl

/-! ## changes that leave the kinship alone -/

theorem Kin.congr (hk : w.Kin) (hsize : w'.contexts.size = w.contexts.size)
    (hfree : w'.freeContexts = w.freeContexts) (hchild : ∀ c, (w'.ctx c).child = (w.ctx c).child)
    (hparent : ∀ c, (w'.ctx c).parent = (w.ctx c).parent)
    (hnesting : ∀ c, (w'.ctx c).nesting = (w.ctx c).nesting) : w'.Kin := by
  constructor
  · simpa only [hchild, hsize] using hk.lt
  · simpa only [hchild, hfree] using hk.used
  · simpa only [hchild, hparent] using hk.parent
  · simpa only [hchild, hnesting] using hk.deeper
  · simpa only [hfree, hsize] using hk.spare_lt
  · simpa only [hfree, hchild] using hk.spare_child
  · rw [hfree]
    exact hk.nodup

/-- Links that are new lead to contexts that are not at work and have no children. -/
def Relinks (held : List CtxId) (w w' : World) : Prop :=
  ∀ a b, w'.Child a b → w.Child a b ∨ b ∉ held ∧ (w'.ctx b).child = none

theorem Relinks.of_child (h : ∀ a b, w'.Child a b → w.Child a b) : Relinks held w w' :=
  fun a b hab => .inl (h a b hab)

/-- What is below a context and at work was so before. -/
theorem Relinks.below (h : Relinks held w w') {c d : CtxId} (hd : d ∈ held) (hcd : ReflTransGen w'.Child c d) :
    ReflTransGen w.Child c d := by
  have hall : ∀ d, ReflTransGen w'.Child c d → (d ∈ held ∨ (w'.ctx d).child ≠ none) → ReflTransGen w.Child c d := by
    intro d hcd
    induction hcd with
    | refl => exact fun _ => .refl
    | @tail a b _ hab ih =>
      intro hb
      have hlinked : (w'.ctx a).child ≠ none := by
        rw [show (w'.ctx a).child = some b from hab]
        exact Option.some_ne_none b
      rcases h a b hab with hab | ⟨hout, hnone⟩
      · exact (ih (.inr hlinked)).tail hab
      · exact absurd hb (not_or.mpr ⟨hout, not_not.mpr hnone⟩)
  exact hall d hcd (.inl hd)

theorem Held.congr (h : w.Held held) (hsize : w.contexts.size ≤ w'.contexts.size)
    (hfree : ∀ c ∈ held, c ∈ w'.freeContexts → c ∈ w.freeContexts)
    (hchild : ∀ c ∈ held.tail, (w'.ctx c).child = (w.ctx c).child) (hlinks : Relinks held w w') : w'.Held held := by
  induction h with
  | nil => exact .nil
  | root hlt hused hclear _ ih =>
    refine .root (Nat.lt_of_lt_of_le hlt hsize) (fun hc => hused (hfree _ List.mem_cons_self hc))
      (fun d hd hcd => hclear d hd (hlinks.below (List.mem_cons_of_mem _ hd) hcd)) (ih ?_ ?_ ?_)
    · exact fun c hm => hfree c (List.mem_cons_of_mem _ hm)
    · exact fun c hm => hchild c (List.mem_of_mem_tail hm)
    · exact fun a b hab => (hlinks a b hab).imp_right fun hb => ⟨fun hm => hb.1 (List.mem_cons_of_mem _ hm), hb.2⟩
  | child hc _ ih =>
    refine .child ((hchild _ List.mem_cons_self).trans hc) (ih ?_ ?_ ?_)
    · exact fun c hm => hfree c (List.mem_cons_of_mem _ hm)
    · exact fun c hm => hchild c (List.mem_of_mem_tail hm)
    · exact fun a b hab => (hlinks a b hab).imp_right fun hb => ⟨fun hm => hb.1 (List.mem_cons_of_mem _ hm), hb.2⟩

/-- Nothing that is still touches the contexts at work. -/
theorem Fit.still (hw : w.Fit held) (h : w.Still w') : w.Keeps held w' := by
  have hchild (c : CtxId) : (w'.ctx c).child = (w.ctx c).child :=
    (congrArg Context.child (h.bare c) :)
  refine ⟨⟨?_, ?_, h.typed hw.typed, fun c hc => ?_⟩, fun c _ => .of_bare (h.bare c)⟩
  · exact hw.kin.congr h.size h.free hchild (fun c => (congrArg Context.parent (h.bare c) :))
      fun c => (congrArg Context.nesting (h.bare c) :)
  · refine hw.chain.congr (Nat.le_of_eq h.size.symm) (fun c _ hf => ?_) (fun c _ => hchild c)
      (.of_child fun a b hab => (hchild a).symm.trans hab)
    rw [← h.free]
    exact hf
  · exact (Context.SameStacks.of_bare (h.bare c)).rested (hw.rested c hc)

/-- A change of the stacks of the innermost context. -/
theorem Fit.modifyCtx (hw : w.Fit (cx :: outer)) {f : Context → Context}
    (hchild : ∀ c, (f c).child = c.child) (hparent : ∀ c, (f c).parent = c.parent)
    (hnesting : ∀ c, (f c).nesting = c.nesting) : (w.modifyCtx cx f).Fit (cx :: outer) := by
  have hsize := size_modifyCtx w cx f
  refine ⟨?_, ?_, hw.typed, fun c hc => ?_⟩
  · exact hw.kin.congr hsize rfl (field_modifyCtx _ hchild)
      (field_modifyCtx _ hparent) (field_modifyCtx _ hnesting)
  · have hlink : ∀ c, ((w.modifyCtx cx f).ctx c).child = (w.ctx c).child := field_modifyCtx Context.child hchild
    exact hw.chain.congr (Nat.le_of_eq hsize.symm) (fun _ _ hf => hf) (fun c _ => hlink c)
      (.of_child fun a b hab => (hlink a).symm.trans hab)
  · have hne : cx ≠ c := by
      rintro rfl
      exact hc List.mem_cons_self
    rw [ctx_modifyCtx_of_ne hne]
    exact hw.rested c hc

theorem Fit.moves_modifyCtx (hw : w.Fit (cx :: outer)) {f : Context → Context}
    (hchild : ∀ c, (f c).child = c.child) (hparent : ∀ c, (f c).parent = c.parent)
    (hnesting : ∀ c, (f c).nesting = c.nesting) (hresume : ∀ c, (f c).resumeAt = c.resumeAt) :
    w.Moves cx outer (w.modifyCtx cx f) := by
  refine ⟨hw.modifyCtx hchild hparent hnesting, fun c hc => ?_, field_modifyCtx _ hresume cx⟩
  rw [ctx_modifyCtx_of_ne (hw.ne hc)]
  exact .refl _

/-! ## freeing -/

/-- Nobody has the context as a child. -/
def Unlinked (w : World) (x : CtxId) : Prop := ∀ c, (w.ctx c).child ≠ some x

/-- What is left after some contexts have been reset. -/
structure Freed (w w' : World) : Prop where
  kin : w'.Kin
  heap : w'.heap = w.heap
  size : w'.contexts.size = w.contexts.size
  reset : ∀ c, w'.ctx c = w.ctx c ∨ w'.ctx c = {}

theorem Freed.refl (hk : w.Kin) : w.Freed w := ⟨hk, rfl, rfl, fun _ => .inl rfl⟩

theorem Freed.trans (h : w.Freed w') (h' : w'.Freed w'') : w.Freed w'' := by
  refine ⟨h'.kin, h'.heap.trans h.heap, h'.size.trans h.size, fun c => ?_⟩
  rcases h'.reset c with h1 | h1
  · rcases h.reset c with h2 | h2
    · exact .inl (h1.trans h2)
    · exact .inr (h1.trans h2)
  · exact .inr h1

/-- No context has become a child. -/
theorem Freed.child (h : w.Freed w') {a b : CtxId} (hab : w'.Child a b) : w.Child a b := by
  rcases h.reset a with ha | ha
  · rw [Child, ha] at hab
    exact hab
  · rw [Child, ha] at hab
    exact nomatch hab

def putBack (w : World) (x : CtxId) : World :=
  if w.freeContexts.contains x then w else { w with freeContexts := w.freeContexts.push x }

theorem mem_putBack {x c : CtxId} :
    c ∈ (w.putBack x).freeContexts ↔ c ∈ w.freeContexts ∨ c = x := by
  unfold putBack
  split
  · rename_i hx
    have hx : x ∈ w.freeContexts := Array.contains_iff_mem.mp hx
    exact ⟨.inl, fun h => h.elim id fun h => h ▸ hx⟩
  · exact Array.mem_push

theorem nodup_putBack (hn : w.freeContexts.toList.Nodup) (x : CtxId) :
    (w.putBack x).freeContexts.toList.Nodup := by
  unfold putBack
  split
  · exact hn
  · rename_i hx
    show (w.freeContexts.push x).toList.Nodup
    rw [Array.toList_push]
    refine List.nodup_append.mpr ⟨hn, List.nodup_singleton x, ?_⟩
    rintro a ha b hb rfl
    rw [List.mem_singleton] at hb
    subst hb
    exact hx (Array.contains_iff_mem.mpr (Array.mem_toList_iff.mp ha))

theorem ctx_putBack (x c : CtxId) : (w.putBack x).ctx c = w.ctx c := by
  unfold putBack
  split <;> rfl

def dropped (w : World) (x : CtxId) : World := (w.modifyCtx x fun _ => {}).putBack x

theorem ctx_dropped_self {x : CtxId} (hx : x < w.contexts.size) : (w.dropped x).ctx x = {} := by
  rw [dropped, ctx_putBack, ctx_modifyCtx_self hx]

theorem ctx_dropped_of_ne {x c : CtxId} (hc : x ≠ c) : (w.dropped x).ctx c = w.ctx c := by
  rw [dropped, ctx_putBack, ctx_modifyCtx_of_ne hc]

theorem size_dropped (w : World) (x : CtxId) :
    (w.dropped x).contexts.size = w.contexts.size := by
  unfold dropped putBack
  split
  · exact size_modifyCtx ..
  · exact size_modifyCtx ..

theorem child_dropped {x a b : CtxId} (h : (w.dropped x).Child a b) : w.Child a b := by
  by_cases hx : x = a
  · subst hx
    by_cases hlt : x < w.contexts.size
    · rw [Child, ctx_dropped_self hlt] at h
      exact nomatch h
    · rw [Child, ctx_of_ge (by rw [size_dropped]; exact Nat.le_of_not_lt hlt)] at h
      exact nomatch h
  · rw [Child, ctx_dropped_of_ne hx] at h
    exact h

theorem Kin.freed_reset (hk : w.Kin) {x : CtxId} (hx : x < w.contexts.size) (hu : w.Unlinked x) :
    w.Freed (w.dropped x) := by
  have hself := ctx_dropped_self hx
  have hother {c : CtxId} (hc : x ≠ c) := ctx_dropped_of_ne (w := w) hc
  have hsize := size_dropped w x
  -- a child of another context is still its child, and not the one that was reset
  have hlink {c d : CtxId} (h : ((w.dropped x).ctx c).child = some d) :
      (w.ctx c).child = some d ∧ x ≠ c ∧ x ≠ d := by
    have hc : x ≠ c := by
      rintro rfl
      rw [hself] at h
      exact nomatch h
    rw [hother hc] at h
    refine ⟨h, hc, ?_⟩
    rintro rfl
    exact hu c h
  refine ⟨⟨fun c d h => ?_, fun c d h hf => ?_, fun c d h => ?_, fun c d h => ?_, fun c hc => ?_,
    fun c hc => ?_, nodup_putBack (w := w.modifyCtx x _) hk.nodup x⟩, ?_, hsize, fun c => ?_⟩
  · rw [hsize]
    exact hk.lt c d (hlink h).1
  · rcases mem_putBack.mp hf with hf | rfl
    · exact hk.used c d (hlink h).1 hf
    · exact (hlink h).2.2 rfl
  · rw [hother (hlink h).2.2]
    exact hk.parent c d (hlink h).1
  · rw [hother (hlink h).2.1, hother (hlink h).2.2]
    exact hk.deeper c d (hlink h).1
  · rw [hsize]
    rcases mem_putBack.mp hc with hc | rfl
    · exact hk.spare_lt c hc
    · exact hx
  · by_cases hxc : x = c
    · rw [← hxc, hself]
    · rw [hother hxc]
      rcases mem_putBack.mp hc with hc | rfl
      · exact hk.spare_child c hc
      · exact absurd rfl hxc
  · unfold dropped putBack
    split <;> rfl
  · by_cases hxc : x = c
    · exact .inr (hxc ▸ hself)
    · exact .inl (hother hxc)

/-- Freeing a chain of children whose first is nobody's child. -/
theorem Kin.freeChain (hk : w.Kin) (fuel : Nat) (x : Option CtxId)
    (hx : ∀ y, x = some y → y < w.contexts.size ∧ w.Unlinked y) : w.Freed (freeChain fuel x w) := by
  induction fuel generalizing x w with
  | zero => exact .refl hk
  | succ fuel ih =>
    cases x with
    | none => exact .refl hk
    | some x =>
      obtain ⟨hlt, hu⟩ := hx x rfl
      have hfreed := hk.freed_reset hlt hu
      refine hfreed.trans (ih hfreed.kin _ fun y hy => ⟨?_, fun c hc => ?_⟩)
      · rw [hfreed.size]
        exact hk.lt x y hy
      · rcases hfreed.reset c with h | h
        · -- its only parent has just been reset
          rw [h] at hc
          have hparent := (hk.parent c y hc).symm.trans (hk.parent x y hy)
          obtain rfl := Option.some.inj hparent
          rw [ctx_dropped_self hlt] at h
          rw [← h] at hc
          exact nomatch hc
        · rw [h] at hc
          exact nomatch hc

theorem Kin.freed_freeContext (hk : w.Kin) {x : CtxId} (hx : x < w.contexts.size) (hu : w.Unlinked x) :
    w.Freed (w.freeContext x) := by
  refine hk.freeChain w.contexts.size (some x) ?_
  rintro y ⟨⟩
  exact ⟨hx, hu⟩

/-- Freeing does not touch contexts that are not below the one that is freed. -/
theorem kept_freeChain (n : Nat) (x : Option CtxId) (w : World) {c : CtxId}
    (hx : ∀ y, x = some y → ¬ ReflTransGen w.Child y c) :
    (freeChain n x w).ctx c = w.ctx c ∧ (c ∈ (freeChain n x w).freeContexts → c ∈ w.freeContexts) := by
  induction n generalizing x w with
  | zero => exact ⟨rfl, id⟩
  | succ n ih =>
    cases x with
    | none => exact ⟨rfl, id⟩
    | some x =>
      have hne : x ≠ c := by
        rintro rfl
        exact hx x rfl .refl
      obtain ⟨hctx, hfree⟩ := ih (w.ctx x).child (w.dropped x) fun y hy hyc =>
        hx x rfl (.head hy (ReflTransGen.mono (fun _ _ => child_dropped) _ _ hyc))
      refine ⟨hctx.trans (ctx_dropped_of_ne hne), fun h => ?_⟩
      rcases mem_putBack.mp (hfree h) with h | rfl
      · exact h
      · exact absurd rfl hne

theorem kept_freeContext (w : World) {x c : CtxId} (h : ¬ ReflTransGen w.Child x c) :
    (w.freeContext x).ctx c = w.ctx c ∧ (c ∈ (w.freeContext x).freeContexts → c ∈ w.freeContexts) := by
  refine kept_freeChain w.contexts.size (some x) w ?_
  rintro y ⟨⟩
  exact h

def unlinked (w : World) (cx : CtxId) : World := w.modifyCtx cx fun c => { c with child := none }

theorem child_unlinked {c d : CtxId} (h : ((w.unlinked cx).ctx c).child = some d) :
    (w.ctx c).child = some d ∧ cx ≠ c := by
  by_cases hc : cx = c
  · subst hc
    by_cases hlt : cx < w.contexts.size
    · rw [unlinked, ctx_modifyCtx_self hlt] at h
      exact nomatch h
    · rw [ctx_of_ge (by rw [unlinked, size_modifyCtx]; exact Nat.le_of_not_lt hlt)] at h
      exact nomatch h
  · rw [unlinked, ctx_modifyCtx_of_ne hc] at h
    exact ⟨h, hc⟩

theorem Kin.unlinked (hk : w.Kin) (cx : CtxId) : (w.unlinked cx).Kin := by
  have hparent : ∀ c, ((w.unlinked cx).ctx c).parent = (w.ctx c).parent :=
    field_modifyCtx Context.parent fun _ => rfl
  have hnesting : ∀ c, ((w.unlinked cx).ctx c).nesting = (w.ctx c).nesting :=
    field_modifyCtx Context.nesting fun _ => rfl
  refine ⟨fun c d h => ?_, fun c d h => ?_, fun c d h => ?_, fun c d h => ?_, fun c hc => ?_,
    fun c hc => ?_, hk.nodup⟩
  · rw [World.unlinked, size_modifyCtx]
    exact hk.lt c d (child_unlinked h).1
  · exact hk.used c d (child_unlinked h).1
  · exact (hparent d).trans (hk.parent c d (child_unlinked h).1)
  · rw [hnesting c, hnesting d]
    exact hk.deeper c d (child_unlinked h).1
  · rw [World.unlinked, size_modifyCtx]
    exact hk.spare_lt c hc
  · cases hchild : ((w.unlinked cx).ctx c).child with
    | none => rfl
    | some d =>
      have h := (child_unlinked hchild).1
      rw [hk.spare_child c hc] at h
      exact nomatch h

/-- The engine once the child of a context is freed. -/
def childless (w : World) (c : CtxId) : World :=
  match (w.ctx c).child with
  | some d => (w.unlinked c).freeContext d
  | none => w

theorem childless_of_none {c : CtxId} (h : (w.ctx c).child = none) : w.childless c = w := by
  unfold childless
  rw [h]

theorem childless_of_some {c d : CtxId} (h : (w.ctx c).child = some d) :
    w.childless c = (w.unlinked c).freeContext d := by
  unfold childless
  rw [h]

theorem run_freeChild (w : World) (c : CtxId) : (Act.freeChild c).run w = .ok () (w.childless c) := by
  show EStateM.run (match (w.ctx c).child with | some child => _ | none => _) w = _
  unfold childless
  cases (w.ctx c).child <;> rfl

theorem Kin.freed_childless (hk : w.Kin) {d : CtxId} (hd : (w.ctx cx).child = some d) :
    (w.unlinked cx).Freed (w.childless cx) := by
  rw [childless_of_some hd]
  refine (hk.unlinked cx).freed_freeContext ?_ fun c hc => ?_
  · rw [World.unlinked, size_modifyCtx]
    exact hk.lt cx d hd
  · obtain ⟨hc, hcx⟩ := child_unlinked hc
    exact hcx (Option.some.inj ((hk.parent cx d hd).symm.trans (hk.parent c d hc)))

/-- Freeing the child of a context does not touch the contexts that are not below it. -/
theorem kept_childless {d c : CtxId} (hd : (w.ctx cx).child = some d) (hc : ¬ TransGen w.Child cx c) :
    (w.childless cx).ctx c = (w.unlinked cx).ctx c ∧
      (c ∈ (w.childless cx).freeContexts → c ∈ w.freeContexts) := by
  rw [childless_of_some hd]
  refine kept_freeContext (w.unlinked cx) fun hbelow => hc ?_
  exact .head' hd (ReflTransGen.mono (fun _ _ h => (child_unlinked h).1) _ _ hbelow)

/-- **Freeing the child of the innermost context** touches none at work. -/
theorem Fit.freeChild (hw : w.Fit (cx :: outer)) :
    ∃ w', (Act.freeChild cx).run w = .ok () w' ∧ w.Keeps (cx :: outer) w' ∧
      (w'.ctx cx).child = none ∧ (w'.ctx cx).nesting = (w.ctx cx).nesting ∧
      w'.contexts.size = w.contexts.size := by
  refine ⟨w.childless cx, run_freeChild w cx, ?_⟩
  cases hd : (w.ctx cx).child with
  | none =>
    rw [childless_of_none hd]
    exact ⟨.refl hw, hd, rfl, rfl⟩
  | some d =>
    have hother {c : CtxId} (hc : cx ≠ c) : (w.unlinked cx).ctx c = w.ctx c :=
      ctx_modifyCtx_of_ne hc _
    have hsize : (w.unlinked cx).contexts.size = w.contexts.size := size_modifyCtx ..
    have hfreed := hw.kin.freed_childless hd
    have hself : ¬ TransGen w.Child cx cx := fun h => Nat.lt_irrefl _ (hw.kin.nesting_lt h)
    have hcx := kept_childless hd hself
    have hcx' : (w.childless cx).ctx cx = { w.ctx cx with child := none } :=
      hcx.1.trans (ctx_modifyCtx_self hw.lt _)
    -- the innermost context is above none of the others
    have houter {c : CtxId} (hc : c ∈ outer) :
        (w.childless cx).ctx c = w.ctx c ∧ (c ∈ (w.childless cx).freeContexts → c ∈ w.freeContexts) := by
      have hkept := kept_childless hd fun h => hw.chain.clear hw.kin c hc h.to_reflTransGen
      exact ⟨hkept.1.trans (hother (hw.ne hc)), hkept.2⟩
    refine ⟨⟨⟨hfreed.kin, ?_, ?_, fun c hc => ?_⟩, fun c hc => ?_⟩, ?_, ?_, hfreed.size.trans hsize⟩
    · refine hw.chain.congr (Nat.le_of_eq (hfreed.size.trans hsize).symm) (fun c hc => ?_)
        (fun c hc => by rw [(houter hc).1]) (.of_child fun a b hab => (child_unlinked (hfreed.child hab)).1)
      rcases List.mem_cons.mp hc with rfl | hc
      · exact hcx.2
      · exact (houter hc).2
    · rw [hfreed.heap]
      exact hw.typed
    · rcases hfreed.reset c with h | h
      · have hne : cx ≠ c := by
          rintro rfl
          exact hc List.mem_cons_self
        rw [h, hother hne]
        exact hw.rested c hc
      · rw [h]
        exact .of_none rfl
    · rcases List.mem_cons.mp hc with rfl | hc
      · rw [hcx']
        exact ⟨rfl, rfl, rfl, rfl⟩
      · rw [(houter hc).1]
        exact .refl _
    · rw [hcx']
    · rw [hcx']

/-- **Freeing a context that is nobody's child** and not above any at work. -/
theorem Fit.keeps_freeContext (hw : w.Fit held) {x : CtxId} (hlt : x < w.contexts.size) (hu : w.Unlinked x)
    (hclear : w.Clear x held) : w.Keeps held (w.freeContext x) := by
  have hfreed := hw.kin.freed_freeContext hlt hu
  have hkept {c : CtxId} (hc : c ∈ held) := kept_freeContext w (hclear c hc)
  refine ⟨⟨hfreed.kin, ?_, hfreed.heap ▸ hw.typed, fun c hc => ?_⟩, fun c hc => ?_⟩
  · exact hw.chain.congr (Nat.le_of_eq hfreed.size.symm) (fun c hc => (hkept hc).2)
      (fun c hc => by rw [(hkept (List.mem_of_mem_tail hc)).1]) (.of_child fun a b => hfreed.child)
  · rcases hfreed.reset c with h | h
    · rw [h]
      exact hw.rested c hc
    · rw [h]
      exact .of_none rfl
  · rw [(hkept hc).1]
    exact .refl _

/-! ## new contexts -/

/-- A context that was in nobody's use. -/
structure Fresh (w : World) (sub : CtxId) (w' : World) : Prop where
  kin : w'.Kin
  heap : w'.heap = w.heap
  lt : sub < w'.contexts.size
  used : sub ∉ w'.freeContexts
  unlinked : w'.Unlinked sub
  childless : (w'.ctx sub).child = none
  ctx : ∀ c, w'.ctx c = w.ctx c
  grown : w.contexts.size ≤ w'.contexts.size
  free : ∀ c, c ∈ w'.freeContexts → c ∈ w.freeContexts
  other : ∀ c, c < w.contexts.size → c ∉ w.freeContexts → sub ≠ c

/-- The last of the free contexts is none of the others. -/
theorem Kin.exists_last (hk : w.Kin) {x : CtxId} (hx : w.freeContexts.back? = some x) :
    x ∈ w.freeContexts ∧ x ∉ w.freeContexts.pop ∧ w.freeContexts.pop.toList.Nodup ∧
      ∀ c, c ∈ w.freeContexts.pop → c ∈ w.freeContexts := by
  rw [← Array.getLast?_toList, List.getLast?_eq_some_iff] at hx
  obtain ⟨l, hl⟩ := hx
  have hnodup := hk.nodup
  rw [hl] at hnodup
  obtain ⟨hn, -, hdisj⟩ := List.nodup_append.mp hnodup
  have hpop : w.freeContexts.pop.toList = l := by rw [Array.toList_pop, hl, List.dropLast_concat]
  refine ⟨?_, ?_, by rw [hpop]; exact hn, fun c hc => ?_⟩
  · rw [← Array.mem_toList_iff, hl]
    exact List.mem_append_right _ List.mem_cons_self
  · rw [← Array.mem_toList_iff, hpop]
    exact fun hx => hdisj x hx x List.mem_cons_self rfl
  · rw [← Array.mem_toList_iff, hpop] at hc
    rw [← Array.mem_toList_iff, hl]
    exact List.mem_append_left _ hc

theorem Kin.newContext (hk : w.Kin) : w.Fresh w.newContext.1 w.newContext.2 := by
  unfold World.newContext
  cases hback : w.freeContexts.back? with
  | some x =>
    obtain ⟨hmem, hout, hnodup, hsub⟩ := hk.exists_last hback
    refine ⟨⟨hk.lt, fun c d h hf => hk.used c d h (hsub d hf), hk.parent, hk.deeper,
      fun c hc => hk.spare_lt c (hsub c hc), fun c hc => hk.spare_child c (hsub c hc), hnodup⟩, rfl,
      hk.spare_lt x hmem, hout, fun c hc => hk.used c x hc hmem, hk.spare_child x hmem, fun _ => rfl,
      Nat.le_refl _, hsub, ?_⟩
    rintro c - hc rfl
    exact hc hmem
  | none =>
    have hctx := ctx_push_empty w
    have hsize : w.contexts.size < (w.contexts.push {}).size := by
      rw [Array.size_push]
      exact Nat.lt_succ_self _
    have hlt {c d : CtxId} (h : (w.ctx c).child = some d) : d < (w.contexts.push {}).size :=
      Nat.lt_trans (hk.lt c d h) hsize
    refine ⟨⟨?_, ?_, ?_, ?_, fun c hc => Nat.lt_trans (hk.spare_lt c hc) hsize, ?_, hk.nodup⟩, rfl,
      hsize, fun hc => ?_, fun c hc => ?_, ?_, hctx, Nat.le_of_lt hsize, fun _ hc => hc, ?_⟩
    · simpa only [hctx] using fun c d => hlt
    · simpa only [hctx] using hk.used
    · simpa only [hctx] using hk.parent
    · simpa only [hctx] using hk.deeper
    · simpa only [hctx] using hk.spare_child
    · exact Nat.lt_irrefl _ (hk.spare_lt _ hc)
    · rw [hctx] at hc
      exact Nat.lt_irrefl _ (hk.lt _ _ hc)
    · rw [hctx, ctx_of_ge (Nat.le_refl _)]
    · rintro c hc - rfl
      exact Nat.lt_irrefl _ hc

theorem Fit.keeps_newContext (hw : w.Fit held) : w.Keeps held w.newContext.2 := by
  have hf := hw.kin.newContext
  refine ⟨⟨hf.kin, ?_, hf.heap ▸ hw.typed, fun c hc => ?_⟩, fun c _ => ?_⟩
  · refine hw.chain.congr hf.grown (fun c _ => hf.free c) (fun c _ => congrArg Context.child (hf.ctx c))
      (.of_child fun a b hab => ?_)
    rw [Child, hf.ctx] at hab
    exact hab
  · rw [hf.ctx]
    exact hw.rested c hc
  · rw [hf.ctx]
    exact .refl _

/-- Making a context that nobody uses the child of one that has none. -/
def adopt (w : World) (cx sub : CtxId) (n : Nat) : World :=
  (w.modifyCtx sub fun c => { c with parent := some cx, nesting := n }).modifyCtx cx fun c =>
    { c with child := some sub }

theorem ctx_adopt_of_ne {sub c : CtxId} (n : Nat) (hcx : cx ≠ c) (hsub : sub ≠ c) :
    (w.adopt cx sub n).ctx c = w.ctx c := by
  rw [adopt, ctx_modifyCtx_of_ne hcx, ctx_modifyCtx_of_ne hsub]

theorem ctx_adopt_parent {sub : CtxId} (n : Nat) (hlt : cx < w.contexts.size) (hne : sub ≠ cx) :
    (w.adopt cx sub n).ctx cx = { w.ctx cx with child := some sub } := by
  rw [adopt, ctx_modifyCtx_self (by rw [size_modifyCtx]; exact hlt), ctx_modifyCtx_of_ne hne]

theorem ctx_adopt_child {sub : CtxId} (n : Nat) (hlt : sub < w.contexts.size) (hne : sub ≠ cx) :
    (w.adopt cx sub n).ctx sub = { w.ctx sub with parent := some cx, nesting := n } := by
  rw [adopt, ctx_modifyCtx_of_ne hne.symm, ctx_modifyCtx_self hlt]

theorem size_adopt (w : World) (cx sub : CtxId) (n : Nat) :
    (w.adopt cx sub n).contexts.size = w.contexts.size := by
  rw [adopt, size_modifyCtx, size_modifyCtx]

theorem child_adopt {sub a b : CtxId} {n : Nat} (h : ((w.adopt cx sub n).ctx a).child = some b) :
    (w.ctx a).child = some b ∨ b = sub := by
  have hsub : ∀ a, ((w.modifyCtx sub fun c => { c with parent := some cx, nesting := n }).ctx a).child =
      (w.ctx a).child :=
    field_modifyCtx Context.child fun _ => rfl
  unfold adopt at h
  by_cases ha : cx = a
  · subst ha
    by_cases hlt : cx < w.contexts.size
    · rw [ctx_modifyCtx_self (by rw [size_modifyCtx]; exact hlt)] at h
      exact .inr (Option.some.inj h).symm
    · rw [ctx_of_ge (by rw [size_modifyCtx, size_modifyCtx]; exact Nat.le_of_not_lt hlt)] at h
      exact nomatch h
  · rw [ctx_modifyCtx_of_ne ha, hsub] at h
    exact .inl h

theorem Kin.adopt (hk : w.Kin) {sub : CtxId} (hsub : sub < w.contexts.size)
    (hused : sub ∉ w.freeContexts) (hun : w.Unlinked sub) (hless : (w.ctx sub).child = none)
    (hcx : cx < w.contexts.size) (hcxused : cx ∉ w.freeContexts) (hne : sub ≠ cx) {n : Nat}
    (hn : (w.ctx cx).nesting < n) : (w.adopt cx sub n).Kin := by
  have hparent := ctx_adopt_parent n hcx hne
  have hchild := ctx_adopt_child n hsub hne
  -- the one new link, or one that was there
  have hlink {c d : CtxId} (h : ((w.adopt cx sub n).ctx c).child = some d) :
      (c = cx ∧ d = sub) ∨ ((w.ctx c).child = some d ∧ cx ≠ c ∧ sub ≠ c ∧ sub ≠ d) := by
    by_cases hc : cx = c
    · subst hc
      rw [hparent] at h
      exact .inl ⟨rfl, (Option.some.inj h).symm⟩
    · by_cases hc' : sub = c
      · subst hc'
        rw [hchild] at h
        exact nomatch hless.symm.trans h
      · rw [ctx_adopt_of_ne n hc hc'] at h
        refine .inr ⟨h, hc, hc', ?_⟩
        rintro rfl
        exact hun c h
  have hfields {d : CtxId} (hd : sub ≠ d) : ((w.adopt cx sub n).ctx d).parent = (w.ctx d).parent ∧
      ((w.adopt cx sub n).ctx d).nesting = (w.ctx d).nesting := by
    by_cases hc : cx = d
    · rw [← hc, hparent]
      exact ⟨rfl, rfl⟩
    · rw [ctx_adopt_of_ne n hc hd]
      exact ⟨rfl, rfl⟩
  refine ⟨fun c d h => ?_, fun c d h => ?_, fun c d h => ?_, fun c d h => ?_, fun c hc => ?_,
    fun c hc => ?_, hk.nodup⟩
  · rw [size_adopt]
    rcases hlink h with ⟨-, rfl⟩ | ⟨h, -⟩
    · exact hsub
    · exact hk.lt c d h
  · rcases hlink h with ⟨-, rfl⟩ | ⟨h, -⟩
    · exact hused
    · exact hk.used c d h
  · rcases hlink h with ⟨rfl, rfl⟩ | ⟨h, -, -, hd⟩
    · rw [hchild]
    · rw [(hfields hd).1]
      exact hk.parent c d h
  · rcases hlink h with ⟨rfl, rfl⟩ | ⟨h, -, hc, hd⟩
    · rw [hchild, hparent]
      exact hn
    · rw [(hfields hc).2, (hfields hd).2]
      exact hk.deeper c d h
  · rw [size_adopt]
    exact hk.spare_lt c hc
  · have hc1 : cx ≠ c := by
      rintro rfl
      exact hcxused hc
    have hc2 : sub ≠ c := by
      rintro rfl
      exact hused hc
    rw [ctx_adopt_of_ne n hc1 hc2]
    exact hk.spare_child c hc

theorem Fresh.adopt {sub : CtxId} (h : w.Fresh sub w') (hw : w.Fit (cx :: outer)) {n : Nat}
    (hn : (w.ctx cx).nesting < n) : w.Keeps (cx :: outer) (w'.adopt cx sub n) := by
  have hin {c : CtxId} (hc : c ∈ cx :: outer) := hw.chain.in_use hw.kin hc
  have hne {c : CtxId} (hc : c ∈ cx :: outer) : sub ≠ c := h.other c (hin hc).1 (hin hc).2
  have hhead := hin List.mem_cons_self
  have hcx' : cx < w'.contexts.size := Nat.lt_of_lt_of_le hhead.1 h.grown
  have houter {c : CtxId} (hc : c ∈ outer) : (w'.adopt cx sub n).ctx c = w.ctx c := by
    rw [ctx_adopt_of_ne n (hw.ne hc) (hne (List.mem_cons_of_mem _ hc)), h.ctx]
  have hkin : (w'.adopt cx sub n).Kin := h.kin.adopt h.lt h.used h.unlinked h.childless hcx'
    (fun hf => hhead.2 (h.free _ hf)) (hne List.mem_cons_self) (by rw [h.ctx]; exact hn)
  have hlinks : Relinks (cx :: outer) w (w'.adopt cx sub n) := by
    intro a b hab
    rcases child_adopt hab with hab | rfl
    · rw [h.ctx] at hab
      exact .inl hab
    · refine .inr ⟨fun hm => hne hm rfl, ?_⟩
      rw [ctx_adopt_child n h.lt (hne List.mem_cons_self)]
      exact h.childless
  refine ⟨⟨hkin, ?_, ?_, fun c hc => ?_⟩, fun c hc => ?_⟩
  · refine hw.chain.congr ?_ (fun c _ hf => h.free c hf) (fun c hc => by rw [houter hc]) hlinks
    rw [size_adopt]
    exact h.grown
  · show w'.heap.Typed
    rw [h.heap]
    exact hw.typed
  · have hrested := hw.rested c hc
    rw [← h.ctx c] at hrested
    have hcx : cx ≠ c := by
      rintro rfl
      exact hc List.mem_cons_self
    by_cases hsub : sub = c
    · rw [← hsub, ctx_adopt_child n h.lt (hne List.mem_cons_self)]
      rw [← hsub] at hrested
      have hsame : (w'.ctx sub).SameStacks { w'.ctx sub with parent := some cx, nesting := n } :=
        ⟨rfl, rfl, rfl, rfl⟩
      exact hsame.rested hrested
    · rw [ctx_adopt_of_ne n hcx hsub]
      exact hrested
  · rcases List.mem_cons.mp hc with rfl | hc
    · rw [ctx_adopt_parent n hcx' (hne List.mem_cons_self), h.ctx]
      exact ⟨rfl, rfl, rfl, rfl⟩
    · rw [houter hc]
      exact .refl _

end

end ScriptEngine.World
