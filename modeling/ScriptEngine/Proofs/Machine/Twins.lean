import Mathlib.Logic.Relation
import ScriptEngine.Proofs.Machine.Mirroring

/-!
# Engines that differ in the error or the child of a context

To go on where a native has failed is to do without the error and the child that the failed run has left.
Two engines that differ in no more than that look the same from every other context, and from the context
itself once the child is gone on both sides.

* `World.Near`     the error of a context may be another one;
* `World.Twin`     so may its child;
* `World.mirror_near`, `World.mirror_twin`   such engines look the same;
* `Library.Blind`  natives and ghosts that look at neither;
* `Library.blind_core`  the core library.
-/

namespace ScriptEngine

namespace World

variable {w w' : World} {c cx : CtxId}

/-! ## the child of a context -/

/-- A context is not below itself. -/
def Apart (w : World) (c : CtxId) : Prop := ¬ Relation.TransGen w.Child c c

theorem run_subContext (w : World) (c : CtxId) : (Act.subContext c).run w =
    if w.options.maxNesting ≤ (w.ctx c).nesting then .error { cause := .nestingTooDeep } w
    else .ok (w.childless c).newContext.1
      ((w.childless c).newContext.2.adopt c (w.childless c).newContext.1 ((w.ctx c).nesting + 1)) := by
  show (ite _ _ _ : Act CtxId).run w = _
  split
  · rfl
  · exact run_bind_of_ok (run_freeChild w c)

theorem dropped_eq (w : World) (x : CtxId) : w.dropped x = w.shelve (w.contexts.modify x fun _ => {})
    (if w.freeContexts.contains x then w.freeContexts else w.freeContexts.push x) := by
  unfold dropped putBack
  show (if w.freeContexts.contains x then _ else _) = _
  split <;> rfl

theorem dropped_shelve (v u : World) (x : CtxId) : (v.shelve u.contexts u.freeContexts).dropped x =
    v.shelve (u.dropped x).contexts (u.dropped x).freeContexts := by
  rw [dropped_eq, dropped_eq]
  rfl

/-- Freeing is about the contexts alone. -/
theorem freeChain_shelve (v : World) (n : Nat) (d : Option CtxId) (u : World) :
    freeChain n d (v.shelve u.contexts u.freeContexts) =
      v.shelve (freeChain n d u).contexts (freeChain n d u).freeContexts := by
  induction n generalizing d u with
  | zero => rfl
  | succ n ih =>
    cases d with
    | none => rfl
    | some d =>
      show freeChain n (u.ctx d).child ((v.shelve u.contexts u.freeContexts).dropped d) = _
      rw [dropped_shelve, ih]
      rfl

theorem childless_shelve (v u : World) (c : CtxId) : (v.shelve u.contexts u.freeContexts).childless c =
    v.shelve (u.childless c).contexts (u.childless c).freeContexts := by
  have hctx : (v.shelve u.contexts u.freeContexts).ctx c = u.ctx c := rfl
  cases hd : (u.ctx c).child with
  | none => rw [childless_of_none hd, childless_of_none (hctx.symm ▸ hd)]
  | some d =>
    rw [childless_of_some hd, childless_of_some (hctx.symm ▸ hd)]
    exact freeChain_shelve v _ _ (u.unlinked c)

theorem childless_eq_shelve (w : World) (c : CtxId) :
    w.childless c = w.shelve (w.childless c).contexts (w.childless c).freeContexts :=
  childless_shelve w w c

/-- A change of a context that is not below `d` is no matter to freeing what is. -/
theorem freeChain_modifyCtx (n : Nat) (d : Option CtxId) (g : Context → Context)
    (hd : ∀ x, d = some x → ¬ Relation.ReflTransGen w.Child x c) :
    freeChain n d (w.modifyCtx c g) = (freeChain n d w).modifyCtx c g := by
  induction n generalizing d w with
  | zero => rfl
  | succ n ih =>
    cases d with
    | none => rfl
    | some d =>
      have hne : c ≠ d := fun h => hd d rfl (h ▸ .refl)
      have hdropped : (w.modifyCtx c g).dropped d = (w.dropped d).modifyCtx c g := by
        rw [dropped_eq, dropped_eq]
        exact congrArg (w.shelve · _) (congrArg World.contexts (modifyCtx_comm hne g fun _ => {}))
      show freeChain n ((w.modifyCtx c g).ctx d).child ((w.modifyCtx c g).dropped d) =
        (freeChain n (w.ctx d).child (w.dropped d)).modifyCtx c g
      rw [hdropped, ctx_modifyCtx_of_ne hne]
      refine ih _ fun x hx hxc => hd d rfl ?_
      exact .head hx (Relation.ReflTransGen.mono (fun _ _ => child_dropped) _ _ hxc)

/-- What is below the child of a context, once it is no longer linked to it. -/
theorem Apart.below (h : w.Apart c) {d : CtxId} (hd : w.Child c d) {v : World} (hv : ∀ a b, v.Child a b → w.Child a b)
    (hdc : Relation.ReflTransGen v.Child d c) : False :=
  h (.head' hd (Relation.ReflTransGen.mono hv _ _ hdc))

theorem Apart.modifyCtx (h : w.Apart c) {g : Context → Context} (hg : ∀ d, (g d).child = d.child) :
    (w.modifyCtx cx g).Apart c := by
  have hchild : (w.modifyCtx cx g).Child = w.Child := by
    funext a b
    rw [Child, Child, field_modifyCtx Context.child hg]
  rw [Apart, hchild]
  exact h

theorem Apart.ctx_childless (h : w.Apart c) : (w.childless c).ctx c = { w.ctx c with child := none } := by
  cases hd : (w.ctx c).child with
  | none => rw [childless_of_none hd, ← hd]
  | some d =>
    have hlt : c < w.contexts.size := by
      by_contra hge
      rw [ctx_of_ge (Nat.le_of_not_lt hge)] at hd
      exact nomatch hd
    rw [childless_of_some hd]
    exact (kept_freeContext _ (h.below hd fun a b hab => (child_unlinked hab).1)).1.trans (ctx_modifyCtx_self hlt _)

/-- A change of a context that keeps its child can be made before the child is freed, or afterwards. -/
theorem Apart.childless_modifyCtx (h : w.Apart c) {g : Context → Context} (hg : ∀ d, (g d).child = d.child)
    (hnone : ∀ d, g { d with child := none } = { g d with child := none }) :
    (w.modifyCtx c g).childless c = (w.childless c).modifyCtx c g := by
  have hchild : ((w.modifyCtx c g).ctx c).child = (w.ctx c).child := field_modifyCtx Context.child hg c
  cases hd : (w.ctx c).child with
  | none => rw [childless_of_none hd, childless_of_none (hchild.trans hd)]
  | some d =>
    have hunlinked : (w.modifyCtx c g).unlinked c = (w.unlinked c).modifyCtx c g := by
      rw [unlinked, unlinked, modifyCtx_modifyCtx, modifyCtx_modifyCtx]
      exact modifyCtx_congr (hnone _).symm
    rw [childless_of_some hd, childless_of_some (hchild.trans hd), hunlinked, freeContext, freeContext, size_modifyCtx]
    refine freeChain_modifyCtx _ _ g ?_
    rintro _ ⟨⟩
    exact h.below hd fun a b hab => (child_unlinked hab).1

theorem Kin.apart (hk : w.Kin) (c : CtxId) : w.Apart c := fun h => Nat.lt_irrefl _ (hk.nesting_lt h)

theorem apart_of_childless (h : (w.ctx c).child = none) : w.Apart c := by
  intro hc
  obtain ⟨d, hd, -⟩ := Relation.TransGen.head'_iff.mp hc
  exact nomatch h.symm.trans hd

/-! ## another error -/

/-- The same engine, but for the error of a context. -/
def Near (c : CtxId) (w w' : World) : Prop := ∃ error, w' = w.modifyCtx c ({ · with error })

theorem Near.refl (c : CtxId) (w : World) : Near c w w := ⟨(w.ctx c).error, (modifyCtx_of_eq rfl).symm⟩

theorem Near.eq_of_ge (h : Near c w w') (hc : w.contexts.size ≤ c) : w' = w := by
  obtain ⟨error, rfl⟩ := h
  have hcontexts : w.contexts.modify c ({ · with error }) = w.contexts := by
    apply Array.ext_getElem?
    intro i
    rw [Array.getElem?_modify]
    split
    · rename_i h
      rw [← h, Array.getElem?_eq_none hc]
      rfl
    · rfl
  rw [World.modifyCtx, hcontexts]

/-- A change of a context makes no difference to engines that do not differ elsewhere. -/
theorem Near.modifyCtx (h : Near c w w') {g : Context → Context}
    (hg : ∀ (d : Context) error, ∃ error', g { d with error } = { g d with error := error' }) :
    Near c (w.modifyCtx cx g) (w'.modifyCtx cx g) := by
  obtain ⟨error, rfl⟩ := h
  by_cases hc : c = cx
  · subst hc
    obtain ⟨error', he⟩ := hg (w.ctx c) error
    refine ⟨error', ?_⟩
    rw [modifyCtx_modifyCtx, modifyCtx_modifyCtx]
    exact modifyCtx_congr he
  · exact ⟨error, modifyCtx_comm hc _ _⟩

theorem Near.ctx (h : Near c w w') (cx : CtxId) : ∃ error, w'.ctx cx = { w.ctx cx with error } := by
  obtain ⟨error, rfl⟩ := h
  by_cases hc : c = cx
  · subst hc
    by_cases hlt : c < w.contexts.size
    · exact ⟨error, ctx_modifyCtx_self hlt _⟩
    · refine ⟨(w.ctx c).error, ?_⟩
      rw [ctx_of_ge (Nat.le_of_not_lt hlt), ctx_of_ge (by rw [size_modifyCtx]; exact Nat.le_of_not_lt hlt)]
  · exact ⟨(w.ctx cx).error, ctx_modifyCtx_of_ne hc _⟩

theorem Near.dropped (h : Near c w w') (x : CtxId) : Near c (w.dropped x) (w'.dropped x) := by
  have hnear : Near c (w.modifyCtx x fun _ => {}) (w'.modifyCtx x fun _ => {}) :=
    h.modifyCtx fun d error => ⟨none, rfl⟩
  obtain ⟨e, rfl⟩ := h
  obtain ⟨error, hw'⟩ := hnear
  refine ⟨error, ?_⟩
  rw [dropped_eq, dropped_eq]
  exact congrArg (w.shelve · _) (congrArg World.contexts hw')

theorem Near.freeChain (h : Near c w w') (n : Nat) (d : Option CtxId) :
    Near c (freeChain n d w) (freeChain n d w') := by
  induction n generalizing d w w' with
  | zero => exact h
  | succ n ih =>
    cases d with
    | none => exact h
    | some d =>
      obtain ⟨error, hd⟩ := h.ctx d
      show Near c (World.freeChain n (w.ctx d).child (w.dropped d))
        (World.freeChain n (w'.ctx d).child (w'.dropped d))
      rw [hd]
      exact ih (h.dropped d) _

theorem Near.size (h : Near c w w') : w'.contexts.size = w.contexts.size := by
  obtain ⟨error, rfl⟩ := h
  exact size_modifyCtx ..

theorem Near.childless (h : Near c w w') (cx : CtxId) : Near c (w.childless cx) (w'.childless cx) := by
  obtain ⟨error, hd⟩ := h.ctx cx
  have hunlinked : Near c (w.unlinked cx) (w'.unlinked cx) := h.modifyCtx fun d error => ⟨error, rfl⟩
  have hchild : (w'.ctx cx).child = (w.ctx cx).child := by rw [hd]
  cases hc : (w.ctx cx).child with
  | none =>
    rw [childless_of_none hc, childless_of_none (hchild.trans hc)]
    exact h
  | some d =>
    rw [childless_of_some hc, childless_of_some (hchild.trans hc), freeContext, freeContext, hunlinked.size]
    exact hunlinked.freeChain _ _

theorem Near.newContext (h : Near c w w') :
    w'.newContext.1 = w.newContext.1 ∧ Near c w.newContext.2 w'.newContext.2 := by
  by_cases hlt : c < w.contexts.size
  · obtain ⟨error, rfl⟩ := h
    rw [newContext_modifyCtx hlt]
    exact ⟨rfl, error, rfl⟩
  · obtain rfl : w' = w := h.eq_of_ge (Nat.le_of_not_lt hlt)
    exact ⟨rfl, .refl c _⟩

theorem Near.adopt (h : Near c w w') (cx sub : CtxId) (n : Nat) : Near c (w.adopt cx sub n) (w'.adopt cx sub n) :=
  (h.modifyCtx fun _ error => ⟨error, rfl⟩).modifyCtx fun _ error => ⟨error, rfl⟩

theorem stats_childless (w : World) (c : CtxId) : (w.childless c).stats = w.stats := by
  rw [childless_eq_shelve]
  rfl

theorem stats_newContext (w : World) : w.newContext.2.stats = w.stats := by
  unfold World.newContext
  split <;> rfl

/-- Engines that differ in the error of `c` once the child of `cx` is freed. -/
theorem mirrorsTo_freeChild {R : Rel} (h : ∀ {w w'}, R w w' → Near c (w.childless cx) (w'.childless cx)) :
    Act.MirrorsTo R (fun _ => Near c) (Act.freeChild cx) := by
  refine ⟨fun w => ?_, fun {w w'} hr _ => ?_⟩
  · rw [run_freeChild]
    exact Nat.le_of_eq (congrArg Stats.collections (stats_childless w cx)).symm
  · rw [run_freeChild, run_freeChild]
    exact .ok (h hr)

theorem mirrorsTo_subContext {R : Rel} (hR : ∀ {w w'}, R w w' → w'.options = w.options ∧
      (w'.ctx cx).nesting = (w.ctx cx).nesting ∧ Near c (w.childless cx) (w'.childless cx)) :
    Act.MirrorsTo R (fun _ => Near c) (Act.subContext cx) := by
  refine ⟨fun w => ?_, fun {w w'} hr _ => ?_⟩
  · rw [run_subContext]
    split
    · exact Nat.le_refl _
    · refine Nat.le_of_eq (congrArg Stats.collections ?_).symm
      exact (stats_newContext _).trans (stats_childless w cx)
  · obtain ⟨hoptions, hnesting, hnear⟩ := hR hr
    obtain ⟨hsub, hnew⟩ := hnear.newContext
    rw [run_subContext, run_subContext, hoptions, hnesting, hsub]
    split
    · exact .error hr
    · exact .ok (hnew.adopt _ _ _)

theorem Near.options (h : Near c w w') : w'.options = w.options := by
  obtain ⟨error, rfl⟩ := h
  rfl

/-- **Engines that differ in the error of a context look the same from every context.** -/
theorem mirror_near (c cx : CtxId) : Mirror cx (Near c) where
  shelved h := by
    obtain ⟨error, rfl⟩ := h
    exact ⟨_, _, rfl⟩
  seen h := by
    obtain ⟨error, hctx⟩ := h.ctx cx
    exact ⟨error, _, hctx⟩
  rest h v _ := by
    obtain ⟨error, rfl⟩ := h
    exact ⟨error, rfl⟩
  edit h _ hg _ := h.modifyCtx fun d error => ⟨error, hg.blind.error d error⟩
  error h error := h.modifyCtx fun _ _ => ⟨error, rfl⟩
  freeChild := mirrorsTo_freeChild fun h => h.childless cx
  subContext := mirrorsTo_subContext fun h => by
    obtain ⟨error, hctx⟩ := h.ctx cx
    exact ⟨h.options, by rw [hctx], h.childless cx⟩

/-! ## another child -/

/-- The same engine but for the error of a context, once its child is freed. -/
structure Far (c : CtxId) (w w' : World) : Prop where
  apart : w.Apart c
  apart' : w'.Apart c
  near : Near c (w.childless c) (w'.childless c)

/-- The same engine, but for the error and the child of a context. -/
inductive Twin (c : CtxId) (w w' : World) : Prop
  | near (h : Near c w w')
  | far (h : Far c w w')

theorem Far.shelved (h : Far c w w') : w' = w.shelve w'.contexts w'.freeContexts := by
  obtain ⟨error, hnear⟩ := h.near
  have hrest : w' = (w'.childless c).shelve w'.contexts w'.freeContexts := by
    rw [childless_eq_shelve]
    rfl
  rw [hnear, childless_eq_shelve] at hrest
  exact hrest

theorem Far.seen (h : Far c w w') : ∃ error child, w'.ctx c = { w.ctx c with error, child } := by
  obtain ⟨error, hctx⟩ := h.near.ctx c
  rw [h.apart.ctx_childless, h.apart'.ctx_childless] at hctx
  exact ⟨error, _, (congrArg (fun d : Context => { d with child := (w'.ctx c).child }) hctx :)⟩

theorem Far.rest (h : Far c w w') (v : World) :
    Far c (v.shelve w.contexts w.freeContexts) (v.shelve w'.contexts w'.freeContexts) := by
  refine ⟨h.apart, h.apart', ?_⟩
  obtain ⟨error, hnear⟩ := h.near
  rw [childless_shelve, childless_shelve, hnear]
  exact ⟨error, rfl⟩

theorem Far.modifyCtx (h : Far c w w') {g : Context → Context} (hchild : ∀ d, (g d).child = d.child)
    (hnone : ∀ d, g { d with child := none } = { g d with child := none })
    (herror : ∀ (d : Context) error, ∃ error', g { d with error } = { g d with error := error' }) :
    Far c (w.modifyCtx c g) (w'.modifyCtx c g) := by
  refine ⟨h.apart.modifyCtx hchild, h.apart'.modifyCtx hchild, ?_⟩
  rw [h.apart.childless_modifyCtx hchild hnone, h.apart'.childless_modifyCtx hchild hnone]
  exact h.near.modifyCtx herror

theorem Twin.childless (h : Twin c w w') : Near c (w.childless c) (w'.childless c) := by
  cases h with
  | near h => exact h.childless c
  | far h => exact h.near

theorem Twin.edit (h : Twin c w w') {g : Context → Context} (hg : Context.Blind g) :
    Twin c (w.modifyCtx c g) (w'.modifyCtx c g) := by
  cases h with
  | near h => exact .near (h.modifyCtx fun d error => ⟨error, hg.error d error⟩)
  | far h => exact .far (h.modifyCtx hg.child hg.childless fun d error => ⟨error, hg.error d error⟩)

theorem twin_subContext : Act.MirrorsTo (Twin c) (fun _ => Near c) (Act.subContext c) := by
  refine mirrorsTo_subContext fun {w w'} h => ?_
  cases h with
  | near h =>
    obtain ⟨error, hctx⟩ := h.ctx c
    exact ⟨h.options, by rw [hctx], h.childless c⟩
  | far h =>
    obtain ⟨error, child, hctx⟩ := h.seen
    exact ⟨by rw [h.shelved]; rfl, by rw [hctx], h.near⟩

/-- **Engines that differ in the error and the child of a context look the same from the context.** -/
theorem mirror_twin (c : CtxId) : Mirror c (Twin c) where
  shelved h := by
    cases h with
    | near h => exact (mirror_near c c).shelved h
    | far h => exact ⟨_, _, h.shelved⟩
  seen h := by
    cases h with
    | near h => exact (mirror_near c c).seen h
    | far h => exact h.seen
  rest h v hv := by
    cases h with
    | near h => exact .near ((mirror_near c c).rest h v hv)
    | far h => exact .far (h.rest v)
  edit h _ hg _ := h.edit hg.blind
  error h error := by
    cases h with
    | near h => exact .near ((mirror_near c c).error h error)
    | far h => exact .far (h.modifyCtx (fun _ => rfl) (fun _ => rfl) fun _ _ => ⟨error, rfl⟩)
  freeChild := (mirrorsTo_freeChild Twin.childless).mono_to .near
  subContext := twin_subContext.mono_to .near

end World

/-! ## libraries -/

open World (Near Twin)

/-- A library whose natives and ghosts look neither at the error nor at the child of a context.  A native
that the context itself calls may ask for a run only on a child it has made. -/
structure Library.Blind (lib : Library) (c : CtxId) : Prop where
  near : ∀ cx, lib.Mirrors cx (Near c) (Near c)
  twin : lib.Mirrors c (Twin c) (Near c)
  resume : ∀ {name b}, lib.native name = some b → ∀ cx n wait r, Act.Mirrors (Near c) (b.resume cx n wait r)

/-- **The core library is blind.** -/
theorem Library.blind_core (c : CtxId) : Library.core.Blind c where
  near cx := mirrors_core (World.mirror_near c cx) (World.mirror_near c cx).subContext
  twin := mirrors_core (World.mirror_twin c) World.twin_subContext
  resume hb cx n wait _ := (World.mirror_near c cx).habit.resume hb n wait fun _ _ => trivial

end ScriptEngine
