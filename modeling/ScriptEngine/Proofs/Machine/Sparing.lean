import ScriptEngine.Proofs.Machine.Ownership

/-!
# What is done on one context and the others

What is done on a context spares the others: it leaves the stacks and the error of any of them as they are,
except that contexts below the one it is done on may be freed.

* `World.Beside`           the contexts that are not below another one;
* `World.custom_spares`    whatever is done on a context spares those beside it;
* `Host.Frees`             a move that frees a context;
* `Host.Move.spared`       no other move touches a context that it is not on;
* `Host.Move.spares`       nor does a deed of the host touch its stacks.
-/

namespace ScriptEngine

open Relation (TransGen ReflTransGen)

/-- The stacks and the error of two contexts are the same. -/
structure Context.Untouched (c c' : Context) : Prop extends Context.SameStacks c c' where
  error : c'.error = c.error

theorem Context.Untouched.refl (c : Context) : c.Untouched c := ⟨.refl c, rfl⟩

theorem Context.Untouched.trans {c c' c'' : Context} (h : c.Untouched c') (h' : c'.Untouched c'') : c.Untouched c'' :=
  ⟨h.toSameStacks.trans h'.toSameStacks, h'.error.trans h.error⟩

/-- So are their children. -/
structure Context.Spared (c c' : Context) : Prop extends Context.Untouched c c' where
  child : c'.child = c.child

theorem Context.Spared.refl (c : Context) : c.Spared c := ⟨.refl c, rfl⟩

theorem Context.Spared.trans {c c' c'' : Context} (h : c.Spared c') (h' : c'.Spared c'') : c.Spared c'' :=
  ⟨h.toUntouched.trans h'.toUntouched, h'.child.trans h.child⟩

namespace World

variable {w w' w₀ : World} {cx c : CtxId}

/-- A context in use that is not below `cx`. -/
def Beside (w : World) (cx c : CtxId) : Prop := w.InUse c ∧ ¬ TransGen w.Child cx c

/-- What has been done on `cx` since `w₀` has spared the contexts beside it, and others at least if they
have not been freed. -/
structure Spares (w₀ : World) (cx : CtxId) (w : World) : Prop where
  used : ∀ c, w₀.Beside cx c → w.InUse c
  above : ∀ a b, (w.ctx a).child = some b → w₀.Beside cx b → w₀.Beside cx a ∧ a ≠ cx
  same : ∀ c, w₀.Beside cx c → c ≠ cx → (w₀.ctx c).Spared (w.ctx c)
  other : ∀ c, c ≠ cx → (w₀.ctx c).Spared (w.ctx c) ∨ ({} : Context).Spared (w.ctx c)

theorem Kin.spares (hk : w.Kin) (cx : CtxId) : w.Spares cx w where
  used c h := h.1
  above a b hab hb := by
    have hlt : a < w.contexts.size := by
      by_contra hge
      rw [ctx_of_ge (Nat.le_of_not_lt hge)] at hab
      exact nomatch hab
    refine ⟨⟨⟨hlt, fun hf => ?_⟩, fun ha => hb.2 (ha.tail hab)⟩, ?_⟩
    · exact nomatch (hk.spare_child a hf).symm.trans hab
    · rintro rfl
      exact hb.2 (.single hab)
  same c _ _ := .refl _
  other c _ := .inl (.refl _)

/-- Changes that make no context beside `cx` anybody's child. -/
theorem Spares.step (h : w₀.Spares cx w) (hused : ∀ c, w.InUse c → w'.InUse c)
    (hchild : ∀ a b, (w'.ctx a).child = some b → (w.ctx a).child = some b ∨ ¬ w₀.Beside cx b)
    (hsame : ∀ c, c ≠ cx → (w.ctx c).Spared (w'.ctx c)) : w₀.Spares cx w' where
  used c hc := hused c (h.used c hc)
  above a b hab hb := by
    rcases hchild a b hab with hab | hb'
    · exact h.above a b hab hb
    · exact absurd hb hb'
  same c hc hne := (h.same c hc hne).trans (hsame c hne)
  other c hne := (h.other c hne).imp (·.trans (hsame c hne)) (·.trans (hsame c hne))

theorem Spares.modifyCtx (h : w₀.Spares cx w) {g : Context → Context} (hg : ∀ d, (g d).child = d.child) :
    w₀.Spares cx (w.modifyCtx cx g) := by
  refine h.step (fun c hc => ⟨(size_modifyCtx ..).symm ▸ hc.lt, hc.used⟩) (fun a b hab => .inl ?_) fun c hne => ?_
  · rw [field_modifyCtx Context.child hg] at hab
    exact hab
  · rw [ctx_modifyCtx_of_ne hne.symm]
    exact .refl _

theorem Spares.childless (h : w₀.Spares cx w) : w₀.Spares cx (w.childless cx) := by
  cases hd : (w.ctx cx).child with
  | none =>
    rw [childless_of_none hd]
    exact h
  | some d =>
    have hunlinked : w₀.Spares cx (w.unlinked cx) := by
      refine h.step (fun c hc => ⟨(size_modifyCtx ..).symm ▸ hc.lt, hc.used⟩)
        (fun a b hab => .inl (child_unlinked hab).1) fun c hne => ?_
      rw [World.unlinked, ctx_modifyCtx_of_ne hne.symm]
      exact .refl _
    -- what is above a context beside `cx` is beside it too, but the child of `cx` is not
    have hbeside {c x : CtxId} (hc : w₀.Beside cx c) (h : ReflTransGen (w.unlinked cx).Child x c) : w₀.Beside cx x := by
      induction h using ReflTransGen.head_induction_on with
      | refl => exact hc
      | head hab _ ih => exact (hunlinked.above _ _ hab ih).1
    have hkept {c : CtxId} (hc : w₀.Beside cx c) :=
      kept_freeContext (w.unlinked cx) fun hbelow => (h.above cx d hd (hbeside hc hbelow)).2 rfl
    have hreset (c : CtxId) : ((w.unlinked cx).freeContext d).ctx c = (w.unlinked cx).ctx c ∨
        ((w.unlinked cx).freeContext d).ctx c = {} := ctx_freeChain_or _ (some d) _ c
    rw [childless_of_some hd]
    refine ⟨fun c hc => ⟨?_, fun hf => (hunlinked.used c hc).used ((hkept hc).2 hf)⟩, fun a b hab hb => ?_,
      fun c hc hne => ?_, fun c hne => ?_⟩
    · rw [freeContext, size_freeChain]
      exact (hunlinked.used c hc).lt
    · rcases hreset a with ha | ha
      · exact hunlinked.above a b (ha ▸ hab) hb
      · rw [ha] at hab
        cases hab
    · rw [(hkept hc).1]
      exact hunlinked.same c hc hne
    · rcases hreset c with hctx | hctx
      · rw [hctx]
        exact hunlinked.other c hne
      · rw [hctx]
        exact .inr (.refl _)

/-- The context that is handed out was not in use, and all that were still are. -/
theorem inUse_newContext (h : w.InUse c) : w.newContext.2.InUse c ∧ w.newContext.1 ≠ c := by
  unfold World.newContext
  cases hback : w.freeContexts.back? with
  | some x =>
    refine ⟨⟨h.lt, fun hf => h.used (mem_of_mem_pop hf)⟩, ?_⟩
    rintro rfl
    exact h.used (Array.mem_of_back? hback)
  | none =>
    refine ⟨⟨?_, h.used⟩, (Nat.ne_of_lt h.lt).symm⟩
    rw [Array.size_push]
    exact Nat.lt_succ_of_lt h.lt

theorem sameStacks_modifyCtx {g : Context → Context} (hg : ∀ d : Context, d.SameStacks (g d)) (c : CtxId) :
    (w.ctx c).SameStacks ((w.modifyCtx cx g).ctx c) :=
  ⟨field_modifyCtx Context.stack (fun d => (hg d).stack) c,
    field_modifyCtx Context.frames (fun d => (hg d).frames) c,
    field_modifyCtx Context.marks (fun d => (hg d).marks) c,
    field_modifyCtx Context.resumeAt (fun d => (hg d).resumeAt) c⟩

theorem spared_modifyCtx {g : Context → Context} (hg : ∀ d : Context, d.Spared (g d)) (c : CtxId) :
    (w.ctx c).Spared ((w.modifyCtx cx g).ctx c) :=
  ⟨⟨sameStacks_modifyCtx (fun d => (hg d).toSameStacks) c, field_modifyCtx Context.error (fun d => (hg d).error) c⟩,
    field_modifyCtx Context.child (fun d => (hg d).child) c⟩

theorem Spares.subContext (h : w₀.Spares cx w) (n : Nat) :
    w₀.Spares cx (w.newContext.2.adopt cx w.newContext.1 n) := by
  have hnew : w₀.Spares cx w.newContext.2 := by
    refine h.step (fun c hc => (inUse_newContext hc).1) (fun a b hab => .inl ?_) fun c _ => ?_
    · rw [ctx_newContext] at hab
      exact hab
    · rw [ctx_newContext]
      exact .refl _
  refine hnew.step (fun c hc => ⟨(size_adopt ..).symm ▸ hc.lt, hc.used⟩) (fun a b hab => ?_) fun c hne => ?_
  · refine (child_adopt hab).imp_right ?_
    rintro rfl hb
    exact (inUse_newContext (h.used _ hb)).2 rfl
  · rw [adopt, ctx_modifyCtx_of_ne hne.symm]
    apply spared_modifyCtx
    exact fun d => ⟨⟨⟨rfl, rfl, rfl, rfl⟩, rfl⟩, rfl⟩

/-- **Whatever is done on a context** spares the contexts beside it. -/
theorem custom_spares (cx : CtxId) (w₀ : World) : Custom cx (w₀.Spares cx) where
  rest h _ _ := h.step (fun _ hc => ⟨hc.lt, hc.used⟩) (fun _ _ hab => .inl hab) fun _ _ => .refl _
  uncache h := by
    refine h.step (fun c hc => ⟨(Array.size_map ..).symm ▸ hc.lt, hc.used⟩) (fun a b hab => .inl ?_) fun c _ => ?_
    · rw [ctx_uncached] at hab
      exact hab
    · rw [ctx_uncached]
      exact ⟨⟨⟨rfl, rfl, rfl, rfl⟩, rfl⟩, rfl⟩
  edit h _ hg _ := h.modifyCtx hg.blind.child
  error h _ := h.modifyCtx fun _ => rfl
  freeChild h := h.childless
  subContext h _ := h.childless.subContext _

end World

/-! ## moves -/

namespace Host

variable {w w' : World} {held : List CtxId} {l : Matter} {s s' : State} {c : CtxId}

/-- A move that frees a context: it is below the one that the move is on, or it is dropped with all that is
below it. -/
def Frees (c : CtxId) (l : Matter) (w w' : World) : Prop :=
  ({} : Context).SameStacks (w'.ctx c) ∧
    ((∃ cx, l = .on cx ∧ TransGen w.Child cx c) ∨ ∃ x, l = .dropped x ∧ ReflTransGen w.Child x c)

/-- What is done on a context does not touch another one, or frees it. -/
theorem spares_on {cx : CtxId} (hh : w.Household []) (hne : c ≠ cx) (hs : w.Spares cx w') :
    (w.ctx c).Spared (w'.ctx c) ∨ Frees c (.on cx) w w' := by
  by_cases hused : w.InUse c
  · by_cases hbelow : TransGen w.Child cx c
    · exact (hs.other c hne).imp_right fun h => ⟨h.toSameStacks, .inl ⟨cx, rfl, hbelow⟩⟩
    · exact .inl (hs.same c ⟨hused, hbelow⟩ hne)
  · -- a context that is not in use has nothing to lose
    have hempty : w.ctx c = {} := by
      by_cases hlt : c < w.contexts.size
      · by_cases hf : c ∈ w.freeContexts
        · exact hh.blank c hf
        · exact absurd ⟨hlt, hf⟩ hused
      · exact World.ctx_of_ge (Nat.le_of_not_lt hlt)
    refine .inl ((hs.other c hne).elim id fun h => ?_)
    rw [hempty]
    exact h

/-- Dropping a context does not touch another one, or frees it. -/
theorem spares_drop (w : World) (x c : CtxId) :
    (w.ctx c).Spared ((w.freeContext x).ctx c) ∨ Frees c (.dropped x) w (w.freeContext x) := by
  by_cases hbelow : ReflTransGen w.Child x c
  · rcases World.ctx_freeChain_or w.contexts.size (some x) w c with h | h
    · rw [World.freeContext, h]
      exact .inl (.refl _)
    · refine .inr ⟨?_, .inr ⟨x, rfl, hbelow⟩⟩
      rw [World.freeContext, h]
      exact .refl _
  · rw [(World.kept_freeContext w hbelow).1]
    exact .inl (.refl _)

/-- What is not done on any context touches none. -/
theorem formal_spared (w₀ : World) (c : CtxId) : World.Formal fun w => (w₀.ctx c).Spared (w.ctx c) where
  rest h _ _ := h
  uncache h := by
    rw [World.ctx_uncached]
    exact h.trans ⟨⟨⟨rfl, rfl, rfl, rfl⟩, rfl⟩, rfl⟩

theorem Tends.spared (h : Tends held l w w') (hh : w.Household []) (hoff : w.InUse c → l ≠ .on c) :
    (w.ctx c).Spared (w'.ctx c) ∨ Frees c l w w' := by
  cases h with
  | newContext w =>
    rw [World.ctx_newContext]
    exact .inl (.refl _)
  | drop _ _ _ => exact spares_drop w _ c
  | enter w => exact .inl ((formal_spared w c).enter (.refl _))
  | leave w => exact .inl ((formal_spared w c).leave (.refl _))
  | @deed w cx hcx _ d _ =>
    have hne : c ≠ cx := by
      rintro rfl
      exact hoff hcx rfl
    exact spares_on hh hne ((World.custom_spares cx w).after d (hh.kin.spares cx))

/-- **A move does not touch a context** that it is not on, unless it frees it. -/
theorem Move.spared (h : Move l s s') (hs : s.Good) (hh : s.world.Household [])
    (hoff : s.world.InUse c → l ≠ .on c) :
    (s.world.ctx c).Spared (s'.world.ctx c) ∨ Frees c l s.world s'.world := by
  cases h with
  | tend hat h =>
    rw [hat.world]
    exact h.spared hh hoff
  | begin _ _ => exact .inl (.refl _)
  | step m =>
    cases hcx : m.active with
    | none =>
      rw [Machine.step_of_inactive _ hcx]
      exact .inl (.refl _)
    | some cx =>
      rw [hcx] at hoff
      have hne : c ≠ cx := by
        rintro rfl
        exact hoff (hs.ready.1.inUse hcx) rfl
      exact spares_on hh hne ((World.custom_spares cx m.world).step hs.ready.1 hcx (hh.kin.spares cx))
  | finish w r => exact .inl (.refl _)
  | @offer w w' waiting cx func args me locals n _ _ hrun =>
    have hne : c ≠ cx := by
      rintro rfl
      exact hoff (hs.ready.1.inUse rfl) rfl
    have hoffer : w.Spares cx (World.after ((Host.offer cx func args me locals).run w)) :=
      (World.custom_spares cx w).offer func args me locals (hh.kin.spares cx)
    rw [hrun] at hoffer
    exact spares_on hh hne hoffer
  | @work w waiting cx n site r _ d _ =>
    have hne : c ≠ cx := by
      rintro rfl
      exact hoff (hs.ready.1.inUse rfl) rfl
    exact spares_on hh hne ((World.custom_spares cx w).after d (hh.kin.spares cx))
  | visit _ _ _ _ | answer _ _ => exact .inl (.refl _)

/-- A move on a context that the machine does not work on is a deed on it. -/
theorem Move.sameStacks (h : Move l s s') (hs : s.Good) (hl : l = .on c) (hoff : ∀ m, s = .busy m → m.active ≠ some c) :
    (s.world.ctx c).SameStacks (s'.world.ctx c) := by
  cases h with
  | tend hat h =>
    have hw := hat.fit hs
    rw [hat.world]
    cases h with
    | deed hcx hclear _ =>
      obtain rfl := Matter.on.inj hl
      exact (keeps_deed (hw.join (.root hcx.lt hcx.used hclear hw.chain)) _).same _ List.mem_cons_self
    | newContext _ | drop _ _ _ | enter _ | leave _ => exact nomatch hl
  | step m => exact absurd (Matter.of_eq_on hl) (hoff m rfl)
  | offer _ _ _ | work _ _ => exact absurd (congrArg some (Matter.on.inj hl)) (hoff _ rfl)
  | begin _ _ | finish _ _ | visit _ _ _ _ | answer _ _ => exact nomatch hl

/-- Nor does a deed of the host on the context itself touch its stacks. -/
theorem Move.spares (h : Move l s s') (hs : s.Good) (hh : s.world.Household [])
    (hoff : ∀ m, s = .busy m → m.active ≠ some c) :
    (s.world.ctx c).SameStacks (s'.world.ctx c) ∨ Frees c l s.world s'.world := by
  by_cases hl : l = .on c
  · exact .inl (h.sameStacks hs hl hoff)
  · exact (h.spared hs hh fun _ => hl).imp_left fun h => h.toSameStacks

/-- Whatever happens, contexts stay in order. -/
theorem Next.household_nil (h : Next s s') (hs : s.Good) (hh : s.world.Household []) : s'.world.Household [] := by
  obtain ⟨_, h⟩ := h
  refine h.keeps hs (World.formal_household [])
    (fun cx hcx => ⟨_, World.custom_household cx [], ⟨hh, hcx⟩, fun _ h => h.1⟩) (fun _ => hh.newContext.1.tail)
    (fun x _ hx hroot => ?_) hh
  exact hh.freed (hh.kin.freed_freeContext hx.lt hroot) (World.blank_freeChain _ _ hh.blank) .nil nofun

end Host

end ScriptEngine
