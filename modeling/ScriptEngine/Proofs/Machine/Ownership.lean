import ScriptEngine.Proofs.Machine.Customs

/-!
# Who owns a context

A context is owned by a handle of the host, or it is the child of another one, or it is on the free
list.  It is freed together with all below it, when its handle is dropped, when a run on its parent
starts or ends, or when its parent is given another child.

* `World.Household`          how the contexts, the free ones and the handles are related;
* `World.custom_household`   whatever is done on a context keeps that;
* `Host.Holds`               what a host can do with the handles it has;
* `Host.Holds.contexts_apart`   the main result.
-/

namespace ScriptEngine

namespace World

variable {w w' : World} {handles held : List CtxId} {cx x : CtxId}

/-- How the contexts, their children, the free contexts and the handles of the host are related. -/
structure Household (handles : List CtxId) (w : World) : Prop where
  kin : w.Kin
  blank : ∀ c ∈ w.freeContexts, w.ctx c = {}
  nested : ∀ c d, (w.ctx c).child = some d → (w.ctx d).nesting = (w.ctx c).nesting + 1
  owned : ∀ c ∈ handles, w.InUse c ∧ (w.ctx c).nesting = 0
  nodup : handles.Nodup

theorem household_new (options : Options) : (World.new options).Household [] :=
  ⟨(fit_new options).kin, nofun, nofun, nofun, .nil⟩

theorem Household.unlinked (h : w.Household handles) (hx : x ∈ handles) : w.Unlinked x := by
  intro c hc
  have hnested := h.nested c x hc
  rw [(h.owned x hx).2] at hnested
  exact nomatch hnested

theorem Household.congr (h : w.Household handles) (hsize : w'.contexts.size = w.contexts.size)
    (hfree : w'.freeContexts = w.freeContexts) (hchild : ∀ c, (w'.ctx c).child = (w.ctx c).child)
    (hparent : ∀ c, (w'.ctx c).parent = (w.ctx c).parent)
    (hnesting : ∀ c, (w'.ctx c).nesting = (w.ctx c).nesting)
    (hblank : ∀ c ∈ w.freeContexts, w'.ctx c = {}) : w'.Household handles := by
  refine ⟨h.kin.congr hsize hfree hchild hparent hnesting, ?_, ?_, fun c hc => ⟨⟨?_, ?_⟩, ?_⟩, h.nodup⟩
  · rw [hfree]
    exact hblank
  · simpa only [hchild, hnesting] using h.nested
  · rw [hsize]
    exact (h.owned c hc).1.lt
  · rw [hfree]
    exact (h.owned c hc).1.used
  · rw [hnesting]
    exact (h.owned c hc).2

theorem Household.modifyCtx (h : w.Household handles) (hcx : w.InUse cx) {g : Context → Context}
    (hchild : ∀ c, (g c).child = c.child) (hparent : ∀ c, (g c).parent = c.parent)
    (hnesting : ∀ c, (g c).nesting = c.nesting) : (w.modifyCtx cx g).Household handles := by
  refine h.congr (size_modifyCtx ..) rfl (field_modifyCtx _ hchild) (field_modifyCtx _ hparent)
    (field_modifyCtx _ hnesting) fun c hc => ?_
  have hne : cx ≠ c := by
    rintro rfl
    exact hcx.used hc
  rw [ctx_modifyCtx_of_ne hne]
  exact h.blank c hc

/-! ## freeing -/

theorem blank_freeChain (n : Nat) (x : Option CtxId) (h : ∀ c ∈ w.freeContexts, w.ctx c = {}) :
    ∀ c ∈ (freeChain n x w).freeContexts, (freeChain n x w).ctx c = {} := by
  induction n generalizing x w with
  | zero => exact h
  | succ n ih =>
    cases x with
    | none => exact h
    | some x =>
      refine ih (w := w.dropped x) (w.ctx x).child fun c hc => ?_
      rcases ctx_dropped_or w x c with hctx | hctx
      · rw [hctx]
        rcases mem_putBack.mp hc with hc | rfl
        · exact h c hc
        · by_cases hlt : c < w.contexts.size
          · rw [← hctx, ctx_dropped_self hlt]
          · exact ctx_of_ge (Nat.le_of_not_lt hlt)
      · exact hctx

/-- Freeing contexts that are not those of the handles that are left. -/
theorem Household.freed {handles' : List CtxId} (h : w.Household handles) (hf : w.Freed w')
    (hblank : ∀ c ∈ w'.freeContexts, w'.ctx c = {}) (hnodup : handles'.Nodup)
    (hkept : ∀ c ∈ handles', c ∈ handles ∧ w'.ctx c = w.ctx c ∧ (c ∈ w'.freeContexts → c ∈ w.freeContexts)) :
    w'.Household handles' := by
  refine ⟨hf.kin, hblank, fun c d hcd => ?_, fun c hc => ?_, hnodup⟩
  · -- neither of the two has been reset, since they are still kin
    have hparent := hf.kin.parent c d hcd
    rcases hf.reset c with hc | hc
    · rcases hf.reset d with hd | hd
      · rw [hc] at hcd
        rw [hc, hd]
        exact h.nested c d hcd
      · rw [hd] at hparent
        exact nomatch hparent
    · rw [hc] at hcd
      exact nomatch hcd
  · obtain ⟨hmem, hctx, hfree⟩ := hkept c hc
    obtain ⟨hused, hroot⟩ := h.owned c hmem
    exact ⟨⟨hf.size ▸ hused.lt, fun hfr => hused.used (hfree hfr)⟩, hctx ▸ hroot⟩

theorem Household.drop (h : w.Household handles) (hx : x ∈ handles) :
    (w.freeContext x).Household (handles.erase x) := by
  refine h.freed (h.kin.freed_freeContext (h.owned x hx).1.lt (h.unlinked hx)) (blank_freeChain _ _ h.blank)
    (h.nodup.erase x) fun c hc => ?_
  have hmem := List.mem_of_mem_erase hc
  refine ⟨hmem, kept_freeContext w fun hbelow => ?_⟩
  rcases Relation.ReflTransGen.cases_tail hbelow with rfl | ⟨a, -, hac⟩
  · exact (h.nodup.mem_erase_iff.mp hc).1 rfl
  · exact h.unlinked hmem a hac

theorem Household.unlink (h : w.Household handles) (hcx : w.InUse cx) : (w.unlinked cx).Household handles := by
  have hnesting : ∀ c, ((w.unlinked cx).ctx c).nesting = (w.ctx c).nesting :=
    field_modifyCtx Context.nesting fun _ => rfl
  have hsize : (w.unlinked cx).contexts.size = w.contexts.size := size_modifyCtx ..
  refine ⟨h.kin.unlinked cx, fun c hc => ?_, fun c d hcd => ?_, fun c hc => ?_, h.nodup⟩
  · have hne : cx ≠ c := by
      rintro rfl
      exact hcx.used hc
    rw [World.unlinked, ctx_modifyCtx_of_ne hne]
    exact h.blank c hc
  · rw [hnesting c, hnesting d]
    exact h.nested c d (child_unlinked hcd).1
  · obtain ⟨hused, hroot⟩ := h.owned c hc
    exact ⟨⟨hsize ▸ hused.lt, hused.used⟩, (hnesting c).trans hroot⟩

theorem Household.childless (h : w.Household handles) (hcx : w.InUse cx) :
    (w.childless cx).Household handles ∧ (w.childless cx).InUse cx ∧
      ((w.childless cx).ctx cx).nesting = (w.ctx cx).nesting := by
  cases hd : (w.ctx cx).child with
  | none =>
    rw [childless_of_none hd]
    exact ⟨h, hcx, rfl⟩
  | some d =>
    have hfreed := h.kin.freed_childless hd
    have hunlinked := h.unlink hcx
    obtain ⟨hctx, hfree⟩ := kept_childless hd (h.kin.apart cx)
    refine ⟨hunlinked.freed hfreed ?_ h.nodup fun c hc => ⟨hc, kept_childless hd fun hbelow => ?_⟩, ⟨?_, ?_⟩, ?_⟩
    · rw [childless_of_some hd]
      exact blank_freeChain _ _ hunlinked.blank
    · obtain ⟨a, -, hac⟩ := Relation.TransGen.tail'_iff.mp hbelow
      exact h.unlinked hc a hac
    · rw [hfreed.size, World.unlinked, size_modifyCtx]
      exact hcx.lt
    · exact fun hc => hcx.used (hfree hc)
    · rw [hctx]
      exact field_modifyCtx (f := ({ · with child := none })) Context.nesting (fun _ => rfl) cx

/-! ## new contexts -/

theorem Household.newContext (h : w.Household handles) :
    w.newContext.2.Household (w.newContext.1 :: handles) ∧ w.newContext.2.InUse w.newContext.1 ∧
      ∀ c, w.InUse c → w.newContext.2.InUse c ∧ w.newContext.1 ≠ c := by
  have hf := h.kin.newContext
  have hused (c : CtxId) (hc : w.InUse c) : w.newContext.2.InUse c ∧ w.newContext.1 ≠ c :=
    ⟨⟨Nat.lt_of_lt_of_le hc.lt hf.grown, fun hfree => hc.used (hf.free c hfree)⟩, hf.other c hc.lt hc.used⟩
  have hroot : (w.ctx w.newContext.1).nesting = 0 := by
    unfold World.newContext
    cases hback : w.freeContexts.back? with
    | some x => exact congrArg Context.nesting (h.blank x (h.kin.exists_last hback).1)
    | none => exact congrArg Context.nesting (ctx_of_ge (Nat.le_refl _))
  refine ⟨⟨hf.kin, fun c hc => ?_, fun c d hcd => ?_, fun c hc => ?_, ?_⟩, ⟨hf.lt, hf.used⟩, hused⟩
  · rw [hf.ctx]
    exact h.blank c (hf.free c hc)
  · rw [hf.ctx] at hcd
    rw [hf.ctx, hf.ctx]
    exact h.nested c d hcd
  · rw [hf.ctx]
    rcases List.mem_cons.mp hc with rfl | hc
    · exact ⟨⟨hf.lt, hf.used⟩, hroot⟩
    · exact ⟨(hused c (h.owned c hc).1).1, (h.owned c hc).2⟩
  · exact List.nodup_cons.mpr ⟨fun hmem => (hused _ (h.owned _ hmem).1).2 rfl, h.nodup⟩

theorem Household.tail (h : w.Household (x :: handles)) : w.Household handles :=
  { h with
    owned := fun c hc => h.owned c (List.mem_cons_of_mem x hc)
    nodup := (List.nodup_cons.mp h.nodup).2 }

/-- A context that nobody has becomes the child of another one. -/
theorem Household.adopt (h : w.Household (x :: handles)) (hcx : w.InUse cx) (hne : x ≠ cx)
    (hless : (w.ctx x).child = none) : (w.adopt cx x ((w.ctx cx).nesting + 1)).Household handles := by
  have hx := (h.owned x List.mem_cons_self).1
  have hkin := h.kin.adopt hx.lt hx.used (h.unlinked List.mem_cons_self) hless hcx.lt hcx.used hne
    (Nat.lt_succ_self _)
  have hparent : (w.adopt cx x ((w.ctx cx).nesting + 1)).ctx cx = { w.ctx cx with child := some x } :=
    ctx_adopt_parent _ hcx.lt hne
  have hchild : (w.adopt cx x ((w.ctx cx).nesting + 1)).ctx x =
      { w.ctx x with parent := some cx, nesting := (w.ctx cx).nesting + 1 } := ctx_adopt_child _ hx.lt hne
  have hsame {c : CtxId} (hc : x ≠ c) :
      ((w.adopt cx x ((w.ctx cx).nesting + 1)).ctx c).nesting = (w.ctx c).nesting := by
    by_cases hcxc : cx = c
    · subst hcxc
      rw [hparent]
    · rw [ctx_adopt_of_ne _ hcxc hc]
  refine ⟨hkin, fun c hc => ?_, fun c d hcd => ?_, fun c hc => ⟨⟨?_, ?_⟩, ?_⟩, h.tail.nodup⟩
  · rw [ctx_adopt_of_ne]
    · exact h.blank c hc
    · rintro rfl
      exact hcx.used hc
    · rintro rfl
      exact hx.used hc
  · by_cases hxd : x = d
    · subst hxd
      obtain rfl : c = cx := Option.some.inj ((hkin.parent c x hcd).symm.trans (by rw [hchild]))
      rw [hchild, hsame hne]
    · have hxc : x ≠ c := by
        rintro rfl
        rw [hchild, hless] at hcd
        exact nomatch hcd
      have hcxc : cx ≠ c := by
        rintro rfl
        rw [hparent] at hcd
        exact hxd (Option.some.inj hcd)
      rw [hsame hxc, hsame hxd]
      rw [ctx_adopt_of_ne _ hcxc hxc] at hcd
      exact h.nested c d hcd
  · rw [size_adopt]
    exact (h.tail.owned c hc).1.lt
  · exact (h.tail.owned c hc).1.used
  · rw [hsame]
    · exact (h.tail.owned c hc).2
    · rintro rfl
      exact (List.nodup_cons.mp h.nodup).1 hc

/-! ## what is done on a context -/

theorem formal_household (handles : List CtxId) : Formal (World.Household handles) where
  rest h _ _ := h.congr rfl rfl (fun _ => rfl) (fun _ => rfl) (fun _ => rfl) h.blank
  uncache h := by
    refine h.congr (Array.size_map ..) rfl ?_ ?_ ?_ fun c hc => ?_
    all_goals simp only [ctx_uncached]
    · exact fun _ => rfl
    · exact fun _ => rfl
    · exact fun _ => rfl
    · rw [h.blank c hc]
      rfl

/-- **Whatever is done on a context** in use leaves the contexts in order. -/
theorem custom_household (cx : CtxId) (handles : List CtxId) :
    Custom cx fun w => w.Household handles ∧ w.InUse cx where
  rest h v hv := ⟨(formal_household handles).rest h.1 v hv, ⟨h.2.lt, h.2.used⟩⟩
  uncache h := by
    refine ⟨(formal_household handles).uncache h.1, ⟨?_, h.2.used⟩⟩
    exact (Array.size_map ..).symm ▸ h.2.lt
  edit h _ hg _ :=
    ⟨h.1.modifyCtx h.2 hg.blind.child hg.parent hg.nesting, ⟨(size_modifyCtx ..).symm ▸ h.2.lt, h.2.used⟩⟩
  error h _ :=
    ⟨h.1.modifyCtx h.2 (fun _ => rfl) (fun _ => rfl) fun _ => rfl, ⟨(size_modifyCtx ..).symm ▸ h.2.lt, h.2.used⟩⟩
  freeChild h := ⟨(h.1.childless h.2).1, (h.1.childless h.2).2.1⟩
  subContext h _ := by
    obtain ⟨hless, hused, hnesting⟩ := h.1.childless h.2
    obtain ⟨hnew, -, hother⟩ := hless.newContext
    have hf := hless.kin.newContext
    obtain ⟨hcx, hne⟩ := hother _ hused
    rw [← hnesting, ← hf.ctx]
    exact ⟨hnew.adopt hcx hne hf.childless, ⟨by rw [size_adopt]; exact hcx.lt, hcx.used⟩⟩

end World

/-! ## a host and its handles -/

namespace Host

open World (Household)

/-- The states that a host comes to from a new engine, with the handles it has.  It makes contexts and drops
them inside a run as well, from its natives, but none while that or one below it is at work. -/
inductive Holds : List CtxId → State → Prop
  | new (options : Options) : Holds [] (.idle (.new options))
  | newContext {handles held : List CtxId} {s s' : State} (h : Holds handles s)
    (hat : AtHost Foreign held s s.world.newContext.2 s') : Holds (s.world.newContext.1 :: handles) s'
  | drop {handles held : List CtxId} {s s' : State} (h : Holds handles s) {x : CtxId} (hx : x ∈ handles)
    (hclear : s.world.Clear x held) (hat : AtHost Foreign held s (s.world.freeContext x) s') :
    Holds (handles.erase x) s'
  /-- Any other move. -/
  | moves {handles : List CtxId} {l : Matter} {s s' : State} (h : Holds handles s) (hmove : Move l s s')
    (hmade : l ≠ .made) (hdropped : ∀ x, l ≠ .dropped x) : Holds handles s'

section

variable {s s' : State} {handles : List CtxId} {l : Matter}

/-- **A move that neither makes nor drops a context** leaves the contexts in order. -/
theorem Move.household (h : Move l s s') (hs : s.Good) (hmade : l ≠ .made) (hdropped : ∀ x, l ≠ .dropped x)
    (hh : s.world.Household handles) : s'.world.Household handles :=
  h.keeps hs (World.formal_household handles)
    (fun cx hcx => ⟨_, World.custom_household cx handles, ⟨hh, hcx⟩, fun _ h => h.1⟩)
    (fun hl => absurd hl hmade) (fun x hl => absurd hl (hdropped x)) hh

theorem Holds.household (h : Holds handles s) : s.Good ∧ s.world.Household handles := by
  induction h with
  | new options => exact ⟨good_new options, World.household_new options⟩
  | newContext _ hat ih =>
    obtain ⟨hs, hh⟩ := ih
    refine ⟨hat.good hs (.newContext _), ?_⟩
    rw [hat.world]
    exact hh.newContext.1
  | @drop _ _ _ _ _ x hx hclear hat ih =>
    obtain ⟨hs, hh⟩ := ih
    refine ⟨hat.good hs (.drop (hh.owned x hx).1 (hh.unlinked hx) hclear), ?_⟩
    rw [hat.world]
    exact hh.drop hx
  | moves _ hmove hmade hdropped ih =>
    exact ⟨(hmove.along ih.1).2, hmove.household ih.1 hmade hdropped ih.2⟩

/-- **Nobody's context is handed out again.**  Whatever a host and its natives do with contexts, the free
list has each context once, and none that a handle owns or that is a child; all on it are as new.  A
child has one parent, which it names, and which is nested one less deep. -/
theorem Holds.contexts_apart (h : Holds handles s) :
    s.world.freeContexts.toList.Nodup ∧
    (∀ c ∈ s.world.freeContexts, c ∉ handles ∧ (∀ d, (s.world.ctx d).child ≠ some c) ∧ s.world.ctx c = {}) ∧
    (∀ c d, (s.world.ctx c).child = some d → (∀ c', (s.world.ctx c').child = some d → c' = c) ∧
      (s.world.ctx d).parent = some c ∧ (s.world.ctx c).nesting + 1 = (s.world.ctx d).nesting) ∧
    handles.Nodup ∧ ∀ c ∈ handles, ∀ d, (s.world.ctx d).child ≠ some c := by
  obtain ⟨-, hh⟩ := h.household
  refine ⟨hh.kin.nodup, fun c hc => ⟨fun hm => ?_, fun d hd => ?_, hh.blank c hc⟩, fun c d hcd => ⟨?_, ?_, ?_⟩,
    hh.nodup, fun c hc => hh.unlinked hc⟩
  · exact (hh.owned c hm).1.used hc
  · exact hh.kin.used d c hd hc
  · exact fun c' hc' => Option.some.inj ((hh.kin.parent c' d hc').symm.trans (hh.kin.parent c d hcd))
  · exact hh.kin.parent c d hcd
  · exact (hh.nested c d hcd).symm

/-- A context with a child is dropped, while the host has another one. -/
theorem Holds.contexts_apart_dropped :
    let w := World.after ((Deed.subContext.act 0).run (World.new {}).newContext.2)
    let w' := w.newContext.2.freeContext 0
    w'.freeContexts = #[0, 1] ∧ w'.freeContexts.toList.Nodup ∧ w'.ctx 1 = {} := by
  intro w w'
  have hnew : Holds [0] (.idle (World.new {}).newContext.2) := (Holds.new {}).newContext (.idle _ _)
  have hsub : Holds [0] (.idle w) :=
    hnew.moves (.tend (.idle _ _) (.deed ⟨Nat.zero_lt_one, Array.not_mem_empty 0⟩ (World.clear_nil _ _) trivial)) nofun nofun
  have hother : Holds [2, 0] (.idle w.newContext.2) := hsub.newContext (.idle _ _)
  have hdrop : Holds [2] (.idle w') :=
    hother.drop (List.mem_cons_of_mem _ List.mem_cons_self) (World.clear_nil _ _) (.idle _ _)
  have hfree : w'.freeContexts = #[0, 1] := by decide +kernel
  obtain ⟨hnodup, hblank, -⟩ := Holds.contexts_apart hdrop
  exact ⟨hfree, hnodup, (hblank 1 (hfree ▸ Array.mem_of_getElem? (i := 1) rfl)).2.2⟩

end

end Host

end ScriptEngine
