import ScriptEngine.Proofs.Machine.Strokes

/-!
# What a collection leaves alone

Wherever a collection may run, it frees what no root reaches and leaves all else as it is.  So an
object that is made takes a cell that no root reaches.

* `World.Untouched`         all that the roots reach is as it was;
* `World.Retired`           a state after collections: besides, some cells may be free;
* `World.Placed.retired_serve`, `World.Placed.retired_retire`   where they run;
* `World.Placed.kept_cellsOf`   handing out cells changes no object that a root reaches;
* `World.Placed.alloc_fresh`    nor does making an object, which takes a cell that no root reached.
-/

namespace ScriptEngine

namespace Heap

variable {h h' h'' : Heap} {a : Addr}

theorem Thins.refl (h : Heap) : h.Thins h :=
  ⟨fun _ => .inl rfl, fun _ _ _ _ => rfl, rfl, fun _ _ _ => rfl⟩

theorem Thins.trans (ht : h.Thins h') (ht' : h'.Thins h'') : h.Thins h'' where
  body a := (ht'.body a).elim (fun e => (ht.body a).imp e.trans e.trans) .inr
  child a b ha hb := by
    have ha' : h''.body a = h'.body a := (ht'.body a).resolve_right ha
    have ha'' : h'.body a = h.body a := (ht.body a).resolve_right (ha' ▸ ha)
    rw [ht'.child a b ha (ha''.symm ▸ hb), ht.child a b (ha' ▸ ha) hb]
  symbols := ht'.symbols.trans ht.symbols
  name name a ha := (ht'.name name a (ht.symbols.symm ▸ ha)).trans (ht.name name a ha)

/-- What is reached is still reached when it is as it was. -/
theorem Reaches.keep {roots roots' : List Value} (hroots : ∀ v ∈ roots, v ∈ roots')
    (hbody : ∀ a, h.Reaches roots a → h'.body a = h.body a) (ha : h.Reaches roots a) :
    h'.Reaches roots' a := by
  induction ha with
  | root hv => exact .root (hroots _ hv)
  | child hb hc ih => exact .child ih (hbody _ hb ▸ hc)

end Heap

namespace World

variable {w u w' : World}

/-- All that a root reaches is as it was, and all roots are still there. -/
structure Untouched (w w' : World) : Prop where
  roots : ∀ v ∈ w.liveRoots, v ∈ w'.liveRoots
  body : ∀ a, w.heap.Reaches w.liveRoots a → w'.heap.body a = w.heap.body a

theorem Untouched.reaches (h : w.Untouched w') {a : Addr} (ha : w.heap.Reaches w.liveRoots a) :
    w'.heap.Reaches w'.liveRoots a := ha.keep h.roots h.body

theorem Untouched.trans (h : w.Untouched u) (h' : u.Untouched w') : w.Untouched w' where
  roots v hv := h'.roots v (h.roots v hv)
  body a ha := (h'.body a (h.reaches ha)).trans (h.body a ha)

/-- The state after cells may have been freed that no root reaches. -/
structure Retired (w w' : World) : Prop where
  thins : w.heap.Thins w'.heap
  kept : ∀ a, w.heap.Reaches w.liveRoots a → w'.heap.body a = w.heap.body a
  roots : w'.liveRoots = w.liveRoots
  frames : ∀ cx, (w'.ctx cx).frames = (w.ctx cx).frames

theorem Retired.untouched (h : w.Retired w') : w.Untouched w' := ⟨fun _ hv => h.roots ▸ hv, h.kept⟩

theorem Retired.trans (h : w.Retired u) (h' : u.Retired w') : w.Retired w' where
  thins := h.thins.trans h'.thins
  kept := (h.untouched.trans h'.untouched).body
  roots := h'.roots.trans h.roots
  frames cx := (h'.frames cx).trans (h.frames cx)

theorem Same.retired (h : w.Same w') : w.Retired w' where
  thins := h.heap ▸ .refl w.heap
  kept _ _ := by rw [h.heap]
  roots := h.liveRoots
  frames cx := by rw [h.ctx]

/-! ## where collections run -/

theorem Placed.retired_collectGarbage (hp : w.Placed) : w.Retired w.collectGarbage := by
  have hcol := collected hp.stocked.laid hp.stocked.clear
  refine ⟨hp.thins, hcol.kept, liveRoots_collectGarbage hcol, fun cx => ?_⟩
  rw [ctx_dropCache]
  rfl

theorem Placed.retired_serve (hp : w.Placed) : w.Retired w.serve := by
  have hdead : w.Same w.freeDead := by constructor <;> rfl
  have lower (u : World) :
      u.Same { u with gate := { u.gate with raised := false, pending := false } } := by
    constructor <;> rfl
  rw [World.serve]
  dsimp only
  split
  · have hp' : w.freeDead.Placed := hp.same hdead.heap hdead.contexts
    exact hdead.retired.trans (hp'.retired_collectGarbage.trans (lower _).retired)
  · exact hdead.retired.trans (lower _).retired

theorem Placed.retired_retire (hp : w.Placed) : w.Retired w.retire := by
  have hnoted : w.Same { w with dead := w.dead + 1 } := by constructor <;> rfl
  have hp' : ({ w with dead := w.dead + 1 } : World).Placed := hp.same hnoted.heap hnoted.contexts
  rw [World.retire]
  dsimp only
  split
  · split
    · exact hnoted.retired.trans hp'.retired_serve
    · exact Same.retired (by constructor <;> rfl)
  · exact hnoted.retired

theorem Placed.kept_cellsOf (hp : w.Placed) (k : Kind) (n : Nat) {a : Addr}
    (ha : w.heap.Reaches w.liveRoots a) : (w.cellsOf k n).2.heap.body a = w.heap.body a := by
  have hwant (u : World) : u.Same { u with gate := { u.gate with needGc := true } } := by
    constructor <;> rfl
  unfold World.cellsOf
  extract_lets serves u
  have hu : w.Retired u ∧ u.Placed := by
    unfold u
    split
    · exact ⟨hp.retired_serve, hp.serve⟩
    · exact ⟨Same.retired (by constructor <;> rfl), hp⟩
  have hgrow (v : World) : (v.growCells k n).2.heap.body a = v.heap.body a :=
    (Heap.body_takeOrGrow v.heap k a).1
  dsimp only
  split
  · exact hu.1.kept a ha
  · split
    · have hserved := hu.1.trans ((hwant u).retired.trans
        (hu.2.same (hwant u).heap (hwant u).contexts).retired_serve)
      split
      · exact hserved.kept a ha
      · exact (hgrow _).trans (hserved.kept a ha)
    · exact (hgrow _).trans (hu.1.kept a ha)

theorem Placed.kept_obtain (hp : w.Placed) (cx : CtxId) (k : Kind) (b : Body) {a : Addr}
    (ha : w.heap.Reaches w.liveRoots a) : (w.obtain cx k b).2.heap.body a = w.heap.body a := by
  unfold World.obtain
  split
  · rfl
  · rw [refill_eq]
    -- while the cells are handed out there are more roots
    have hhold : (w.hold cx b).Placed := hp.modifyCtx cx (.inl rfl)
    have hextends : w.Extends (w.hold cx b) := by
      by_cases hcx : cx < w.contexts.size
      · exact extends_modifyCtx hcx ⟨rfl, fun v hv => Array.mem_append_left _ hv⟩
      · exact (same_modifyCtx (Nat.le_of_not_lt hcx) _).extends
    exact hhold.kept_cellsOf k _ (ha.keep (fun _ hv => hextends.roots hv) fun _ _ => rfl)

/-- **A new object** takes a cell that no root reached, and all that a root reached is as it was. -/
theorem Placed.alloc_fresh (hp : w.Placed) (hlive : ∀ v ∈ w.liveRoots, w.heap.Live v) (cx : CtxId)
    (k : Kind) (b : Body) :
    (∀ a, (w.alloc cx k b).1 = .obj a → ¬w.heap.Reaches w.liveRoots a) ∧
      ∀ a, w.heap.Reaches w.liveRoots a → (w.alloc cx k b).2.heap.body a = w.heap.body a := by
  have hdealt := hp.obtain cx k b
  obtain ⟨hlt, hfree, -⟩ := hdealt.unlisted
  have hne : ¬w.heap.Reaches w.liveRoots (w.obtain cx k b).1 := fun ha =>
    Heap.live_roots_iff.mpr hlive _ ha ((hp.kept_obtain cx k b ha).symm.trans hfree)
  rw [alloc_eq]
  refine ⟨fun a e => ?_, fun a ha => ?_⟩
  · rw [← Value.obj.inj e]
    exact hne
  · refine (Heap.body_install _ hlt b a).trans ?_
    rw [if_neg (by rintro rfl; exact hne ha), hp.kept_obtain cx k b ha]

end World

end ScriptEngine
