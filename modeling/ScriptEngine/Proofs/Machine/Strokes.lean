import ScriptEngine.Proofs.Heap.Consistency
import ScriptEngine.Proofs.Machine.Allotment

/-!
# What happens to the cells

Whatever an engine does comes down to a few things that happen to its cells, one after the other: a
collection, a new object or name, the hash of a key taken, an entry stored or removed, a vector or a
string changed.  Each of them keeps the engine consistent.

* `World.Consistent`   the heap is consistent, and the cells and frames are as they should be;
* `World.Stroke`       one thing that happens to the cells;
* `World.Stroke.consistent`   it keeps an engine consistent;
* `World.Via`          one after the other;
* `World.Link`, `World.Along`   the same, but a closure is made only if it leads on to a live value;
* `World.along_alloc`, `World.along_leave`, ...   what the machine does by way of them.
-/

namespace ScriptEngine.World

/-- The heap is consistent, its cells are where they belong, the names with a meaning for the machine
are registered, and all frames run the code of their functions. -/
structure Consistent (w : World) : Prop where
  heap : w.heap.Consistent
  placed : w.Placed
  me : w.heap.symbols[Bytes.ofString "me"]? = some w.symMe
  arg : w.heap.symbols[Bytes.ofString "arg"]? = some w.symArg
  parents : w.heap.symbols[Bytes.ofString "parents"]? = some w.symParents
  framed : ∀ cx, ∀ f ∈ (w.ctx cx).frames, w.heap.Framed f

def stored (w : World) (box key v : Value) : World :=
  { w with heap := (w.heap.store box key (w.heap.keyHash key).1 (w.heap.keyHash key).2 v).2 }

def removed (w : World) (box key : Value) : World :=
  { w with heap := (w.heap.remove box key (w.heap.keyHash key).1 (w.heap.keyHash key).2).2 }

/-- One thing that happens to the cells. -/
inductive Stroke : World → World → Prop
  /-- They hold what they held.  Cells may be handed out, and contexts and pins may change. -/
  | still {w w' : World} (bodies : ∀ a, w'.heap.body a = w.heap.body a)
    (symbols : w'.heap.symbols = w.heap.symbols) (placed : w.Placed → w'.Placed)
    (names : w'.symMe = w.symMe ∧ w'.symArg = w.symArg ∧ w'.symParents = w.symParents)
    (framed : ∀ cx, ∀ f ∈ (w'.ctx cx).frames, w.heap.Framed f ∨
      ∃ cy, ∃ g ∈ (w.ctx cy).frames, f.func = g.func ∧ f.code = g.code) : Stroke w w'
  | collect (w : World) : Stroke w w.collectGarbage
  | make {w : World} {k : Kind} {a : Addr} {b : Body} (dealt : w.Dealt k [a])
    (kind : b.kind? = some k) (fresh : w.heap.Fresh b) :
    Stroke w { w with heap := w.heap.install a b }
  | intern (w : World) (name : Bytes) : Stroke w { w with heap := (w.heap.intern name).2 }
  | freeze (w : World) (key : Value) : Stroke w { w with heap := w.heap.freeze key }
  | store (w : World) (box : Value) {key : Value} (frozen : w.heap.Frozen key) (v : Value) :
    Stroke w (w.stored box key v)
  | remove (w : World) (box key : Value) : Stroke w (w.removed box key)
  | items (w : World) (a : Addr) (f : Array Value → Array Value) :
    Stroke w { w with heap := w.heap.modify a (Heap.onItems f) }
  | byte {w : World} {a : Addr} {s s' : Str} {i : Nat} {b : UInt8} (old : w.heap.body a = .str s)
    (new : s.setByte i b = .ok s') :
    Stroke w { w with heap := w.heap.modify a fun _ => .str s' }

variable {w w' w'' : World} {cx : CtxId} {a : Addr}

/-! ## what a stroke keeps -/

theorem Placed.thins (hp : w.Placed) : w.heap.Thins w.collectGarbage.heap := by
  have hcol := collected hp.stocked.laid hp.stocked.clear
  have hreach {a : Addr} (ha : w.collectGarbage.heap.body a ≠ .free) :
      w.heap.Reaches w.liveRoots a := by
    by_contra hno
    exact ha (hcol.freed a hno)
  refine ⟨fun a => ?_, fun a b ha hb => hcol.kept b (.child (hreach ha) hb), hcol.symbols,
    fun name a ha => hcol.kept a (.root (mem_liveRoots.mpr (.inr (mem_pinned_symbol ha))))⟩
  by_cases ha : w.heap.Reaches w.liveRoots a
  · exact .inl (hcol.kept a ha)
  · exact .inr (hcol.freed a ha)

theorem Consistent.holds (hc : w.Consistent) {h : Heap} (hh : h.Consistent) (hp : w.heap.Holds h)
    (hplaced : Placed { w with heap := h })
    (hsym : ∀ (name : Bytes) a, w.heap.symbols[name]? = some a → h.symbols[name]? = some a) :
    Consistent { w with heap := h } where
  heap := hh
  placed := hplaced
  me := hsym _ _ hc.me
  arg := hsym _ _ hc.arg
  parents := hsym _ _ hc.parents
  framed cx f hf := hp.framed (hc.framed cx f hf)

theorem Placed.reshaped (h : w.Placed) {h' : Heap} (hr : w.heap.Reshaped h') :
    Placed { w with heap := h' } := by
  rcases hr with rfl | ⟨a, f, rfl, hf⟩
  · exact h
  · exact h.edit a hf

theorem Consistent.reshaped (hc : w.Consistent) {h : Heap} (hh : h.Consistent ∧ w.heap.Holds h)
    (hr : w.heap.Reshaped h) : Consistent { w with heap := h } :=
  hc.holds hh.1 hh.2 (hc.placed.reshaped hr) fun _ _ hs => hr.symbols.symm ▸ hs

theorem Consistent.collectGarbage (hc : w.Consistent) : w.collectGarbage.Consistent := by
  have hcol := collected hc.placed.stocked.laid hc.placed.stocked.clear
  refine ⟨hc.heap.thin hc.placed.thins, hc.placed.collectGarbage, hcol.symbols ▸ hc.me, hcol.symbols ▸ hc.arg,
    hcol.symbols ▸ hc.parents, fun cx f hf => ?_⟩
  -- the function of a frame is a root
  rw [ctx_dropCache] at hf
  have hf : f ∈ (w.ctx cx).frames := hf
  exact hcol.extends.framed (kept_of_frame hf).1 (hc.framed cx f hf)

/-- **A stroke keeps the engine consistent.** -/
theorem Stroke.consistent (h : Stroke w w') (hc : w.Consistent) : w'.Consistent := by
  cases h with
  | still bodies symbols placed names framed =>
    obtain ⟨hme, harg, hparents⟩ := names
    refine ⟨hc.heap.congr bodies symbols, placed hc.placed, ?_, ?_, ?_, fun cx f hf => ?_⟩
    · rw [symbols, hme]
      exact hc.me
    · rw [symbols, harg]
      exact hc.arg
    · rw [symbols, hparents]
      exact hc.parents
    · refine (Heap.Holds.of_same bodies).framed ?_
      rcases framed cx f hf with hf | ⟨cy, g, hg, e1, e2⟩
      · exact hf
      · obtain ⟨target, scope, h1, h2⟩ := hc.framed cy g hg
        exact ⟨target, scope, e1 ▸ h1, e2 ▸ h2⟩
  | collect => exact hc.collectGarbage
  | make dealt kind fresh =>
    obtain ⟨ha, hfree, -⟩ := dealt.unlisted
    exact hc.holds (hc.heap.install ha hfree fresh) (Heap.holds_install ha hfree _)
      (dealt.install kind) fun _ _ hs => hs
  | intern name =>
    obtain ⟨h1, h2⟩ := hc.heap.intern hc.placed.stocked name
    exact hc.holds h1 h2 (hc.placed.intern name) (hc.placed.stocked.intern name).old
  | freeze key =>
    exact hc.reshaped ⟨hc.heap.freeze key, Heap.holds_freeze _ key⟩ (Heap.reshaped_freeze _ key)
  | store box frozen v => exact hc.reshaped (hc.heap.store box frozen v) (Heap.reshaped_store ..)
  | remove box key => exact hc.reshaped (hc.heap.remove box key) (Heap.reshaped_remove ..)
  | items a f =>
    exact hc.reshaped (hc.heap.items a f) (.inr ⟨a, _, rfl, Heap.kind?_onItems f _⟩)
  | byte old new => exact hc.reshaped (hc.heap.byte old new) (.inr ⟨_, _, rfl, by rw [old]; rfl⟩)

theorem Stroke.names (h : Stroke w w') (hc : w.Consistent) {name : Bytes}
    (ha : w.heap.symbols[name]? = some a) : w'.heap.symbols[name]? = some a := by
  cases h with
  | still bodies symbols placed names framed => rw [symbols, ha]
  | collect =>
    rw [(collected hc.placed.stocked.laid hc.placed.stocked.clear).symbols, ha]
  | make => exact ha
  | intern other => exact (hc.placed.stocked.intern other).old name a ha
  | freeze key => rw [(Heap.reshaped_freeze w.heap key).symbols, ha]
  | store box frozen v =>
    exact (congrArg (·[name]?) (Heap.reshaped_store w.heap ..).symbols).trans ha
  | remove box key => exact (congrArg (·[name]?) (Heap.reshaped_remove w.heap ..).symbols).trans ha
  | items => exact ha
  | byte => exact ha

/-- A string whose hash has been taken stays as it is until its cell is freed. -/
theorem Stroke.frozen (h : Stroke w w') (hc : w.Consistent) {s : Str} (hs : w.heap.body a = .str s)
    (hash : s.hash.isSome = true) : w'.heap.body a = .str s ∨ w'.heap.body a = .free := by
  cases h with
  | still bodies => exact .inl ((bodies a).trans hs)
  | collect => exact (hc.placed.thins.body a).imp_left fun e => e.trans hs
  | make dealt kind fresh =>
    obtain ⟨hlt, hfree, -⟩ := dealt.unlisted
    exact .inl ((Heap.holds_install hlt hfree _).frozen a s hs hash)
  | intern name => exact .inl ((hc.heap.intern hc.placed.stocked name).2.frozen a s hs hash)
  | freeze key => exact .inl ((Heap.holds_freeze _ key).frozen a s hs hash)
  | store box frozen v => exact .inl ((hc.heap.store box frozen v).2.frozen a s hs hash)
  | remove box key => exact .inl ((hc.heap.remove box key).2.frozen a s hs hash)
  | items b f => exact .inl ((hc.heap.items b f).2.frozen a s hs hash)
  | byte old new => exact .inl ((hc.heap.byte old new).2.frozen a s hs hash)

/-- An entry stays in its hash, with its value or another that is stored under the same key, until the
hash is freed or the key is removed. -/
theorem Stroke.stores (h : Stroke w w') (hc : w.Consistent) {key v : Value}
    (hs : w.heap.Stores a key v) (hfree : w'.heap.body a ≠ .free) :
    (∃ x, w'.heap.Stores a key x) ∨ ∃ k, w.heap.keysEqual key k = true ∧ w' = w.removed (.obj a) k := by
  cases h with
  | still bodies => exact .inl ⟨v, hs.of_same (bodies a)⟩
  | collect => exact .inl ⟨v, hs.of_same ((hc.placed.thins.body a).resolve_right hfree)⟩
  | make dealt kind fresh =>
    obtain ⟨hlt, hidle, -⟩ := dealt.unlisted
    refine .inl ⟨v, hs.of_same ((Heap.body_install w.heap hlt _ a).trans (if_neg ?_))⟩
    rintro rfl
    exact hs.body_ne hidle
  | intern name => exact .inl ⟨v, hs.of_same (Heap.body_intern hc.placed.stocked name hs.body_ne)⟩
  | freeze key =>
    obtain ⟨t, ht, hm⟩ := hs
    rcases Heap.body_freeze w.heap key a with e | ⟨s, hs, -⟩
    · exact .inl ⟨v, t, e.trans ht, hm⟩
    · exact nomatch ht.symm.trans hs
  | store box frozen x =>
    rcases hs.store hc.heap box _ x with h | ⟨-, -, h⟩
    · exact .inl ⟨_, h⟩
    · exact .inl ⟨_, h⟩
  | remove box k =>
    rcases hs.remove hc.heap box k with h | ⟨rfl, he⟩
    · exact .inl ⟨_, h⟩
    · exact .inr ⟨k, he, rfl⟩
  | items b f => exact .inl ⟨v, hs.modify fun _ => rfl⟩
  | byte old new =>
    obtain ⟨t, ht, hm⟩ := hs
    refine .inl ⟨v, t, (Heap.body_modify_of_ne w.heap (fun e => ?_) _).trans ht, hm⟩
    rw [e, ht] at old
    exact nomatch old

/-! ## one after the other -/

/-- Any number of strokes. -/
def Via : World → World → Prop := Relation.ReflTransGen Stroke

theorem Via.refl (w : World) : w.Via w := Relation.ReflTransGen.refl

theorem Via.trans (h : w.Via w') (h' : w'.Via w'') : w.Via w'' := Relation.ReflTransGen.trans h h'

theorem Stroke.via (h : Stroke w w') : w.Via w' := .single h

theorem Via.consistent (h : w.Via w') (hc : w.Consistent) : w'.Consistent := by
  induction h with
  | refl => exact hc
  | tail _ hs ih => exact hs.consistent ih

theorem Via.names (h : w.Via w') (hc : w.Consistent) {name : Bytes}
    (ha : w.heap.symbols[name]? = some a) : w'.heap.symbols[name]? = some a := by
  induction h with
  | refl => exact ha
  | tail h hs ih => exact hs.names (Via.consistent h hc) ih

theorem Via.proper (h : w.Via w') (hc : w.Consistent) {code : Loaded}
    (hcode : code.Proper w.heap) : code.Proper w'.heap :=
  hcode.mono (h.consistent hc).heap.registered fun _ _ ha => h.names hc ha

/-! ## new closures -/

/-- A stroke that makes no closure, or one that leads on to a live value. -/
structure Link (w w' : World) : Prop where
  stroke : Stroke w w'
  live : w.Placed → ∀ a ns next, w.heap.body a = .free → w'.heap.body a = .closure ns next →
    w.heap.Live next

theorem Stroke.link (h : Stroke w w')
    (hkind : w.Placed → ∀ a, w.heap.body a = .free → (w'.heap.body a).kind? ≠ some .closure) :
    Link w w' := by
  refine ⟨h, fun hp a ns next hfree hb => absurd ?_ (hkind hp a hfree)⟩
  rw [hb]
  rfl

theorem Stroke.link_reshaped (h : Stroke w w') (hr : w.heap.Reshaped w'.heap) : Link w w' := by
  refine h.link fun _ a hfree hk => ?_
  rw [hr.kind?, hfree] at hk
  exact nomatch hk

theorem Link.still (bodies : ∀ a, w'.heap.body a = w.heap.body a)
    (symbols : w'.heap.symbols = w.heap.symbols) (placed : w.Placed → w'.Placed)
    (names : w'.symMe = w.symMe ∧ w'.symArg = w.symArg ∧ w'.symParents = w.symParents)
    (framed : ∀ cx, ∀ f ∈ (w'.ctx cx).frames, w.heap.Framed f ∨
      ∃ cy, ∃ g ∈ (w.ctx cy).frames, f.func = g.func ∧ f.code = g.code) : Link w w' := by
  refine (Stroke.still bodies symbols placed names framed).link fun _ a hfree hk => ?_
  rw [bodies, hfree] at hk
  exact nomatch hk

theorem Link.collect (w : World) : Link w w.collectGarbage := by
  refine (Stroke.collect w).link fun hp a hfree hk => ?_
  have hgone : w.collectGarbage.heap.body a = .free := (hp.thins.body a).elim (·.trans hfree) id
  rw [hgone] at hk
  exact nomatch hk

theorem Link.make {k : Kind} {b : Body} (dealt : w.Dealt k [a]) (kind : b.kind? = some k)
    (fresh : w.heap.Fresh b) (next : ∀ ns next, b = .closure ns next → w.heap.Live next) :
    Link w { w with heap := w.heap.install a b } := by
  refine ⟨.make dealt kind fresh, fun _ x ns v hfree hb => next ns v ?_⟩
  rw [Heap.body_install _ dealt.unlisted.1] at hb
  split at hb
  · exact hb
  · exact nomatch hfree.symm.trans hb

theorem Link.intern (w : World) (name : Bytes) : Link w { w with heap := (w.heap.intern name).2 } := by
  refine (Stroke.intern w name).link fun hp a hfree hk => ?_
  rcases Heap.body_intern_free hp.stocked name hfree with hb | ⟨s, hb⟩
  · rw [show (w.heap.intern name).2.body a = .free from hb] at hk
    exact nomatch hk
  · rw [show (w.heap.intern name).2.body a = .str s from hb] at hk
    exact nomatch hk

theorem Link.freeze (w : World) (key : Value) : Link w { w with heap := w.heap.freeze key } :=
  (Stroke.freeze w key).link_reshaped (Heap.reshaped_freeze _ key)

theorem Link.store (w : World) (box : Value) {key : Value} (frozen : w.heap.Frozen key) (v : Value) :
    Link w (w.stored box key v) := (Stroke.store w box frozen v).link_reshaped (Heap.reshaped_store ..)

theorem Link.remove (w : World) (box key : Value) : Link w (w.removed box key) :=
  (Stroke.remove w box key).link_reshaped (Heap.reshaped_remove ..)

theorem Link.items (w : World) (a : Addr) (f : Array Value → Array Value) :
    Link w { w with heap := w.heap.modify a (Heap.onItems f) } :=
  (Stroke.items w a f).link_reshaped (.inr ⟨a, _, rfl, Heap.kind?_onItems f _⟩)

theorem Link.byte {s s' : Str} {i : Nat} {b : UInt8} (old : w.heap.body a = .str s)
    (new : s.setByte i b = .ok s') : Link w { w with heap := w.heap.modify a fun _ => .str s' } :=
  (Stroke.byte old new).link_reshaped (.inr ⟨_, _, rfl, by rw [old]; rfl⟩)

/-- Any number of such strokes. -/
def Along : World → World → Prop := Relation.ReflTransGen Link

theorem Along.refl (w : World) : w.Along w := Relation.ReflTransGen.refl

theorem Along.trans (h : w.Along w') (h' : w'.Along w'') : w.Along w'' := Relation.ReflTransGen.trans h h'

theorem Link.along (h : Link w w') : w.Along w' := .single h

theorem Along.via (h : w.Along w') : w.Via w' := Relation.ReflTransGen.mono (fun _ _ hl => hl.stroke) _ _ h

theorem Along.consistent (h : w.Along w') (hc : w.Consistent) : w'.Consistent := h.via.consistent hc

theorem Along.names (h : w.Along w') (hc : w.Consistent) {name : Bytes}
    (ha : w.heap.symbols[name]? = some a) : w'.heap.symbols[name]? = some a := h.via.names hc ha

theorem Along.proper (h : w.Along w') (hc : w.Consistent) {code : Loaded}
    (hcode : code.Proper w.heap) : code.Proper w'.heap := h.via.proper hc hcode

/-! ### contexts and the gate -/

/-- Nothing happens to the cells, nor to the contexts. -/
theorem along_of_eq (hh : w'.heap = w.heap) (hctx : w'.contexts = w.contexts)
    (hnames : w'.symMe = w.symMe ∧ w'.symArg = w.symArg ∧ w'.symParents = w.symParents) :
    w.Along w' := by
  refine Link.along (.still (fun a => by rw [hh]) (by rw [hh]) (fun h => h.same hh hctx) hnames
    fun cx f hf => .inr ⟨cx, f, ?_, rfl, rfl⟩)
  rwa [World.ctx, ← hctx]

theorem along_same (h : w.Same w') : w.Along w' :=
  along_of_eq h.heap h.contexts ⟨h.symMe, h.symArg, h.symParents⟩

/-- A context changes, but gets no frames other than those that run the code of their functions. -/
theorem along_modifyCtx (w : World) (cx : CtxId) {f : Context → Context}
    (hcache : (f (w.ctx cx)).cache = (w.ctx cx).cache ∨
      (f (w.ctx cx)).cache = (Vector.replicate 8 #[] : PerKind (Array Addr)))
    (hframes : ∀ g ∈ (f (w.ctx cx)).frames, w.heap.Framed g ∨
      ∃ g' ∈ (w.ctx cx).frames, g.func = g'.func ∧ g.code = g'.code) :
    w.Along (w.modifyCtx cx f) := by
  refine Link.along (.still (fun _ => rfl) rfl (fun h => h.modifyCtx cx hcache) ⟨rfl, rfl, rfl⟩
    fun other g hg => ?_)
  by_cases hcx : cx < w.contexts.size
  · by_cases ho : cx = other
    · subst ho
      rw [ctx_modifyCtx_self hcx] at hg
      exact (hframes g hg).imp_right fun h => ⟨cx, h⟩
    · rw [ctx_modifyCtx_of_ne ho] at hg
      exact .inr ⟨other, g, hg, rfl, rfl⟩
  · rw [modifyCtx_of_ge (Nat.le_of_not_lt hcx)] at hg
    exact .inr ⟨other, g, hg, rfl, rfl⟩

/-- A change of a context other than of its cache and its frames. -/
theorem along_touch (w : World) (cx : CtxId) {f : Context → Context}
    (hcache : (f (w.ctx cx)).cache = (w.ctx cx).cache)
    (hframes : (f (w.ctx cx)).frames = (w.ctx cx).frames) : w.Along (w.modifyCtx cx f) :=
  along_modifyCtx w cx (.inl hcache) fun g hg => .inr ⟨g, hframes ▸ hg, rfl, rfl⟩

theorem along_serve (w : World) : w.Along w.serve := by
  have hdead : w.Along w.freeDead := along_same (by constructor <;> rfl)
  have lower (u : World) :
      u.Along { u with gate := { u.gate with raised := false, pending := false } } :=
    along_same (by constructor <;> rfl)
  rw [World.serve]
  dsimp only
  split
  · exact (hdead.trans (Link.collect _).along).trans (lower _)
  · exact hdead.trans (lower _)

theorem along_same_serve (h : w.Same w') : w.Along w'.serve := (along_same h).trans (along_serve w')

theorem along_enter (w : World) : w.Along w.enter := by
  rw [World.enter]
  dsimp only
  split
  · exact along_same (by constructor <;> rfl)
  · split
    · exact along_same_serve (by constructor <;> rfl)
    · exact along_same (by constructor <;> rfl)

theorem along_leave (w : World) : w.Along w.leave := by
  have leaving (u : World) :
      u.Along { u with gate := { u.gate with threads := u.gate.threads - 1 } } :=
    along_same (by constructor <;> rfl)
  rw [World.leave]
  dsimp only
  split
  · exact along_same (by constructor <;> rfl)
  · split
    · exact Along.trans (along_same_serve (by constructor <;> rfl)) (leaving _)
    · exact along_same (by constructor <;> rfl)

theorem along_poll (w : World) : w.Along w.poll := by
  rw [World.poll]
  split
  · exact along_serve w
  · exact .refl w

theorem along_retire (w : World) : w.Along w.retire := by
  rw [World.retire]
  dsimp only
  split
  · split
    · exact along_same_serve (by constructor <;> rfl)
    · exact along_same (by constructor <;> rfl)
  · exact along_same (by constructor <;> rfl)

theorem along_collectNow (w : World) : w.Along w.collectNow := by
  rw [World.collectNow]
  split
  · exact along_same_serve (by constructor <;> rfl)
  · exact along_same (by constructor <;> rfl)

theorem along_collect (w : World) : w.Along w.collect := by
  rw [World.collect]
  split
  · exact along_same (by constructor <;> rfl)
  · exact ((along_enter w).trans (along_collectNow _)).trans (along_leave _)

theorem along_newContext (h : w.Placed) : w.Along w.newContext.2 := by
  refine Link.along (.still (fun a => ?_) ?_ (fun _ => h.newContext) ?_ fun cx f hf => ?_)
  all_goals unfold World.newContext at *
  · split <;> rfl
  · split <;> rfl
  · split <;> exact ⟨rfl, rfl, rfl⟩
  · refine .inr ⟨cx, f, ?_, rfl, rfl⟩
    split at hf
    · exact hf
    · rwa [ctx_push_empty] at hf

theorem along_freeChain (n : Nat) (c : Option CtxId) (w : World) : w.Along (freeChain n c w) := by
  induction n generalizing c w with
  | zero => exact .refl w
  | succ n ih =>
    cases c with
    | none => exact .refl w
    | some cx =>
      have hreset : w.Along (w.modifyCtx cx fun _ => {}) :=
        along_modifyCtx w cx (.inr rfl) fun g hg => absurd hg (Array.not_mem_empty g)
      unfold World.freeChain
      dsimp only
      refine Along.trans ?_ (ih _ _)
      split
      · exact hreset
      · exact hreset.trans (along_of_eq rfl rfl ⟨rfl, rfl, rfl⟩)

/-! ### objects -/

theorem along_take (h : w.Placed) (k : Kind) (n : Nat) :
    w.Along { w with heap := (w.heap.take k n).2 } :=
  Link.along (.still (fun _ => rfl) rfl (fun _ => (h.take k n).placed) ⟨rfl, rfl, rfl⟩
    fun cx f hf => .inr ⟨cx, f, hf, rfl, rfl⟩)

theorem along_growCells (h : w.Placed) (k : Kind) (n : Nat) : w.Along (w.growCells k n).2 :=
  Link.along (.still (fun a => (Heap.body_takeOrGrow w.heap k a).1) (Heap.body_takeOrGrow w.heap k 0).2
    (fun _ => (h.growCells k n).placed) ⟨rfl, rfl, rfl⟩ fun cx f hf => .inr ⟨cx, f, hf, rfl, rfl⟩)

theorem along_cellsOf (hc : w.Consistent) (k : Kind) (n : Nat) : w.Along (w.cellsOf k n).2 := by
  unfold World.cellsOf
  extract_lets serves u
  have hu : w.Along u := by
    unfold u
    split
    · exact along_serve w
    · exact .refl w
  have hplaced {v : World} (hv : w.Along v) : v.Placed := (hv.consistent hc).placed
  have hwant : w.Along { u with gate := { u.gate with needGc := true } } :=
    hu.trans (along_same (by constructor <;> rfl))
  dsimp only
  split
  · exact hu.trans (along_take (hplaced hu) k n)
  · split
    · have hserved := hwant.trans (along_serve _)
      split
      · exact hserved.trans (along_take (hplaced hserved) k n)
      · exact hserved.trans (along_growCells (hplaced hserved) k n)
    · exact hwant.trans (along_growCells (hplaced hwant) k n)

theorem along_obtain (hc : w.Consistent) (cx : CtxId) (k : Kind) (b : Body) :
    w.Along (w.obtain cx k b).2 := by
  have hdealt := hc.placed.obtain cx k b
  have hframes {v : World} (f : Context → Context) (hf : ∀ c, (f c).frames = c.frames) (other : CtxId)
      (g : Frame) (hg : g ∈ ((v.modifyCtx cx f).ctx other).frames) :
      v.heap.Framed g ∨ ∃ cy, ∃ g' ∈ (v.ctx cy).frames, g.func = g'.func ∧ g.code = g'.code := by
    rw [field_modifyCtx Context.frames hf] at hg
    exact .inr ⟨other, g, hg, rfl, rfl⟩
  revert hdealt
  unfold World.obtain
  split
  · intro hdealt
    exact Link.along (.still (fun _ => rfl) rfl (fun _ => hdealt.placed) ⟨rfl, rfl, rfl⟩
      (hframes _ fun _ => rfl))
  · rw [refill_eq]
    intro hdealt
    dsimp only at hdealt ⊢
    have hheld : w.Along (w.hold cx b) := along_touch w cx rfl rfl
    have hcells := along_cellsOf (hheld.consistent hc) k (w.hold cx b).options.allocBatch
    refine (hheld.trans hcells).trans ?_
    exact Link.along (.still (fun _ => rfl) rfl (fun _ => hdealt.placed) ⟨rfl, rfl, rfl⟩
      (hframes _ fun _ => rfl))

/-- **Making an object**: a cell is had first, by a collection perhaps, and then filled. -/
theorem via_alloc (hc : w.Consistent) (cx : CtxId) {k : Kind} {b : Body} (hk : b.kind? = some k)
    (hb : ∀ u, w.Via u → u.heap.Fresh b) : w.Via (w.alloc cx k b).2 := by
  have hobtain := (along_obtain hc cx k b).via
  rw [alloc_eq]
  exact (hobtain.trans (Stroke.make (hc.placed.obtain cx k b) hk (hb _ hobtain)).via).trans
    (along_touch _ cx rfl rfl).via

/-- Making an object that is no closure, or one that leads on to what is live when its cell is had. -/
theorem along_alloc (hc : w.Consistent) (cx : CtxId) {k : Kind} {b : Body} (hk : b.kind? = some k)
    (hb : ∀ u, w.Along u → u.heap.Fresh b)
    (hnext : ∀ ns next, b = .closure ns next → (w.obtain cx k b).2.heap.Live next) :
    w.Along (w.alloc cx k b).2 := by
  have hobtain := along_obtain hc cx k b
  rw [alloc_eq]
  exact (hobtain.trans (Link.make (hc.placed.obtain cx k b) hk (hb _ hobtain) hnext).along).trans
    (along_touch _ cx rfl rfl)

end ScriptEngine.World
