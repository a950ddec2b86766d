import ScriptEngine.Heap.Coerce
import ScriptEngine.Proofs.Heap.Marking
import ScriptEngine.Proofs.Table.Entries

/-!
# Live values

A value is live when no free cell can be reached from it.  Writing live values into objects keeps
all live values live; only freeing cells can make a value stale.

* `Heap.Live`             no free cell can be reached from a value;
* `Heap.live_obj`         an object is live when it is there and refers to live values only;
* `Heap.Live.mono`        a change that writes live values only keeps live values live;
* `Heap.Live.store`, `Heap.Live.remove`, `Heap.Live.freeze`   the changes made to tables and keys.
-/

namespace ScriptEngine.Heap

/-- No free cell can be reached from a value. -/
def Live (h : Heap) (v : Value) : Prop := ∀ a, h.Reaches [v] a → h.body a ≠ .free

section

variable {h h' : Heap} {v : Value} {a : Addr} {roots : List Value}

theorem Reaches.trans (hv : ∀ b, v = .obj b → h.Reaches roots b) (ha : h.Reaches [v] a) :
    h.Reaches roots a := by
  induction ha with
  | root ha => exact hv _ (List.mem_singleton.mp ha).symm
  | child _ hc ih => exact .child ih hc

theorem Reaches.exists_root (ha : h.Reaches roots a) : ∃ v ∈ roots, h.Reaches [v] a := by
  induction ha with
  | root ha => exact ⟨_, ha, .root List.mem_cons_self⟩
  | child _ hc ih =>
    obtain ⟨v, hv, hb⟩ := ih
    exact ⟨v, hv, .child hb hc⟩

/-- No root reaches a free cell exactly when all roots are live. -/
theorem live_roots_iff :
    (∀ a, h.Reaches roots a → h.body a ≠ .free) ↔ ∀ v ∈ roots, h.Live v := by
  constructor
  · intro hr v hv a ha
    exact hr a (.trans (fun b e => .root (e ▸ hv)) ha)
  · intro hl a ha
    obtain ⟨v, hv, ha⟩ := ha.exists_root
    exact hl v hv a ha

theorem live_of_not_obj (hv : ∀ a, v ≠ .obj a) : h.Live v := by
  intro a ha
  exfalso
  induction ha with
  | root ha => exact hv _ (List.mem_singleton.mp ha).symm
  | child _ _ ih => exact ih

@[simp] theorem live_nil : h.Live .nil := live_of_not_obj fun _ => Value.noConfusion

@[simp] theorem live_num (n : Number) : h.Live (.num n) := live_of_not_obj fun _ => Value.noConfusion

@[simp] theorem live_done : h.Live .done := live_of_not_obj fun _ => Value.noConfusion

/-- An object is live when it is there and refers to live values only. -/
theorem live_obj :
    h.Live (.obj a) ↔ h.body a ≠ .free ∧ ∀ c ∈ (h.body a).children, h.Live c := by
  constructor
  · intro hl
    refine ⟨hl a (.root List.mem_cons_self), fun c hc b hb => hl b (.trans ?_ hb)⟩
    rintro x rfl
    exact .child (.root List.mem_cons_self) hc
  · rintro ⟨hf, hc⟩ b hb
    have hsplit : b = a ∨ ∃ c ∈ (h.body a).children, h.Reaches [c] b := by
      induction hb with
      | root hb => exact .inl (Value.obj.inj (List.mem_singleton.mp hb))
      | child _ hx ih =>
        rcases ih with rfl | ⟨c, hc, hb⟩
        · exact .inr ⟨_, hx, .root List.mem_cons_self⟩
        · exact .inr ⟨c, hc, .child hb hx⟩
    rcases hsplit with rfl | ⟨c, hcm, hb⟩
    · exact hf
    · exact hc c hcm b hb

theorem Live.body_ne (hl : h.Live (.obj a)) : h.body a ≠ .free := (live_obj.mp hl).1

theorem Live.child (hl : h.Live (.obj a)) {c : Value} (hc : c ∈ (h.body a).children) : h.Live c :=
  (live_obj.mp hl).2 c hc

/-- Live values stay live when what live objects come to refer to is live. -/
theorem Live.mono (hs : ∀ a, h.Live (.obj a) →
      h'.body a ≠ .free ∧ ∀ c ∈ (h'.body a).children, h.Live c)
    (hv : h.Live v) : h'.Live v := by
  intro a ha
  have hl : h.Live (.obj a) := by
    induction ha with
    | root ha => exact List.mem_singleton.mp ha ▸ hv
    | child _ hc ih => exact (hs _ ih).2 _ hc
  exact (hs a hl).1

theorem Live.congr (hb : ∀ a, h'.body a = h.body a) (hv : h.Live v) : h'.Live v :=
  hv.mono fun a ha => by
    rw [hb]
    exact live_obj.mp ha

/-! ## changes -/

theorem Live.modify {f : Body → Body} (hf : h.body a ≠ .free → f (h.body a) ≠ .free ∧
      ∀ c ∈ (f (h.body a)).children, c ∈ (h.body a).children ∨ h.Live c)
    (hv : h.Live v) : (h.modify a f).Live v := by
  refine hv.mono fun b hb => ?_
  by_cases hab : a = b
  · subst hab
    rw [body_modify_self (lt_size_of_body hb.body_ne)]
    obtain ⟨hne, hc⟩ := hf hb.body_ne
    exact ⟨hne, fun c hm => (hc c hm).elim hb.child fun hl => hl⟩
  · rw [body_modify_of_ne h hab]
    exact live_obj.mp hb

theorem Live.install (ha : a < h.cells.size) (hfree : h.body a = .free) {b : Body}
    (hv : h.Live v) : (h.install a b).Live v := by
  refine hv.mono fun x hx => ?_
  have hne : x ≠ a := fun e => hx.body_ne (e ▸ hfree)
  rw [body_install h ha, if_neg hne]
  exact live_obj.mp hx

theorem live_install_self (ha : a < h.cells.size) (hfree : h.body a = .free) {b : Body}
    (hb : b ≠ .free) (hc : ∀ c ∈ b.children, h.Live c) : (h.install a b).Live (.obj a) := by
  rw [live_obj, body_install h ha, if_pos rfl]
  exact ⟨hb, fun c hm => (hc c hm).install ha hfree⟩

theorem mem_children_hash {t : Table Value Value} {c : Value} :
    c ∈ (Body.hash t).children ↔ ∃ e ∈ t.entries, c = e.key ∨ c = e.val := by
  simp [Body.children]

theorem store_cases (h : Heap) (box key : Value) (hash : UInt32) (interned : Bool) (x : Value) :
    (h.store box key hash interned x).2 = h ∨
    ∃ a t found, box = .obj a ∧ h.body a = .hash t ∧
      (h.store box key hash interned x).2 = h.modify a (putEntry found ⟨hash, interned, key, x⟩) := by
  unfold Heap.store
  split
  · rename_i a t hb
    exact .inr ⟨a, t, _, rfl, hb, rfl⟩
  · exact .inl rfl

theorem remove_cases (h : Heap) (box key : Value) (hash : UInt32) (interned : Bool) :
    (h.remove box key hash interned).2 = h ∨
    ∃ a t found, box = .obj a ∧ h.body a = .hash t ∧
      (h.remove box key hash interned).2 = h.modify a (dropEntry found) := by
  unfold Heap.remove
  split
  · rename_i a t hb
    exact .inr ⟨a, t, _, rfl, hb, rfl⟩
  · exact .inl rfl

theorem Live.store {box key x : Value} {hash : UInt32} {interned : Bool} (hkey : h.Live key)
    (hx : h.Live x) (hv : h.Live v) : (h.store box key hash interned x).2.Live v := by
  rcases store_cases h box key hash interned x with e | ⟨a, t, found, -, hb, e⟩
  · rwa [e]
  · rw [e]
    refine hv.modify fun _ => ?_
    rw [hb, putEntry]
    refine ⟨Body.noConfusion, fun c hc => ?_⟩
    obtain ⟨e, he, hce⟩ := mem_children_hash.mp hc
    rcases Table.mem_entries_put he with rfl | ⟨y, hy, hk, hval⟩
    · rcases hce with rfl | rfl
      · exact .inr hkey
      · exact .inr hx
    · rw [hk] at hce
      rcases hce with rfl | rfl
      · exact .inl (mem_children_hash.mpr ⟨y, hy, .inl rfl⟩)
      · rcases hval with hval | hval
        · exact .inl (mem_children_hash.mpr ⟨y, hy, .inr hval⟩)
        · exact .inr (hval ▸ hx)

theorem Live.remove {box key : Value} {hash : UInt32} {interned : Bool} (hv : h.Live v) :
    (h.remove box key hash interned).2.Live v := by
  rcases remove_cases h box key hash interned with e | ⟨a, t, found, -, hb, e⟩
  · rwa [e]
  · rw [e]
    refine hv.modify fun _ => ?_
    rw [hb, dropEntry]
    refine ⟨Body.noConfusion, fun c hc => .inl ?_⟩
    obtain ⟨e, he, hce⟩ := mem_children_hash.mp hc
    exact mem_children_hash.mpr ⟨e, Table.mem_entries_drop he, hce⟩

/-! ## what is read off live objects -/

theorem kind?_of_isKind {k : Kind} (hv : h.isKind v k = true) : (h.bodyOf v).kind? = some k := by
  simpa [isKind, kindOf?] using hv

theorem exists_vec (hv : h.isKind v .vec = true) :
    ∃ a items, v = .obj a ∧ h.body a = .vec items := by
  have hk := kind?_of_isKind hv
  cases v with
  | obj a =>
    have hk' : (h.body a).kind? = some .vec := hk
    cases hb : h.body a with
    | vec items => exact ⟨a, items, rfl, hb⟩
    | _ =>
      rw [hb] at hk'
      exact nomatch hk'
  | _ => exact nomatch hk

/-- A property of values that goes over from a value to those that its object refers to. -/
def Inherited (h : Heap) (Q : Value → Prop) : Prop :=
  ∀ v c : Value, Q v → c ∈ (h.bodyOf v).children → Q c

namespace Inherited

variable {Q : Value → Prop} (hQ : h.Inherited Q)
include hQ

theorem item {items : Array Value} (hv : Q v) (hb : h.bodyOf v = .vec items) {c : Value}
    (hc : c ∈ items) : Q c :=
  hQ _ _ hv (hb ▸ Array.mem_toList_iff.mpr hc)

theorem entry {t : Table Value Value} (hv : Q v) (hb : h.bodyOf v = .hash t)
    {e : Entry Value Value} (he : e ∈ t.entries) : Q e.key ∧ Q e.val :=
  ⟨hQ _ _ hv (hb ▸ mem_children_hash.mpr ⟨e, he, .inl rfl⟩),
    hQ _ _ hv (hb ▸ mem_children_hash.mpr ⟨e, he, .inr rfl⟩)⟩

theorem lookup {t : Table Value Value} (hv : Q v) (hb : h.bodyOf v = .hash t) {key x : Value}
    {hash : UInt32} {interned : Bool} (hx : h.lookup t key hash interned = some x) : Q x := by
  obtain ⟨e, he, rfl⟩ := Table.find?_mem hx
  exact (hQ.entry hv hb he).2

end Inherited

theorem inherited_live (h : Heap) : h.Inherited h.Live := by
  intro v c hv hc
  cases v with
  | obj a => exact hv.child hc
  | _ => exact nomatch hc

theorem Live.of_bodyOf {b : Body} (hv : h.Live v) (hb : h.bodyOf v = b) {c : Value}
    (hc : c ∈ b.children) : h.Live c := h.inherited_live _ _ hv (hb ▸ hc)

theorem Live.item {items : Array Value} (hv : h.Live v) (hb : h.bodyOf v = .vec items)
    {c : Value} (hc : c ∈ items) : h.Live c := h.inherited_live.item hv hb hc

theorem Live.entry {t : Table Value Value} (hv : h.Live v) (hb : h.bodyOf v = .hash t)
    {e : Entry Value Value} (he : e ∈ t.entries) : h.Live e.key ∧ h.Live e.val :=
  h.inherited_live.entry hv hb he

end

end ScriptEngine.Heap
