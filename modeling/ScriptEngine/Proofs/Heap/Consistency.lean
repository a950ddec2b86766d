import ScriptEngine.Proofs.Heap.Housing
import ScriptEngine.Proofs.Machine.Loading
import ScriptEngine.Proofs.Table.Association

/-!
# Hashes that can be relied on

A string can be changed until its hash has been taken.  In a consistent heap this has been done for
all that relies on a hash: the keys of tables and the names in code.  So an entry stays under the
hash of its key, whatever happens to strings that are no keys.

* `Heap.Frozen`       a value under which an entry can be stored;
* `Heap.Files`        a table whose entries are under the hashes of their keys;
* `Heap.Consistent`   strings, names, tables and code that agree on hashes;
* `Heap.Holds`        a change that touches nothing that a hash relies on;
* `Heap.Thins`        a change that only frees objects nothing else refers to;
* `Heap.Consistent.finds`   in a consistent heap an entry is found under each key that is the same.
-/

namespace ScriptEngine

def Op.takesName : Op → Bool
  | .loadSym | .setSym | .setLocal | .member | .setMember => true
  | _ => false

/-- Code whose instructions and parameters have the strings of registered names, with their hashes,
where they have names. -/
structure Loaded.Proper (h : Heap) (c : Loaded) : Prop where
  operands : ∃ n K, Typing (· ≤ ·) c.words n K ∧ ∀ ip s, K ip s → ∀ i : Item, i.place = ip →
    i.In c.words → i.op.takesName = true → c.NameAt h i.arg
  required : ∀ i ∈ c.params, c.NameAt h i
  optional : ∀ p ∈ c.optional, c.NameAt h p.1
  rest : ∀ i, c.rest = some i → c.NameAt h i

namespace Heap

/-- An object that is there, whose hash has been taken if it is a string, or no object at all. -/
def Frozen (h : Heap) (v : Value) : Prop :=
  ∀ a, v = .obj a → h.body a ≠ .free ∧ ∀ s, h.body a = .str s → s.hash.isSome = true

/-- A table whose entries are under the hashes of their keys, which stay what they are. -/
structure Files (h : Heap) (t : Table Value Value) : Prop where
  agrees : Agrees h t (t.entries.map Entry.pair)
  frozen : ∀ e ∈ t.entries, h.Frozen e.key

/-- Strings remember their own hashes, interned ones are those of the registered names, tables have
their entries under the hashes of the keys, and code has the strings of its names. -/
structure Consistent (h : Heap) : Prop where
  honest : ∀ a s, h.body a = .str s → s.Honest
  registered : h.Registered
  listed : ∀ a s, h.body a = .str s → s.interned = true → h.symbols[s.bytes]? = some a
  files : ∀ a t, h.body a = .hash t → h.Files t
  proper : ∀ a c, h.body a = .code c → c.Proper h

/-- Objects stay, of their types; strings whose hash has been taken, functions, closures and code stay
as they are. -/
structure Holds (h h' : Heap) : Prop where
  kind : ∀ a, h.body a ≠ .free → (h'.body a).kind? = (h.body a).kind?
  frozen : ∀ a s, h.body a = .str s → s.hash.isSome = true → h'.body a = .str s
  fixed : ∀ a, (h.body a).Fixed → h'.body a = h.body a

/-- Some objects are gone, but no name and nothing that an object still refers to. -/
structure Thins (h h' : Heap) : Prop where
  body : ∀ a, h'.body a = h.body a ∨ h'.body a = .free
  child : ∀ a b, h'.body a ≠ .free → .obj b ∈ (h.body a).children → h'.body b = h.body b
  symbols : h'.symbols = h.symbols
  name : ∀ (name : Bytes) a, h.symbols[name]? = some a → h'.body a = h.body a

/-- A value is no object that is gone. -/
def There (h : Heap) (v : Value) : Prop := ∀ a, v = .obj a → h.body a ≠ .free

variable {h h' : Heap} {t : Table Value Value} {v key : Value} {a : Addr}

theorem Consistent.keyed (hc : h.Consistent) : h.Keyed where
  honest := hc.honest
  names a b s t hs ht is it e := by
    have ha := hc.listed a s hs is
    rw [e, hc.listed b t ht it] at ha
    exact (Option.some.inj ha).symm

theorem frozen_of_not_obj (hv : ∀ a, v ≠ .obj a) : h.Frozen v := fun a e => absurd e (hv a)

theorem Consistent.frozen_name (hc : h.Consistent) {name : Bytes}
    (ha : h.symbols[name]? = some a) : h.Frozen (.obj a) := by
  rintro _ ⟨⟩
  rw [hc.registered name a ha]
  exact ⟨Body.noConfusion, by rintro _ ⟨⟩; rfl⟩

/-- A registered name is under its own hash, as one that is interned. -/
theorem Consistent.keyHash_name (hc : h.Consistent) {name : Bytes}
    (ha : h.symbols[name]? = some a) : h.keyHash (.obj a) = (hashBytes name, true) := by
  rw [keyHash, hc.registered name a ha]
  rfl

/-- **An entry is found** under every key that is the same as its own. -/
theorem Consistent.finds (hc : h.Consistent) (ha : h.body a = .hash t) {e : Entry Value Value}
    (he : e ∈ t.entries) (hkey : h.keysEqual e.key key = true) :
    h.lookup t key (h.keyHash key).1 (h.keyHash key).2 = some e.val := by
  have hf := (hc.files a t ha).agrees
  obtain ⟨x, y, hxy⟩ := List.append_of_mem he
  have hhit : Store.hit (h.keyHash key).1 (h.sameKey key (h.keyHash key).2) e = true :=
    (hf.hit_eq key he).trans hkey
  obtain ⟨-, hlacks, hl⟩ := hf.found hxy hhit
  rw [hf.lookup_eq key, hl, Pairs.get_append hlacks]
  exact Pairs.get_hit hkey _ _

/-! ## tables -/

/-- A table stays as it should be when its keys do. -/
theorem Files.mono (hf : h.Files t) (hk : h'.Keyed)
    (hsame : ∀ e ∈ t.entries, h.Alike h' e.key ∧ h'.Frozen e.key) : h'.Files t where
  agrees := hf.agrees.change hk fun p hp => by
    obtain ⟨e, he, rfl⟩ := List.mem_map.mp hp
    exact (hsame e he).1
  frozen e he := (hsame e he).2

theorem files_empty (hk : h.Keyed) : h.Files .empty := ⟨.start hk, fun _ he => nomatch he⟩

/-- Storing an entry under the hash of its key. -/
theorem Files.set (hf : h.Files t) (hkey : h.Frozen key) (v : Value) :
    h.Files (TableOp.setWith h (h.keyHash key) t key v) := by
  have hset := hf.agrees.set key v
  refine ⟨?_, fun e he => ?_⟩
  · rw [hset.pairs]
    exact hset
  · rcases Table.mem_entries_put he with rfl | ⟨y, hy, hk, -⟩
    · exact hkey
    · rw [hk]
      exact hf.frozen y hy

theorem Files.erase (hf : h.Files t) (key : Value) :
    h.Files (TableOp.eraseWith h (h.keyHash key) t key).2 := by
  have herase := (hf.agrees.erase key).2
  refine ⟨?_, fun e he => hf.frozen e (Table.mem_entries_drop he)⟩
  rw [herase.pairs]
  exact herase

/-! ## changes -/

theorem Holds.of_same (hb : ∀ a, h'.body a = h.body a) : h.Holds h' :=
  ⟨fun a _ => by rw [hb], fun a _ hs _ => (hb a).trans hs, fun a _ => hb a⟩

theorem Holds.refl (h : Heap) : h.Holds h := .of_same fun _ => rfl

theorem kind?_str_iff {b : Body} : b.kind? = some .str ↔ ∃ s, b = .str s := by
  cases b <;> simp [Body.kind?]

theorem Holds.body_ne (hh : h.Holds h') (ha : h.body a ≠ .free) : h'.body a ≠ .free := fun e =>
  ha (kind?_eq_none_iff.mp ((hh.kind a ha).symm.trans (kind?_eq_none_iff.mpr e)))

theorem Holds.frozen_value (hh : h.Holds h') (hv : h.Frozen v) : h'.Frozen v := by
  rintro a rfl
  obtain ⟨hne, hs⟩ := hv a rfl
  refine ⟨hh.body_ne hne, fun t ht => ?_⟩
  obtain ⟨s, hb⟩ := kind?_str_iff.mp ((hh.kind a hne).symm.trans (kind?_str_iff.mpr ⟨t, ht⟩))
  obtain rfl := Body.str.inj ((hh.frozen a s hb (hs s hb)).symm.trans ht)
  exact hs s hb

theorem Holds.alike (hh : h.Holds h') (hv : h.Frozen v) : h.Alike h' v := by
  cases v with
  | obj a =>
    obtain ⟨hne, hs⟩ := hv a rfl
    refine ⟨fun s hb => ⟨s, hh.frozen a s hb (hs s hb), rfl, rfl⟩, fun t ht => ?_⟩
    exact kind?_str_iff.mp ((hh.kind a hne).symm.trans (kind?_str_iff.mpr ⟨t, ht⟩))
  | _ => trivial

theorem Holds.bodyOf (hh : h.Holds h') {b : Body} (hb : h.bodyOf v = b) (hfix : b.Fixed) :
    h'.bodyOf v = b := by
  cases v with
  | obj a =>
    have hb' : h.body a = b := hb
    exact (hh.fixed a (hb' ▸ hfix)).trans hb'
  | _ => exact hb

theorem Holds.framed (hh : h.Holds h') {f : Frame} (hf : h.Framed f) : h'.Framed f := by
  obtain ⟨target, scope, h1, h2⟩ := hf
  exact ⟨target, scope, hh.bodyOf h1 trivial, hh.bodyOf h2 trivial⟩

theorem Files.holds (hf : h.Files t) (hh : h.Holds h') (hk : h'.Keyed) : h'.Files t :=
  hf.mono hk fun e he => ⟨hh.alike (hf.frozen e he), hh.frozen_value (hf.frozen e he)⟩

end Heap

theorem Loaded.Proper.mono {h h' : Heap} {c : Loaded} (hc : c.Proper h) (hr : h'.Registered)
    (hsym : ∀ (name : Bytes) a, h.symbols[name]? = some a → h'.symbols[name]? = some a) :
    c.Proper h' := by
  have hname {i : Nat} : c.NameAt h i → c.NameAt h' i := fun ⟨name, a, h1, h2, _, h4⟩ =>
    ⟨name, a, h1, hsym name a h2, hr name a (hsym name a h2), h4⟩
  obtain ⟨n, K, hK, hops⟩ := hc.operands
  exact ⟨⟨n, K, hK, fun ip s hs i hp hi ht => hname (hops ip s hs i hp hi ht)⟩,
    fun i hi => hname (hc.required i hi), fun p hp => hname (hc.optional p hp),
    fun i hi => hname (hc.rest i hi)⟩

namespace Heap

variable {h h' : Heap} {t : Table Value Value} {v key : Value} {a : Addr}

/-- What is left to show of a change that touches nothing a hash relies on: new names have their
strings, and new strings, tables and code are as they should be. -/
theorem Consistent.change (hc : h.Consistent) (hh : h.Holds h')
    (hold : ∀ (name : Bytes) a, h.symbols[name]? = some a → h'.symbols[name]? = some a)
    (hnew : ∀ (name : Bytes) a, h'.symbols[name]? = some a →
      h.symbols[name]? = some a ∨ h'.body a = .str (.ofName name))
    (hstr : ∀ a s, h'.body a = .str s →
      s.Honest ∧ (s.interned = true → h'.symbols[s.bytes]? = some a))
    (hfiles : h'.Keyed → ∀ a t, h'.body a = .hash t → h.body a = .hash t ∨ h'.Files t)
    (hcode : ∀ a c, h'.body a = .code c → c.Proper h) : h'.Consistent := by
  have hr : h'.Registered := fun name a ha => by
    rcases hnew name a ha with hs | hs
    · exact hh.frozen a _ (hc.registered name a hs) rfl
    · exact hs
  have hk : h'.Keyed := by
    refine ⟨fun a s hs => (hstr a s hs).1, fun a b s t hs ht is it e => ?_⟩
    have ha := (hstr a s hs).2 is
    rw [e, (hstr b t ht).2 it] at ha
    exact (Option.some.inj ha).symm
  refine ⟨hk.honest, hr, fun a s hs => (hstr a s hs).2, fun a t ht => ?_, fun a c hb => ?_⟩
  · rcases hfiles hk a t ht with hb | hf
    · exact (hc.files a t hb).holds hh hk
    · exact hf
  · exact (hcode a c hb).mono hr hold

/-- Only what the cells hold and the names matter. -/
theorem Consistent.congr (hc : h.Consistent) (hb : ∀ a, h'.body a = h.body a)
    (hsym : h'.symbols = h.symbols) : h'.Consistent := by
  refine hc.change (.of_same hb) (fun _ _ ha => hsym ▸ ha) (fun _ _ ha => .inl (hsym ▸ ha)) (fun a s hs => ?_)
    (fun _ a t ht => .inl ((hb a).symm.trans ht)) fun a c hcode => hc.proper a c ((hb a).symm.trans hcode)
  rw [hb] at hs
  exact ⟨hc.honest a s hs, fun hi => hsym ▸ hc.listed a s hs hi⟩

/-- **Freeing what nothing refers to** leaves the heap consistent. -/
theorem Consistent.thin (hc : h.Consistent) (ht : h.Thins h') : h'.Consistent := by
  have hold {a : Addr} {b : Body} (hb : h'.body a = b) (hne : b ≠ .free) : h.body a = b :=
    (ht.body a).elim (fun e => e.symm.trans hb) fun e => absurd (hb.symm.trans e) hne
  have hr : h'.Registered := fun name a ha => by
    rw [ht.symbols] at ha
    exact (ht.name name a ha).trans (hc.registered name a ha)
  have hk : h'.Keyed :=
    ⟨fun a s hs => hc.honest a s (hold hs Body.noConfusion), fun a b s t hs hu =>
      hc.keyed.names a b s t (hold hs Body.noConfusion) (hold hu Body.noConfusion)⟩
  refine ⟨hk.honest, hr, fun a s hs hi => ?_, fun a t hb => ?_, fun a c hb => ?_⟩
  · rw [ht.symbols]
    exact hc.listed a s (hold hs Body.noConfusion) hi
  · have hb' := hold hb Body.noConfusion
    have hf := hc.files a t hb'
    refine hf.mono hk fun e he => ?_
    -- a key that is an object is one the table refers to
    cases hkey : e.key with
    | obj b =>
      have hsame : h'.body b = h.body b := by
        refine ht.child a b (hb ▸ Body.noConfusion) ?_
        rw [hb', mem_children_hash]
        exact ⟨e, he, .inl hkey.symm⟩
      refine ⟨?_, ?_⟩
      · rw [Alike, hsame]
        exact h.alike_refl (.obj b)
      · rintro _ ⟨⟩
        rw [hsame]
        exact hf.frozen e he b hkey
    | _ => exact ⟨trivial, frozen_of_not_obj fun _ => Value.noConfusion⟩
  · exact (hc.proper a c (hold hb Body.noConfusion)).mono hr fun _ _ ha => ht.symbols ▸ ha

/-! ### new objects -/

/-- What can be put into a free cell: strings that can be changed, tables without entries, code with
the strings of its names, and all else. -/
def Fresh (h : Heap) : Body → Prop
  | .str s => s.hash = none ∧ s.interned = false
  | .hash t => t = .empty
  | .code c => c.Proper h
  | _ => True

theorem holds_install (ha : a < h.cells.size) (hfree : h.body a = .free) (b : Body) :
    h.Holds (h.install a b) := by
  have hne {x : Addr} (hx : h.body x ≠ .free) : (h.install a b).body x = h.body x := by
    rw [body_install h ha, if_neg]
    rintro rfl
    exact hx hfree
  refine ⟨fun x hx => by rw [hne hx], fun x s hs _ => ?_, fun x hx => hne fun e => ?_⟩
  · rw [hne (hs ▸ Body.noConfusion), hs]
  · rw [e] at hx
    exact hx

theorem Consistent.install (hc : h.Consistent) (ha : a < h.cells.size) (hfree : h.body a = .free)
    {b : Body} (hb : h.Fresh b) : (h.install a b).Consistent := by
  have hcases {x : Addr} {c : Body} (hx : (h.install a b).body x = c) : b = c ∨ h.body x = c := by
    rw [body_install h ha] at hx
    split at hx
    · exact .inl hx
    · exact .inr hx
  refine hc.change (holds_install ha hfree b) (fun _ _ hs => hs) (fun _ _ hs => .inl hs)
    (fun x s hs => ?_) (fun hk x t ht => ?_) fun x c hcode => ?_
  · rcases hcases hs with rfl | hs
    · refine ⟨fun y hy => ?_, fun hi => ?_⟩
      · rw [hb.1] at hy
        exact nomatch hy
      · rw [hb.2] at hi
        exact nomatch hi
    · exact ⟨hc.honest x s hs, hc.listed x s hs⟩
  · rcases hcases ht with rfl | ht
    · obtain rfl : t = .empty := hb
      exact .inr (files_empty hk)
    · exact .inl ht
  · rcases hcases hcode with rfl | hcode
    · exact hb
    · exact hc.proper x c hcode

theorem body_intern {l : List Addr} (hs : h.Stocked l) (name : Bytes) (ha : h.body a ≠ .free) :
    (h.intern name).2.body a = h.body a := by
  unfold Heap.intern
  cases h.symbols[name]? with
  | some b => rfl
  | none =>
    have hstock := hs.takeOrGrow .str
    have hbody := (body_takeOrGrow h .str a).1
    dsimp only
    generalize h.takeOrGrow .str = r at hstock hbody ⊢
    obtain ⟨b, g⟩ := r
    obtain ⟨hb, hfree⟩ := hstock.idle b (List.mem_append_left _ List.mem_cons_self)
    have hab : a ≠ b := by
      rintro rfl
      exact ha (hbody ▸ hfree)
    exact (body_install g hb _ a).trans ((if_neg hab).trans hbody)

/-- A name is put into one free cell at most. -/
theorem body_intern_free {l : List Addr} (hs : h.Stocked l) (name : Bytes) (ha : h.body a = .free) :
    (h.intern name).2.body a = .free ∨ ∃ s, (h.intern name).2.body a = .str s := by
  unfold Heap.intern
  cases h.symbols[name]? with
  | some b => exact .inl ha
  | none =>
    have hstock := hs.takeOrGrow .str
    have hbody := (body_takeOrGrow h .str a).1
    dsimp only
    generalize h.takeOrGrow .str = r at hstock hbody ⊢
    obtain ⟨b, g⟩ := r
    obtain ⟨hb, -⟩ := hstock.idle b (List.mem_append_left _ List.mem_cons_self)
    have hnamed := body_install g hb (.str (.ofName name)) a
    split at hnamed
    · exact .inr ⟨_, hnamed⟩
    · exact .inl (hnamed.trans (hbody.trans ha))

theorem Consistent.intern (hc : h.Consistent) {l : List Addr} (hs : h.Stocked l) (name : Bytes) :
    (h.intern name).2.Consistent ∧ h.Holds (h.intern name).2 := by
  have hreg := hc.registered.intern hs name
  have hi := hs.intern name
  revert hreg hi
  unfold Heap.intern
  cases hname : h.symbols[name]? with
  | some a => exact fun _ _ => ⟨hc, .refl h⟩
  | none =>
    have hstock := hs.takeOrGrow .str
    have hbody (x : Addr) := body_takeOrGrow h .str x
    dsimp only
    generalize h.takeOrGrow .str = r at hstock hbody ⊢
    obtain ⟨a, g⟩ := r
    dsimp only at hstock hbody ⊢
    intro hreg hi
    obtain ⟨ha, hfree⟩ := hstock.idle a (List.mem_append_left _ List.mem_cons_self)
    have hg : g.Consistent := hc.congr (fun x => (hbody x).1) (hbody 0).2
    have hholds := holds_install ha hfree (.str (.ofName name))
    have hholds' : h.Holds { g.install a (.str (.ofName name)) with
        symbols := g.symbols.insert name a } :=
      ⟨fun x hx => by rw [← (hbody x).1] at hx ⊢; exact hholds.kind x hx,
        fun x s hx hash => hholds.frozen x s ((hbody x).1.trans hx) hash,
        fun x hx => by rw [← (hbody x).1] at hx ⊢; exact hholds.fixed x hx⟩
    have hcases {x : Addr} {c : Body} (hx : (g.install a (.str (.ofName name))).body x = c) :
        x = a ∧ .str (.ofName name) = c ∨ h.body x = c := by
      rw [body_install g ha] at hx
      split at hx
      · exact .inl ⟨‹_›, hx⟩
      · exact .inr ((hbody x).1.symm.trans hx)
    refine ⟨hc.change hholds' hi.old (fun other x hx => .inr (hreg other x hx)) (fun x s hx => ?_)
      (fun _ x t hx => ?_) fun x c hx => ?_, hholds'⟩
    · rcases hcases hx with ⟨rfl, e⟩ | hx
      · obtain rfl := Body.str.inj e
        exact ⟨Str.honest_ofName name, fun _ => hi.symbol⟩
      · exact ⟨hc.honest x s hx, fun h => hi.old _ _ (hc.listed x s hx h)⟩
    · rcases hcases hx with ⟨_, e⟩ | hx
      · exact nomatch e
      · exact .inl hx
    · rcases hcases hx with ⟨_, e⟩ | hx
      · exact nomatch e
      · exact hc.proper x c hx

/-! ### changed objects -/

/-- A cell that is changed holds what it is changed to, if there is such a cell. -/
theorem body_modify (h : Heap) (a : Addr) (f : Body → Body) :
    (h.modify a f).body a = h.body a ∨ (h.modify a f).body a = f (h.body a) := by
  by_cases hlt : a < h.cells.size
  · exact .inr (body_modify_self hlt f)
  · have hge : (h.modify a f).cells.size ≤ a := by
      rw [Heap.modify, Array.size_modify]
      exact Nat.le_of_not_lt hlt
    exact .inl ((body_of_ge hge).trans (body_of_ge (Nat.le_of_not_lt hlt)).symm)

theorem holds_modify {f : Body → Body} (hkind : (f (h.body a)).kind? = (h.body a).kind?)
    (hstr : ∀ s, h.body a = .str s → s.hash.isSome = true → f (.str s) = .str s)
    (hfix : ¬(h.body a).Fixed) : h.Holds (h.modify a f) := by
  have hself (hne : h.body a ≠ .free) : (h.modify a f).body a = f (h.body a) :=
    body_modify_self (lt_size_of_body hne) f
  refine ⟨fun x hx => ?_, fun x s hx hash => ?_, fun x hx => ?_⟩
  · by_cases hax : a = x
    · subst hax
      rw [hself hx, hkind]
    · rw [body_modify_of_ne h hax]
  · by_cases hax : a = x
    · subst hax
      rw [hself (hx ▸ Body.noConfusion), hx]
      exact hstr s hx hash
    · rw [body_modify_of_ne h hax, hx]
  · refine body_modify_of_ne h ?_ f
    rintro rfl
    exact hfix hx

theorem holds_freeze (h : Heap) (key : Value) : h.Holds (h.freeze key) := by
  have hid : h.Holds h := .refl h
  unfold Heap.freeze
  split
  · rename_i a
    split
    · rename_i s hs
      split
      · exact hid
      · rename_i hash
        refine holds_modify (by rw [hs]; rfl) (fun t ht hash' => ?_) (by rw [hs]; exact fun h => h)
        obtain rfl := Body.str.inj (hs.symm.trans ht)
        exact absurd hash' hash
    · exact hid
  · exact hid

theorem Consistent.freeze (hc : h.Consistent) (key : Value) : (h.freeze key).Consistent := by
  have hcases {x : Addr} {c : Body} (hx : (h.freeze key).body x = c) :
      h.body x = c ∨ ∃ s, h.body x = .str s ∧ .str s.freeze = c := by
    rcases body_freeze h key x with e | ⟨s, hs, e⟩
    · exact .inl (e.symm.trans hx)
    · exact .inr ⟨s, hs, e.symm.trans hx⟩
  have hsym := symbols_freeze h key
  refine hc.change (holds_freeze h key) (fun _ _ ha => hsym.symm ▸ ha) (fun _ _ ha => .inl (hsym ▸ ha))
    (fun x s hs => ?_) (fun _ x t ht => ?_) fun x c hb => ?_
  · rw [hsym]
    rcases hcases hs with hs | ⟨r, hr, e⟩
    · exact ⟨hc.honest x s hs, hc.listed x s hs⟩
    · obtain rfl := Body.str.inj e
      exact ⟨(hc.honest x r hr).freeze, hc.listed x r hr⟩
  · rcases hcases ht with ht | ⟨_, _, e⟩
    · exact .inl ht
    · exact nomatch e
  · rcases hcases hb with hb | ⟨_, _, e⟩
    · exact hc.proper x c hb
    · exact nomatch e

/-- The value of a key is frozen once its hash has been taken, if it is there at all. -/
theorem frozen_freeze (hp : ∀ a, key = .obj a → h.body a ≠ .free) : (h.freeze key).Frozen key := by
  rintro a rfl
  have hne := hp a rfl
  refine ⟨(holds_freeze h _).body_ne hne, fun s hs => ?_⟩
  cases hb : h.body a with
  | str r =>
    obtain rfl := Body.str.inj ((body_freeze_self hb).symm.trans hs)
    rfl
  | _ =>
    rcases body_freeze h (.obj a) a with e | ⟨r, hr, -⟩
    · exact nomatch hb.symm.trans (e.symm.trans hs)
    · exact nomatch hb.symm.trans hr

theorem keyHash_freeze (h : Heap) (key : Value) : (h.freeze key).keyHash key = h.keyHash key := by
  cases key with
  | obj a =>
    rw [keyHash, keyHash]
    cases hb : h.body a with
    | str s => rw [body_freeze_self hb]; rfl
    | _ =>
      rcases body_freeze h (.obj a) a with e | ⟨r, hr, -⟩
      · rw [e, hb]
      · cases hb.symm.trans hr
  | _ => rfl

/-- A change of one object into another of its type that is no string and no code. -/
theorem Consistent.modify (hc : h.Consistent) {f : Body → Body}
    (hkind : (f (h.body a)).kind? = (h.body a).kind?) (hfix : ¬(h.body a).Fixed)
    (hstr : ∀ s, h.body a = .str s → s.hash.isSome = true → f (.str s) = .str s)
    (hhonest : ∀ s, f (h.body a) = .str s → s.Honest ∧
      (s.interned = true → h.symbols[s.bytes]? = some a))
    (hfiles : ∀ t, f (h.body a) = .hash t → h.Files t) : (h.modify a f).Consistent := by
  have hh := holds_modify hkind hstr hfix
  have hcases {x : Addr} {c : Body} (hx : (h.modify a f).body x = c) :
      h.body x = c ∨ a = x ∧ f (h.body a) = c := by
    by_cases hax : a = x
    · subst hax
      exact (body_modify h a f).imp (·.symm.trans hx) fun e => ⟨rfl, e.symm.trans hx⟩
    · exact .inl ((body_modify_of_ne h hax f).symm.trans hx)
  refine hc.change (holds_modify hkind hstr hfix) (fun _ _ ha => ha) (fun _ _ ha => .inl ha)
    (fun x s hs => ?_) (fun hk x t ht => ?_) fun x c hcode => ?_
  · rcases hcases hs with hold | ⟨rfl, hnew⟩
    · exact ⟨hc.honest x s hold, hc.listed x s hold⟩
    · exact hhonest s hnew
  · rcases hcases ht with hold | ⟨rfl, hnew⟩
    · exact .inl hold
    · exact .inr ((hfiles t hnew).holds (holds_modify hkind hstr hfix) hk)
  · rcases hcases hcode with hold | ⟨rfl, hnew⟩
    · exact hc.proper x c hold
    · have hcell : (h.body a).kind? = some .code := by rw [← hkind, hnew]; rfl
      cases hb : h.body a with
      | code d => exact (hfix (hb ▸ trivial)).elim
      | _ => exact nomatch (congrArg Body.kind? hb).symm.trans hcell

/-- At most one object has changed, to another of its type. -/
def Reshaped (h h' : Heap) : Prop :=
  h' = h ∨ ∃ a f, h' = h.modify a f ∧ (f (h.body a)).kind? = (h.body a).kind?

theorem Reshaped.symbols (hr : h.Reshaped h') : h'.symbols = h.symbols := by
  rcases hr with rfl | ⟨a, f, rfl, -⟩ <;> rfl

theorem Reshaped.kind? (hr : h.Reshaped h') (x : Addr) : (h'.body x).kind? = (h.body x).kind? := by
  rcases hr with rfl | ⟨a, f, rfl, hf⟩
  · rfl
  by_cases hax : a = x
  · subst hax
    rcases h.body_modify a f with hb | hb
    · rw [hb]
    · rw [hb, hf]
  · rw [body_modify_of_ne h hax]

theorem reshaped_freeze (h : Heap) (key : Value) : h.Reshaped (h.freeze key) := by
  unfold Heap.freeze
  split
  · split
    · rename_i s hs
      split
      · exact .inl rfl
      · exact .inr ⟨_, _, rfl, by rw [hs]; rfl⟩
    · exact .inl rfl
  · exact .inl rfl

theorem reshaped_store (h : Heap) (box key : Value) (hash : UInt32) (interned : Bool) (v : Value) :
    h.Reshaped (h.store box key hash interned v).2 := by
  rcases store_cases h box key hash interned v with e | ⟨a, t, found, -, hb, e⟩
  · exact .inl e
  · exact .inr ⟨a, _, e, by rw [hb]; rfl⟩

theorem reshaped_remove (h : Heap) (box key : Value) (hash : UInt32) (interned : Bool) :
    h.Reshaped (h.remove box key hash interned).2 := by
  rcases remove_cases h box key hash interned with e | ⟨a, t, found, -, hb, e⟩
  · exact .inl e
  · exact .inr ⟨a, _, e, by rw [hb]; rfl⟩

/-- Changing the items of a vector. -/
def onItems (f : Array Value → Array Value) : Body → Body
  | .vec items => .vec (f items)
  | b => b

theorem kind?_onItems (f : Array Value → Array Value) (b : Body) :
    (onItems f b).kind? = b.kind? := by
  cases b <;> rfl

theorem Consistent.items (hc : h.Consistent) (a : Addr) (f : Array Value → Array Value) :
    (h.modify a (onItems f)).Consistent ∧ h.Holds (h.modify a (onItems f)) := by
  by_cases hv : ∃ items, h.body a = .vec items
  · obtain ⟨items, hv⟩ := hv
    have hkind := kind?_onItems f (h.body a)
    have hfix : ¬(h.body a).Fixed := by rw [hv]; exact fun h => h
    refine ⟨hc.modify hkind hfix (fun _ _ _ => rfl) (fun s hs => ?_) fun t ht => ?_,
      holds_modify hkind (fun _ _ _ => rfl) hfix⟩
    · rw [hv] at hs
      exact nomatch hs
    · rw [hv] at ht
      exact nomatch ht
  · have hsame (x : Addr) : (h.modify a (onItems f)).body x = h.body x := by
      by_cases hax : a = x
      · subst hax
        rcases body_modify h a (onItems f) with e | e
        · exact e
        · rw [e]
          cases hb : h.body a with
          | vec items => exact absurd ⟨items, hb⟩ hv
          | _ => rfl
      · exact body_modify_of_ne h hax _
    exact ⟨hc.congr hsame rfl, .of_same hsame⟩

/-- Overwriting a byte of a string that can be changed. -/
theorem Consistent.byte (hc : h.Consistent) {s s' : Str} {i : Nat} {b : UInt8}
    (ha : h.body a = .str s) (hs : s.setByte i b = .ok s') :
    (h.modify a fun _ => .str s').Consistent ∧ h.Holds (h.modify a fun _ => .str s') := by
  obtain ⟨hnone, hi⟩ := Str.of_setByte hs
  have hfrozen (r : Str) (hr : h.body a = .str r) (hash : r.hash.isSome = true) :
      (.str s' : Body) = .str r := by
    obtain rfl := Body.str.inj (ha.symm.trans hr)
    rw [hnone] at hash
    exact nomatch hash
  have hkind : (Body.str s').kind? = (h.body a).kind? := by rw [ha]; rfl
  have hfix : ¬(h.body a).Fixed := by rw [ha]; exact fun h => h
  refine ⟨hc.modify hkind hfix hfrozen (fun r hr => ?_) fun t ht => (nomatch ht),
    holds_modify hkind hfrozen hfix⟩
  obtain rfl := Body.str.inj hr
  refine ⟨Str.honest_of_setByte hs, fun his => ?_⟩
  -- an interned string has its hash taken
  have hsym := hc.listed a s ha (hi.symm.trans his)
  rw [hc.registered _ a hsym] at ha
  rw [← Body.str.inj ha] at hnone
  exact nomatch hnone

/-- Storing an entry under the hash of a key that stays what it is. -/
theorem Consistent.store (hc : h.Consistent) (box : Value) (hkey : h.Frozen key) (v : Value) :
    (h.store box key (h.keyHash key).1 (h.keyHash key).2 v).2.Consistent ∧
      h.Holds (h.store box key (h.keyHash key).1 (h.keyHash key).2 v).2 := by
  unfold Heap.store
  split
  · rename_i a t hb
    have hb : h.body a = .hash t := hb
    extract_lets found retired
    have hput : putEntry found ⟨(h.keyHash key).1, (h.keyHash key).2, key, v⟩ (h.body a)
        = .hash (TableOp.setWith h (h.keyHash key) t key v) := by rw [hb]; rfl
    have hkind : (putEntry found ⟨(h.keyHash key).1, (h.keyHash key).2, key, v⟩ (h.body a)).kind?
        = (h.body a).kind? := by rw [hput, hb]; rfl
    have hfix : ¬(h.body a).Fixed := by rw [hb]; exact fun h => h
    refine ⟨hc.modify hkind hfix (fun _ _ _ => rfl) (fun s hs => ?_) fun t' ht' => ?_,
      holds_modify hkind (fun _ _ _ => rfl) hfix⟩
    · rw [hput] at hs
      exact nomatch hs
    · rw [hput] at ht'
      rw [← Body.hash.inj ht']
      exact (hc.files a t hb).set hkey v
  · exact ⟨hc, .refl h⟩

theorem Consistent.remove (hc : h.Consistent) (box key : Value) :
    (h.remove box key (h.keyHash key).1 (h.keyHash key).2).2.Consistent ∧
      h.Holds (h.remove box key (h.keyHash key).1 (h.keyHash key).2).2 := by
  unfold Heap.remove
  split
  · rename_i a t hb
    have hb : h.body a = .hash t := hb
    extract_lets found old retired
    have hdrop : dropEntry found (h.body a)
        = .hash (TableOp.eraseWith h (h.keyHash key) t key).2 := by rw [hb]; rfl
    have hkind : (dropEntry found (h.body a)).kind? = (h.body a).kind? := by rw [hdrop, hb]; rfl
    have hfix : ¬(h.body a).Fixed := by rw [hb]; exact fun h => h
    refine ⟨hc.modify hkind hfix (fun _ _ _ => rfl) (fun s hs => ?_) fun t' ht' => ?_,
      holds_modify hkind (fun _ _ _ => rfl) hfix⟩
    · rw [hdrop] at hs
      exact nomatch hs
    · rw [hdrop] at ht'
      rw [← Body.hash.inj ht']
      exact (hc.files a t hb).erase key
  · exact ⟨hc, .refl h⟩

/-! ## entries that stay -/

/-- The hash in a cell has an entry with a key and a value. -/
def Stores (h : Heap) (a : Addr) (key v : Value) : Prop :=
  ∃ t, h.body a = .hash t ∧ (key, v) ∈ t.entries.map Entry.pair

theorem Stores.body_ne (hs : h.Stores a key v) : h.body a ≠ .free := by
  obtain ⟨t, ht, -⟩ := hs
  rw [ht]
  exact Body.noConfusion

theorem Stores.frozen (hs : h.Stores a key v) (hc : h.Consistent) : h.Frozen key := by
  obtain ⟨t, ht, hm⟩ := hs
  obtain ⟨e, he, hpair⟩ := List.mem_map.mp hm
  obtain ⟨rfl, rfl⟩ := Prod.mk.inj hpair
  exact (hc.files a t ht).frozen e he

theorem Stores.of_same (hs : h.Stores a key v) (hb : h'.body a = h.body a) : h'.Stores a key v := by
  obtain ⟨t, ht, hm⟩ := hs
  exact ⟨t, hb.trans ht, hm⟩

theorem Stores.modify (hs : h.Stores a key v) {b : Addr} {f : Body → Body}
    (hf : ∀ t, f (.hash t) = .hash t) : (h.modify b f).Stores a key v := by
  obtain ⟨t, ht, hm⟩ := hs
  refine ⟨t, ?_, hm⟩
  by_cases hba : b = a
  · subst hba
    rcases body_modify h b f with e | e
    · exact e.trans ht
    · rw [e, ht, hf]
  · rw [body_modify_of_ne h hba, ht]

/-- A value stored under a key that is the same replaces the one there is. -/
theorem Stores.store (hs : h.Stores a key v) (hc : h.Consistent) (box k x : Value) :
    let h' := (h.store box k (h.keyHash k).1 (h.keyHash k).2 x).2
    h'.Stores a key v ∨ box = .obj a ∧ h.keysEqual key k = true ∧ h'.Stores a key x := by
  dsimp only
  obtain ⟨t, ht, hm⟩ := hs
  unfold Heap.store
  split
  · rename_i b u hb
    have hb : h.body b = .hash u := hb
    extract_lets found retired
    by_cases hba : b = a
    · subst hba
      obtain rfl := Body.hash.inj (hb.symm.trans ht)
      have hput : (h.modify b (putEntry found ⟨(h.keyHash k).1, (h.keyHash k).2, k, x⟩)).body b
          = .hash (TableOp.setWith h (h.keyHash k) u k x) := by
        rw [body_modify_self (lt_size_of_body (ht ▸ Body.noConfusion)), ht]
        rfl
      have hset := ((hc.files b u ht).agrees.set k x).pairs
      rcases Pairs.mem_put h.keysEqual k hm x with hm | ⟨he, hm⟩
      · exact .inl ⟨_, hput, hset ▸ hm⟩
      · exact .inr ⟨rfl, he, _, hput, hset ▸ hm⟩
    · exact .inl ⟨t, (body_modify_of_ne h hba _).trans ht, hm⟩
  · exact .inl ⟨t, ht, hm⟩

/-- An entry stays unless its key is the same as one that is removed. -/
theorem Stores.remove (hs : h.Stores a key v) (hc : h.Consistent) (box k : Value) :
    (h.remove box k (h.keyHash k).1 (h.keyHash k).2).2.Stores a key v ∨
      box = .obj a ∧ h.keysEqual key k = true := by
  obtain ⟨t, ht, hm⟩ := hs
  unfold Heap.remove
  split
  · rename_i b u hb
    have hb : h.body b = .hash u := hb
    extract_lets found old retired
    by_cases hba : b = a
    · subst hba
      obtain rfl := Body.hash.inj (hb.symm.trans ht)
      have hdrop : (h.modify b (dropEntry found)).body b
          = .hash (TableOp.eraseWith h (h.keyHash k) u k).2 := by
        rw [body_modify_self (lt_size_of_body (ht ▸ Body.noConfusion)), ht]
        rfl
      have herase := ((hc.files b u ht).agrees.erase k).2.pairs
      rcases Pairs.mem_remove h.keysEqual k hm with hm | he
      · exact .inl ⟨_, hdrop, herase ▸ hm⟩
      · exact .inr ⟨rfl, he⟩
    · exact .inl ⟨t, (body_modify_of_ne h hba _).trans ht, hm⟩
  · exact .inl ⟨t, ht, hm⟩

end Heap

end ScriptEngine
