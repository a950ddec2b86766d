import ScriptEngine.Machine.Scope
import ScriptEngine.Proofs.Heap.Consistency

/-!
# Names in chains of namespaces

A name is looked up in the locals first and then in the namespaces of a chain of closures, one after
the other.  Each closure of a chain is a cell of its own unless the chain comes back to one, so as
many links as there are cells show all of it.

* `Heap.resolve`         what a name stands for in a chain, however long it is;
* `Heap.resolve_eq`      any bound from the number of cells on gives the same;
* `Heap.Assignee`        the namespace that defines a name first, or the locals if none does;
* `Heap.Consistent.named?_eq_get`   a name in a namespace is a key of its association list;
* `Heap.Consistent.named?_store`    what names stand for once an entry has been stored;
* `Heap.Thins.named?`    and in the namespaces that are left when some cells are freed.
-/

namespace ScriptEngine

namespace Pairs

variable {eq : Value → Value → Bool} {key : Value} {l : Pairs}

/-- What has been put under a key is there, and what is under other keys stays. -/
theorem get_put (h : Heap) (key k val : Value) (l : Pairs) :
    (l.put h.keysEqual key val).get h.keysEqual k =
      if h.keysEqual key k then some val else l.get h.keysEqual k := by
  induction l with
  | nil => rfl
  | cons p l ih =>
    rw [put]
    by_cases hp : h.keysEqual p.1 key = true
    · -- the key of the pair is the same as the one that is put
      have hsame : h.keysEqual p.1 k = h.keysEqual key k := Bool.eq_iff_iff.mpr
        ⟨Heap.keysEqual_trans (Heap.keysEqual_symm hp), Heap.keysEqual_trans hp⟩
      rw [if_pos hp, get, get, hsame]
      split <;> rfl
    · rw [if_neg hp, get, get, ih]
      by_cases hpk : h.keysEqual p.1 k = true
      · have hkey : ¬h.keysEqual key k = true := fun e =>
          hp (Heap.keysEqual_trans hpk (Heap.keysEqual_symm e))
        rw [if_pos hpk, if_neg hkey, if_pos hpk]
      · rw [if_neg hpk, if_neg hpk]

theorem get_congr {eq' : Value → Value → Bool} (h : ∀ p ∈ l, eq' p.1 key = eq p.1 key) :
    l.get eq' key = l.get eq key := by
  induction l with
  | nil => rfl
  | cons p l ih =>
    rw [get, get, h p List.mem_cons_self, ih fun q hq => h q (List.mem_cons_of_mem p hq)]

end Pairs

namespace Heap

variable {h h' : Heap} {sym locals ns v : Value} {hash : UInt32}

/-! ## chains -/

/-- The value that so many links lead to. -/
def up (h : Heap) (v : Value) : Nat → Option Value
  | 0 => some v
  | k + 1 => (h.up v k).bind fun u => (h.closure? u).map (·.2)

theorem up_add (h : Heap) (v : Value) (k d : Nat) :
    h.up v (k + d) = (h.up v k).bind fun u => h.up u d := by
  induction d with
  | zero => cases h.up v k <;> rfl
  | succ d ih =>
    rw [← Nat.add_assoc, up, ih, Option.bind_assoc]
    rfl

theorem up_succ (h : Heap) (v : Value) (k : Nat) :
    h.up v (k + 1) = (h.closure? v).bind fun p => h.up p.2 k := by
  rw [Nat.add_comm, up_add, up, up, Option.bind_some, Option.bind_map]
  rfl

theorem mem_scopes {n : Nat} :
    ns ∈ h.scopes n v ↔ ∃ k < n, ∃ u next, h.up v k = some u ∧ h.closure? u = some (ns, next) := by
  induction n generalizing v with
  | zero => exact ⟨fun hm => (nomatch hm), fun ⟨_, hk, _⟩ => nomatch hk⟩
  | succ n ih =>
    rw [scopes]
    cases hv : h.closure? v with
    | none =>
      refine ⟨fun hm => (nomatch hm), ?_⟩
      rintro ⟨k, -, u, next, hu, hc⟩
      cases k with
      | zero =>
        obtain rfl := Option.some.inj hu
        exact nomatch hv.symm.trans hc
      | succ k =>
        rw [up_succ, hv] at hu
        exact nomatch hu
    | some p =>
      obtain ⟨m, w⟩ := p
      rw [List.mem_cons, ih]
      constructor
      · rintro (rfl | ⟨k, hk, u, next, hu, hc⟩)
        · exact ⟨0, Nat.zero_lt_succ n, v, w, rfl, hv⟩
        · refine ⟨k + 1, Nat.succ_lt_succ hk, u, next, ?_, hc⟩
          rw [up_succ, hv]
          exact hu
      · rintro ⟨k, hk, u, next, hu, hc⟩
        cases k with
        | zero =>
          obtain rfl := Option.some.inj hu
          exact .inl (Prod.mk.inj (Option.some.inj (hc.symm.trans hv))).1
        | succ k =>
          rw [up_succ, hv] at hu
          exact .inr ⟨k, Nat.lt_of_succ_lt_succ hk, u, next, hu, hc⟩

theorem obj_of_closure? {p : Value × Value} (hv : h.closure? v = some p) :
    ∃ a, v = .obj a ∧ h.body a = .closure p.1 p.2 := by
  unfold closure? at hv
  split at hv
  · rename_i n next hb
    obtain rfl := Option.some.inj hv
    cases v with
    | obj a => exact ⟨a, rfl, hb⟩
    | _ => exact nomatch hb
  · exact nomatch hv

/-- A namespace of a chain is met before there are more links than cells: between the first place
where it is met and the start no closure comes twice. -/
theorem scopes_subset_cells (n : Nat) : h.scopes n v ⊆ h.scopes h.cells.size v := by
  intro ns hns
  obtain ⟨k₀, -, hk₀⟩ := mem_scopes.mp hns
  classical
  have hex : ∃ k, ∃ u next, h.up v k = some u ∧ h.closure? u = some (ns, next) := ⟨k₀, hk₀⟩
  obtain ⟨u, next, hu, hc⟩ := Nat.find_spec hex
  have hfirst {j : Nat} (hj : j < Nat.find hex) : ¬∃ u next, h.up v j = some u ∧ _ := Nat.find_min hex hj
  generalize Nat.find hex = k at hu hfirst
  -- each place up to the first one is a closure in a cell
  have hcell (i : Fin (k + 1)) : ∃ a : Fin h.cells.size, h.up v i = some (.obj a) := by
    have hsplit := h.up_add v i (k - i)
    rw [Nat.add_sub_of_le (Nat.le_of_lt_succ i.isLt), hu] at hsplit
    obtain ⟨x, hx, hrest⟩ := Option.bind_eq_some_iff.mp hsplit.symm
    have hclosure : ∃ p, h.closure? x = some p := by
      cases hd : k - i with
      | zero =>
        rw [hd] at hrest
        obtain rfl := Option.some.inj hrest
        exact ⟨_, hc⟩
      | succ d =>
        rw [hd, up_succ] at hrest
        obtain ⟨p, hp, -⟩ := Option.bind_eq_some_iff.mp hrest
        exact ⟨p, hp⟩
    obtain ⟨p, hp⟩ := hclosure
    obtain ⟨a, rfl, ha⟩ := obj_of_closure? hp
    exact ⟨⟨a, lt_size_of_body (ha ▸ Body.noConfusion)⟩, hx⟩
  choose cell hcell using hcell
  have hlt {i j : Fin (k + 1)} (hij : cell i = cell j) : ¬i < j := by
    intro hlt
    have hsame : h.up v i = h.up v j := by rw [hcell, hcell, hij]
    have hle : (j : Nat) ≤ k := Nat.le_of_lt_succ j.isLt
    refine hfirst (j := i + (k - j)) (by omega) ⟨u, next, ?_, hc⟩
    rw [up_add, hsame, ← up_add, Nat.add_sub_of_le hle, hu]
  have hinj : Function.Injective cell := fun i j hij =>
    le_antisymm (not_lt.mp (hlt hij.symm)) (not_lt.mp (hlt hij))
  have hcard := Fintype.card_le_of_injective cell hinj
  rw [Fintype.card_fin, Fintype.card_fin] at hcard
  exact mem_scopes.mpr ⟨k, hcard, u, next, hu, hc⟩

theorem isPrefix_scopes {n m : Nat} (hnm : n ≤ m) : h.scopes n v <+: h.scopes m v := by
  induction n generalizing v m with
  | zero => exact ⟨_, rfl⟩
  | succ n ih =>
    obtain ⟨m, rfl⟩ : ∃ k, m = k + 1 := ⟨m - 1, by omega⟩
    rw [scopes, scopes]
    split
    · exact List.cons_prefix_cons.mpr ⟨rfl, ih (Nat.le_of_succ_le_succ hnm)⟩
    · exact List.prefix_rfl

theorem firstNamed?_append (us vs : List Value) :
    h.firstNamed? sym hash (us ++ vs) =
      (h.firstNamed? sym hash us).or (h.firstNamed? sym hash vs) := List.findSome?_append

theorem firstNamed?_congr {us : List Value}
    (hus : ∀ m ∈ us, h'.named? m sym hash = h.named? m sym hash) :
    h'.firstNamed? sym hash us = h.firstNamed? sym hash us := by
  induction us with
  | nil => rfl
  | cons m us ih =>
    have hrest := ih fun x hx => hus x (List.mem_cons_of_mem m hx)
    rw [firstNamed?] at hrest ⊢
    rw [List.findSome?_cons, hus m List.mem_cons_self, hrest, firstNamed?, firstNamed?,
      List.findSome?_cons]

/-- Links beyond the number of cells show nothing new. -/
theorem firstNamed?_scopes {n : Nat} (hn : h.cells.size ≤ n) :
    h.firstNamed? sym hash (locals :: h.scopes n v) =
      h.firstNamed? sym hash (locals :: h.scopes h.cells.size v) := by
  obtain ⟨more, hmore⟩ := isPrefix_scopes (h := h) (v := v) hn
  rw [← hmore, ← List.cons_append, firstNamed?_append]
  cases hfirst : h.firstNamed? sym hash (locals :: h.scopes h.cells.size v) with
  | some x => rfl
  | none =>
    -- the namespaces further on are among those before
    refine List.findSome?_eq_none_iff.mpr fun m hm => ?_
    have hin : m ∈ h.scopes n v := hmore ▸ List.mem_append_right _ hm
    exact List.findSome?_eq_none_iff.mp hfirst m (List.mem_cons_of_mem _ (scopes_subset_cells n hin))

/-- What a name stands for in the locals and a chain of closures. -/
def resolve (h : Heap) (locals closure sym : Value) (hash : UInt32) : Option Value :=
  h.firstNamed? sym hash (locals :: h.scopes (h.cells.size + 1) closure)

theorem resolve_eq {n : Nat} (hn : h.cells.size ≤ n) :
    h.resolve locals v sym hash = h.firstNamed? sym hash (locals :: h.scopes n v) := by
  rw [resolve, firstNamed?_scopes hn, firstNamed?_scopes (Nat.le_succ _)]

theorem resolve_of_scopes {n : Nat} {x : Value}
    (hx : h.firstNamed? sym hash (locals :: h.scopes n v) = some x) :
    h.resolve locals v sym hash = some x := by
  obtain ⟨more, hmore⟩ := isPrefix_scopes (h := h) (v := v) (Nat.le_max_left n h.cells.size)
  rw [resolve_eq (Nat.le_max_right n h.cells.size), ← hmore, ← List.cons_append, firstNamed?_append, hx]
  rfl

/-- The first namespace that defines a name, or the locals where none does. -/
def Assignee (h : Heap) (sym : Value) (hash : UInt32) (locals : Value) (outer : List Value)
    (ns : Value) : Prop :=
  (∃ before after, locals :: outer = before ++ ns :: after ∧
      (∀ m ∈ before, h.named? m sym hash = none) ∧ (h.named? ns sym hash).isSome = true) ∨
    ns = locals ∧ ∀ m ∈ locals :: outer, h.named? m sym hash = none

theorem assignee_target (h : Heap) (sym : Value) (hash : UInt32) (locals : Value)
    (outer : List Value) :
    h.Assignee sym hash locals outer (h.target locals sym hash outer) := by
  unfold target
  cases hfind : (locals :: outer).find? fun ns => (h.named? ns sym hash).isSome with
  | none =>
    refine .inr ⟨rfl, fun m hm => ?_⟩
    exact Option.not_isSome_iff_eq_none.mp (List.find?_eq_none.mp hfind m hm)
  | some ns =>
    obtain ⟨hns, before, after, hsplit, hbefore⟩ := List.find?_eq_some_iff_append.mp hfind
    refine .inl ⟨before, after, hsplit, fun m hm => ?_, hns⟩
    exact Option.not_isSome_iff_eq_none.mp (by simpa using hbefore m hm)

/-! ## names -/

variable {name other : Bytes} {s o n : Addr} {t : Table Value Value} {m : Value}

theorem obj_of_table? (hm : h.table? m = some t) : ∃ a, m = .obj a ∧ h.body a = .hash t := by
  unfold table? at hm
  split at hm
  · rename_i u hb
    obtain rfl := Option.some.inj hm
    cases m with
    | obj a => exact ⟨a, rfl, hb⟩
    | _ => exact nomatch hb
  · exact nomatch hm

theorem isKind_hash_of_table? (hm : h.table? m = some t) : h.isKind m .hash = true := by
  obtain ⟨a, rfl, ha⟩ := obj_of_table? hm
  show ((h.body a).kind? == some .hash) = true
  rw [ha]
  rfl

theorem exists_hash (hm : h.isKind m .hash = true) : ∃ a t, m = .obj a ∧ h.body a = .hash t := by
  have hk := kind?_of_isKind hm
  cases m with
  | obj a =>
    have hk' : (h.body a).kind? = some .hash := hk
    cases ha : h.body a with
    | hash t => exact ⟨a, t, rfl, ha⟩
    | _ =>
      rw [ha] at hk'
      exact nomatch hk'
  | _ => exact nomatch hk

/-- A registered name is a key of the association list of a namespace. -/
theorem Consistent.named?_eq_get (hc : h.Consistent) (hs : h.symbols[name]? = some s)
    (hn : h.body n = .hash t) :
    h.named? (.obj n) (.obj s) (hashBytes name) = Pairs.get h.keysEqual (.obj s) (t.entries.map Entry.pair) := by
  have ht : h.table? (.obj n) = some t := by
    rw [table?, show h.bodyOf (.obj n) = .hash t from hn]
  have hlookup := (hc.files n t hn).agrees.lookup_eq (.obj s)
  rw [hc.keyHash_name hs] at hlookup
  rw [named?, ht]
  exact hlookup

theorem Consistent.bytes?_name (hc : h.Consistent) (hs : h.symbols[name]? = some s) :
    h.bytes? (.obj s) = some name := by
  rw [bytes?, str?, show h.bodyOf (.obj s) = .str (.ofName name) from hc.registered name s hs]
  rfl

/-- Whether two keys are the same depends on no other objects. -/
theorem keysEqual_congr {x y : Value} (hx : h'.bodyOf x = h.bodyOf x)
    (hy : h'.bodyOf y = h.bodyOf y) : h'.keysEqual x y = h.keysEqual x y := by
  have halike {x : Value} (hx : h'.bodyOf x = h.bodyOf x) : h.Alike h' x := by
    cases x with
    | obj b =>
      have hx : h'.body b = h.body b := hx
      rw [Alike, hx]
      exact h.alike_refl (.obj b)
    | _ => trivial
  exact (halike hx).keysEqual (halike hy)

/-- A namespace that is as it was, with its keys, has the names that it had. -/
theorem Consistent.named?_congr (hc : h.Consistent) (hc' : h'.Consistent)
    (ho : h.symbols[other]? = some o) (ho' : h'.symbols[other]? = some o)
    (hm : h'.bodyOf m = h.bodyOf m)
    (hkeys : ∀ b, .obj b ∈ (h.bodyOf m).children → h'.body b = h.body b) :
    h'.named? m (.obj o) (hashBytes other) = h.named? m (.obj o) (hashBytes other) := by
  cases m with
  | obj a =>
    have hm : h'.body a = h.body a := hm
    cases ha : h.body a with
    | hash t =>
      rw [hc.named?_eq_get ho ha, hc'.named?_eq_get ho' (hm.trans ha)]
      refine Pairs.get_congr fun p hp => ?_
      obtain ⟨e, he, rfl⟩ := List.mem_map.mp hp
      have hkey : h'.bodyOf e.key = h.bodyOf e.key := by
        cases hk : e.key with
        | obj b =>
          refine hkeys b ?_
          rw [bodyOf, ha, mem_children_hash]
          exact ⟨e, he, .inl hk.symm⟩
        | _ => rfl
      have hname : h'.bodyOf (.obj o) = h.bodyOf (.obj o) :=
        (hc'.registered other o ho').trans (hc.registered other o ho).symm
      exact keysEqual_congr hkey hname
    | _ => simp only [named?, table?, bodyOf, hm, ha, Option.bind_none]
  | _ => rfl

theorem Consistent.keysEqual_names (hc : h.Consistent) (hs : h.symbols[name]? = some s)
    (ho : h.symbols[other]? = some o) (hne : name ≠ other) : h.keysEqual (.obj s) (.obj o) = false := by
  refine Bool.eq_false_iff.mpr fun he => hne ?_
  have hs' := hc.registered name s hs
  have ho' := hc.registered other o ho
  rcases keysEqual_obj.mp he with rfl | ⟨x, y, hx, hy, hxy⟩
  · exact congrArg Str.bytes (Body.str.inj (hs'.symm.trans ho'))
  · obtain rfl := Body.str.inj (hs'.symm.trans hx)
    obtain rfl := Body.str.inj (ho'.symm.trans hy)
    exact hxy

/-- A key that is the same as a registered name is the same as no other one. -/
theorem Consistent.keysEqual_iff_name {key : Value} (hc : h.Consistent)
    (hs : h.symbols[name]? = some s) (ho : h.symbols[other]? = some o)
    (hkey : h.keysEqual key (.obj s) = true) : h.keysEqual key (.obj o) = true ↔ o = s := by
  refine ⟨fun ho' => ?_, by rintro rfl; exact hkey⟩
  by_contra hne
  have hnames : name ≠ other := by
    rintro rfl
    exact hne (Option.some.inj (ho.symm.trans hs))
  have hsame := keysEqual_trans (keysEqual_symm hkey) ho'
  rw [hc.keysEqual_names hs ho hnames] at hsame
  exact nomatch hsame

/-! ### a name that is stored -/

theorem body_store_self {key : Value} {interned : Bool} (hn : h.body n = .hash t) :
    (h.store (.obj n) key hash interned v).2.body n =
      .hash (TableOp.setWith h (hash, interned) t key v) := by
  have hn' : h.bodyOf (.obj n) = .hash t := hn
  simp only [Heap.store, hn']
  refine (body_modify_self (lt_size_of_body (hn ▸ Body.noConfusion)) _).trans ?_
  rw [hn]
  rfl

theorem body_store_of_ne {key : Value} {interned : Bool} {a : Addr} (hne : ns ≠ .obj a) :
    (h.store ns key hash interned v).2.body a = h.body a := by
  rcases store_cases h ns key hash interned v with e | ⟨b, u, found, hb, -, e⟩
  · rw [e]
  · rw [e, body_modify_of_ne h fun hab => hne (hb.trans (congrArg Value.obj hab))]

/-- A namespace that is stored into stays one, and all else is as it was. -/
theorem body_store (h : Heap) (ns key : Value) (hash : UInt32) (interned : Bool) (v : Value) (a : Addr) :
    (h.store ns key hash interned v).2.body a = h.body a ∨
      ∃ t t', h.body a = .hash t ∧ (h.store ns key hash interned v).2.body a = .hash t' := by
  rcases store_cases h ns key hash interned v with e | ⟨b, t, found, -, hb, e⟩
  · exact .inl (by rw [e])
  · rw [e]
    by_cases hab : b = a
    · subst hab
      refine .inr ⟨t, t.put found ⟨hash, interned, key, v⟩, hb, ?_⟩
      rw [body_modify_self (lt_size_of_body (hb ▸ Body.noConfusion)), hb]
      rfl
    · exact .inl (body_modify_of_ne h hab _)

theorem keysEqual_store {key : Value} {interned : Bool} :
    (h.store ns key hash interned v).2.keysEqual = h.keysEqual := by
  have halike (x : Value) : h.Alike (h.store ns key hash interned v).2 x := by
    cases x with
    | obj a =>
      rcases body_store h ns key hash interned v a with e | ⟨t, t', ht, ht'⟩
      · rw [Alike, e]
        exact h.alike_refl (.obj a)
      · rw [Alike, ht, ht']
        exact ⟨fun _ e => Body.noConfusion e, fun _ e => Body.noConfusion e⟩
    | _ => trivial
  exact funext₂ fun x y => (halike x).keysEqual (halike y)

theorem closure?_store {key : Value} {interned : Bool} (u : Value) :
    (h.store ns key hash interned v).2.closure? u = h.closure? u := by
  cases u with
  | obj a =>
    rw [closure?, closure?, bodyOf, bodyOf]
    rcases body_store h ns key hash interned v a with e | ⟨t, t', ht, ht'⟩
    · rw [e]
    · rw [ht, ht']
  | _ => rfl

theorem scopes_store {key : Value} {interned : Bool} (k : Nat) (u : Value) :
    (h.store ns key hash interned v).2.scopes k u = h.scopes k u := by
  induction k generalizing u with
  | zero => rfl
  | succ k ih =>
    rw [scopes, scopes, closure?_store]
    split
    · rw [ih]
    · rfl

theorem symbols_store {key : Value} {interned : Bool} :
    (h.store ns key hash interned v).2.symbols = h.symbols := (reshaped_store ..).symbols

/-- In other namespaces names stand for what they stood for. -/
theorem Consistent.named?_store_of_ne {key : Value} (hc : h.Consistent) (hkey : h.Frozen key)
    (ho : h.symbols[other]? = some o) (hm : m ≠ ns) (v : Value) :
    (h.store ns key (h.keyHash key).1 (h.keyHash key).2 v).2.named? m (.obj o) (hashBytes other) =
      h.named? m (.obj o) (hashBytes other) := by
  have hc' := (hc.store ns hkey v).1
  cases m with
  | obj a =>
    have hbody : (h.store ns key (h.keyHash key).1 (h.keyHash key).2 v).2.body a = h.body a :=
      body_store_of_ne (Ne.symm hm)
    cases ha : h.body a with
    | hash t =>
      rw [hc.named?_eq_get ho ha, hc'.named?_eq_get (by rw [symbols_store, ho]) (hbody.trans ha),
        keysEqual_store]
    | _ => simp only [named?, table?, bodyOf, hbody, ha, Option.bind_none]
  | _ => rfl

/-- In the namespace stored into the name that is the key stands for the value. -/
theorem Consistent.named?_store {key : Value} (hc : h.Consistent) (hkey : h.Frozen key)
    (ho : h.symbols[other]? = some o) (hn : h.body n = .hash t) (v : Value) :
    (h.store (.obj n) key (h.keyHash key).1 (h.keyHash key).2 v).2.named? (.obj n) (.obj o)
        (hashBytes other) =
      if h.keysEqual key (.obj o) then some v else h.named? (.obj n) (.obj o) (hashBytes other) := by
  rw [(hc.store (.obj n) hkey v).1.named?_eq_get (by rw [symbols_store, ho]) (body_store_self hn),
    keysEqual_store, ((hc.files n t hn).agrees.set key v).pairs, Pairs.get_put,
    hc.named?_eq_get ho hn]

section

variable (hc : h.Consistent) (hs : h.symbols[name]? = some s)
include hc hs

theorem Consistent.pairs_store (hn : h.body n = .hash t) (v : Value) :
    (TableOp.setWith h (hashBytes name, true) t (.obj s) v).entries.map Entry.pair =
      Pairs.put h.keysEqual (.obj s) v (t.entries.map Entry.pair) := by
  have hset := ((hc.files n t hn).agrees.set (.obj s) v).pairs
  rwa [hc.keyHash_name hs] at hset

/-- The name stands for the value in the namespace stored into. -/
theorem Consistent.store_named?_self (hn : h.body n = .hash t) (v : Value) :
    (h.store (.obj n) (.obj s) (hashBytes name) true v).2.named? (.obj n) (.obj s) (hashBytes name) =
      some v := by
  have hstore := hc.named?_store (hc.frozen_name hs) hs hn v
  rwa [hc.keyHash_name hs, if_pos (keysEqual_obj.mpr (.inl rfl))] at hstore

/-- Other names, and all names in other namespaces, stand for what they stood for. -/
theorem Consistent.store_named?_of_ne (ho : h.symbols[other]? = some o) (hn : h.body n = .hash t)
    (hne : name ≠ other ∨ m ≠ .obj n) (v : Value) :
    (h.store (.obj n) (.obj s) (hashBytes name) true v).2.named? m (.obj o) (hashBytes other) =
      h.named? m (.obj o) (hashBytes other) := by
  have hfrozen := hc.frozen_name hs
  by_cases hm : m = .obj n
  · have hstore := hc.named?_store hfrozen ho hn v
    rw [hc.keysEqual_names hs ho (hne.resolve_right fun h => h hm), hc.keyHash_name hs] at hstore
    rw [hm]
    exact hstore
  · have hstore := hc.named?_store_of_ne hfrozen ho hm v
    rwa [hc.keyHash_name hs] at hstore

/-- In a chain other names stand for what they stood for. -/
theorem Consistent.resolve_store_of_ne (ho : h.symbols[other]? = some o) (hn : h.body n = .hash t)
    (hne : name ≠ other) (v locals closure : Value) :
    (h.store (.obj n) (.obj s) (hashBytes name) true v).2.resolve locals closure (.obj o) (hashBytes other) =
      h.resolve locals closure (.obj o) (hashBytes other) := by
  rw [resolve_eq (Nat.le_max_left _ h.cells.size), resolve_eq (Nat.le_max_right _ h.cells.size),
    scopes_store]
  exact firstNamed?_congr fun m _ => hc.store_named?_of_ne hs ho hn (.inl hne) v

/-- A chain that shows the namespace stored into before the name is defined shows the value. -/
theorem Consistent.resolve_store_self (hn : h.body n = .hash t) (v : Value) {locals closure : Value}
    {links : Nat} {before after : List Value}
    (hchain : locals :: h.scopes links closure = before ++ .obj n :: after)
    (hbefore : ∀ m ∈ before, h.named? m (.obj s) (hashBytes name) = none) :
    (h.store (.obj n) (.obj s) (hashBytes name) true v).2.resolve locals closure (.obj s)
      (hashBytes name) = some v := by
  refine resolve_of_scopes (n := links) ?_
  rw [scopes_store, hchain]
  clear hchain
  have hself := hc.store_named?_self hs hn v
  induction before with
  | nil => rw [List.nil_append, firstNamed?, List.findSome?_cons, hself]
  | cons m before ih =>
    have hrest := ih fun x hx => hbefore x (List.mem_cons_of_mem m hx)
    rw [List.cons_append, firstNamed?, List.findSome?_cons]
    by_cases hm : m = .obj n
    · rw [hm, hself]
    · rw [hc.store_named?_of_ne hs hs hn (.inr hm), hbefore m List.mem_cons_self]
      exact hrest

end

/-! ### cells that are freed -/

/-- What is left of a chain is all of it. -/
theorem Thins.scopes (ht : h.Thins h') {u : Value} (hu : h'.bodyOf u = h.bodyOf u) (k : Nat) :
    h'.scopes k u = h.scopes k u ∧ ∀ m ∈ h.scopes k u, h'.bodyOf m = h.bodyOf m := by
  induction k generalizing u with
  | zero => exact ⟨rfl, nofun⟩
  | succ k ih =>
    have hclosure : h'.closure? u = h.closure? u := by rw [closure?, closure?, hu]
    rw [Heap.scopes, Heap.scopes, hclosure]
    cases hp : h.closure? u with
    | none => exact ⟨rfl, nofun⟩
    | some p =>
      obtain ⟨a, rfl, ha⟩ := obj_of_closure? hp
      have hu : h'.body a = h.body a := hu
      have hchild {c : Value} (hc : c ∈ (h.body a).children) : h'.bodyOf c = h.bodyOf c := by
        cases c with
        | obj b => exact ht.child a b (hu ▸ ha ▸ Body.noConfusion) hc
        | _ => rfl
      rw [ha] at hchild
      obtain ⟨hrest, hsame⟩ := ih (hchild (List.mem_cons_of_mem _ List.mem_cons_self))
      refine ⟨congrArg _ hrest, fun m hm => ?_⟩
      rcases List.mem_cons.mp hm with rfl | hm
      · exact hchild List.mem_cons_self
      · exact hsame m hm

/-- In a namespace that is left names stand for what they stood for. -/
theorem Thins.named? (ht : h.Thins h') (hc : h.Consistent) (ho : h.symbols[other]? = some o)
    (hm : h'.bodyOf m = h.bodyOf m) :
    h'.named? m (.obj o) (hashBytes other) = h.named? m (.obj o) (hashBytes other) := by
  refine hc.named?_congr (hc.thin ht) ho (by rw [ht.symbols, ho]) hm fun b hb => ?_
  cases m with
  | obj a => exact ht.child a b (fun e => by rw [← hm, bodyOf, e] at hb; exact nomatch hb) hb
  | _ => exact nomatch hb

/-- A chain that is left shows what it showed. -/
theorem Thins.resolve (ht : h.Thins h') (hc : h.Consistent) (ho : h.symbols[other]? = some o)
    {locals closure : Value} (hlocals : h'.bodyOf locals = h.bodyOf locals)
    (hclosure : h'.bodyOf closure = h.bodyOf closure) :
    h'.resolve locals closure (.obj o) (hashBytes other) =
      h.resolve locals closure (.obj o) (hashBytes other) := by
  obtain ⟨hscopes, hsame⟩ := ht.scopes hclosure (max h'.cells.size h.cells.size)
  rw [resolve_eq (Nat.le_max_left h'.cells.size h.cells.size),
    resolve_eq (Nat.le_max_right h'.cells.size h.cells.size), hscopes]
  refine firstNamed?_congr fun m hm => ht.named? hc ho ?_
  rcases List.mem_cons.mp hm with rfl | hm
  · exact hlocals
  · exact hsame m hm

end Heap

end ScriptEngine
