import Mathlib
import ScriptEngine.Machine.Load
import ScriptEngine.Proofs.Code.Decoding
import ScriptEngine.Proofs.Heap.Keys
import ScriptEngine.Proofs.Machine.Safety
import ScriptEngine.Proofs.Runs

/-!
# Loaded code is well formed

Loading makes an object for each constant of a unit and then one for the unit.  While it goes on a
collection may run, but what has been loaded is kept, names stay the strings they are, and strings
whose hash has been taken do not change any more.

* `Heap.Registered`      names are registered with their own strings;
* `World.Loads`          what is the same while code is loaded;
* `Heap.Stored`          a value and its hash stand for a constant;
* `Act.loads_load`       **loading stores the constants of a unit**, those of the units inside too;
* `Heap.Formed`          code objects whose words decode and whose constants are of the right kinds;
* `Act.compile_formed`   every text that compiles gives such an object.
-/

namespace ScriptEngine

open Generate (Params literal?)

/-! ## names -/

theorem Str.freeze_of_hash {s : Str} (h : s.hash.isSome = true) : s.freeze = s := by
  obtain ⟨bytes, hash, interned⟩ := s
  cases hash with
  | none => exact nomatch h
  | some x => rfl

namespace Heap

/-- Every registered name is that of its string. -/
def Registered (h : Heap) : Prop :=
  ∀ (name : Bytes) a, h.symbols[name]? = some a → h.body a = .str (.ofName name)

variable {h : Heap} {l : List Addr}

/-- A new name gets a cell of its own. -/
theorem Registered.intern (hr : h.Registered) (hs : h.Stocked l) (name : Bytes) :
    (h.intern name).2.Registered := by
  unfold Heap.intern
  cases hname : h.symbols[name]? with
  | some a => exact hr
  | none =>
    have hstock := hs.takeOrGrow .str
    have hbody (x : Addr) := body_takeOrGrow h .str x
    dsimp only
    generalize h.takeOrGrow .str = r at hstock hbody ⊢
    obtain ⟨a, g⟩ := r
    dsimp only at hstock hbody ⊢
    obtain ⟨ha, hfree⟩ := hstock.idle a (List.mem_append_left _ List.mem_cons_self)
    intro other x hx
    have hx' : (if name == other then some a else h.symbols[other]?) = some x := by
      rw [← (hbody 0).2, ← Std.HashMap.getElem?_insert]
      exact hx
    show (g.install a (.str (.ofName name))).body x = _
    rw [body_install g ha]
    split at hx'
    · rename_i he
      rw [if_pos (Option.some.inj hx').symm, eq_of_beq he]
    · have hold := hr other x hx'
      have hne : x ≠ a := by
        rintro rfl
        rw [(hbody x).1, hold] at hfree
        exact nomatch hfree
      rw [if_neg hne, (hbody x).1, hold]

theorem symbols_freeze (h : Heap) (v : Value) : (h.freeze v).symbols = h.symbols := by
  unfold Heap.freeze
  split
  · split
    · split <;> rfl
    · rfl
  · rfl

/-- A string whose hash has been taken stays as it is. -/
theorem body_freeze_of_hash {a : Addr} {s : Str} (hb : h.body a = .str s)
    (hash : s.hash.isSome = true) (v : Value) : (h.freeze v).body a = .str s := by
  rcases body_freeze h v a with e | ⟨t, ht, e⟩
  · exact e.trans hb
  · obtain rfl := Body.str.inj (hb.symm.trans ht)
    rw [e, Str.freeze_of_hash hash]

theorem body_freeze_self {a : Addr} {s : Str} (hb : h.body a = .str s) :
    (h.freeze (.obj a)).body a = .str s.freeze := by
  rw [freeze, hb]
  dsimp only
  split
  · rename_i hash
    rw [hb, Str.freeze_of_hash hash]
  · exact body_modify_self (lt_size_of_body (by rw [hb]; exact Body.noConfusion)) _

theorem Registered.freeze (hr : h.Registered) (v : Value) : (h.freeze v).Registered := by
  intro name a ha
  rw [symbols_freeze] at ha
  exact body_freeze_of_hash (hr name a ha) rfl v

end Heap

/-! ## while code is loaded -/

namespace World

/-- A later state of a sound engine in which code has been loaded. -/
structure Loads (used : CtxId → Prop) (w w' : World) : Prop where
  sound : w'.Sound used
  later : w.Extends w'
  registered : w'.heap.Registered
  names : ∀ (name : Bytes) a, w.heap.symbols[name]? = some a → w'.heap.symbols[name]? = some a
  frozen : ∀ a s, w.Kept (.obj a) → w.heap.body a = .str s → s.hash.isSome = true →
    w'.heap.body a = .str s

variable {used : CtxId → Prop} {w w' w'' : World}

theorem Loads.refl (hs : w.Sound used) (hr : w.heap.Registered) : w.Loads used w :=
  ⟨hs, .refl w, hr, fun _ _ h => h, fun _ _ _ h _ => h⟩

theorem Loads.trans (h : w.Loads used w') (h' : w'.Loads used w'') : w.Loads used w'' where
  sound := h'.sound
  later := h.later.trans h'.later
  registered := h'.registered
  names name a ha := h'.names name a (h.names name a ha)
  frozen a s hk hb hash := h'.frozen a s (h.later.kept hk) (h.frozen a s hk hb hash) hash

theorem kept_symbol {name : Bytes} {a : Addr} (h : w.heap.symbols[name]? = some a) :
    w.Kept (.obj a) :=
  .root (mem_liveRoots.mpr (.inr (mem_pinned_symbol h)))

theorem Made.loads {cx : CtxId} {a : Addr} {b : Body} (hm : Made used w w' cx a b)
    (hr : w.heap.Registered) : w.Loads used w' where
  sound := hm.sound
  later := hm.later
  registered name x hx := by
    rw [hm.intact.symbols] at hx
    exact (hm.intact.body x (kept_symbol hx)).trans (hr name x hx)
  names name x hx := by rw [hm.intact.symbols]; exact hx
  frozen x s hk hb _ := (hm.intact.body x hk).trans hb

theorem Sound.loads_intern (hs : w.Sound used) (hr : w.heap.Registered) (name : Bytes) :
    w.Loads used { w with heap := (w.heap.intern name).2 } := by
  have hi := hs.stocked.intern name
  obtain ⟨h1, h2, -, -⟩ := hs.intern name
  refine ⟨h1, h2, hr.intern hs.stocked name, hi.old, fun a s hk hb _ => ?_⟩
  exact (hi.kept a (hs.live_kept hk)).trans hb

theorem Sound.loads_freeze (hs : w.Sound used) (hr : w.heap.Registered) (v : Value) :
    w.Loads used { w with heap := w.heap.freeze v } := by
  obtain ⟨h1, h2⟩ : { w with heap := w.heap.freeze v }.Sound used ∧
      w.Extends { w with heap := w.heap.freeze v } := by
    cases Act.safe_hashKey hs v with
    | done h1 h2 => exact ⟨h1, h2.1⟩
  refine ⟨h1, h2, hr.freeze v, fun name a ha => ?_, fun a s _ hb hash => ?_⟩
  · exact (congrArg (·[name]?) (Heap.symbols_freeze w.heap v)).trans ha
  · exact Heap.body_freeze_of_hash hb hash v

end World

/-! ## constants -/

namespace Heap

/-- The value and its hash are what a constant is loaded as. -/
inductive Stored (h : Heap) : Const → Value → UInt32 → Prop
  | nil : Stored h .nil .nil 0
  | number {x : Float} : Stored h (.number x) (.ofFloat x) 0
  | text {s : Bytes} {a : Addr} (hb : h.body a = .str ⟨s, some (hashBytes s), false⟩) :
    Stored h (.text s) (.obj a) (hashBytes s)
  | name {s : Bytes} {a : Addr} (hs : h.symbols[s]? = some a) (hb : h.body a = .str (.ofName s)) :
    Stored h (.name s) (.obj a) (hashBytes s)
  | code {c : Code Const} {consts : Array Value} {hashes : Array UInt32} {a : Addr}
    (hb : h.body a = .code { c with consts, hashes }) (hconsts : consts.size = c.consts.size)
    (hhashes : hashes.size = c.consts.size)
    (inner : ∀ (i : Nat) d v x, c.consts[i]? = some d → consts[i]? = some v →
      hashes[i]? = some x → Stored h d v x) : Stored h (.code c) (.obj a) 0

/-- What tells a constant of loaded code apart. -/
def constKey? (h : Heap) : Value → Option Const.Key
  | .nil => some .nil
  | .num n => some (.number n.bits)
  | .obj a =>
    match h.body a with
    | .str s => some (if s.interned then .name s.bytes else .text s.bytes)
    | _ => none
  | .done => none

variable {h : Heap} {d : Const} {v : Value} {x : UInt32}

theorem Stored.constKey?_eq (hs : h.Stored d v x) : h.constKey? v = d.key? := by
  cases hs with
  | nil | number => rfl
  | text hb | name _ hb | code hb => rw [constKey?, hb]; rfl

theorem Stored.later {used : CtxId → Prop} {w w' : World} (hs : w.heap.Stored d v x)
    (hk : w.Kept v) (hl : w.Loads used w') : w'.heap.Stored d v x := by
  induction hs with
  | nil => exact .nil
  | number => exact .number
  | text hb => exact .text (hl.frozen _ _ hk hb rfl)
  | name hs _ => exact .name (hl.names _ _ hs) (hl.registered _ _ (hl.names _ _ hs))
  | code hb h1 h2 _ ih =>
    refine .code ((hl.later.fixed _ hk (by rw [hb]; trivial)).trans hb) h1 h2
      fun i d v x hd hv hx => ih i d v x hd hv hx ?_
    refine .child hk (by rw [hb]; trivial) ?_
    rw [hb]
    exact Array.mem_toList_iff.mpr (Array.mem_of_getElem? hv)

end Heap

structure World.Stored (w : World) (ds : List Const) (vs : Array Value) (hashes : Array UInt32) :
    Prop where
  values : vs.size = ds.length
  hashed : hashes.size = ds.length
  stored : ∀ (i : Nat) d v x, ds[i]? = some d → vs[i]? = some v → hashes[i]? = some x →
    w.heap.Stored d v x
  kept : ∀ v ∈ vs, w.Kept v

theorem World.Stored.push {used : CtxId → Prop} {w w' : World} {ds : List Const} {vs : Array Value}
    {hashes : Array UInt32} (h : w.Stored ds vs hashes) (hl : w.Loads used w') {d : Const}
    {v : Value} {x : UInt32} (hs : w'.heap.Stored d v x) (hk : w'.Kept v) :
    w'.Stored (ds ++ [d]) (vs.push v) (hashes.push x) where
  values := by rw [Array.size_push, h.values, List.length_append]; rfl
  hashed := by rw [Array.size_push, h.hashed, List.length_append]; rfl
  stored i e u y he hu hy := by
    rw [Array.getElem?_push, h.values] at hu
    rw [Array.getElem?_push, h.hashed] at hy
    by_cases hi : i = ds.length
    · rw [if_pos hi] at hu hy
      rw [hi, List.getElem?_concat_length] at he
      cases hu
      cases hy
      cases he
      exact hs
    · rw [if_neg hi] at hu hy
      have hlt : i < ds.length := by
        have hsize := (List.getElem?_eq_some_iff.mp he).1
        rw [List.length_append, List.length_singleton] at hsize
        omega
      rw [List.getElem?_append_left hlt] at he
      exact (h.stored i e u y he hu hy).later (h.kept u (Array.mem_of_getElem? hu)) hl
  kept u hu := by
    rcases Array.mem_push.mp hu with hu | rfl
    · exact hl.later.kept (h.kept u hu)
    · exact hk

/-! ## loading -/

namespace Act

open World (Loads)

inductive Loading {α : Type} (used : CtxId → Prop) (w : World) (ok : α → World → Prop) :
    EStateM.Result Failure World α → Prop
  | done {a : α} {w' : World} (hl : w.Loads used w') (ha : ok a w') : Loading used w ok (.ok a w')

section

variable {α β : Type} {used : CtxId → Prop} {w : World} {cx : CtxId}

theorem Loading.bind {P : α → World → Prop} {ok : β → World → Prop} {x : Act α} {f : α → Act β}
    (hx : Loading used w P (x.run w))
    (hf : ∀ a w', w.Loads used w' → P a w' → Loading used w' ok ((f a).run w')) :
    Loading used w ok ((x >>= f).run w) := by
  cases hr : x.run w with
  | error e w' =>
    rw [hr] at hx
    exact nomatch hx
  | ok a w' =>
    rw [hr] at hx
    cases hx with
    | done hl ha =>
      have hfa := hf a w' hl ha
      rw [run_bind_of_ok hr]
      generalize (f a).run w' = r at hfa ⊢
      cases hfa with
      | done hl' hb => exact .done (hl.trans hl') hb

theorem Loading.after {mid ok : α → World → Prop} {r : EStateM.Result Failure World α}
    (hr : Loading used w mid r) (h : ∀ a w', w.Loads used w' → mid a w' → ok a w') :
    Loading used w ok r := by
  cases hr with
  | done hl ha => exact .done hl (h _ _ hl ha)

variable (hs : w.Sound used) (hr : w.heap.Registered)

include hs hr in
theorem loads_alloc (hcx : cx < w.contexts.size) (k : Kind) {b : Body} (hne : b ≠ .free)
    (hb : ∀ c ∈ b.children, w.Kept c) :
    Loading used w (fun v w' => ∃ a, v = .obj a ∧ w'.heap.body a = b ∧ w'.Kept v)
      ((alloc cx k b).run w) := by
  obtain ⟨a, ha, hm⟩ := hs.alloc hcx k hne fun c hc => hs.live_kept (hb c hc)
  show Loading used w _ (.ok (w.alloc cx k b).1 (w.alloc cx k b).2)
  rw [ha]
  exact .done (hm.loads hr) ⟨a, rfl, hm.body, World.kept_of_temps hm.temps⟩

include hs hr in
theorem loads_hashKey {a : Addr} {s : Str} (hb : w.heap.body a = .str s) :
    Loading used w (fun p w' => p.1 = s.hashCode ∧ w'.heap.body a = .str s.freeze ∧
        w'.heap.symbols = w.heap.symbols)
      ((hashKey (.obj a)).run w) := by
  have hkey : (w.heap.keyHash (.obj a)).1 = s.hashCode := by rw [Heap.keyHash, hb]
  exact .done (hs.loads_freeze hr (.obj a))
    ⟨hkey, Heap.body_freeze_self hb, Heap.symbols_freeze w.heap (.obj a)⟩

include hs hr in
theorem loads_loadText (hcx : cx < w.contexts.size) (s : Bytes) :
    Loading used w (fun p w' => w'.Kept p.1 ∧ w'.heap.Stored (.text s) p.1 p.2)
      ((loadText cx s).run w) := by
  unfold loadText
  refine (loads_alloc hs hr hcx .str (b := .str (.ofBytes s)) Body.noConfusion
    fun _ hc => nomatch hc).bind fun v w₁ h₁ ⟨a, hv, hb, hk⟩ => ?_
  subst hv
  refine (loads_hashKey h₁.sound h₁.registered hb).bind fun p w₂ h₂ ⟨hp, hb₂, _⟩ => ?_
  obtain ⟨hash, interned⟩ := p
  obtain rfl : hash = hashBytes s := hp
  exact .done (.refl h₂.sound h₂.registered) ⟨h₂.later.kept hk, .text hb₂⟩

include hs hr in
theorem loads_loadName (s : Bytes) :
    Loading used w (fun p w' => w'.Kept p.1 ∧ w'.heap.Stored (.name s) p.1 p.2)
      ((loadName s).run w) := by
  have hintern : Loading used w (fun v w' => ∃ a, v = .obj a ∧ w'.heap.symbols[s]? = some a)
      ((intern s).run w) :=
    .done (hs.loads_intern hr s) ⟨_, rfl, (hs.stocked.intern s).symbol⟩
  unfold loadName
  refine hintern.bind fun v w₁ h₁ ⟨a, hv, hsym⟩ => ?_
  subst hv
  have hb := h₁.registered s a hsym
  refine (loads_hashKey h₁.sound h₁.registered hb).bind fun p w₂ h₂ ⟨hp, hb₂, _⟩ => ?_
  obtain ⟨hash, interned⟩ := p
  obtain rfl : hash = hashBytes s := hp
  have hsym₂ := h₂.names s a hsym
  exact .done (.refl h₂.sound h₂.registered)
    ⟨World.kept_symbol hsym₂, .name hsym₂ hb₂⟩

end

variable {used : CtxId → Prop} {cx : CtxId}

mutual
theorem loads_loadConst {w : World} (hs : w.Sound used) (hr : w.heap.Registered)
    (hcx : cx < w.contexts.size) (d : Const) :
    Loading used w (fun p w' => w'.Kept p.1 ∧ w'.heap.Stored d p.1 p.2)
      ((loadConst cx d).run w) := by
  cases d with
  | nil => exact .done (.refl hs hr) ⟨World.kept_nil, .nil⟩
  | number x => exact .done (.refl hs hr) ⟨.plain fun _ => Value.noConfusion, .number⟩
  | text s => exact loads_loadText hs hr hcx s
  | name s => exact loads_loadName hs hr s
  | code c =>
    refine (loads_load hs hr hcx c).bind fun v w₁ h₁ h => ?_
    exact .done (.refl h₁.sound h₁.registered) h
theorem loads_load {w : World} (hs : w.Sound used) (hr : w.heap.Registered)
    (hcx : cx < w.contexts.size) (c : Code Const) :
    Loading used w (fun v w' => w'.Kept v ∧ w'.heap.Stored (.code c) v 0) ((load cx c).run w) := by
  obtain ⟨words, consts, lines, file, params, optional, rest, needsRest⟩ := c
  refine (loads_loadConsts hs hr hcx consts).bind fun p w₁ h₁ hp => ?_
  have hcx₁ : cx < w₁.contexts.size := h₁.later.size ▸ hcx
  refine (loads_alloc h₁.sound h₁.registered hcx₁ .code
    (b := .code ⟨⟨words, p.1, lines, file, params, optional, rest, needsRest⟩, p.2⟩)
    Body.noConfusion fun v hv => hp.kept v (Array.mem_toList_iff.mp hv)).after
    fun v w₂ h₂ ⟨a, hv, hb, hk⟩ => ?_
  subst hv
  refine ⟨hk, .code hb hp.values hp.hashed fun i d u x hd hu hx => ?_⟩
  refine (hp.stored i d u x ?_ hu hx).later (hp.kept u (Array.mem_of_getElem? hu)) h₂
  rw [Array.getElem?_toList]
  exact hd
theorem loads_loadConsts {w : World} (hs : w.Sound used) (hr : w.heap.Registered)
    (hcx : cx < w.contexts.size) (ds : Array Const) :
    Loading used w (fun p w' => w'.Stored ds.toList p.1 p.2) ((loadConsts cx ds).run w) := by
  obtain ⟨ds⟩ := ds
  have hnone : w.Stored [] #[] #[] :=
    ⟨rfl, rfl, fun _ _ _ _ hd => (nomatch hd), fun v hv => absurd hv (Array.not_mem_empty v)⟩
  exact loads_loadList hs hr hcx ds hnone
theorem loads_loadList {w : World} (hs : w.Sound used) (hr : w.heap.Registered)
    (hcx : cx < w.contexts.size) (ds : List Const) {done : List Const} {vs : Array Value}
    {hashes : Array UInt32} (h : w.Stored done vs hashes) :
    Loading used w (fun p w' => w'.Stored (done ++ ds) p.1 p.2)
      ((loadList cx ds vs hashes).run w) := by
  cases ds with
  | nil =>
    rw [List.append_nil]
    exact .done (.refl hs hr) h
  | cons d ds =>
    refine (loads_loadConst hs hr hcx d).bind fun p w₁ h₁ ⟨hk, hd⟩ => ?_
    have hrest := loads_loadList h₁.sound h₁.registered (h₁.later.size ▸ hcx) ds (h.push h₁ hd hk)
    rw [List.append_assoc] at hrest
    exact hrest
end

end Act

/-! ## well-formed code -/

namespace Loaded

section

variable (h : Heap) (c : Loaded) (i : Nat)

/-- The constant is the interned string of a name, and its hash is noted. -/
def NameAt : Prop :=
  ∃ (name : Bytes) (a : Addr), c.consts[i]? = some (.obj a) ∧ h.symbols[name]? = some a ∧
    h.body a = .str (.ofName name) ∧ c.hashes[i]? = some (hashBytes name)

def LiteralAt : Prop := ∃ v, c.consts[i]? = some v ∧ (h.constKey? v).isSome = true

def CodeAt : Prop := ∃ v d, c.consts[i]? = some v ∧ h.bodyOf v = .code d

/-- The constant is one that the instruction can be used with. -/
def Offers (op : Op) : Prop :=
  match op with
  | .pushConst => c.LiteralAt h i
  | .func => c.CodeAt h i
  | _ => c.NameAt h i

end

/-- Code whose words decode to instructions with the right constants, whose parameters are names with
literals for defaults, and whose constants are stored once each. -/
structure Formed (h : Heap) (c : Loaded) : Prop where
  small : c.words.size ≤ 65534
  code : ∃ l, Decoded c.words l ∧ ∀ i ∈ l, i.op.takesConst = true → c.Offers h i.arg i.op
  required : ∀ i ∈ c.params, c.NameAt h i
  optional : ∀ p ∈ c.optional, c.NameAt h p.1 ∧ c.LiteralAt h p.2
  rest : ∀ i, c.rest = some i → c.NameAt h i
  once : ∀ {i j : Nat} {u v : Value} {k : Const.Key}, c.consts[i]? = some u →
    c.consts[j]? = some v → h.constKey? u = some k → h.constKey? v = some k → i = j

variable {h : Heap} {c : Loaded} {i : Nat} {d : Const} {v : Value} {x : UInt32}

/-- A constant is loaded as one that the same instructions can be used with. -/
theorem offers_of_accepts {o : Op} (hs : h.Stored d v x) (hv : c.consts[i]? = some v)
    (hx : c.hashes[i]? = some x) (ha : o.accepts d) : c.Offers h i o := by
  have hname (hd : ∃ name, d = .name name) : c.NameAt h i := by
    obtain ⟨name, rfl⟩ := hd
    cases hs with
    | name hsym hb => exact ⟨name, _, hv, hsym, hb, hx⟩
  cases o with
  | pushConst => exact ⟨v, hv, hs.constKey?_eq ▸ ha⟩
  | func =>
    obtain ⟨e, rfl⟩ := ha
    cases hs with
    | code hb => exact ⟨_, _, hv, hb⟩
  | _ => exact hname ha

end Loaded

inductive Heap.Formed (h : Heap) : Value → Prop
  | mk {v : Value} {c : Loaded} (body : h.bodyOf v = .code c) (formed : c.Formed h)
    (inner : ∀ u ∈ c.consts, ∀ d, h.bodyOf u = .code d → Formed h u) : Formed h v

section

variable {h : Heap} {c : Code Const} {consts : Array Value} {hashes : Array UInt32}

/-- The values of a loaded unit are those of its constants, one by one. -/
structure Code.LoadedAs (h : Heap) (c : Code Const) (consts : Array Value) (hashes : Array UInt32) :
    Prop where
  values : consts.size = c.consts.size
  hashed : hashes.size = c.consts.size
  stored : ∀ (i : Nat) d v x, c.consts[i]? = some d → consts[i]? = some v →
    hashes[i]? = some x → h.Stored d v x

theorem Code.LoadedAs.value (hl : c.LoadedAs h consts hashes) {i : Nat} {d : Const}
    (hd : c.consts[i]? = some d) :
    ∃ v x, consts[i]? = some v ∧ hashes[i]? = some x ∧ h.Stored d v x := by
  have hlt := (Array.getElem?_eq_some_iff.mp hd).1
  have hv := Array.getElem?_eq_getElem (hl.values.symm ▸ hlt)
  have hx := Array.getElem?_eq_getElem (hl.hashed.symm ▸ hlt)
  exact ⟨_, _, hv, hx, hl.stored i d _ _ hd hv hx⟩

theorem Code.LoadedAs.const (hl : c.LoadedAs h consts hashes) {i : Nat} {v : Value}
    (hv : consts[i]? = some v) : ∃ d x, c.consts[i]? = some d ∧ h.Stored d v x := by
  have hlt : i < c.consts.size := hl.values ▸ (Array.getElem?_eq_some_iff.mp hv).1
  have hd := Array.getElem?_eq_getElem hlt
  obtain ⟨u, x, hu, -, hs⟩ := hl.value hd
  obtain rfl := Option.some.inj (hv.symm.trans hu)
  exact ⟨_, x, hd, hs⟩

/-- A unit that is assembled from structured code is loaded as well-formed code. -/
theorem Code.Assembled.formed_loaded (ha : c.Assembled) (hl : c.LoadedAs h consts hashes) :
    Loaded.Formed h { c with consts, hashes } := by
  obtain ⟨l, hdecoded, hops⟩ := ha.decoded
  cases ha with
  | mk _ _ small _ _ params once =>
    have hname (i : Nat) (hi : ∃ name, c.consts[i]? = some (.name name)) :
        Loaded.NameAt h { c with consts, hashes } i := by
      obtain ⟨name, hi⟩ := hi
      obtain ⟨v, x, hv, hx, hs⟩ := hl.value hi
      exact Loaded.offers_of_accepts (o := .loadSym) hs hv hx ⟨name, rfl⟩
    refine ⟨small, ⟨l, hdecoded, fun i hi ht => ?_⟩, fun i hi => hname i (params.required i hi),
      fun p hp => ?_, fun i hi => hname i (params.rest i hi), fun {i j u v k} hu hv hku hkv => ?_⟩
    · obtain ⟨d, hd, hacc⟩ := hops i hi ht
      obtain ⟨v, x, hv, hx, hs⟩ := hl.value hd
      exact Loaded.offers_of_accepts hs hv hx hacc
    · obtain ⟨hp₁, t, d, ht, hd⟩ := params.optional p hp
      obtain ⟨v, x, hv, hx, hs⟩ := hl.value hd
      exact ⟨hname p.1 hp₁, Loaded.offers_of_accepts (o := .pushConst) hs hv hx
        (Generate.key?_of_literal? ht)⟩
    · obtain ⟨d, x, hd, hs⟩ := hl.const hu
      obtain ⟨e, y, he, hs'⟩ := hl.const hv
      rw [hs.constKey?_eq] at hku
      rw [hs'.constKey?_eq] at hkv
      exact once hd he (hku ▸ rfl) (hku.trans hkv.symm)

theorem Const.exists_code {d : Const} (h : d.key? = none) : ∃ c, d = .code c := by
  cases d with
  | code c => exact ⟨c, rfl⟩
  | _ => exact nomatch h

theorem Code.Assembled.formed (ha : c.Assembled) {v : Value} {x : UInt32}
    (hs : h.Stored (.code c) v x) : h.Formed v := by
  induction ha generalizing v x with
  | @mk c _ _ _ lowered words small few uses params once lined inner ih =>
    have hassembled : c.Assembled := .mk lowered words small few uses params once lined inner
    cases hs with
    | code hb h1 h2 stored =>
      have hl : c.LoadedAs h _ _ := ⟨h1, h2, stored⟩
      refine .mk hb (hassembled.formed_loaded hl) fun u hu d hd => ?_
      obtain ⟨i, hi⟩ := Array.mem_iff_getElem?.mp hu
      obtain ⟨e, y, he, hs⟩ := hl.const hi
      -- code has no key
      have hkey : h.constKey? u = none := by
        cases u with
        | obj a => rw [Heap.constKey?, show h.body a = .code d from hd]
        | _ => exact nomatch hd
      obtain ⟨e, rfl⟩ := Const.exists_code (hs.constKey?_eq.symm.trans hkey)
      exact ih e (Array.mem_of_getElem? he) hs

end

/-! ## compiling -/

/-- **Every text that compiles gives well-formed code**, in every sound engine whose names are
registered; and the engine stays so. -/
theorem Act.compile_formed {used : CtxId → Prop} {w : World} (hs : w.Sound used)
    (hr : w.heap.Registered) {cx : CtxId} (hcx : cx < w.contexts.size) {src : Bytes} {file : String}
    {firstLine : Nat} {c : Code Const} (hc : ScriptEngine.compile src file firstLine = .ok c) :
    ∃ v w', (Act.compile cx src file firstLine).run w = .ok (.ok v) w' ∧ w'.heap.Formed v ∧
      w'.Sound used ∧ w'.heap.Registered := by
  have hassembled := compile_assembled src file firstLine
  rw [hc] at hassembled
  have hload := loads_load hs hr hcx c
  have hcompile : (Act.compile cx src file firstLine).run w
      = (load cx c >>= fun v => pure (.ok v)).run w := by
    unfold Act.compile
    rw [hc]
  rw [hcompile]
  cases hrun : (load cx c).run w with
  | error e w' =>
    rw [hrun] at hload
    exact nomatch hload
  | ok v w' =>
    rw [hrun] at hload
    cases hload with
    | done hl hv =>
      cases hassembled with
      | ok ha => exact ⟨v, w', run_bind_of_ok hrun, ha.formed hv.2, hl.sound, hl.registered⟩

theorem World.registered_new (options : Options) : (World.new options).heap.Registered := by
  have hs := (Heap.stocked_new options.poolBlock).1
  have hnone : (Heap.new options.poolBlock).Registered := by
    intro name a ha
    rw [show (Heap.new options.poolBlock).symbols = {} from rfl, Std.HashMap.getElem?_empty] at ha
    exact nomatch ha
  have h₁ := hs.intern (Bytes.ofString "me")
  have h₂ := h₁.stocked.intern (Bytes.ofString "arg")
  exact ((hnone.intern hs _).intern h₁.stocked _).intern h₂.stocked _

/-- A function with a default, a loop and calls, compiled by a fresh engine. -/
theorem Act.compile_formed_function :
    ∃ v w', (Act.compile 0 (Bytes.ofString
        "func (a, b = \"t\") \x7b while (a) \x7b a = g.m(b, \"t\"); break; \x7d \x7d") "f" 1).run
        (World.new {}).newContext.2 = .ok (.ok v) w' ∧ w'.heap.Formed v ∧
      w'.Sound (fun _ => False) ∧ w'.heap.Registered := by
  have hlex : lex (Bytes.ofString
      "func (a, b = \"t\") \x7b while (a) \x7b a = g.m(b, \"t\"); break; \x7d \x7d") 1 =
      .ok ([.kFunc, .lpar, .symbol [97], .comma, .symbol [98], .assign, .text [116], .rpar, .lcurl, .kWhile,
        .lpar, .symbol [97], .rpar, .lcurl, .symbol [97], .assign, .symbol [103], .dot, .symbol [109], .lpar,
        .symbol [98], .comma, .text [116], .rpar, .semi, .kBreak, .semi, .rcurl, .rcurl].map (⟨·, 1⟩)) := by
    decide +kernel
  obtain ⟨c, hc⟩ : ∃ c, ScriptEngine.compile (Bytes.ofString
      "func (a, b = \"t\") \x7b while (a) \x7b a = g.m(b, \"t\"); break; \x7d \x7d") "f" 1 = .ok c := by
    unfold ScriptEngine.compile parse
    rw [hlex]
    exact ⟨_, by cbv⟩
  obtain ⟨hs, -, hlt, -⟩ := Act.sound_newContext (World.sound_new {})
  exact compile_formed hs (World.registered_new {}) (Nat.zero_lt_of_lt hlt) hc

end ScriptEngine
