import ScriptEngine.Proofs.Machine.Slices
import ScriptEngine.Proofs.Machine.Trails

/-!
# Elements

Reading and writing an element go separate ways to the same slot: the place among the elements of a vector
or the bytes of a string that a number or a numeric string stands for, or the entry of a hash whose key is
the same.  What has been written is read back under the key, and all else is as it was; a write that fails
changes nothing.  Only a string that is its own key is another key once it has been changed.

* `Heap.place?`, `Heap.SameSlot`   the slot that a key addresses;
* `Heap.Overwritten`               what one element being overwritten means for every key;
* `Act.Writes`                     a write fails and changes nothing, or overwrites one element;
* `Act.extract_of_insert`          **reading what has been written**, and all else;
* `Act.extract_own_key`            a string that is its own key.
-/

namespace ScriptEngine

/-- What an object shows of itself: a string its bytes, and not whether it may still be changed. -/
def Body.content : Body → Body
  | .str s => .str { s with hash := none }
  | b => b

def Body.count? : Body → Option Nat
  | .hash t => some t.size
  | b => b.length?

/-- The element of a vector or a string at a place, and what those are called. -/
def Body.item : Body → Nat → Value
  | .vec items, i => items[i]?.getD .nil
  | .str s, i => .ofNat (s.bytes[i]?.getD 0).toNat
  | _, _ => .nil

def Body.noun : Body → String
  | .str _ => "string"
  | _ => "vector"

namespace Pairs

theorem length_put (eq : Value → Value → Bool) (key val : Value) (l : Pairs) :
    (l.put eq key val).length = l.length + (l.get eq key).isNone.toNat := by
  induction l with
  | nil => rfl
  | cons p l ih =>
    rw [put, get]
    split
    · rfl
    · rw [List.length_cons, ih, List.length_cons]
      omega

end Pairs

namespace Heap

/-- The place among `n` elements that a key stands for, when it is a finite number or a text of one. -/
def place? (h : Heap) (key : Value) (n : Nat) : Option Int :=
  ((h.toNum? key).bind Numeral.parts?).map (·.place n)

/-- Two keys of a container address the same slot. -/
def SameSlot (h : Heap) (box key key' : Value) : Prop :=
  match h.bodyOf box with
  | .hash _ => h.keysEqual key key' = true
  | b => ∃ n i, b.length? = some n ∧ h.place? key n = some i ∧ h.place? key' n = some i

/-- A key that a hash does not have yet. -/
def isNew (h : Heap) (box key : Value) : Bool :=
  match h.bodyOf box with
  | .hash t => (h.lookup t key (h.keyHash key).1 (h.keyHash key).2).isNone
  | _ => false

/-- What is read back where `v` has been written: a string holds the byte that `v` stands for. -/
def written (h : Heap) (box v : Value) : Except Cause Value :=
  match h.bodyOf box with
  | .str _ => (h.byteOf v).map fun b => .ofNat b.toNat
  | _ => .ok v

/-- A string as a key of itself. -/
def OwnKey (h : Heap) (box key : Value) : Prop := key = box ∧ h.isKind box .str = true

variable {h h' : Heap} {key key' box v : Value} {a : Addr} {n i : Nat} {what : String}
  {t : Table Value Value}

/-! ## places -/

theorem numOf_eq (h : Heap) (v : Value) {x : Float} : h.numOf v = .ok x ↔ h.toNum? v = some x := by
  unfold numOf toNum?
  cases v with
  | num m => simp
  | nil => simp [bytes?, str?, bodyOf]
  | obj a =>
    dsimp only
    cases h.bytes? (.obj a) with
    | none => simp
    | some bs => cases hn : Numeral.numeric? bs <;> simp [hn]
  | done => simp [bytes?, str?, bodyOf]

theorem indexIn_ok : h.indexIn key n what = .ok i ↔ h.place? key n = some (i : Int) ∧ i < n := by
  cases hnum : h.numOf key with
  | error c =>
    have hnone : h.toNum? key = none := by
      cases ht : h.toNum? key with
      | none => rfl
      | some x => rw [(numOf_eq h key).mpr ht] at hnum; cases hnum
    simp [indexIn, indexOf, hnum, place?, hnone, bind, Except.bind]
  | ok x =>
    cases hp : Numeral.parts? x with
    | none =>
      simp [indexIn, indexOf, hnum, place?, (numOf_eq h key).mp hnum, hp, Numeral.isFinite, bind, Except.bind]
    | some p =>
      have hplace := Numeral.place_eq hp n
      simp only [indexIn, indexOf, hnum, place?, (numOf_eq h key).mp hnum, hp, Numeral.isFinite, bind,
        Except.bind, Option.bind, Option.map, Option.isSome, if_true]
      rw [← hplace]
      by_cases hout : p.place n < 0 ∨ (n : Int) ≤ p.place n
      · rw [if_pos (by simpa only [Bool.or_eq_true, decide_eq_true_eq] using hout)]
        refine ⟨fun h => (by cases h), ?_⟩
        rintro ⟨e, hi⟩
        have := Option.some.inj e
        omega
      · rw [if_neg (by simpa only [Bool.or_eq_true, decide_eq_true_eq] using hout)]
        simp only [Except.ok.injEq, Option.some.injEq]
        omega

/-! ## keys that are as they were -/

theorem alike_of_content (ha : (h'.body a).content = (h.body a).content) : h.Alike h' (.obj a) := by
  refine ⟨fun s hs => ?_, fun t ht => ?_⟩
  · rw [hs] at ha
    cases hb : h'.body a with
    | str t =>
      rw [hb] at ha
      have hst := Body.str.inj ha
      exact ⟨t, rfl, (congrArg Str.bytes hst).symm, (congrArg Str.interned hst).symm⟩
    | _ => rw [hb] at ha; exact nomatch ha
  · rw [ht] at ha
    cases hb : h.body a with
    | str s => exact ⟨s, rfl⟩
    | _ => rw [hb] at ha; exact nomatch ha

theorem Alike.bytes?_eq (ha : h.Alike h' v) : h'.bytes? v = h.bytes? v := by
  cases v with
  | obj a =>
    rw [bytes?, bytes?, str?, str?, bodyOf, bodyOf]
    cases hb : h.body a with
    | str s =>
      obtain ⟨t, ht, e, -⟩ := ha.1 s hb
      rw [ht]
      exact congrArg some e.symm
    | _ =>
      cases hb' : h'.body a with
      | str t =>
        obtain ⟨s, hs⟩ := ha.2 t hb'
        cases hb.symm.trans hs
      | _ => rfl
  | _ => rfl

theorem Alike.numOf_eq (ha : h.Alike h' v) : h'.numOf v = h.numOf v := by
  cases v with
  | obj a => simp only [numOf, ha.bytes?_eq]
  | done => simp only [numOf, ha.bytes?_eq]
  | _ => rfl

theorem Alike.indexIn_eq (ha : h.Alike h' v) (n : Nat) (what : String) :
    h'.indexIn v n what = h.indexIn v n what := by
  rw [indexIn, indexIn, indexOf, indexOf, ha.numOf_eq]

theorem Alike.isScalar_eq (ha : h.Alike h' v) : h'.isScalar v = h.isScalar v := by
  have hstr (h : Heap) (v : Value) : h.isKind v .str = (h.bytes? v).isSome := by
    rw [isKind, kindOf?, bytes?, str?]
    cases h.bodyOf v <;> rfl
  cases v with
  | num _ => rfl
  | _ => exact (hstr ..).trans ((congrArg Option.isSome ha.bytes?_eq).trans (hstr ..).symm)

/-- Elsewhere than in one object all shows what it showed, or is gone. -/
def Beside (h h' : Heap) (box : Value) : Prop :=
  ∀ a, box ≠ .obj a → (h'.body a).content = (h.body a).content ∨ h'.body a = .free

theorem Beside.alike (hb : h.Beside h' box) (hkind : (h'.bodyOf box).kind? = (h.bodyOf box).kind?)
    (there : h'.There key) (hown : ¬h.OwnKey box key) : h.Alike h' key := by
  cases key with
  | obj a =>
    by_cases hbox : box = .obj a
    · -- the object is no string, neither before nor after
      subst hbox
      have hnot : ∀ s, h.body a ≠ .str s := fun s hs => hown ⟨rfl, by simp [isKind, kindOf?, bodyOf, hs, Body.kind?]⟩
      refine ⟨fun s hs => absurd hs (hnot s), fun t ht => ?_⟩
      have hstr : (h.body a).kind? = some .str := hkind.symm.trans (congrArg Body.kind? ht)
      exact kind?_str_iff.mp hstr
    · exact alike_of_content ((hb a hbox).resolve_right (there a rfl))
  | _ => trivial

/-- One element of `box` has been overwritten with `v`, and all else is as it was. -/
structure Overwritten (h h' : Heap) (box key v : Value) : Prop where
  self : h.Alike h' key → (∀ x, key = .num x → x.equals x = true) → h'.element box key = h.written box v
  other : ∀ key', h.Alike h' key' → ¬h.SameSlot box key key' → h'.element box key' = h.element box key'
  count : ∀ n, (h.bodyOf box).count? = some n →
    (h'.bodyOf box).count? = some (n + (h.isNew box key).toNat)
  beside : h.Beside h' box
  kind : (h'.bodyOf box).kind? = (h.bodyOf box).kind?

theorem content_modify {b : Addr} (hb : Value.obj a ≠ .obj b) (f : Body → Body) :
    ((h.modify a f).body b).content = (h.body b).content :=
  congrArg Body.content (body_modify_of_ne h (fun e => hb (congrArg Value.obj e)) f)

/-! ## an item of a vector, a byte of a string -/

theorem element_of_length {b : Body} (hb : h.bodyOf box = b) (hn : b.length? = some n) :
    h.element box key = (h.indexIn key n b.noun).map b.item := by
  rw [element, hb]
  cases b with
  | vec items =>
    obtain rfl : items.size = n := Option.some.inj hn
    show (h.indexIn key items.size "vector" >>= _) = (h.indexIn key items.size "vector").map _
    cases h.indexIn key items.size "vector" <;> rfl
  | str s =>
    obtain rfl : s.bytes.length = n := Option.some.inj hn
    show (h.indexIn key s.bytes.length "string" >>= _) = (h.indexIn key s.bytes.length "string").map _
    cases h.indexIn key s.bytes.length "string" <;> rfl
  | _ => exact nomatch hn

theorem overwritten_item {b b' : Body} {f : Body → Body} (hb : h.body a = b) (hf : f b = b')
    (hn : b.length? = some n)
    (hn' : b'.length? = some n) (hkind : b'.kind? = b.kind?) (hi : h.indexIn key n b.noun = .ok i)
    (hself : .ok (b'.item i) = h.written (.obj a) v) (hother : ∀ j, i ≠ j → b'.item j = b.item j) :
    h.Overwritten (h.modify a f) (.obj a) key v := by
  have hbody : h.bodyOf (.obj a) = b := hb
  have hbody' : (h.modify a f).bodyOf (.obj a) = b' := by
    rw [← hf, ← hb]
    refine body_modify_self (lt_size_of_body fun hfree => ?_) _
    rw [← hb, hfree] at hn
    cases hn
  have hnoun : b'.noun = b.noun := by
    cases b <;> cases b' <;> first | rfl | simp [Body.kind?] at hkind
  have hcount {b : Body} (hn : b.length? = some n) : b.count? = some n := by
    cases b <;> first | exact hn | cases hn
  obtain ⟨hplace, hlt⟩ := indexIn_ok.mp hi
  refine ⟨fun hk _ => ?_, fun key' hk hslot => ?_, fun m hm => ?_,
    fun _ hb => .inl (content_modify hb f), ?_⟩
  · rw [element_of_length hbody' hn', hk.indexIn_eq, hnoun, hi, ← hself]
    rfl
  · rw [element_of_length hbody' hn', element_of_length hbody hn, hk.indexIn_eq, hnoun]
    cases hj : h.indexIn key' n b.noun with
    | error c => rfl
    | ok j =>
      refine congrArg Except.ok (hother j ?_)
      rintro rfl
      refine hslot ?_
      rw [SameSlot, hbody]
      split
      · cases hn
      · exact ⟨n, i, hn, hplace, (indexIn_ok.mp hj).1⟩
  · rw [hbody, hcount hn] at hm
    rw [hbody', hcount hn', isNew, hbody, Option.some.inj hm]
    cases b <;> first | rfl | cases hn
  · rw [hbody, hbody', hkind]

theorem overwritten_vec {items : Array Value} (hb : h.body a = .vec items)
    (hi : h.indexIn key items.size "vector" = .ok i) (v : Value) :
    h.Overwritten (h.modify a (onItems (·.setIfInBounds i v))) (.obj a) key v := by
  have hbody : h.bodyOf (.obj a) = .vec items := hb
  have hf : onItems (·.setIfInBounds i v) (.vec items) = .vec (items.setIfInBounds i v) := rfl
  refine overwritten_item hb hf rfl (congrArg some Array.size_setIfInBounds) rfl hi ?_ fun j hj => ?_
  · rw [written, hbody, Body.item, Array.getElem?_setIfInBounds_self_of_lt (indexIn_ok.mp hi).2]
    rfl
  · rw [Body.item, Body.item, Array.getElem?_setIfInBounds_ne hj]

theorem overwritten_str {s : Str} (hb : h.body a = .str s)
    (hi : h.indexIn key s.bytes.length "string" = .ok i) {b : UInt8} (hv : h.byteOf v = .ok b) :
    h.Overwritten (h.modify a fun _ => .str { s with bytes := s.bytes.set i b }) (.obj a) key v := by
  have hbody : h.bodyOf (.obj a) = .str s := hb
  refine overwritten_item hb rfl rfl (congrArg some List.length_set) rfl hi ?_ fun j hj => ?_
  · rw [written, hbody, Body.item, List.getElem?_set_self (indexIn_ok.mp hi).2, hv]
    rfl
  · rw [Body.item, Body.item, List.getElem?_set_ne hj]

/-! ## an entry of a hash -/

theorem Consistent.element_hash (hc : h.Consistent) (hb : h.body a = .hash t) :
    h.element (.obj a) key =
      if h.isScalar key then .ok ((Pairs.get h.keysEqual key (t.entries.map Entry.pair)).getD .nil)
      else .error .keyNotScalar := by
  have hbody : h.bodyOf (.obj a) = .hash t := hb
  rw [element, hbody, ← (hc.files a t hb).agrees.lookup_eq key]

theorem content_freeze (h : Heap) (key : Value) (a : Addr) :
    ((h.freeze key).body a).content = (h.body a).content := by
  rcases body_freeze h key a with e | ⟨s, hs, e⟩
  · rw [e]
  · rw [e, hs]
    rfl

theorem body_freeze_hash (hb : h.body a = .hash t) (key : Value) : (h.freeze key).body a = .hash t := by
  rcases body_freeze h key a with e | ⟨s, hs, -⟩
  · exact e.trans hb
  · exact nomatch hb.symm.trans hs

theorem isScalar_there (hs : h.isScalar key = true) : h.There key := by
  rintro a rfl hfree
  rw [isScalar, isKind, kindOf?, bodyOf, hfree] at hs
  · cases hs
  · rintro _ ⟨⟩

/-- What a hash holds once an entry has been stored under a key whose hash has been taken. -/
theorem Consistent.pairs_freeze_store (hc : h.Consistent) (hb : h.body a = .hash t) (key v : Value) :
    ∃ t', (((h.freeze key).store (.obj a) key (h.keyHash key).1 (h.keyHash key).2 v).2).body a = .hash t' ∧
      t'.entries.map Entry.pair = Pairs.put h.keysEqual key v (t.entries.map Entry.pair) := by
  have hb' := body_freeze_hash hb key
  refine ⟨_, body_store_self hb', ?_⟩
  have hset := (((hc.freeze key).files a t hb').agrees.set key v).pairs
  rw [keyHash_freeze] at hset
  rw [hset]
  congr 1
  exact funext₂ fun x y => (alike_freeze h key x).keysEqual (alike_freeze h key y)

theorem Consistent.overwritten_hash (hc : h.Consistent) (hb : h.body a = .hash t)
    (hs : h.isScalar key = true) {v : Value}
    (hthin : ((h.freeze key).store (.obj a) key (h.keyHash key).1 (h.keyHash key).2 v).2.Thins h')
    (there : h'.There (.obj a)) : h.Overwritten h' (.obj a) key v := by
  have hbody : h.bodyOf (.obj a) = .hash t := hb
  obtain ⟨t', hb₂, hpairs⟩ := hc.pairs_freeze_store hb key v
  have hb' : h'.body a = .hash t' := ((hthin.body a).resolve_right (there a rfl)).trans hb₂
  have hbody' : h'.bodyOf (.obj a) = .hash t' := hb'
  have hc' : h'.Consistent := by
    have hstore := ((hc.freeze key).store (.obj a) (frozen_freeze (isScalar_there hs)) v).1
    rw [keyHash_freeze] at hstore
    exact hstore.thin hthin
  have hkind : (h'.bodyOf (.obj a)).kind? = (h.bodyOf (.obj a)).kind? := by rw [hbody, hbody']; rfl
  have hown (k : Value) : ¬h.OwnKey (.obj a) k := fun hk => by
    rw [OwnKey, isKind, kindOf?, hbody] at hk
    cases hk.2
  have hbeside : h.Beside h' (.obj a) := fun b hne => by
    rcases hthin.body b with e | hfree
    · exact .inl (by rw [e, body_store_of_ne hne, content_freeze])
    · exact .inr hfree
  -- the keys in the table are still there
  have hkeys {k : Value} (hk : h.Alike h' k) : ∀ p ∈ t'.entries.map Entry.pair,
      h'.keysEqual p.1 k = h.keysEqual p.1 k := by
    intro p hp
    obtain ⟨e, he, rfl⟩ := List.mem_map.mp hp
    have hfrozen := (hc'.files a t' hb').frozen e he
    exact (hbeside.alike hkind (fun b hb => (hfrozen b hb).1) (hown _)).keysEqual hk
  have hread {k : Value} (hk : h.Alike h' k) : h'.element (.obj a) k =
      if h.isScalar k then
        .ok ((if h.keysEqual key k then some v else Pairs.get h.keysEqual k (t.entries.map Entry.pair)).getD .nil)
      else .error .keyNotScalar := by
    rw [hc'.element_hash hb', hk.isScalar_eq, Pairs.get_congr (hkeys hk), hpairs, Pairs.get_put]
  refine ⟨fun hk hnum => ?_, fun k hk hslot => ?_, fun n hn => ?_, hbeside, hkind⟩
  · have hself : h.keysEqual key key = true := by
      cases key with
      | num x => exact hnum x rfl
      | obj b => exact keysEqual_obj.mpr (.inl rfl)
      | _ => cases hs
    rw [hread hk, if_pos hs, if_pos hself, written, hbody]
    rfl
  · rw [SameSlot, hbody] at hslot
    rw [hread hk, if_neg hslot, hc.element_hash hb]
  · have hag := (hc.files a t hb).agrees
    have hn : t.size = n := by rw [hbody] at hn; exact Option.some.inj hn
    rw [hbody', Body.count?, isNew, hbody, Table.size_eq (hc'.files a t' hb').agrees.valid]
    dsimp only
    have hlength (t : Table Value Value) : t.entries.length = (t.entries.map Entry.pair).length :=
      (List.length_map Entry.pair).symm
    rw [hag.lookup_eq, ← hn, Table.size_eq hag.valid, hlength t', hpairs, Pairs.length_put, hlength t]

/-- Taking the hash of a key changes no element. -/
theorem Consistent.element_freeze (hc : h.Consistent) (hb : h.body a = .hash t) (key : Value) :
    (h.freeze key).element (.obj a) key = h.element (.obj a) key := by
  have hkeys : (h.freeze key).keysEqual = h.keysEqual :=
    funext₂ fun x y => (alike_freeze h key x).keysEqual (alike_freeze h key y)
  rw [(hc.freeze key).element_hash (body_freeze_hash hb key), hc.element_hash hb, hkeys,
    (alike_freeze h key key).isScalar_eq]

end Heap

namespace Act

variable {w w' : World} {box key v : Value} {n : Nat}

/-- Reading an element gives the element, or fails for the cause for which there is none. -/
theorem outcome_extract (hc : w.heap.Consistent) (box key : Value) :
    outcome (extract box key) w = (w.heap.element box key).mapError fun c => { cause := c } := by
  have hread (w : World) : outcome (read fun h => h.element box key) w =
      (w.heap.element box key).mapError fun c => { cause := c } := by
    rw [outcome, read, run_heap_bind]
    cases w.heap.element box key <;> rfl
  by_cases hhash : (w.heap.isKind box .hash && w.heap.isScalar key) = true
  · obtain ⟨a, t, rfl, ht⟩ := Heap.exists_hash (Bool.and_eq_true_iff.mp hhash).1
    have hkey : (discard (hashKey key) : Act Unit).run w =
      .ok () { w with heap := w.heap.freeze key } := rfl
    rw [outcome, extract, run_heap_bind, if_pos hhash,
      run_bind_of_ok hkey, ← outcome, hread, ← hc.element_freeze ht]
  · rw [outcome, extract, run_heap_bind, if_neg hhash]
    exact hread w

end Act

namespace World

variable {w u w' : World}

/-- What is reached when cells have been freed was reached before. -/
theorem Retired.reaches_before (hr : w.Retired w') {a : Addr} (ha : w'.heap.Reaches w'.liveRoots a) :
    w.heap.Reaches w.liveRoots a := by
  induction ha with
  | root ha => exact .root (hr.roots ▸ ha)
  | @child a b _ ha ih =>
    rcases hr.thins.body b with e | hfree
    · exact .child ih (e ▸ ha)
    · rw [hfree] at ha
      exact nomatch ha

/-- Elsewhere than in `box` all that is reached shows what it showed. -/
def Spared (w w' : World) (box : Value) : Prop :=
  ∀ a, box ≠ .obj a → (w'.heap.body a).content = (w.heap.body a).content ∨
    w'.heap.body a = .free ∧ ¬w'.heap.Reaches w'.liveRoots a

theorem spared_of_retired {box : Value}
    (hsame : ∀ a, box ≠ .obj a → (u.heap.body a).content = (w.heap.body a).content) (hr : u.Retired w') :
    w.Spared w' box := fun a ha => by
  by_cases hreach : w'.heap.Reaches w'.liveRoots a
  · rw [hr.kept a (hr.reaches_before hreach)]
    exact .inl (hsame a ha)
  · exact (hr.thins.body a).imp (fun e => (congrArg Body.content e).trans (hsame a ha)) fun hfree =>
      ⟨hfree, hreach⟩

end World

namespace Act

variable {w w' : World} {box key v : Value} {n : Nat}

/-- What a write does: it fails and changes nothing, or one element is overwritten. -/
def Writes (w : World) (box key v : Value) : Prop :=
  match (insert box key v).run w with
  | .error _ w' => w' = w
  | .ok _ w' => w.Spared w' box ∧ (w'.heap.There box → w.heap.Overwritten w'.heap box key v)

section

variable {a : Addr}

theorem run_discard {α : Type} {x : Act α} {r : α} (hx : x.run w = .ok r w') :
    (discard x : Act Unit).run w = .ok () w' := by
  show EStateM.map _ x w = _
  rw [EStateM.map, show x w = .ok r w' from hx]

theorem run_modifyVec (h : w.heap.isKind (.obj a) .vec = true) (f : Array Value → Array Value) :
    (modifyVec (.obj a) f).run w = .ok true { w with heap := w.heap.modify a (Heap.onItems f) } := by
  rw [modifyVec, run_heap_bind, h]
  rfl

theorem writes_vec {items : Array Value} (hb : w.heap.body a = .vec items) (key v : Value) :
    Writes w (.obj a) key v := by
  have hbody : w.heap.bodyOf (.obj a) = .vec items := hb
  rw [Writes, insert, run_heap_bind, hbody]
  dsimp only
  cases hi : w.heap.indexIn key items.size "vector" with
  | error c => rfl
  | ok i =>
    have hlt := (Heap.indexIn_ok.mp hi).2
    have hset : (vecSet (.obj a) i v).run w =
        .ok true { w with heap := w.heap.modify a (Heap.onItems (·.setIfInBounds i v)) } := by
      have hvec : w.heap.vec? (.obj a) = some items := by rw [Heap.vec?, hbody]
      have hkind : w.heap.isKind (.obj a) .vec = true := by
        rw [Heap.isKind, Heap.kindOf?, hbody]
        rfl
      rw [vecSet, run_heap_bind, hvec]
      dsimp only
      rw [if_pos hlt]
      exact run_modifyVec hkind _
    rw [run_bind_of_ok (show (ofExcept (.ok i) : Act Nat).run w = .ok i w from rfl)]
    rw [run_discard hset]
    exact ⟨fun _ hne => .inl (Heap.content_modify hne _), fun _ => Heap.overwritten_vec hb hi v⟩

theorem writes_str {s : Str} (hb : w.heap.body a = .str s) (key v : Value) :
    Writes w (.obj a) key v := by
  have hbody : w.heap.bodyOf (.obj a) = .str s := hb
  rw [Writes, insert, run_heap_bind, hbody]
  dsimp only
  cases hv : w.heap.byteOf v with
  | error c => rfl
  | ok b =>
    cases hi : w.heap.indexIn key s.bytes.length "string" with
    | error c => rfl
    | ok i =>
      rw [run_bind_of_ok (show (ofExcept (.ok b) : Act UInt8).run w = .ok b w from rfl),
        run_bind_of_ok (show (ofExcept (.ok i) : Act Nat).run w = .ok i w from rfl)]
      cases hset : s.setByte i b with
      | error why => rfl
      | ok s' =>
        have hs' : s' = { s with bytes := s.bytes.set i b } := by
          rw [Str.setByte] at hset
          split at hset
          · cases hset
          · split at hset
            · exact (Except.ok.inj hset).symm
            · cases hset
        subst hs'
        exact ⟨fun _ hne => .inl (Heap.content_modify hne _), fun _ => Heap.overwritten_str hb hi hv⟩

theorem writes_hash (hc : w.Consistent) {t : Table Value Value} (hb : w.heap.body a = .hash t)
    (key v : Value) : Writes w (.obj a) key v := by
  have hbody : w.heap.bodyOf (.obj a) = .hash t := hb
  rw [Writes, insert, run_heap_bind, hbody]
  dsimp only
  by_cases hs : w.heap.isScalar key = true
  · have hkind : (w.heap.freeze key).isKind (.obj a) .hash = true := by
      rw [Heap.isKind, Heap.kindOf?, Heap.bodyOf, Heap.body_freeze_hash hb]
      rfl
    have hkey : (hashKey key).run w =
      .ok (w.heap.keyHash key) { w with heap := w.heap.freeze key } := rfl
    rw [if_pos hs, hashSet, run_bind_of_ok hkey]
    dsimp only
    rw [run_setHashed (w := { w with heap := w.heap.freeze key }) hkind v]
    dsimp only
    generalize hu : ({ w with heap := ((w.heap.freeze key).store (.obj a) key (w.heap.keyHash key).1
      (w.heap.keyHash key).2 v).2 } : World) = u
    have hplaced : u.Placed := by
      rw [← hu]
      exact (hc.placed.reshaped (Heap.reshaped_freeze w.heap key)).reshaped (Heap.reshaped_store ..)
    have hsame (b : Addr) (hne : .obj a ≠ Value.obj b) : (u.heap.body b).content = (w.heap.body b).content := by
      rw [← hu, Heap.body_store_of_ne hne, Heap.content_freeze]
    have hretired (w' : World) (hr : u.Retired w') : w.Spared w' (.obj a) ∧
        (w'.heap.There (.obj a) → w.heap.Overwritten w'.heap (.obj a) key v) :=
      ⟨World.spared_of_retired hsame hr, fun there =>
        hc.heap.overwritten_hash hb hs (by rw [← hu] at hr; exact hr.thins) there⟩
    split
    · exact hretired _ hplaced.retired_retire
    · exact hretired _ (World.Same.retired (by constructor <;> rfl))
  · rw [if_neg hs]
    rfl

end

theorem writes (hc : w.Consistent) (hn : (w.heap.bodyOf box).count? = some n) (key v : Value) :
    Writes w box key v := by
  cases box with
  | obj a =>
    have hbody : w.heap.bodyOf (.obj a) = w.heap.body a := rfl
    cases hb : w.heap.body a with
    | hash t => exact writes_hash hc hb key v
    | vec items => exact writes_vec hb key v
    | str s => exact writes_str hb key v
    | _ => rw [hbody, hb] at hn; exact nomatch hn
  | _ => exact nomatch hn

/-- **Reading what has been written.**  A write that fails changes nothing.  After one that does not, the
same key reads what has been written, unless it is `NaN`; each key of another slot reads what it read or
fails as it did; there is one entry more if a hash did not have the key; and all other objects that are
reached show what they showed.  Only a string that is written to is as a key not what it was. -/
theorem extract_of_insert (hc : w.Consistent) (hn : (w.heap.bodyOf box).count? = some n) (key v : Value) :
    match (insert box key v).run w with
    | .error _ w' => w' = w
    | .ok _ w' => w.Spared w' box ∧
        (w'.heap.There box →
          (w'.heap.There key → ¬w.heap.OwnKey box key → (∀ x, key = .num x → x.equals x = true) →
            outcome (extract box key) w' =
              (w.heap.written box v).mapError fun c => { cause := c }) ∧
          (∀ key', w'.heap.There key' → ¬w.heap.OwnKey box key' → ¬w.heap.SameSlot box key key' →
            outcome (extract box key') w' = outcome (extract box key') w) ∧
          (w'.heap.bodyOf box).count? = some (n + (w.heap.isNew box key).toNat)) := by
  have hwrites := writes hc hn key v
  have halong := ((plain_insert box key v).traced w hc).along
  rw [Writes] at hwrites
  generalize (insert box key v).run w = r at hwrites halong
  cases r with
  | error _ w' => exact hwrites
  | ok _ w' =>
    obtain ⟨hspared, hover⟩ := hwrites
    refine ⟨hspared, fun there => ?_⟩
    have hc' : w'.heap.Consistent := (halong.consistent hc).heap
    have hover := hover there
    have halike {k : Value} (hk : w'.heap.There k) (hown : ¬w.heap.OwnKey box k) : w.heap.Alike w'.heap k :=
      hover.beside.alike hover.kind hk hown
    refine ⟨fun hkey hown hnum => ?_, fun k hk hown hslot => ?_, hover.count n hn⟩
    · rw [outcome_extract hc', hover.self (halike hkey hown) hnum]
    · rw [outcome_extract hc', outcome_extract hc.heap, hover.other k (halike hk hown) hslot]

end Act

namespace Sample

def zeroText : Value × World := blank.alloc 0 .str (.str (.ofBytes [48]))

end Sample

namespace Act

open Sample in
/-- With the byte 49 written to the place that it stands for the text "0" is "1", which is no place of it: what
has been written is not read back. -/
theorem extract_own_key : ∃ w', (insert zeroText.1 zeroText.1 (.ofNat 49)).run zeroText.2 = .ok () w' ∧
    zeroText.2.heap.written zeroText.1 (.ofNat 49) = .ok (.ofNat 49) ∧
    outcome (extract zeroText.1 zeroText.1) w' = .error { cause := .outOfBounds "string" 1 1 } := by
  have hok : outcome (insert zeroText.1 zeroText.1 (.ofNat 49)) zeroText.2 = .ok () := by decide +kernel
  have hwritten : zeroText.2.heap.written zeroText.1 (.ofNat 49) = .ok (.ofNat 49) := by decide +kernel
  have hread : outcome (extract zeroText.1 zeroText.1)
      (World.after ((insert zeroText.1 zeroText.1 (.ofNat 49)).run zeroText.2)) =
      .error { cause := .outOfBounds "string" 1 1 } := by decide +kernel
  obtain ⟨w', hins⟩ := run_of_outcome hok
  rw [hins] at hread
  exact ⟨w', hins, hwritten, hread⟩

open Sample in
/-- The middle one of three elements is overwritten, under a key that counts from the end. -/
theorem extract_of_insert_middle : three.2.Consistent ∧
    (three.2.heap.bodyOf three.1).count? = some 3 ∧
    ∃ w', (insert three.1 (.num minusTwo) .nil).run three.2 = .ok () w' ∧
      outcome (extract three.1 (.num minusTwo)) w' = .ok .nil ∧
      outcome (extract three.1 (.num two)) w' = outcome (extract three.1 (.num two)) three.2 ∧
      (w'.heap.bodyOf three.1).count? = some 3 := by
  have hc : three.2.Consistent := (World.via_alloc consistent_blank 0 (k := .vec) (b := .vec threeItems) rfl
    fun _ _ => trivial).consistent consistent_blank
  have hn : (three.2.heap.bodyOf three.1).count? = some 3 := by rw [bodyOf_three]; rfl
  have hins := extract_of_insert hc hn (.num minusTwo) .nil
  have hok : outcome (insert three.1 (.num minusTwo) .nil) three.2 = .ok () := by decide +kernel
  have hkind : (World.after ((insert three.1 (.num minusTwo) .nil).run three.2)).heap.kindOf? three.1 = some .vec := by
    decide +kernel
  have hown (x : Number) : ¬three.2.heap.OwnKey three.1 (.num x) := fun h => by
    rw [Heap.OwnKey, Heap.isKind, Heap.kindOf?, bodyOf_three] at h
    cases h.2
  have hslot : ¬three.2.heap.SameSlot three.1 (.num minusTwo) (.num two) := by
    rw [Heap.SameSlot, bodyOf_three]
    rintro ⟨n, i, hlen, hi, hj⟩
    obtain rfl : 3 = n := Option.some.inj hlen
    have hi' : three.2.heap.place? (.num minusTwo) 3 = some 1 := by decide +kernel
    have hj' : three.2.heap.place? (.num two) 3 = some 2 := by decide +kernel
    exact absurd ((hi'.symm.trans hi).trans (hj.symm.trans hj')) (by decide)
  have hwritten : three.2.heap.written three.1 .nil = .ok .nil := by
    rw [Heap.written, bodyOf_three]
  have hnew : three.2.heap.isNew three.1 (.num minusTwo) = false := by
    rw [Heap.isNew, bodyOf_three]
  obtain ⟨w', hr⟩ := run_of_outcome hok
  rw [hr] at hins hkind
  have there : w'.heap.There three.1 := fun a ha hfree => by
    have hvec : w'.heap.kindOf? three.1 = some .vec := hkind
    rw [Heap.kindOf?, ha, Heap.bodyOf, hfree] at hvec
    cases hvec
  have hnum (x : Number) : w'.heap.There (.num x) := fun _ e => Value.noConfusion e
  obtain ⟨hself, hother, hcount⟩ := hins.2 there
  refine ⟨hc, hn, w', hr, ?_, hother _ (hnum two) (hown two) hslot, ?_⟩
  · rw [hself (hnum minusTwo) (hown minusTwo) (fun x hx => by rw [← Value.num.inj hx]; decide +kernel), hwritten]
    rfl
  · rw [hcount, hnew]
    rfl

end Act

end ScriptEngine
