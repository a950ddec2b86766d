import ScriptEngine.Proofs.Heap.Keys
import ScriptEngine.Proofs.Table.Entries

/-!
# A table is an association list

What can be seen of a table through its operations is what can be seen of a list of pairs in the
order of insertion whose keys are compared with `Heap.keysEqual`.

* `Pairs.get`, `Pairs.put`, `Pairs.remove`   the operations on such a list;
* `TableOp`          the operations on a table, with the hash of a key as `Heap.keyHash` gives it;
* `History`          the tables and lists that the same operations lead to, from none at all;
* `Agrees`           the invariant: a list and a table with the same entries;
* `History.answer_eq`   every operation answers alike on both.

Between two operations the heap may change in any way that leaves the keys in the table as they
are.
-/

namespace ScriptEngine

/-- An association list in the order of insertion. -/
abbrev Pairs := List (Value × Value)

namespace Pairs

def get (eq : Value → Value → Bool) (key : Value) : Pairs → Option Value
  | [] => none
  | (k, v) :: l => if eq k key then some v else get eq key l

def put (eq : Value → Value → Bool) (key val : Value) : Pairs → Pairs
  | [] => [(key, val)]
  | (k, v) :: l => if eq k key then (k, val) :: l else (k, v) :: put eq key val l

def remove (eq : Value → Value → Bool) (key : Value) : Pairs → Pairs
  | [] => []
  | (k, v) :: l => if eq k key then l else (k, v) :: remove eq key l

section

variable {eq : Value → Value → Bool} {key : Value}

def Lacks (eq : Value → Value → Bool) (key : Value) (l : Pairs) : Prop :=
  ∀ p ∈ l, eq p.1 key = false

theorem get_append {a : Pairs} (ha : a.Lacks eq key) (b : Pairs) :
    get eq key (a ++ b) = get eq key b := by
  induction a with
  | nil => rfl
  | cons p a ih =>
    rw [List.cons_append, get, ha p List.mem_cons_self]
    exact ih fun q hq => ha q (List.mem_cons_of_mem p hq)

theorem put_append {a : Pairs} (ha : a.Lacks eq key) (val : Value) (b : Pairs) :
    put eq key val (a ++ b) = a ++ put eq key val b := by
  induction a with
  | nil => rfl
  | cons p a ih =>
    rw [List.cons_append, put, ha p List.mem_cons_self, List.cons_append,
      ← ih fun q hq => ha q (List.mem_cons_of_mem p hq)]
    rfl

theorem remove_append {a : Pairs} (ha : a.Lacks eq key) (b : Pairs) :
    remove eq key (a ++ b) = a ++ remove eq key b := by
  induction a with
  | nil => rfl
  | cons p a ih =>
    rw [List.cons_append, remove, ha p List.mem_cons_self, List.cons_append,
      ← ih fun q hq => ha q (List.mem_cons_of_mem p hq)]
    rfl

variable {k : Value}

theorem get_hit (hk : eq k key = true) (v : Value) (b : Pairs) :
    get eq key ((k, v) :: b) = some v := by
  rw [get, if_pos hk]

theorem put_hit (hk : eq k key = true) (v val : Value) (b : Pairs) :
    put eq key val ((k, v) :: b) = (k, val) :: b := by
  rw [put, if_pos hk]

theorem remove_hit (hk : eq k key = true) (v : Value) (b : Pairs) :
    remove eq key ((k, v) :: b) = b := by
  rw [remove, if_pos hk]

theorem put_of_lacks {l : Pairs} (hl : l.Lacks eq key) (val : Value) :
    l.put eq key val = l ++ [(key, val)] := by
  conv_lhs => rw [← List.append_nil l]
  exact put_append hl val []

theorem get_of_lacks {l : Pairs} (hl : l.Lacks eq key) : l.get eq key = none := by
  rw [← List.append_nil l]
  exact get_append hl []

theorem remove_of_lacks {l : Pairs} (hl : l.Lacks eq key) : l.remove eq key = l := by
  conv_lhs => rw [← List.append_nil l]
  exact (remove_append hl []).trans (List.append_nil l)

/-- A pair stays, but for the value if it is put under the same key. -/
theorem mem_put (eq : Value → Value → Bool) (key : Value) {l : Pairs} {v : Value} (h : (k, v) ∈ l)
    (val : Value) :
    (k, v) ∈ l.put eq key val ∨ eq k key = true ∧ (k, val) ∈ l.put eq key val := by
  induction l with
  | nil => exact nomatch h
  | cons p l ih =>
    rw [put]
    rcases List.mem_cons.mp h with rfl | h
    · split
      · rename_i hk
        exact .inr ⟨hk, List.mem_cons_self⟩
      · exact .inl List.mem_cons_self
    · split
      · exact .inl (List.mem_cons_of_mem _ h)
      · exact (ih h).imp (List.mem_cons_of_mem _) fun h => ⟨h.1, List.mem_cons_of_mem _ h.2⟩

theorem mem_remove (eq : Value → Value → Bool) (key : Value) {l : Pairs} {v : Value}
    (h : (k, v) ∈ l) :
    (k, v) ∈ l.remove eq key ∨ eq k key = true := by
  induction l with
  | nil => exact nomatch h
  | cons p l ih =>
    rw [remove]
    rcases List.mem_cons.mp h with rfl | h
    · split
      · rename_i hk
        exact .inr hk
      · exact .inl List.mem_cons_self
    · split
      · exact .inl h
      · exact (ih h).imp_left (List.mem_cons_of_mem _)

end

end Pairs

/-! ## the operations -/

/-- An operation on a table.  The `hashed` ones are given the hash of the key, the others take
it. -/
inductive TableOp where
  | set (key val : Value)
  | setHashed (key val : Value)
  | delete (key : Value)
  | get (key : Value)
  | getHashed (key : Value)
  | contains (key : Value)
  | len
  | keys
  | iter
  deriving DecidableEq

/-- What an operation gives back. -/
inductive Answer where
  | none
  | value (v : Option Value)
  | flag (b : Bool)
  | count (n : Nat)
  | values (vs : List Value)
  | pairs (l : Pairs)
  deriving DecidableEq

def Entry.pair (e : Entry Value Value) : Value × Value := (e.key, e.val)

namespace TableOp

def setWith (h : Heap) (x : UInt32 × Bool) (t : Table Value Value) (key val : Value) :
    Table Value Value :=
  (t.set ⟨x.1, x.2, key, val⟩ (h.sameKey key x.2)).1

def eraseWith (h : Heap) (x : UInt32 × Bool) (t : Table Value Value) (key : Value) :
    Option Value × Table Value Value :=
  let (t, old, _) := t.erase x.1 (h.sameKey key x.2)
  (old, t)

/-- An operation on a table: the answer, the table, and the heap, in which taking the hash of a
string freezes it. -/
def run (h : Heap) (t : Table Value Value) : TableOp → Answer × Table Value Value × Heap
  | set key val =>
    let (x, h) := h.hashKey key
    (.none, setWith h x t key val, h)
  | setHashed key val => (.none, setWith h (h.keyHash key) t key val, h)
  | delete key =>
    let (x, h) := h.hashKey key
    let (old, t) := eraseWith h x t key
    (.value old, t, h)
  | get key =>
    let (x, h) := h.hashKey key
    (.value (h.lookup t key x.1 x.2), t, h)
  | getHashed key =>
    let x := h.keyHash key
    (.value (h.lookup t key x.1 x.2), t, h)
  | contains key =>
    let (x, h) := h.hashKey key
    (.flag (h.lookup t key x.1 x.2).isSome, t, h)
  | len => (.count t.size, t, h)
  | keys => (.values (t.entries.map (·.key)), t, h)
  | iter => (.pairs (t.entries.map Entry.pair), t, h)

def onPairs (h : Heap) (l : Pairs) : TableOp → Answer × Pairs
  | set key val => (.none, l.put h.keysEqual key val)
  | setHashed key val => (.none, l.put h.keysEqual key val)
  | delete key => (.value (l.get h.keysEqual key), l.remove h.keysEqual key)
  | get key => (.value (l.get h.keysEqual key), l)
  | getHashed key => (.value (l.get h.keysEqual key), l)
  | contains key => (.flag (l.get h.keysEqual key).isSome, l)
  | len => (.count l.length, l)
  | keys => (.values (l.map (·.1)), l)
  | iter => (.pairs l, l)

end TableOp

/-- A table and an association list after the same operations, and the heap by then. -/
inductive History : Heap → Table Value Value → Pairs → Prop
  | start {h} (hk : h.Keyed) : History h .empty []
  | act {h t l} (before : History h t l) (op : TableOp) :
    History (op.run h t).2.2 (op.run h t).2.1 (op.onPairs h l).2
  /-- The heap changes, but the keys in the table do not. -/
  | change {h t l h'} (before : History h t l) (hk : h'.Keyed)
    (same : ∀ p ∈ l, h.Alike h' p.1) : History h' t l

/-! ## the invariant -/

/-- A table has the pairs of a list, stored under the hashes of their keys, and no two of them have
the same key. -/
structure Agrees (h : Heap) (t : Table Value Value) (l : Pairs) : Prop where
  keyed : h.Keyed
  valid : t.Valid
  pairs : t.entries.map Entry.pair = l
  hashed : ∀ e ∈ t.entries, (e.hash, e.interned) = h.keyHash e.key
  distinct : (l.map (·.1)).Pairwise fun k k' => h.keysEqual k k' = false

namespace Agrees

open Store (hit)

variable {h : Heap} {t : Table Value Value} {l : Pairs}

theorem start (hk : h.Keyed) : Agrees h .empty [] where
  keyed := hk
  valid := Table.valid_empty
  pairs := rfl
  hashed e he := by simp [Table.entries, Table.empty] at he
  distinct := List.Pairwise.nil

theorem change {h' : Heap} (ag : Agrees h t l) (hk : h'.Keyed)
    (same : ∀ p ∈ l, h.Alike h' p.1) : Agrees h' t l where
  keyed := hk
  valid := ag.valid
  pairs := ag.pairs
  hashed e he := by
    have hp : e.pair ∈ l := ag.pairs ▸ List.mem_map_of_mem he
    exact (ag.hashed e he).trans ((same _ hp).keyHash ag.keyed hk).symm
  distinct := by
    refine ag.distinct.imp_of_mem fun {k k'} hm hm' e => ?_
    obtain ⟨p, hp, rfl⟩ := List.mem_map.mp hm
    obtain ⟨p', hp', rfl⟩ := List.mem_map.mp hm'
    rw [(same p hp).keysEqual (same p' hp')]
    exact e

theorem freeze (ag : Agrees h t l) (key : Value) : Agrees (h.freeze key) t l :=
  ag.change (ag.keyed.freeze key) fun p _ => h.alike_freeze key p.1

/-- The entries that a table looks for under a key are those with the same key. -/
theorem hit_eq (ag : Agrees h t l) (key : Value) {e : Entry Value Value} (he : e ∈ t.entries) :
    hit (h.keyHash key).1 (h.sameKey key (h.keyHash key).2) e = h.keysEqual e.key key := by
  obtain ⟨hx, hi⟩ := Prod.ext_iff.mp (ag.hashed e he)
  rw [hit, ag.keyed.sameKey_eq key e hi]
  cases hke : h.keysEqual e.key key with
  | false => exact Bool.and_false _
  | true =>
    rw [Bool.and_true, beq_iff_eq]
    exact hx.trans (ag.keyed.keyHash_eq hke)

theorem lacks (ag : Agrees h t l) {key : Value}
    (hno : ∀ e ∈ t.entries, hit (h.keyHash key).1 (h.sameKey key (h.keyHash key).2) e = false) :
    l.Lacks h.keysEqual key := by
  intro p hp
  rw [← ag.pairs] at hp
  obtain ⟨e, he, rfl⟩ := List.mem_map.mp hp
  exact (ag.hit_eq key he).symm.trans (hno e he)

/-- Where an entry with the key is, there is none before it. -/
theorem found (ag : Agrees h t l) {key : Value} {a b : List (Entry Value Value)}
    {x : Entry Value Value} (hent : t.entries = a ++ x :: b)
    (hx : hit (h.keyHash key).1 (h.sameKey key (h.keyHash key).2) x = true) :
    h.keysEqual x.key key = true ∧ Pairs.Lacks h.keysEqual key (a.map Entry.pair) ∧
      l = a.map Entry.pair ++ x.pair :: b.map Entry.pair := by
  have hmem : x ∈ t.entries := by
    rw [hent]
    exact List.mem_append_right _ List.mem_cons_self
  have hkey : h.keysEqual x.key key = true := (ag.hit_eq key hmem).symm.trans hx
  have hl : l = a.map Entry.pair ++ x.pair :: b.map Entry.pair := by
    rw [← ag.pairs, hent, List.map_append, List.map_cons]
  refine ⟨hkey, fun p hp => ?_, hl⟩
  -- two keys equal to the given one would be equal to each other
  have hd := ag.distinct
  rw [hl, List.map_append, List.pairwise_append] at hd
  have hpx : h.keysEqual p.1 x.key = false :=
    hd.2.2 p.1 (List.mem_map_of_mem hp) x.key List.mem_cons_self
  rw [Bool.eq_false_iff] at hpx ⊢
  exact fun e => hpx (Heap.keysEqual_trans e (Heap.keysEqual_symm hkey))

theorem lookup_eq (ag : Agrees h t l) (key : Value) :
    h.lookup t key (h.keyHash key).1 (h.keyHash key).2 = l.get h.keysEqual key := by
  rw [Heap.lookup]
  rcases Table.find?_cases ag.valid (h.keyHash key).1 (h.sameKey key (h.keyHash key).2) with
    ⟨hno, e⟩ | ⟨a, x, b, hent, hx, e⟩
  · rw [e, Pairs.get_of_lacks (ag.lacks hno)]
  · obtain ⟨hkey, ha, hl⟩ := ag.found hent hx
    rw [e, hl, Pairs.get_append ha]
    exact (Pairs.get_hit hkey _ _).symm

theorem set (ag : Agrees h t l) (key val : Value) :
    Agrees h (TableOp.setWith h (h.keyHash key) t key val) (l.put h.keysEqual key val) := by
  obtain ⟨hv, ⟨hno, e⟩ | ⟨a, x, b, hent, hx, e⟩⟩ := Table.set_cases ag.valid
    ⟨(h.keyHash key).1, (h.keyHash key).2, key, val⟩ (h.sameKey key (h.keyHash key).2)
  · have hlacks := ag.lacks hno
    rw [Pairs.put_of_lacks hlacks]
    refine ⟨ag.keyed, hv, ?_, ?_, ?_⟩
    · rw [TableOp.setWith, e, List.map_append, ag.pairs]
      rfl
    · intro en hen
      rw [TableOp.setWith, e, List.mem_append, List.mem_singleton] at hen
      rcases hen with hen | rfl
      · exact ag.hashed en hen
      · rfl
    · rw [List.map_append, List.pairwise_append]
      refine ⟨ag.distinct, List.pairwise_singleton _ _, ?_⟩
      rintro k hk k' hk'
      obtain ⟨p, hp, rfl⟩ := List.mem_map.mp hk
      obtain rfl : k' = key := by simpa using hk'
      exact hlacks p hp
  · obtain ⟨hkey, ha, hl⟩ := ag.found hent hx
    have hput : l.put h.keysEqual key val = a.map Entry.pair ++ (x.key, val) :: b.map Entry.pair := by
      rw [hl, Pairs.put_append ha]
      exact congrArg _ (Pairs.put_hit hkey _ _ _)
    have hkeys : (l.put h.keysEqual key val).map (·.1) = l.map (·.1) := by
      rw [hput, hl]
      simp only [List.map_append, List.map_cons, Entry.pair]
    refine ⟨ag.keyed, hv, ?_, ?_, hkeys ▸ ag.distinct⟩
    · rw [TableOp.setWith, e, hput, List.map_append, List.map_cons]
      rfl
    · intro en hen
      rw [TableOp.setWith, e, List.mem_append, List.mem_cons] at hen
      rcases hen with hen | rfl | hen
      · exact ag.hashed en (hent ▸ List.mem_append_left _ hen)
      · exact ag.hashed x (hent ▸ List.mem_append_right _ List.mem_cons_self)
      · exact ag.hashed en (hent ▸ List.mem_append_right _ (List.mem_cons_of_mem _ hen))

theorem erase (ag : Agrees h t l) (key : Value) :
    (TableOp.eraseWith h (h.keyHash key) t key).1 = l.get h.keysEqual key ∧
      Agrees h (TableOp.eraseWith h (h.keyHash key) t key).2 (l.remove h.keysEqual key) := by
  obtain ⟨hv, ⟨hno, e, hold⟩ | ⟨a, x, b, hent, hx, e, hold⟩⟩ :=
    Table.erase_cases ag.valid (h.keyHash key).1 (h.sameKey key (h.keyHash key).2)
  · have hlacks := ag.lacks hno
    rw [Pairs.remove_of_lacks hlacks, Pairs.get_of_lacks hlacks]
    refine ⟨hold, ag.keyed, hv, ?_, ?_, ag.distinct⟩
    · exact (congrArg (List.map Entry.pair) e).trans ag.pairs
    · intro en hen
      exact ag.hashed en (e ▸ hen)
  · obtain ⟨hkey, ha, hl⟩ := ag.found hent hx
    have hremove : l.remove h.keysEqual key = a.map Entry.pair ++ b.map Entry.pair := by
      rw [hl, Pairs.remove_append ha]
      exact congrArg _ (Pairs.remove_hit hkey _ _)
    have hget : l.get h.keysEqual key = some x.val := by
      rw [hl, Pairs.get_append ha]
      exact Pairs.get_hit hkey _ _
    have hsub : (l.remove h.keysEqual key).Sublist l := by
      rw [hremove, hl]
      exact (List.sublist_cons_self _ _).append_left _
    rw [hget]
    refine ⟨hold, ag.keyed, hv, ?_, ?_, ag.distinct.sublist (hsub.map _)⟩
    · rw [hremove, ← List.map_append]
      exact congrArg (List.map Entry.pair) e
    · intro en hen
      have hen' : en ∈ a ++ b := e ▸ hen
      refine ag.hashed en ?_
      rw [hent]
      rcases List.mem_append.mp hen' with hm | hm
      · exact List.mem_append_left _ hm
      · exact List.mem_append_right _ (List.mem_cons_of_mem _ hm)

/-- A key that has been removed is not there. -/
theorem remove_lacks (ag : Agrees h t l) (key : Value) :
    (l.remove h.keysEqual key).Lacks h.keysEqual key := by
  have hd := ag.distinct
  clear ag
  induction l with
  | nil => exact fun p hp => nomatch hp
  | cons p l ih =>
    obtain ⟨hp, hd⟩ := List.pairwise_cons.mp hd
    rw [Pairs.remove]
    split
    · rename_i hkey
      intro q hq
      have hpq := hp q.1 (List.mem_map_of_mem hq)
      rw [Bool.eq_false_iff] at hpq ⊢
      exact fun e => hpq (Heap.keysEqual_trans hkey (Heap.keysEqual_symm e))
    · rename_i hkey
      intro q hq
      rcases List.mem_cons.mp hq with rfl | hq
      · exact Bool.eq_false_iff.mpr hkey
      · exact ih hd q hq

/-- **One operation**: the same answer, and again a table and a list that agree. -/
theorem step (ag : Agrees h t l) (op : TableOp) :
    (op.run h t).1 = (op.onPairs h l).1 ∧
      Agrees (op.run h t).2.2 (op.run h t).2.1 (op.onPairs h l).2 := by
  -- an operation that takes the hash of its key works in a heap with that key frozen
  have frozen (key : Value) : Agrees (h.freeze key) t l ∧
      (h.freeze key).keyHash key = h.keyHash key ∧ (h.freeze key).keysEqual = h.keysEqual :=
    ⟨ag.freeze key, (h.alike_freeze key key).keyHash ag.keyed (ag.keyed.freeze key),
      funext₂ fun k k' => (h.alike_freeze key k).keysEqual (h.alike_freeze key k')⟩
  cases op with
  | set key val =>
    obtain ⟨agf, hx, he⟩ := frozen key
    have := agf.set key val
    rw [hx, he] at this
    exact ⟨rfl, this⟩
  | setHashed key val => exact ⟨rfl, ag.set key val⟩
  | delete key =>
    obtain ⟨agf, hx, he⟩ := frozen key
    have := agf.erase key
    rw [hx, he] at this
    exact ⟨congrArg Answer.value this.1, this.2⟩
  | get key =>
    obtain ⟨agf, hx, he⟩ := frozen key
    have := agf.lookup_eq key
    rw [hx, he] at this
    exact ⟨congrArg Answer.value this, agf⟩
  | getHashed key => exact ⟨congrArg Answer.value (ag.lookup_eq key), ag⟩
  | contains key =>
    obtain ⟨agf, hx, he⟩ := frozen key
    have := agf.lookup_eq key
    rw [hx, he] at this
    exact ⟨congrArg (fun v : Option Value => Answer.flag v.isSome) this, agf⟩
  | len =>
    refine ⟨congrArg Answer.count ?_, ag⟩
    rw [Table.size_eq ag.valid, ← ag.pairs, List.length_map]
  | keys =>
    refine ⟨congrArg Answer.values ?_, ag⟩
    rw [← ag.pairs, List.map_map]
    rfl
  | iter => exact ⟨congrArg Answer.pairs ag.pairs, ag⟩

end Agrees

theorem History.agrees {h : Heap} {t : Table Value Value} {l : Pairs} (hist : History h t l) :
    Agrees h t l := by
  induction hist with
  | start hk => exact .start hk
  | act _ op ih => exact (ih.step op).2
  | change _ hk same ih => exact ih.change hk same

/-- **A table is an association list**: after any operations, interleaved with any changes of the
heap that leave the keys alone, every operation answers as it does on the list of pairs.  In that
list a key that is removed and set again goes to the end. -/
theorem History.answer_eq {h : Heap} {t : Table Value Value} {l : Pairs} (hist : History h t l) :
    (∀ op : TableOp, (op.run h t).1 = (op.onPairs h l).1) ∧
      ∀ key val, (l.remove h.keysEqual key).put h.keysEqual key val
        = l.remove h.keysEqual key ++ [(key, val)] :=
  ⟨fun op => (hist.agrees.step op).1,
    fun key val => Pairs.put_of_lacks (hist.agrees.remove_lacks key) val⟩

/-- The name `a` and another string with the same bytes. -/
def twoStrings : Heap where
  cells := #[.str (.ofName [97]), .str (.ofBytes [97])]
  pools := Vector.replicate 8 { blockSize := 1 }

theorem keyed_twoStrings : twoStrings.Keyed := by
  have h0 : twoStrings.body 0 = .str (.ofName [97]) := rfl
  have h1 : twoStrings.body 1 = .str (.ofBytes [97]) := rfl
  have h2 (a : Addr) : twoStrings.body (a + 2) = .free := rfl
  constructor
  · intro a s hs
    match a with
    | 0 => exact Body.str.inj (h0.symm.trans hs) ▸ Str.honest_ofName _
    | 1 => exact Body.str.inj (h1.symm.trans hs) ▸ Str.honest_ofBytes _
    | a + 2 => exact Body.noConfusion ((h2 a).symm.trans hs)
  · intro a b s t hs ht is it _
    match a, b with
    | 0, 0 => rfl
    | 1, 1 => rfl
    | 0, 1 =>
      obtain rfl := Body.str.inj (h1.symm.trans ht)
      exact Bool.noConfusion it
    | 1, 0 =>
      obtain rfl := Body.str.inj (h1.symm.trans hs)
      exact Bool.noConfusion is
    | a + 2, _ => exact Body.noConfusion ((h2 a).symm.trans hs)
    | _, b + 2 => exact Body.noConfusion ((h2 b).symm.trans ht)

/-- What is set under the name is found under the other string, once that has been frozen. -/
theorem answer_eq_twoStrings :
    let (_, t, h) := (TableOp.set (.obj 0) .nil).run twoStrings .empty
    ((TableOp.get (.obj 1)).run h t).1 = .value (some .nil) :=
  (History.answer_eq (.act (.start keyed_twoStrings) (.set (.obj 0) .nil))).1 (.get (.obj 1))

end ScriptEngine
