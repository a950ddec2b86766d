/-!
# Hash tables that keep the order of insertion

Entries are appended to a dense array; an index array of twice its capacity maps hash slots to
places in it.  Deleting leaves a gap in both until the storage is rebuilt.  A table does not know
how keys compare: the caller brings the hash of a key and a test of the entries with that hash.

* `Table.find?`    the value under a key;
* `Table.set`      overwrites in place or appends; tells whether the storage was rebuilt;
* `Table.erase`    removes an entry; tells whether the storage was rebuilt;
* `Table.entries`  the live entries in order.
-/

namespace ScriptEngine

/-- A key and its value, with the key's hash and whether the key is an interned name. -/
structure Entry (κ ν : Type) where
  hash : UInt32
  interned : Bool
  key : κ
  val : ν

inductive Slot where
  /-- Never used. -/
  | empty
  /-- Once used. -/
  | gap
  /-- The place of an entry, below the capacity of the storage; so it is a signed number of 32 bits for all
  capacities up to `2 ^ 31`. -/
  | place (i : Nat)
  deriving DecidableEq, Repr, Inhabited

/-- Backing storage for up to `2 ^ lg` entries. -/
structure Store (κ ν : Type) where
  lg : Nat
  places : Array (Option (Entry κ ν))
  index : Array Slot
  size : Nat

namespace Store

variable {κ ν : Type}

def minLg : Nat := 2

/-- Storage without entries. -/
def new (lg : Nat) : Store κ ν :=
  { lg, places := #[], index := Array.replicate (2 * Nat.pow 2 lg) .empty, size := 0 }

def capacity (s : Store κ ν) : Nat := Nat.pow 2 s.lg

/-- The first slot to look at for a hash: its leading bits. -/
def start (s : Store κ ν) (hash : UInt32) : Nat := hash.toNat / Nat.pow 2 (32 - s.lg)

/-- How far the next slot to look at is; it is odd, so that every slot is looked at. -/
def stride (s : Store κ ν) (hash : UInt32) : Nat := (2 * hash + 1).toNat % s.index.size

def next (s : Store κ ν) (hash : UInt32) (i : Nat) : Nat :=
  (i + s.stride hash) % s.index.size

/-- Follows the slots from `i` on to an entry with this hash that passes the test: its slot and its
place.  The number bounds the slots looked at. -/
def probe (s : Store κ ν) (hash : UInt32) (same : Entry κ ν → Bool) :
    Nat → Nat → Option (Nat × Nat)
  | 0, _ => none
  | n + 1, i =>
    match s.index[i]?.getD .empty with
    | .empty => none
    | .gap => probe s hash same n (s.next hash i)
    | .place e =>
      match s.places[e]?.join with
      | some ent =>
        if ent.hash == hash && same ent then some (i, e)
        else probe s hash same n (s.next hash i)
      | none => probe s hash same n (s.next hash i)

/-- The slot and the place of an entry. -/
def find? (s : Store κ ν) (hash : UInt32) (same : Entry κ ν → Bool) : Option (Nat × Nat) :=
  s.probe hash same s.index.size (s.start hash)

/-- The first slot from `i` on that holds no place.  The number bounds the slots looked at. -/
def vacant (s : Store κ ν) (hash : UInt32) : Nat → Nat → Nat
  | 0, i => i
  | n + 1, i =>
    match s.index[i]?.getD .empty with
    | .place _ => vacant s hash n (s.next hash i)
    | _ => i

@[noinline]
def setSlot (index : Array Slot) (i e : Nat) : Array Slot := index.setIfInBounds i (.place e)

/-- Appends an entry whose key is not there yet. -/
def append (s : Store κ ν) (ent : Entry κ ν) : Store κ ν :=
  let i := s.vacant ent.hash s.index.size (s.start ent.hash)
  let index := setSlot s.index i s.places.size
  { s with index, places := s.places.push (some ent), size := s.size + 1 }

/-- Whether the storage is too large for the given number of entries. -/
def isSparseFor (s : Store κ ν) (size : Nat) : Bool :=
  minLg < s.lg && size < s.capacity / 4

def without (s : Store κ ν) (i e : Nat) : Store κ ν :=
  { s with
    index := s.index.setIfInBounds i .gap
    places := s.places.setIfInBounds e none
    size := s.size - 1 }

/-- The least `lg` from the given one on with `need ≤ 2 ^ lg`.  The number bounds the search. -/
def fitting (need : Nat) : Nat → Nat → Nat
  | 0, lg => lg
  | n + 1, lg => if need ≤ Nat.pow 2 lg then lg else fitting need n (lg + 1)

/-- The live entries in order. -/
def live (s : Store κ ν) : List (Entry κ ν) := s.places.toList.filterMap id

/-- The live entries in fresh storage that `count` entries fill at most by half. -/
def rebuild (s : Store κ ν) (count : Nat) : Store κ ν :=
  s.live.foldl append (new (fitting (2 * count) (2 * count) minLg))

end Store

/-- A table: no storage before the first entry. -/
structure Table (κ ν : Type) where
  store : Option (Store κ ν)

namespace Table

variable {κ ν : Type}

def empty : Table κ ν := ⟨none⟩

instance : Inhabited (Table κ ν) := ⟨empty⟩

def size (t : Table κ ν) : Nat := (t.store.map (·.size)).getD 0

def capacity (t : Table κ ν) : Nat := (t.store.map (·.capacity)).getD 0

def entries (t : Table κ ν) : List (Entry κ ν) := (t.store.map (·.live)).getD []

/-- The slot and the place of the entry with this hash that passes the test. -/
def locate (t : Table κ ν) (hash : UInt32) (same : Entry κ ν → Bool) : Option (Nat × Nat) :=
  t.store.bind fun s => s.find? hash same

def valueAt (t : Table κ ν) (e : Nat) : Option ν :=
  t.store.bind fun s => s.places[e]?.join.map (·.val)

def find? (t : Table κ ν) (hash : UInt32) (same : Entry κ ν → Bool) : Option ν :=
  (t.locate hash same).bind fun (_, e) => t.valueAt e

/-- Whether another entry needs fresh storage. -/
def isFull (t : Table κ ν) : Bool :=
  match t.store with
  | some s => s.capacity ≤ s.places.size
  | none => false

def putAt (t : Table κ ν) (e : Nat) (v : ν) : Table κ ν :=
  ⟨t.store.map fun s =>
    { s with places := s.places.modify e (·.map fun old => { old with val := v }) }⟩

/-- Appends an entry whose key is not there yet, in fresh storage if need be. -/
def append (t : Table κ ν) (ent : Entry κ ν) : Table κ ν :=
  match t.store with
  | none => ⟨some ((Store.new Store.minLg).append ent)⟩
  | some s =>
    if s.capacity ≤ s.places.size then ⟨some ((s.rebuild (s.size + 1)).append ent)⟩
    else ⟨some (s.append ent)⟩

/-- Stores an entry whose key was located: over the value there, else as the last one. -/
def put (t : Table κ ν) (found : Option (Nat × Nat)) (ent : Entry κ ν) : Table κ ν :=
  match found with
  | some (_, e) => t.putAt e ent.val
  | none => t.append ent

/-- Stores an entry: over the value of an entry that passes the test, else as the last one.  The
flag tells whether storage was retired. -/
def set (t : Table κ ν) (ent : Entry κ ν) (same : Entry κ ν → Bool) : Table κ ν × Bool :=
  let found := t.locate ent.hash same
  (t.put found ent, found.isNone && t.isFull)

/-- Whether removing an entry replaces the storage. -/
def isSparse (t : Table κ ν) : Bool :=
  match t.store with
  | some s => s.isSparseFor (s.size - 1)
  | none => false

/-- Removes the entry at a slot and a place; sparse storage is replaced. -/
def eraseAt (t : Table κ ν) (i e : Nat) : Table κ ν :=
  match t.store with
  | none => t
  | some s =>
    let s := s.without i e
    if s.isSparseFor s.size then ⟨some (s.rebuild s.size)⟩ else ⟨some s⟩

/-- Removes what was located, if anything was. -/
def drop (t : Table κ ν) : Option (Nat × Nat) → Table κ ν
  | some (i, e) => t.eraseAt i e
  | none => t

/-- Removes the entry that passes the test: its value, and whether storage was retired. -/
def erase (t : Table κ ν) (hash : UInt32) (same : Entry κ ν → Bool) :
    Table κ ν × Option ν × Bool :=
  let found := t.locate hash same
  (t.drop found, found.bind fun (_, e) => t.valueAt e, found.isSome && t.isSparse)

end Table

end ScriptEngine
