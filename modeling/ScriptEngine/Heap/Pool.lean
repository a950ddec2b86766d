import Std.Data.HashMap
import ScriptEngine.Value

/-!
# Cells and pools

Every cell belongs to the pool of one type of object.  A pool lists the cells it owns, block after
block, and its free cells; free cells are handed out from the end of that list.

* `Heap.take`, `Heap.takeOrGrow`  hand out free cells;
* `Heap.install`                  puts an object into a free cell;
* `Heap.intern`                   the one string of a name;
* `Heap.reap`                     reclaims the unmarked cells of a pool.
-/

namespace ScriptEngine

/-- One value per type of object. -/
abbrev PerKind (α : Type) := Vector α 8

namespace PerKind

variable {α : Type}

def of (v : PerKind α) (k : Kind) : α := v[k.idx]

def modify (v : PerKind α) (k : Kind) (f : α → α) : PerKind α :=
  ⟨v.toArray.modify k.idx f, by simp⟩

@[simp] theorem of_modify_self (v : PerKind α) (k : Kind) (f : α → α) :
    (v.modify k f).of k = f (v.of k) := by
  simp [of, modify, Vector.getElem_mk, Array.getElem_modify]

theorem of_modify_of_ne (v : PerKind α) {k j : Kind} (f : α → α) (h : k ≠ j) :
    (v.modify k f).of j = v.of j := by
  have : (k.idx : Nat) ≠ j.idx := fun e => h (Kind.idx_injective (Fin.ext e))
  simp [of, modify, Vector.getElem_mk, Array.getElem_modify, this]

end PerKind

/-- The cells of one type of object. -/
structure Pool where
  /-- Least size of a block. -/
  blockSize : Nat
  /-- All cells, in the order of their blocks. -/
  owned : Array Addr := #[]
  /-- The free cells that are in no context's cache. -/
  free : Array Addr := #[]
  deriving Repr, Inhabited

/-- What the host is told about when it has been collected. -/
inductive Release where
  | ghost (g : Ghost)
  | data (n : Native)
  deriving Repr, DecidableEq

/-- The cells of an engine. -/
structure Heap where
  cells : Array Body := #[]
  /-- Which cells have been marked; none between two collections. -/
  marks : Array Bool := #[]
  pools : PerKind Pool
  /-- The cell of each interned name. -/
  symbols : Std.HashMap Bytes Addr := {}
  /-- What has been collected and the host was told about, oldest first. -/
  released : Array Release := #[]

namespace Heap

def body (h : Heap) (a : Addr) : Body := h.cells[a]?.getD .free

/-- What the cell of a value holds; `free` for values without one. -/
def bodyOf (h : Heap) : Value → Body
  | .obj a => h.body a
  | _ => .free

def pool (h : Heap) (k : Kind) : Pool := h.pools.of k

def modifyPool (h : Heap) (k : Kind) (f : Pool → Pool) : Heap :=
  { h with pools := h.pools.modify k f }

def addBlock (h : Heap) (k : Kind) (n : Nat) : Heap :=
  let base := h.cells.size
  let block := (Array.range n).map (base + ·)
  { h with
    cells := h.cells ++ Array.replicate n .free
    marks := h.marks ++ Array.replicate n false
    pools := h.pools.modify k fun p =>
      { p with owned := p.owned ++ block, free := p.free ++ block } }

/-- A heap with one block in each pool. -/
def new (poolBlock : Nat) : Heap :=
  let size := max poolBlock 1
  let h : Heap := { pools := Vector.replicate 8 { blockSize := size } }
  Kind.all.foldl (fun h k => h.addBlock k size) h

def take (h : Heap) (k : Kind) (n : Nat) : Array Addr × Heap :=
  let free := (h.pool k).free
  let keep := free.size - n
  (free.extract keep free.size, h.modifyPool k fun p => { p with free := p.free.take keep })

def takeOrGrow (h : Heap) (k : Kind) : Addr × Heap :=
  let p := h.pool k
  let h := if p.free.isEmpty then h.addBlock k (max p.blockSize (p.owned.size / 8)) else h
  ((h.pool k).free.back?.getD 0, h.modifyPool k fun p => { p with free := p.free.pop })

def install (h : Heap) (a : Addr) (b : Body) : Heap :=
  { h with cells := h.cells.setIfInBounds a b, marks := h.marks.setIfInBounds a false }

def modify (h : Heap) (a : Addr) (f : Body → Body) : Heap :=
  { h with cells := h.cells.modify a f }

def intern (h : Heap) (name : Bytes) : Addr × Heap :=
  match h.symbols[name]? with
  | some a => (a, h)
  | none =>
    let (a, h) := h.takeOrGrow .str
    let h := h.install a (.str (Str.ofName name))
    (a, { h with symbols := h.symbols.insert name a })

/-! ## Sweeping -/

/-- What the host is told when an object is collected. -/
def release? : Body → Option Release
  | .ghost g => if g.type.cleanup then some (.ghost g) else none
  | .native n => if n.cleanup then some (.data n) else none
  | _ => none

/-- A sweep under way. -/
structure Sweep where
  cells : Array Body
  marks : Array Bool
  free : Array Addr := #[]
  released : Array Release
  reclaimed : Nat := 0
  live : Nat := 0

/-- Sweeps one cell: a marked object stays and loses its mark, any other becomes free. -/
def Sweep.visit (s : Sweep) (a : Addr) : Sweep :=
  let b := s.cells[a]?.getD .free
  if b.isFree then { s with free := s.free.push a }
  else if s.marks[a]?.getD false then
    { s with marks := s.marks.setIfInBounds a false, live := s.live + 1 }
  else
    { s with
      cells := s.cells.setIfInBounds a .free
      free := s.free.push a
      released := match release? b with
        | some r => s.released.push r
        | none => s.released
      reclaimed := s.reclaimed + 1 }

/-- Sweeps a pool and rebuilds its free list in the order of its cells; a pool that is nearly full
gets another block.  Gives the number of objects reclaimed and kept. -/
def reap (h : Heap) (k : Kind) : Heap × Nat × Nat :=
  let p := h.pool k
  let total := p.owned.size
  let start : Sweep := { cells := h.cells, marks := h.marks, released := h.released }
  let s := p.owned.foldl Sweep.visit start
  let h := { h with cells := s.cells, marks := s.marks, released := s.released }
  let h := h.modifyPool k fun p => { p with free := s.free }
  let h := if s.free.size < total / 4 then h.addBlock k (max p.blockSize (total / 4)) else h
  (h, s.reclaimed, s.live)

/-- Sweeps all pools: the heap, and how many objects were reclaimed and kept. -/
def sweep (h : Heap) : Heap × Nat × Nat :=
  Kind.all.foldl
    (fun (h, reclaimed, live) k =>
      let (h, r, l) := h.reap k
      (h, reclaimed + r, live + l))
    (h, 0, 0)

def total (h : Heap) : Nat := h.pools.foldl (fun n p => n + p.owned.size) 0

/-- The number of cells on the free lists. -/
def freeCount (h : Heap) : Nat := h.pools.foldl (fun n p => n + p.free.size) 0

end Heap

end ScriptEngine
