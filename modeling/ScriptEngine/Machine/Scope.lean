import ScriptEngine.Machine.Act

/-!
# Names, members and elements

* `lookupSym`, `setSym`  a name through the locals and the chain of closures of a frame;
* `findMember`  a member of a hash through its parents, within limits of depth and visits;
* `extract`, `insert`, `slice`, `concat`  elements of vectors, strings and hashes.
-/

namespace ScriptEngine

namespace Heap

/-- The value of an interned name in a namespace. -/
def named? (h : Heap) (ns sym : Value) (hash : UInt32) : Option Value :=
  (h.table? ns).bind fun t => h.lookup t sym hash true

/-- The namespaces of a chain of closures, innermost first.  The number bounds the chain. -/
def scopes (h : Heap) : Nat → Value → List Value
  | 0, _ => []
  | n + 1, v =>
    match h.closure? v with
    | some (ns, next) => ns :: scopes h n next
    | none => []

/-- The value of a name in a list of namespaces: that of the first one that defines it. -/
def firstNamed? (h : Heap) (sym : Value) (hash : UInt32) (nss : List Value) : Option Value :=
  nss.findSome? fun ns => h.named? ns sym hash

/-- The namespace an assignment goes to: the first that defines the name, else the locals. -/
def target (h : Heap) (locals sym : Value) (hash : UInt32) (outer : List Value) : Value :=
  ((locals :: outer).find? fun ns => (h.named? ns sym hash).isSome).getD locals

/-- The hash of the name under which a hash lists its parents. -/
def parentsHash : UInt32 := hashBytes (Bytes.ofString "parents")

/-- Goes through objects from the left until one gives an answer; `visits` is what is left to be
looked at. -/
def firstAnswer (f : Value → Nat → Except Cause (Option Value × Nat)) :
    List Value → Nat → Except Cause (Option Value × Nat)
  | [], visits => .ok (none, visits)
  | v :: vs, visits =>
    match f v visits with
    | .ok (none, visits) => firstAnswer f vs visits
    | r => r

/-- The member of an object or of its parents, own members first and parents in order, going down
`depth` levels at most and looking at `visits` objects at most; with it what is left of those. -/
def findMember (h : Heap) (parents sym : Value) (hash : UInt32) (interned : Bool) :
    Nat → Value → Nat → Except Cause (Option Value × Nat)
  | 0, _, visits => .ok (none, visits)
  | depth + 1, obj, visits =>
    if visits = 0 then .ok (none, 0)
    else
      match h.table? obj with
      | none => .ok (none, visits - 1)
      | some t =>
        match h.lookup t sym hash interned with
        | some v => .ok (some v, visits - 1)
        | none =>
          match h.lookup t parents parentsHash true with
          | none => .ok (none, visits - 1)
          | some ps =>
            match h.vec? ps with
            | none => .error .parentsNotVector
            | some items =>
              firstAnswer (findMember h parents sym hash interned depth) items.toList (visits - 1)

/-- A possibly negative index into `len` elements. -/
def indexIn (h : Heap) (key : Value) (len : Nat) (what : String) : Except Cause Nat := do
  let raw ← h.indexOf key
  let i := Numeral.toInt64 raw
  let i := if i < 0 then i + len else i
  if i < 0 || (len : Int) ≤ i then .error (.outOfBounds what raw len) else .ok i.toNat

/-- One bound of a slice: `nil` stands for `default`, a negative number counts from the end. -/
def sliceBound (h : Heap) (v : Value) (len : Nat) (default : Int) : Except Cause Int :=
  if v.isNil then .ok default
  else do
    let i := Numeral.toInt64 (← h.indexOf v)
    .ok (if i < 0 then i + len else i)

/-- The first element of a slice and how many follow it inclusively; `none` for no element. -/
def sliceBounds (h : Heap) (start stop : Value) (len : Nat) : Except Cause (Option (Nat × Nat)) := do
  let a ← h.sliceBound start len 0
  let b ← h.sliceBound stop len ((len : Int) - 1)
  if b < a then .ok none
  else if a < 0 || (len : Int) ≤ b then .error (.sliceOutOfBounds a b len)
  else .ok (some (a.toNat, b.toNat))

/-- An element; a missing key of a hash reads as `nil`.  Keys of hashes are scalars. -/
def element (h : Heap) (box key : Value) : Except Cause Value :=
  match h.bodyOf box with
  | .hash t =>
    if h.isScalar key then
      let (hash, interned) := h.keyHash key
      .ok ((h.lookup t key hash interned).getD .nil)
    else .error .keyNotScalar
  | .vec items => do
    let i ← h.indexIn key items.size "vector"
    .ok (items[i]?.getD .nil)
  | .str s => do
    let i ← h.indexIn key s.bytes.length "string"
    .ok (.ofNat (s.bytes[i]?.getD 0).toNat)
  | _ => .error .extractFromOther

end Heap

namespace Act

/-- A bound for chains of closures: each link is a cell of its own. -/
def chainBound : Act Nat := do return (← heap).cells.size + 1

/-- The value of a name in the innermost frame. -/
def lookupSym (cx : CtxId) (sym : Value) (hash : UInt32) : Act Value := do
  let f ← frame cx
  let n ← chainBound
  let h ← heap
  match h.named? f.locals sym hash with
  | some v => return v
  | none =>
    match h.firstNamed? sym hash (h.scopes n f.closure) with
    | some v => return v
    | none => fail (.undefinedSymbol ((h.bytes? sym).getD []))

/-- Assigns to the innermost namespace that defines the name, else to the locals. -/
def setSym (cx : CtxId) (sym : Value) (hash : UInt32) (v : Value) : Act Unit := do
  let f ← frame cx
  let n ← chainBound
  let ns ← do
    let h ← heap
    if (h.named? f.locals sym hash).isSome then pure f.locals
    else pure (h.target f.locals sym hash (h.scopes n f.closure))
  setHashed ns sym hash true v

/-- A member of a hash or of its parents. -/
def hashMember (obj sym : Value) (hash : UInt32) (interned : Bool) : Act (Option Value) := do
  let w ← get
  let r := w.heap.findMember (.obj w.symParents) sym hash interned
    (w.options.maxParentsDepth + 1) obj w.options.maxParentsVisits
  match r with
  | .ok (v, _) => return v
  | .error c => fail c

/-- `box[key]`. -/
def extract (box key : Value) : Act Value := do
  let h ← heap
  if h.isKind box .hash && h.isScalar key then discard <| hashKey key
  read fun h => h.element box key

/-- `box[key] = v`. -/
def insert (box key v : Value) : Act Unit := do
  let h ← heap
  match box, h.bodyOf box with
  | _, .hash _ => if h.isScalar key then hashSet box key v else fail .keyNotScalar
  | _, .vec items =>
    let i ← ofExcept (h.indexIn key items.size "vector")
    discard <| vecSet box i v
  | .obj a, .str s =>
    let b ← ofExcept (h.byteOf v)
    let i ← ofExcept (h.indexIn key s.bytes.length "string")
    match s.setByte i b with
    | .ok s => modifyHeap fun h => h.modify a fun _ => .str s
    | .error why => fail (.unchangeable why)
  | _, _ => fail .insertIntoOther

/-- `box[start:stop]`, both ends included. -/
def slice (cx : CtxId) (box start stop : Value) : Act Value := do
  let h ← heap
  match h.bodyOf box with
  | .vec items =>
    match ← ofExcept (h.sliceBounds start stop items.size) with
    | some (a, b) => newVec cx (items.extract a (b + 1))
    | none => newVec cx #[]
  | .str s =>
    match ← ofExcept (h.sliceBounds start stop s.bytes.length) with
    | some (a, b) => newStr cx ((s.bytes.take (b + 1)).drop a)
    | none => newStr cx []
  | _ => fail .sliceOfOther

/-- `a ~ b`: two vectors or two texts. -/
def concat (cx : CtxId) (a b : Value) : Act Value := do
  let h ← heap
  match h.vec? a, h.vec? b with
  | some xs, some ys => newVec cx (xs ++ ys)
  | _, _ =>
    let s ← ofExcept (h.textOf a)
    let t ← ofExcept (h.textOf b)
    newStr cx (s ++ t)

end Act

end ScriptEngine
