import ScriptEngine.Natives.Scalars
import ScriptEngine.Proofs.Machine.Naming

/-!
# Slices

Both bounds of a slice are numbers of any size: they are cut to integers of 64 bits, and negative ones
count from the end.  What lies between them, both ends included, is copied into a fresh object.

* `Numeral.Parts.place`, `Value.bound?`    a bound as an integer;
* `Body.part`       some of the elements of a vector, or of the bytes of a string;
* `Act.slice_part`  **what a slice is**: nothing, a part, or an error, and how the natives that take parts
  give the same.
-/

namespace ScriptEngine

def Numeral.minInt64 : Int := -0x8000000000000000
def Numeral.maxInt64 : Int := 0x7fffffffffffffff

/-- The place among `n` elements that a finite number stands for: its integer part cut to 64 bits, with `n`
added when it is negative. -/
def Numeral.Parts.place (n : Nat) (p : Parts) : Int :=
  let i := max minInt64 (min maxInt64 p.truncated)
  if i < 0 then i + n else i

/-- A bound in `n` elements: `nil` stands for `default`, a finite number for a place. -/
def Value.bound? (n : Nat) (default : Int) : Value → Option Int
  | .nil => some default
  | .num x => (Numeral.parts? x.toFloat).map (·.place n)
  | _ => none

namespace Body

def length? : Body → Option Nat
  | .vec items => some items.size
  | .str s => some s.bytes.length
  | _ => none

/-- A fresh vector or string of `k` elements, from place `a` on. -/
def part (a k : Nat) : Body → Body
  | .vec items => .vec ((items.toList.drop a).take k).toArray
  | .str s => .str (.ofBytes ((s.bytes.drop a).take k))
  | b => b

def taker : Body → CtxId → Value → Array Value → Act Value
  | .str _ => Natives.substr
  | _ => Natives.subvec

theorem length?_part {b : Body} {n a k : Nat} (hn : b.length? = some n) (hk : a + k ≤ n) :
    (b.part a k).length? = some k := by
  cases b with
  | vec items =>
    obtain rfl : items.size = n := Option.some.inj hn
    simp only [part, length?, List.size_toArray, List.length_take, List.length_drop, Array.length_toList]
    congr 1
    omega
  | str s =>
    obtain rfl : s.bytes.length = n := Option.some.inj hn
    simp only [part, length?, Str.ofBytes, List.length_take, List.length_drop]
    congr 1
    omega
  | _ => exact nomatch hn

end Body

section

variable {h : Heap} {n : Nat} {d a b : Int} {v start stop : Value}

/-- The place that a finite number stands for, in the terms in which it is computed. -/
theorem Numeral.place_eq {x : Float} {p : Parts} (hp : parts? x = some p) (n : Nat) :
    p.place n = if toInt64 x < 0 then toInt64 x + n else toInt64 x := by
  rw [toInt64, clamped, hp]
  rfl

theorem Value.bound?_num {x : Number} (hx : (Value.num x).bound? n d = some a) :
    Numeral.isFinite x.toFloat = true ∧
      a = if Numeral.toInt64 x.toFloat < 0 then Numeral.toInt64 x.toFloat + n
        else Numeral.toInt64 x.toFloat := by
  obtain ⟨p, hp, rfl⟩ := Option.map_eq_some_iff.mp hx
  exact ⟨by rw [Numeral.isFinite, hp]; rfl, Numeral.place_eq hp n⟩

theorem Heap.indexOf_num {x : Number} (hx : Numeral.isFinite x.toFloat = true) :
    h.indexOf (.num x) = .ok x.toFloat := by
  show (if Numeral.isFinite x.toFloat = true then _ else _) = _
  rw [if_pos hx]

theorem Heap.sliceBound_eq (hv : v.bound? n d = some a) : h.sliceBound v n d = .ok a := by
  cases v with
  | nil => rw [← Option.some.inj hv]; rfl
  | num x =>
    obtain ⟨hfin, ha⟩ := Value.bound?_num hv
    rw [Heap.sliceBound, if_neg (by simp [Value.isNil]), Heap.indexOf_num hfin, ha]
    rfl
  | obj _ => exact nomatch hv
  | done => exact nomatch hv

theorem Heap.sliceBounds_eq (hstart : start.bound? n 0 = some a) (hstop : stop.bound? n (n - 1) = some b) :
    h.sliceBounds start stop n =
      if b < a then .ok none
      else if a < 0 ∨ n ≤ b then .error (.sliceOutOfBounds a b n)
      else .ok (some (a.toNat, b.toNat)) := by
  rw [Heap.sliceBounds, Heap.sliceBound_eq hstart, Heap.sliceBound_eq hstop]
  show (if b < a then _ else if (decide (a < 0) || decide ((n : Int) ≤ b)) = true then _ else _) = _
  simp only [Bool.or_eq_true, decide_eq_true_eq]

/-- Counting from the end of fewer than `2 ^ 63` elements stays within 64 bits. -/
theorem Value.bound?_inRange (hn : (n : Int) ≤ Numeral.maxInt64)
    (hd : Numeral.minInt64 ≤ d ∧ d ≤ Numeral.maxInt64) (hv : v.bound? n d = some a) :
    Numeral.minInt64 ≤ a ∧ a ≤ Numeral.maxInt64 := by
  unfold Numeral.minInt64 Numeral.maxInt64 at *
  cases v with
  | nil => exact Option.some.inj hv ▸ hd
  | num x =>
    obtain ⟨p, -, ha⟩ := Option.map_eq_some_iff.mp hv
    rw [Numeral.Parts.place] at ha
    unfold Numeral.minInt64 Numeral.maxInt64 at ha
    split at ha <;> omega
  | obj _ => exact nomatch hv
  | done => exact nomatch hv

end

namespace World

variable {w : World}

/-- A new object is what it was made of. -/
theorem Placed.bodyOf_alloc (hp : w.Placed) (cx : CtxId) {k : Kind} {b : Body} (hb : b.kind? = some k) :
    (w.alloc cx k b).2.heap.bodyOf (w.alloc cx k b).1 = b := by
  obtain ⟨-, -, heq, -, hbody⟩ := hp.orderly.alloc cx k b hb
  rw [heq] at hbody ⊢
  exact hbody

end World

namespace Act

variable {w : World} {n : Nat} {a b : Int} {box start stop : Value} {cx : CtxId}

theorem part_vec (items : Array Value) (i k : Nat) :
    Body.part i k (.vec items) = .vec (items.extract i (i + k)) := by
  have hlist : (items.extract i (i + k)).toList = (items.toList.drop i).take k := by
    rw [Array.toList_extract, List.extract_eq_take_drop, Nat.add_sub_cancel_left]
  rw [Body.part, ← hlist]

theorem part_str (s : Str) (i k : Nat) :
    Body.part i k (.str s) = .str (.ofBytes ((s.bytes.take (i + k)).drop i)) := by
  rw [Body.part, List.drop_take, Nat.add_sub_cancel_left]

/-- The activity gives an object that holds `b`. -/
def Makes (x : Act Value) (w : World) (b : Body) : Prop :=
  ∃ r w', x.run w = .ok r w' ∧ w'.heap.bodyOf r = b

theorem Makes.after {α : Type} {x : Act α} {f : α → Act Value} {r : α} {body : Body}
    (hx : x.run w = .ok r w) (h : Makes (f r) w body) : Makes (x >>= f) w body := by
  rwa [Makes, run_bind_of_ok hx]

theorem makes_newVec (hp : w.Placed) (items : Array Value) : Makes (newVec cx items) w (.vec items) :=
  ⟨_, _, rfl, hp.bodyOf_alloc cx rfl⟩

theorem makes_newStr (hp : w.Placed) (bs : Bytes) : Makes (newStr cx bs) w (.str (.ofBytes bs)) :=
  ⟨_, _, rfl, hp.bodyOf_alloc cx rfl⟩

theorem makes_slice_none (hp : w.Placed) (cx : CtxId) (hn : (w.heap.bodyOf box).length? = some n)
    (hr : w.heap.sliceBounds start stop n = .ok none) :
    Makes (slice cx box start stop) w ((w.heap.bodyOf box).part 0 0) := by
  refine .after (r := w.heap) rfl ?_
  cases hbody : w.heap.bodyOf box with
  | vec items =>
    rw [hbody] at hn
    obtain rfl : items.size = n := Option.some.inj hn
    dsimp only
    rw [hr]
    exact .after (r := none) rfl (makes_newVec hp #[])
  | str s =>
    rw [hbody] at hn
    obtain rfl : s.bytes.length = n := Option.some.inj hn
    dsimp only
    rw [hr]
    exact .after (r := none) rfl (makes_newStr hp [])
  | _ => rw [hbody] at hn; exact nomatch hn

theorem makes_slice_some (hp : w.Placed) (cx : CtxId) (hn : (w.heap.bodyOf box).length? = some n)
    {i j k : Nat} (hr : w.heap.sliceBounds start stop n = .ok (some (i, j))) (hk : i + k = j + 1) :
    Makes (slice cx box start stop) w ((w.heap.bodyOf box).part i k) := by
  refine .after (r := w.heap) rfl ?_
  cases hbody : w.heap.bodyOf box with
  | vec items =>
    rw [hbody] at hn
    obtain rfl : items.size = n := Option.some.inj hn
    dsimp only
    rw [hr, part_vec, hk]
    exact .after (r := some (i, j)) rfl (makes_newVec hp _)
  | str s =>
    rw [hbody] at hn
    obtain rfl : s.bytes.length = n := Option.some.inj hn
    dsimp only
    rw [hr, part_str, hk]
    exact .after (r := some (i, j)) rfl (makes_newStr hp _)
  | _ => rw [hbody] at hn; exact nomatch hn

theorem run_slice_refused (cx : CtxId) (hn : (w.heap.bodyOf box).length? = some n) {c : Cause}
    (hr : w.heap.sliceBounds start stop n = .error c) :
    (slice cx box start stop).run w = .error { cause := c } w := by
  rw [slice, run_bind_of_ok (show heap.run w = .ok w.heap w from rfl)]
  cases hbody : w.heap.bodyOf box with
  | vec items =>
    rw [hbody] at hn
    obtain rfl : items.size = n := Option.some.inj hn
    dsimp only
    rw [hr]
    rfl
  | str s =>
    rw [hbody] at hn
    obtain rfl : s.bytes.length = n := Option.some.inj hn
    dsimp only
    rw [hr]
    rfl
  | _ => rw [hbody] at hn; exact nomatch hn

section

variable {start count : Number} {most : Nat}

theorem startIn_eq (h : Heap) (who : String) (hstart : (Value.num start).bound? n 0 = some a) (h0 : 0 ≤ a)
    (hle : a ≤ n) : Natives.startIn h who (.num start) n = .ok a.toNat := by
  obtain ⟨hfin, ha⟩ := Value.bound?_num hstart
  rw [Natives.startIn, Heap.indexOf_num hfin]
  show (if (decide (_ < (0 : Int)) || decide ((n : Int) < _)) = true then _ else Except.ok _) = _
  rw [← ha, if_neg (by simp only [Bool.or_eq_true, decide_eq_true_eq]; omega)]

theorem countIn_eq (h : Heap) (hle : Numeral.toCount count.toFloat ≤ most) :
    Natives.countIn h (.num count) most = .ok (Numeral.toCount count.toFloat) := by
  show Except.ok (min (Numeral.toCount count.toFloat) most) = _
  rw [Nat.min_eq_left hle]

/-- The natives that take a part, given its first place and its length. -/
theorem run_taker (hp : w.Placed) (cx : CtxId) (me : Value) (hn : (w.heap.bodyOf box).length? = some n)
    (hstart : (Value.num start).bound? n 0 = some a) (h0 : 0 ≤ a)
    (hle : a.toNat + Numeral.toCount count.toFloat ≤ n) :
    Makes ((w.heap.bodyOf box).taker cx me #[box, .num start, .num count]) w
      ((w.heap.bodyOf box).part a.toNat (Numeral.toCount count.toFloat)) := by
  have hheap : heap.run w = .ok w.heap w := rfl
  cases hbody : w.heap.bodyOf box with
  | vec items =>
    rw [hbody] at hn
    obtain rfl : items.size = n := Option.some.inj hn
    have hvec : w.heap.vec? box = some items := by rw [Heap.vec?, hbody]
    refine .after hheap ?_
    rw [show argument #[box, .num start, .num count] 0 = box from rfl, hvec]
    dsimp only
    rw [show argument #[box, .num start, .num count] 1 = .num start from rfl,
      startIn_eq w.heap "subvec" hstart h0 (by omega)]
    refine .after (r := a.toNat) rfl ?_
    rw [show argument #[box, .num start, .num count] 2 = .num count from rfl,
      countIn_eq w.heap (by omega), part_vec]
    exact .after (r := Numeral.toCount count.toFloat) rfl (makes_newVec hp _)
  | str s =>
    rw [hbody] at hn
    obtain rfl : s.bytes.length = n := Option.some.inj hn
    have hbytes : w.heap.toBytes? box = some s.bytes := by
      cases box with
      | num _ => cases hbody
      | _ => rw [Heap.toBytes?, Heap.bytes?, Heap.str?, hbody]; rfl; try rintro _ ⟨⟩
    refine .after hheap ?_
    rw [show argument #[box, .num start, .num count] 0 = box from rfl, hbytes]
    dsimp only
    rw [show argument #[box, .num start, .num count] 1 = .num start from rfl,
      startIn_eq w.heap "substr" hstart h0 (by omega)]
    refine .after (r := a.toNat) rfl ?_
    rw [show argument #[box, .num start, .num count] 2 = .num count from rfl,
      countIn_eq w.heap (by omega)]
    exact .after (r := Numeral.toCount count.toFloat) rfl (makes_newStr hp _)
  | _ => rw [hbody] at hn; cases hn

end

/-- **Slices.**  With bounds `a` and `b` the slice of a vector or of a string is empty when `b < a`; else
both have to be places of elements, and it has the elements from `a` to `b`, as many as lie there.  So does
what `subvec` or `substr` takes, given any numbers that stand for the first place and the length.  The bounds
are integers of 64 bits. -/
theorem slice_part (hp : w.Placed) (cx : CtxId) (hn : (w.heap.bodyOf box).length? = some n)
    (hstart : start.bound? n 0 = some a) (hstop : stop.bound? n (n - 1) = some b) :
    (b < a → Makes (slice cx box start stop) w ((w.heap.bodyOf box).part 0 0)) ∧
    (a ≤ b → a < 0 ∨ n ≤ b →
      (slice cx box start stop).run w = .error { cause := .sliceOutOfBounds a b n } w) ∧
    (0 ≤ a → a ≤ b → b < n →
      Makes (slice cx box start stop) w ((w.heap.bodyOf box).part a.toNat (b - a + 1).toNat) ∧
      ((w.heap.bodyOf box).part a.toNat (b - a + 1).toNat).length? = some (b - a + 1).toNat ∧
      ∀ (me : Value) (first count : Number), (Value.num first).bound? n 0 = some a →
        (Numeral.toCount count.toFloat : Int) = b - a + 1 →
        Makes ((w.heap.bodyOf box).taker cx me #[box, .num first, .num count]) w
          ((w.heap.bodyOf box).part a.toNat (b - a + 1).toNat)) ∧
    ((n : Int) ≤ Numeral.maxInt64 → ∀ i ∈ [a, b, (n : Int) - 1], Numeral.minInt64 ≤ i ∧ i ≤ Numeral.maxInt64) := by
  have hbounds := w.heap.sliceBounds_eq hstart hstop
  refine ⟨fun hlt => ?_, fun hle hout => ?_, fun h0 hle hlt =>
    ⟨?_, Body.length?_part hn (by omega), fun me first count hfirst hcount => ?_⟩, fun hsize => ?_⟩
  · rw [if_pos hlt] at hbounds
    exact makes_slice_none hp cx hn hbounds
  · rw [if_neg (Int.not_lt.mpr hle), if_pos hout] at hbounds
    exact run_slice_refused cx hn hbounds
  · rw [if_neg (Int.not_lt.mpr hle), if_neg (by omega)] at hbounds
    exact makes_slice_some hp cx hn hbounds (by omega)
  · rw [show (b - a + 1).toNat = Numeral.toCount count.toFloat by omega]
    exact run_taker hp cx me hn hfirst h0 (by omega)
  · have hlast : Numeral.minInt64 ≤ (n : Int) - 1 ∧ (n : Int) - 1 ≤ Numeral.maxInt64 := by
      unfold Numeral.minInt64 Numeral.maxInt64 at *
      omega
    have hzero : Numeral.minInt64 ≤ 0 ∧ 0 ≤ Numeral.maxInt64 := by decide
    simp only [List.forall_mem_cons]
    exact ⟨Value.bound?_inRange hsize hzero hstart, Value.bound?_inRange hsize hlast hstop, hlast, nofun⟩

end Act

namespace Sample

def threeItems : Array Value := #[.nil, .ofBool true, .ofBool false]
def three : Value × World := blank.alloc 0 .vec (.vec threeItems)

theorem bodyOf_three : three.2.heap.bodyOf three.1 = .vec threeItems :=
  consistent_blank.placed.bodyOf_alloc 0 rfl

def minusTwo : Number := ⟨0xC000000000000000⟩
def one : Number := ⟨0x3FF0000000000000⟩
def two : Number := ⟨0x4000000000000000⟩

end Sample

namespace Act

open Sample in
/-- The last two of three elements. -/
theorem slice_part_lastTwo :
    three.2.Placed ∧ (three.2.heap.bodyOf three.1).length? = some 3 ∧
      (Value.num minusTwo).bound? 3 0 = some 1 ∧ Value.nil.bound? 3 2 = some 2 ∧
      Makes (slice 0 three.1 (.num minusTwo) .nil) three.2 (.vec #[.ofBool true, .ofBool false]) ∧
      (Value.num one).bound? 3 0 = some 1 ∧ Numeral.toCount two.toFloat = 2 ∧
      Makes (Natives.subvec 0 .nil #[three.1, .num one, .num two]) three.2
        (.vec #[.ofBool true, .ofBool false]) := by
  have hp : three.2.Placed := consistent_blank.placed.alloc 0 rfl
  have hn : (three.2.heap.bodyOf three.1).length? = some 3 := by rw [bodyOf_three]; rfl
  have hstart : (Value.num minusTwo).bound? 3 0 = some 1 := by decide +kernel
  have hstop : Value.nil.bound? 3 2 = some 2 := rfl
  have hone : (Value.num one).bound? 3 0 = some 1 := by decide +kernel
  have htwo : Numeral.toCount two.toFloat = 2 := by decide +kernel
  obtain ⟨-, -, hpart, -⟩ := slice_part hp 0 hn hstart hstop
  obtain ⟨hslice, -, htaken⟩ := hpart (by decide) (by decide) (by decide)
  have htaken := htaken .nil one two hone (by rw [htwo]; decide)
  rw [bodyOf_three] at hslice htaken
  exact ⟨hp, hn, hstart, hstop, hslice, hone, htwo, htaken⟩

end Act

end ScriptEngine
