import ScriptEngine.Natives.Core
import ScriptEngine.Proofs.Runs

/-!
# Members and the unfolding of the parents

Parents may be shared, may form cycles and need not be hashes.  Unfolded from an object down to some
depth they are a finite tree all the same, and looking for a member goes through that tree in
preorder with one number of visits for all of it:

* `Heap.parentsOf`      the objects that an object lists as its parents;
* `Heap.unfolding`      an object and its parents down to a depth, in preorder;
* `Heap.verdict`        what one object settles: the member, or that its parents are no vector;
* `Heap.judge`          what the first object settles that settles anything;
* `Heap.findMember_judges`   the search judges the first objects of the unfolding, as many as there
  are visits, and keeps the visits it had no use for;
* `Act.member_eq_judge`      so a member of a hash is what the first of those objects settles.
-/

namespace ScriptEngine

namespace Heap

def parentsOf (h : Heap) (parents v : Value) : List Value :=
  match (h.table? v).bind fun t => h.lookup t parents parentsHash true with
  | some ps => ((h.vec? ps).getD #[]).toList
  | none => []

/-- An object before its parents, those from left to right, down to a number of levels. -/
def unfolding (h : Heap) (parents : Value) : Nat → Value → List Value
  | 0, _ => []
  | depth + 1, v => v :: (h.parentsOf parents v).flatMap (h.unfolding parents depth)

/-- What an object settles about a member. -/
def verdict (h : Heap) (parents sym : Value) (hash : UInt32) (interned : Bool) (v : Value) :
    Option (Except Cause Value) :=
  (h.table? v).bind fun t =>
    match h.lookup t sym hash interned, h.lookup t parents parentsHash true with
    | some found, _ => some (.ok found)
    | none, some ps => if (h.vec? ps).isSome then none else some (.error .parentsNotVector)
    | none, none => none

/-- What is settled by the first object that settles anything; no member if there is none. -/
def judge (h : Heap) (parents sym : Value) (hash : UInt32) (interned : Bool) (vs : List Value) :
    Except Cause (Option Value) :=
  match vs.findSome? (h.verdict parents sym hash interned) with
  | some (.ok found) => .ok (some found)
  | some (.error c) => .error c
  | none => .ok none

/-- A search with `visits` visits that judges the first of these objects. -/
structure Judges (h : Heap) (parents sym : Value) (hash : UInt32) (interned : Bool)
    (vs : List Value) (visits : Nat) (r : Except Cause (Option Value × Nat)) : Prop where
  fst_eq : r.map Prod.fst = h.judge parents sym hash interned (vs.take visits)
  left_eq : ∀ {left}, r = .ok (none, left) → left = visits - vs.length

section

variable {h : Heap} {parents sym : Value} {hash : UInt32} {interned : Bool} {v : Value}
  {us vs : List Value} {visits : Nat}

@[simp] theorem judge_nil : h.judge parents sym hash interned [] = .ok none := rfl

theorem judge_cons_of_none (hv : h.verdict parents sym hash interned v = none) :
    h.judge parents sym hash interned (v :: vs) = h.judge parents sym hash interned vs := by
  rw [judge, List.findSome?_cons, hv, judge]

theorem judge_cons_ok {found : Value}
    (hv : h.verdict parents sym hash interned v = some (.ok found)) :
    h.judge parents sym hash interned (v :: vs) = .ok (some found) := by
  rw [judge, List.findSome?_cons, hv]

theorem judge_cons_error {c : Cause}
    (hv : h.verdict parents sym hash interned v = some (.error c)) :
    h.judge parents sym hash interned (v :: vs) = .error c := by
  rw [judge, List.findSome?_cons, hv]

theorem judge_append_of_ne (hus : h.judge parents sym hash interned us ≠ .ok none) :
    h.judge parents sym hash interned (us ++ vs) = h.judge parents sym hash interned us := by
  unfold judge at hus ⊢
  rw [List.findSome?_append]
  cases hfirst : us.findSome? (h.verdict parents sym hash interned) with
  | none => exact absurd (by rw [hfirst]) hus
  | some r => rfl

/-- Objects that settle nothing leave it to those behind them. -/
theorem judge_append_of_eq (hus : h.judge parents sym hash interned us = .ok none) :
    h.judge parents sym hash interned (us ++ vs) = h.judge parents sym hash interned vs := by
  unfold judge at hus ⊢
  rw [List.findSome?_append]
  cases hfirst : us.findSome? (h.verdict parents sym hash interned) with
  | none => rfl
  | some r =>
    rw [hfirst] at hus
    cases r <;> cases hus

/-! ### the search -/

theorem Judges.nothing : Judges h parents sym hash interned [] visits (.ok (none, visits)) where
  fst_eq := by rw [List.take_nil]; rfl
  left_eq heq := by cases heq; rfl

theorem Judges.exhausted : Judges h parents sym hash interned vs 0 (.ok (none, 0)) where
  fst_eq := by rw [List.take_zero]; rfl
  left_eq heq := by cases heq; rw [Nat.zero_sub]

theorem Judges.pass {r : Except Cause (Option Value × Nat)}
    (hv : h.verdict parents sym hash interned v = none)
    (hvs : Judges h parents sym hash interned vs visits r) :
    Judges h parents sym hash interned (v :: vs) (visits + 1) r where
  fst_eq := by rw [List.take_succ_cons, judge_cons_of_none hv, hvs.fst_eq]
  left_eq heq := by rw [hvs.left_eq heq, List.length_cons, Nat.add_sub_add_right]

/-- Searches from the left with one number of visits judge the first objects of all they look at. -/
theorem firstAnswer_judges {f : Value → Nat → Except Cause (Option Value × Nat)}
    {tree : Value → List Value}
    (hf : ∀ u n, Judges h parents sym hash interned (tree u) n (f u n)) (us : List Value) (n : Nat) :
    Judges h parents sym hash interned (us.flatMap tree) n (firstAnswer f us n) := by
  induction us generalizing n with
  | nil => exact .nothing
  | cons u us ih =>
    have hu := hf u n
    rw [List.flatMap_cons, firstAnswer]
    cases hr : f u n with
    | error c =>
      rw [hr] at hu
      refine ⟨?_, nofun⟩
      rw [List.take_append, judge_append_of_ne (hu.fst_eq ▸ nofun)]
      exact hu.fst_eq
    | ok r =>
      obtain ⟨found, left⟩ := r
      rw [hr] at hu
      cases found with
      | some found =>
        refine ⟨?_, nofun⟩
        rw [List.take_append, judge_append_of_ne (hu.fst_eq ▸ nofun)]
        exact hu.fst_eq
      | none =>
        -- what the first tree did not use up is what the others may visit
        have hleft : left = n - (tree u).length := hu.left_eq rfl
        have hrest := ih left
        refine ⟨?_, fun heq => ?_⟩
        · rw [List.take_append, judge_append_of_eq hu.fst_eq.symm, ← hleft]
          exact hrest.fst_eq
        · rw [hrest.left_eq heq, hleft, List.length_append]
          omega

/-- One object takes one visit: it settles the member, or its parents are searched. -/
theorem findMember_succ (depth n : Nat) :
    h.findMember parents sym hash interned (depth + 1) v (n + 1) =
      match h.verdict parents sym hash interned v with
      | some (.ok found) => .ok (some found, n)
      | some (.error c) => .error c
      | none => firstAnswer (h.findMember parents sym hash interned depth) (h.parentsOf parents v) n := by
  rw [findMember, if_neg (Nat.succ_ne_zero n), Nat.add_sub_cancel, verdict, parentsOf]
  cases h.table? v with
  | none => rfl
  | some t =>
    dsimp only [Option.bind_some]
    cases h.lookup t sym hash interned with
    | some found => rfl
    | none =>
      cases h.lookup t parents parentsHash true with
      | none => rfl
      | some ps =>
        dsimp only
        cases h.vec? ps <;> rfl

/-- Looking for a member judges the first objects of the unfolding, as many as may be visited. -/
theorem findMember_judges (h : Heap) (parents sym : Value) (hash : UInt32) (interned : Bool)
    (depth : Nat) (v : Value) (visits : Nat) :
    Judges h parents sym hash interned (h.unfolding parents depth v) visits
      (h.findMember parents sym hash interned depth v visits) := by
  induction depth generalizing v visits with
  | zero => exact .nothing
  | succ depth ih =>
    rw [unfolding]
    cases visits with
    | zero => exact .exhausted
    | succ n =>
      rw [findMember_succ]
      cases hv : h.verdict parents sym hash interned v with
      | none => exact .pass hv (firstAnswer_judges (fun u m => ih u m) (h.parentsOf parents v) n)
      | some r =>
        cases r with
        | ok found => exact ⟨by rw [List.take_succ_cons, judge_cons_ok hv]; rfl, nofun⟩
        | error c => exact ⟨by rw [List.take_succ_cons, judge_cons_error hv]; rfl, nofun⟩

end

end Heap

namespace Act

/-- **A member of a hash is what the first objects of its unfolding settle.**  They are the object
itself and its parents in preorder, down to the greatest depth, and only as many as may be visited. -/
theorem member_eq_judge (lib : Library) (cx : CtxId) {w : World} {obj : Value}
    {t : Table Value Value} (hobj : w.heap.bodyOf obj = .hash t) (sym : Value) (hash : UInt32)
    (interned : Bool) :
    (member lib cx obj sym hash interned).run w =
      match w.heap.judge (.obj w.symParents) sym hash interned
        ((w.heap.unfolding (.obj w.symParents) (w.options.maxParentsDepth + 1) obj).take
          w.options.maxParentsVisits) with
      | .ok found => .ok found w
      | .error c => .error { cause := c } w := by
  have hmember : (member lib cx obj sym hash interned).run w =
      (hashMember obj sym hash interned).run w := by
    rw [member, run_bind_of_ok (show heap.run w = .ok w.heap w from rfl), hobj]
  rw [hmember, ← (w.heap.findMember_judges (.obj w.symParents) sym hash interned
    (w.options.maxParentsDepth + 1) obj w.options.maxParentsVisits).fst_eq]
  rw [hashMember, run_bind_of_ok (show (get : Act World).run w = .ok w w from rfl)]
  dsimp only
  cases w.heap.findMember (.obj w.symParents) sym hash interned (w.options.maxParentsDepth + 1) obj
    w.options.maxParentsVisits <;> rfl

end Act

namespace Sample

def oneEntry (a : Addr) (hash : UInt32) (v : Value) : Table Value Value :=
  Table.empty.put none ⟨hash, true, .obj a, v⟩

/-- An engine with an object in cell 2 whose parents are the object itself and one that defines `x`,
which may look at `visits` objects. -/
def heirs (visits : Nat) : World where
  options := { maxParentsDepth := 1, maxParentsVisits := visits }
  heap := { Heap.new 1 with
    cells := #[.str (.ofName (Bytes.ofString "parents")), .str (.ofName (Bytes.ofString "x")),
      .hash (oneEntry 0 Heap.parentsHash (.obj 3)), .vec #[.obj 2, .obj 4],
      .hash (oneEntry 1 (hashBytes (Bytes.ofString "x")) (.ofNat 7))] }
  contexts := #[{}]
  symMe := 0
  symArg := 0
  symParents := 0

end Sample

namespace Act

/-- The object that is its own parent takes two visits, so the third one finds `x`. -/
theorem member_eq_judge_heirs :
    (Sample.heirs 3).heap.bodyOf (.obj 2) =
      .hash (Sample.oneEntry 0 Heap.parentsHash (.obj 3)) ∧
    (member .core 0 (.obj 2) (.obj 1) (hashBytes (Bytes.ofString "x")) true).run (Sample.heirs 3) =
      .ok (some (.ofNat 7)) (Sample.heirs 3) := by
  have hobj : (Sample.heirs 3).heap.bodyOf (.obj 2) =
      .hash (Sample.oneEntry 0 Heap.parentsHash (.obj 3)) := rfl
  refine ⟨hobj, ?_⟩
  rw [member_eq_judge .core 0 hobj]
  have hseven : ((Sample.heirs 3).heap.judge (.obj (Sample.heirs 3).symParents) (.obj 1)
      (hashBytes (Bytes.ofString "x")) true
      (((Sample.heirs 3).heap.unfolding (.obj (Sample.heirs 3).symParents)
        ((Sample.heirs 3).options.maxParentsDepth + 1) (.obj 2)).take
          (Sample.heirs 3).options.maxParentsVisits)).toOption = some (some (.ofNat 7)) := by decide +kernel
  split
  · rename_i hfound
    rw [hfound] at hseven
    rw [Option.some.inj hseven]
  · rename_i hfault
    rw [hfault] at hseven
    cases hseven

end Act

end ScriptEngine
