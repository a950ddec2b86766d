import ScriptEngine.Machine.Call
import ScriptEngine.Proofs.Heap.Live

/-!
# What is read off objects

Names through scopes, members through parents, and elements are among the values that objects refer to.
So a property that goes over from a value to those that its object refers to goes over to what is read off
that value.

* `Heap.bodyOf_of_table?`, `Heap.bodyOf_of_vec?`, ...   what a value is;
* `Heap.Inherited.scopes`    the namespaces of a chain of closures;
* `Heap.Inherited.member`    a member of an object or of its parents;
* `Heap.Inherited.element`   an element.
-/

namespace ScriptEngine

namespace Heap

variable {h : Heap} {v : Value}

theorem bodyOf_of_table? {t : Table Value Value} (ht : h.table? v = some t) :
    h.bodyOf v = .hash t := by
  unfold table? at ht
  split at ht
  · rename_i t' hb
    rw [hb, Option.some.inj ht]
  · exact nomatch ht

theorem bodyOf_of_vec? {items : Array Value} (hi : h.vec? v = some items) :
    h.bodyOf v = .vec items := by
  unfold vec? at hi
  split at hi
  · rename_i items' hb
    rw [hb, Option.some.inj hi]
  · exact nomatch hi

theorem bodyOf_of_func? {target scope : Value} (hf : h.func? v = some (target, scope)) :
    h.bodyOf v = .func target scope := by
  unfold func? at hf
  split at hf
  · rename_i target' scope' hb
    obtain ⟨rfl, rfl⟩ := Prod.mk.inj (Option.some.inj hf)
    exact hb
  · exact nomatch hf

theorem bodyOf_of_closure? {ns next : Value} (hc : h.closure? v = some (ns, next)) :
    h.bodyOf v = .closure ns next := by
  unfold closure? at hc
  split at hc
  · rename_i ns' next' hb
    obtain ⟨rfl, rfl⟩ := Prod.mk.inj (Option.some.inj hc)
    exact hb
  · exact nomatch hc

namespace Inherited

variable {Q : Value → Prop} (hQ : h.Inherited Q)
include hQ

theorem named {ns sym : Value} {hash : UInt32} (hns : Q ns) (hv : h.named? ns sym hash = some v) :
    Q v := by
  obtain ⟨t, ht, hv⟩ := Option.bind_eq_some_iff.mp hv
  exact hQ.lookup hns (bodyOf_of_table? ht) hv

theorem scopes (hv : Q v) (n : Nat) : ∀ ns ∈ h.scopes n v, Q ns := by
  induction n generalizing v with
  | zero => exact fun _ hns => nomatch hns
  | succ n ih =>
    intro ns hns
    unfold Heap.scopes at hns
    split at hns
    · rename_i first next hc
      have hb := bodyOf_of_closure? hc
      rcases List.mem_cons.mp hns with rfl | hns
      · exact hQ _ _ hv (hb ▸ List.mem_cons_self)
      · exact ih (hQ _ _ hv (hb ▸ List.mem_cons_of_mem _ List.mem_cons_self)) ns hns
    · exact nomatch hns

omit hQ in
theorem firstAnswer {f : Value → Nat → Except Cause (Option Value × Nat)}
    (hf : ∀ u, Q u → ∀ n x m, f u n = .ok (some x, m) → Q x) (vs : List Value)
    (hvs : ∀ u ∈ vs, Q u) {n m : Nat} (hv : firstAnswer f vs n = .ok (some v, m)) : Q v := by
  induction vs generalizing n with
  | nil => exact nomatch hv
  | cons u vs ih =>
    have hu := hvs u List.mem_cons_self
    unfold Heap.firstAnswer at hv
    split at hv
    · exact ih (fun x hx => hvs x (List.mem_cons_of_mem _ hx)) hv
    · exact hf u hu _ _ _ hv

/-- A member of an object, wherever among the parents it is found. -/
theorem member {parents sym obj : Value} {hash : UInt32} {interned : Bool} {depth n m : Nat}
    (hobj : Q obj)
    (hv : h.findMember parents sym hash interned depth obj n = .ok (some v, m)) : Q v := by
  induction depth generalizing obj n m v with
  | zero => exact nomatch hv
  | succ depth ih =>
    unfold findMember at hv
    split at hv
    · exact nomatch hv
    · split at hv
      · exact nomatch hv
      · rename_i t ht
        have hb := bodyOf_of_table? ht
        split at hv
        · rename_i x hx
          cases hv
          exact hQ.lookup hobj hb hx
        · split at hv
          · exact nomatch hv
          · rename_i ps hps
            split at hv
            · exact nomatch hv
            · rename_i items hitems
              have hparents : ∀ u ∈ items.toList, Q u := fun u hu =>
                hQ.item (hQ.lookup hobj hb hps) (bodyOf_of_vec? hitems) (Array.mem_toList_iff.mp hu)
              exact firstAnswer (fun u hu _ _ _ hx => ih hu hx) _ hparents hv

/-- An element; it may be `nil` or a number that no object refers to. -/
theorem element (hnil : Q .nil) (hnum : ∀ n, Q (.num n)) {box key : Value} (hbox : Q box)
    (hv : h.element box key = .ok v) : Q v := by
  unfold Heap.element at hv
  split at hv
  · rename_i t hb
    split at hv
    · generalize h.keyHash key = k at hv
      obtain ⟨hash, interned⟩ := k
      rw [← show (h.lookup t key hash interned).getD .nil = v from Except.ok.inj hv]
      cases hx : h.lookup t key hash interned with
      | none => exact hnil
      | some x => exact hQ.lookup hbox hb hx
    · exact nomatch hv
  · rename_i items hb
    cases hi : h.indexIn key items.size "vector" with
    | error c =>
      rw [hi] at hv
      exact nomatch hv
    | ok i =>
      rw [hi] at hv
      rw [← show items[i]?.getD .nil = v from Except.ok.inj hv]
      cases hx : items[i]? with
      | none => exact hnil
      | some x => exact hQ.item hbox hb (Array.mem_of_getElem? hx)
  · rename_i s hb
    cases hi : h.indexIn key s.bytes.length "string" with
    | error c =>
      rw [hi] at hv
      exact nomatch hv
    | ok i =>
      rw [hi] at hv
      rw [← show Value.ofNat (s.bytes[i]?.getD 0).toNat = v from Except.ok.inj hv]
      exact hnum _
  · exact nomatch hv

end Inherited

end Heap

namespace Act

theorem bodyOf_of_callee {h : Heap} {func scope : Value} {code : Loaded}
    (hc : h.callee func = .script code scope) :
    ∃ target, h.bodyOf func = .func target scope ∧ h.bodyOf target = .code code := by
  unfold Heap.callee at hc
  split at hc
  · rename_i target scope' hf
    split at hc
    · rename_i code' ht
      cases hc
      exact ⟨target, hf, ht⟩
    · exact nomatch hc
    · exact nomatch hc
  · exact nomatch hc
  · exact nomatch hc
  · exact nomatch hc

theorem bodyOf_of_callee_bare {h : Heap} {func : Value} {code : Loaded}
    (hc : h.callee func = .bare code) : h.bodyOf func = .code code := by
  unfold Heap.callee at hc
  split at hc
  · split at hc
    · exact nomatch hc
    · exact nomatch hc
    · exact nomatch hc
  · exact nomatch hc
  · rename_i code' hb
    cases hc
    exact hb
  · exact nomatch hc

end Act

end ScriptEngine
