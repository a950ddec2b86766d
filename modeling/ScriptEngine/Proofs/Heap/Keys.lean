import ScriptEngine.Heap.Coerce
import ScriptEngine.Proofs.Heap.Cells
import ScriptEngine.Proofs.Number

/-!
# Keys

Two keys are the same when `Heap.keysEqual` says so.  In a heap whose strings remember only their
own hashes and in which no two interned strings have the same bytes (`Heap.Keyed`), the same keys
have the same hash, and the test that a table makes on its entries, `Heap.sameKey`, is equality of
keys: the shortcut for interned names never answers wrongly.

* `Heap.keysEqual_symm`, `Heap.keysEqual_trans`   equality of keys;
* `Heap.Keyed.keyHash_eq`                         the same keys have the same hash;
* `Heap.Keyed.sameKey_eq`                         the test made on the entries of a table;
* `Heap.Alike`                                    two heaps in which a value is the same key.
-/

namespace ScriptEngine

/-- A string remembers no hash but its own. -/
def Str.Honest (s : Str) : Prop := ∀ x ∈ s.hash, x = hashBytes s.bytes

namespace Str

theorem honest_ofBytes (bs : Bytes) : (ofBytes bs).Honest := by
  rintro _ ⟨⟩

theorem honest_ofName (bs : Bytes) : (ofName bs).Honest := by
  rintro _ ⟨⟩
  rfl

theorem Honest.hashCode_eq {s : Str} (h : s.Honest) : s.hashCode = hashBytes s.bytes := by
  rw [hashCode]
  cases hx : s.hash with
  | none => rfl
  | some x => exact h x hx

theorem Honest.freeze {s : Str} (h : s.Honest) : s.freeze.Honest := by
  rintro _ ⟨⟩
  exact h.hashCode_eq

/-- A string that can be changed remembers no hash at all. -/
theorem honest_of_setByte {s t : Str} {i : Nat} {b : UInt8} (h : s.setByte i b = .ok t) :
    t.Honest := by
  rw [setByte] at h
  split at h
  · cases h
  · rename_i hnone
    split at h
    · cases h
      intro x hx
      rw [Option.not_isSome_iff_eq_none.mp hnone] at hx
      cases hx
    · cases h

/-- Only a string whose hash has not been taken can be changed, and it is interned no more than before. -/
theorem of_setByte {s t : Str} {i : Nat} {b : UInt8} (h : s.setByte i b = .ok t) :
    s.hash = none ∧ t.interned = s.interned := by
  rw [setByte] at h
  split at h
  · cases h
  · rename_i hnone
    split at h
    · cases h
      exact ⟨Option.not_isSome_iff_eq_none.mp hnone, rfl⟩
    · cases h

end Str

namespace Heap

/-! ## equality of keys -/

theorem keysEqual_obj {h : Heap} {a b : Addr} :
    h.keysEqual (.obj a) (.obj b) = true ↔
      a = b ∨ ∃ s t, h.body a = .str s ∧ h.body b = .str t ∧ s.bytes = t.bytes := by
  rw [keysEqual, Bool.or_eq_true, beq_iff_eq]
  refine or_congr Iff.rfl ⟨fun e => ?_, ?_⟩
  · split at e
    · rename_i s t hs ht
      exact ⟨s, t, hs, ht, beq_iff_eq.mp e⟩
    · cases e
  · rintro ⟨s, t, hs, ht, e⟩
    rw [hs, ht]
    exact beq_iff_eq.mpr e

/-- The same keys are both `nil`, or equal numbers, or one object, or strings with the same
bytes. -/
theorem keysEqual_iff {h : Heap} {k l : Value} :
    h.keysEqual k l = true ↔
      (k = .nil ∧ l = .nil) ∨ (∃ m n, k = .num m ∧ l = .num n ∧ m.equals n = true) ∨
      ∃ a b, k = .obj a ∧ l = .obj b ∧
        (a = b ∨ ∃ s t, h.body a = .str s ∧ h.body b = .str t ∧ s.bytes = t.bytes) := by
  cases k <;> cases l <;> simp [keysEqual_obj] <;> simp [keysEqual]

theorem keysEqual_symm {h : Heap} {k l : Value} (hkl : h.keysEqual k l = true) :
    h.keysEqual l k = true := by
  rcases keysEqual_iff.mp hkl with ⟨rfl, rfl⟩ | ⟨m, n, rfl, rfl, e⟩ | ⟨a, b, rfl, rfl, e⟩
  · rfl
  · exact Number.equals_symm e
  · rw [keysEqual_obj]
    rcases e with rfl | ⟨s, t, hs, ht, e⟩
    · exact .inl rfl
    · exact .inr ⟨t, s, ht, hs, e.symm⟩

theorem keysEqual_trans {h : Heap} {k l m : Value} (hkl : h.keysEqual k l = true)
    (hlm : h.keysEqual l m = true) : h.keysEqual k m = true := by
  rcases keysEqual_iff.mp hkl with ⟨rfl, rfl⟩ | ⟨x, y, rfl, rfl, e⟩ | ⟨a, b, rfl, rfl, e⟩
  · exact hlm
  · rcases keysEqual_iff.mp hlm with ⟨⟨⟩, _⟩ | ⟨_, z, ⟨⟩, rfl, e'⟩ | ⟨_, _, ⟨⟩, _⟩
    exact Number.equals_trans e e'
  · rcases keysEqual_iff.mp hlm with ⟨⟨⟩, _⟩ | ⟨_, _, ⟨⟩, _⟩ | ⟨_, c, ⟨⟩, rfl, e'⟩
    rw [keysEqual_obj]
    rcases e with rfl | ⟨s, t, hs, ht, e⟩
    · exact e'
    · rcases e' with rfl | ⟨t', r, ht', hr, e'⟩
      · exact .inr ⟨s, t, hs, ht, e⟩
      · obtain rfl : t = t' := Body.str.inj (ht.symm.trans ht')
        exact .inr ⟨s, r, hs, hr, e.trans e'⟩

/-! ## the hash of a key -/

/-- Strings remember only their own hashes, and no two interned strings have the same bytes. -/
structure Keyed (h : Heap) : Prop where
  honest : ∀ a s, h.body a = .str s → s.Honest
  names : ∀ a b s t, h.body a = .str s → h.body b = .str t → s.interned = true →
    t.interned = true → s.bytes = t.bytes → a = b

namespace Keyed

variable {h : Heap}

/-- **The same keys have the same hash.** -/
theorem keyHash_eq (hk : h.Keyed) {k l : Value} (hkl : h.keysEqual k l = true) :
    (h.keyHash k).1 = (h.keyHash l).1 := by
  rcases keysEqual_iff.mp hkl with ⟨rfl, rfl⟩ | ⟨m, n, rfl, rfl, e⟩ | ⟨a, b, rfl, rfl, e⟩
  · rfl
  · exact hashNumber_eq_of_equals e
  · rcases e with rfl | ⟨s, t, hs, ht, e⟩
    · rfl
    · have h1 : h.keyHash (.obj a) = (s.hashCode, s.interned) := by rw [keyHash, hs]
      have h2 : h.keyHash (.obj b) = (t.hashCode, t.interned) := by rw [keyHash, ht]
      rw [h1, h2, (hk.honest a s hs).hashCode_eq, (hk.honest b t ht).hashCode_eq, e]

theorem interned_obj {a : Addr} (e : (h.keyHash (.obj a)).2 = true) :
    ∃ s, h.body a = .str s ∧ s.interned = true := by
  rw [keyHash] at e
  split at e
  · rename_i s hs
    exact ⟨s, hs, e⟩
  · cases e

/-- **The shortcut for interned names is right**: an entry passes the test for a key exactly when
its own key is the same. -/
theorem sameKey_eq (hk : h.Keyed) (key : Value) (e : Entry Value Value)
    (he : e.interned = (h.keyHash e.key).2) :
    h.sameKey key (h.keyHash key).2 e = h.keysEqual e.key key := by
  obtain ⟨x, b, k, v⟩ := e
  dsimp only at he
  cases k with
  | obj a =>
    cases key with
    | obj c =>
      show (a == c || (!(b && (h.keyHash (.obj c)).2) && h.keysEqual (.obj a) (.obj c))) = _
      by_cases hac : a = c
      · subst hac
        rw [beq_self_eq_true, Bool.true_or, keysEqual_obj.mpr (.inl rfl)]
      · rw [beq_false_of_ne hac, Bool.false_or]
        by_cases hb : b = true ∧ (h.keyHash (.obj c)).2 = true
        · -- two interned strings: not the same object, so not the same bytes
          obtain ⟨s, hs, his⟩ := interned_obj (he.symm.trans hb.1)
          obtain ⟨t, ht, hit⟩ := interned_obj hb.2
          rw [hb.1, hb.2]
          refine (Bool.eq_false_iff.mpr fun e => ?_).symm
          rcases keysEqual_obj.mp e with e | ⟨s', t', hs', ht', e⟩
          · exact hac e
          · obtain rfl : s = s' := Body.str.inj (hs.symm.trans hs')
            obtain rfl : t = t' := Body.str.inj (ht.symm.trans ht')
            exact hac (hk.names a c s t hs ht his hit e)
        · have : (b && (h.keyHash (.obj c)).2) = false := by
            rw [Bool.eq_false_iff, ne_eq, Bool.and_eq_true]
            exact hb
          rw [this]
          rfl
    | _ => rfl
  | _ => rfl

end Keyed

/-! ## the same key in two heaps -/

/-- A value is the same key in two heaps: a string has the same bytes in both, and is interned in
both or in none. -/
def Alike (h h' : Heap) : Value → Prop
  | .obj a =>
    (∀ s, h.body a = .str s → ∃ t, h'.body a = .str t ∧ s.bytes = t.bytes ∧
      s.interned = t.interned) ∧
    ∀ t, h'.body a = .str t → ∃ s, h.body a = .str s
  | _ => True

theorem alike_refl (h : Heap) (v : Value) : h.Alike h v := by
  cases v with
  | obj a => exact ⟨fun s hs => ⟨s, hs, rfl, rfl⟩, fun t ht => ⟨t, ht⟩⟩
  | _ => trivial

theorem Alike.keysEqual {h h' : Heap} {k l : Value} (hk : h.Alike h' k) (hl : h.Alike h' l) :
    h'.keysEqual k l = h.keysEqual k l := by
  cases k with
  | obj a =>
    cases l with
    | obj b =>
      rw [Bool.eq_iff_iff, keysEqual_obj, keysEqual_obj]
      refine or_congr Iff.rfl ⟨?_, ?_⟩
      · rintro ⟨s', t', hs', ht', e⟩
        obtain ⟨s, hs⟩ := hk.2 s' hs'
        obtain ⟨t, ht⟩ := hl.2 t' ht'
        obtain ⟨_, hs'', es, -⟩ := hk.1 s hs
        obtain ⟨_, ht'', et, -⟩ := hl.1 t ht
        obtain rfl := Body.str.inj (hs'.symm.trans hs'')
        obtain rfl := Body.str.inj (ht'.symm.trans ht'')
        exact ⟨s, t, hs, ht, es.trans (e.trans et.symm)⟩
      · rintro ⟨s, t, hs, ht, e⟩
        obtain ⟨s', hs', es, -⟩ := hk.1 s hs
        obtain ⟨t', ht', et, -⟩ := hl.1 t ht
        exact ⟨s', t', hs', ht', es.symm.trans (e.trans et)⟩
    | _ => rfl
  | _ => cases l <;> rfl

theorem Alike.keyHash {h h' : Heap} (hk : h.Keyed) (hk' : h'.Keyed) {v : Value}
    (hv : h.Alike h' v) : h'.keyHash v = h.keyHash v := by
  cases v with
  | obj a =>
    by_cases hs : ∃ s, h.body a = .str s
    · obtain ⟨s, hs⟩ := hs
      obtain ⟨t, ht, eb, ei⟩ := hv.1 s hs
      rw [Heap.keyHash, Heap.keyHash, hs, ht]
      show (t.hashCode, t.interned) = (s.hashCode, s.interned)
      rw [(hk.honest a s hs).hashCode_eq, (hk'.honest a t ht).hashCode_eq, eb, ei]
    · have ht : ¬∃ t, h'.body a = .str t := fun ⟨t, ht⟩ => hs (hv.2 t ht)
      rw [Heap.keyHash, Heap.keyHash]
      split
      · rename_i t ht'
        exact absurd ⟨t, ht'⟩ ht
      · split
        · rename_i s hs'
          exact absurd ⟨s, hs'⟩ hs
        · rfl
  | _ => rfl

/-! ## taking the hash of a key -/

/-- Taking a hash changes a string at most, and only in the hash it remembers. -/
theorem body_freeze (h : Heap) (v : Value) (a : Addr) :
    (h.freeze v).body a = h.body a ∨
      ∃ s, h.body a = .str s ∧ (h.freeze v).body a = .str s.freeze := by
  cases v with
  | obj b =>
    rw [freeze]
    split
    · rename_i s hs
      split
      · exact .inl rfl
      · by_cases hab : a = b
        · subst hab
          refine .inr ⟨s, hs, ?_⟩
          rw [body_modify_self (lt_size_of_body (by rw [hs]; exact Body.noConfusion))]
        · exact .inl (body_modify_of_ne _ (Ne.symm hab) _)
    · exact .inl rfl
  | _ => exact .inl rfl

theorem alike_freeze (h : Heap) (v w : Value) : h.Alike (h.freeze v) w := by
  cases w with
  | obj a =>
    rcases body_freeze h v a with e | ⟨s, hs, e⟩
    · rw [Alike, e]
      exact ⟨fun s hs => ⟨s, hs, rfl, rfl⟩, fun t ht => ⟨t, ht⟩⟩
    · rw [Alike, e, hs]
      refine ⟨fun s' hs' => ⟨s.freeze, rfl, ?_⟩, fun t _ => ⟨s, rfl⟩⟩
      obtain rfl := Body.str.inj hs'
      exact ⟨rfl, rfl⟩
  | _ => trivial

theorem Keyed.freeze {h : Heap} (hk : h.Keyed) (v : Value) : (h.freeze v).Keyed where
  honest a s hs := by
    rcases body_freeze h v a with e | ⟨t, ht, e⟩
    · exact hk.honest a s (e.symm.trans hs)
    · obtain rfl : t.freeze = s := Body.str.inj (e.symm.trans hs)
      exact (hk.honest a t ht).freeze
  names a b s t hs ht := by
    obtain ⟨s', hs'⟩ := (alike_freeze h v (.obj a)).2 s hs
    obtain ⟨t', ht'⟩ := (alike_freeze h v (.obj b)).2 t ht
    obtain ⟨_, hs'', es, is⟩ := (alike_freeze h v (.obj a)).1 s' hs'
    obtain ⟨_, ht'', et, it⟩ := (alike_freeze h v (.obj b)).1 t' ht'
    obtain rfl := Body.str.inj (hs.symm.trans hs'')
    obtain rfl := Body.str.inj (ht.symm.trans ht'')
    rw [← es, ← et, ← is, ← it]
    exact hk.names a b s' t' hs' ht'

end Heap

end ScriptEngine
