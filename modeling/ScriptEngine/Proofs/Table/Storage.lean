import ScriptEngine.Proofs.Table.Entries

/-!
# How much storage a table takes

`Table.Built` are the tables that setting and erasing lead to, with any hashes and any tests of the
entries: keys that equal no key and keys that all have one hash are among them.

* `Store.Sized`      what is said of the sizes of storage;
* `Store.Searched`   following a hash through storage ends;
* `Store.Continues`  storage is the same storage, changed in place;
* `Table.Built.storage_sized`   the storage of a table is sized and searched, setting and erasing move
  its capacity one way each, and the flag tells exactly when the storage is not the same.

The load is kept by `Store.Valid`.  What is added here is that storage beyond the least is filled to
a quarter at least (`Store.Snug`): fresh storage is filled to more than a quarter, since `fitting`
is least, and erasing leaves no storage that is filled to less.
-/

namespace ScriptEngine

namespace Store

variable {κ ν : Type} {s s' : Store κ ν}

/-! ## following a hash ends -/

theorem iterate_next (hs : s.Valid) (hash : UInt32) (n : Nat) :
    (s.next hash)^[n] (s.start hash) = s.slot hash n := by
  induction n with
  | zero => exact (hs.slot_zero hash).symm
  | succ n ih => rw [Function.iterate_succ_apply', ih, next_slot]

/-- A slot that was never used ends the search, however many more may be looked at. -/
theorem probe_congr {hash : UInt32} {same : Entry κ ν → Bool} {k : Nat}
    (hk : s.look (s.slot hash k) = .empty) (n n' : Nat) {m : Nat} (hm : m ≤ k) (hn : k < m + n)
    (hn' : k < m + n') :
    s.probe hash same n (s.slot hash m) = s.probe hash same n' (s.slot hash m) := by
  induction n generalizing n' m with
  | zero => omega
  | succ n ih =>
    obtain ⟨n', rfl⟩ : ∃ j, n' = j + 1 := ⟨n' - 1, by omega⟩
    rw [probe, probe, next_slot, ← look]
    rcases Nat.eq_or_lt_of_le hm with rfl | hlt
    · rw [hk]
    · rw [ih n' hlt (by omega) (by omega)]

theorem vacant_congr {hash : UInt32} {k : Nat} (hk : s.look (s.slot hash k) = .empty) (n n' : Nat)
    {m : Nat} (hm : m ≤ k) (hn : k < m + n) (hn' : k < m + n') :
    s.vacant hash n (s.slot hash m) = s.vacant hash n' (s.slot hash m) := by
  induction n generalizing n' m with
  | zero => omega
  | succ n ih =>
    obtain ⟨n', rfl⟩ : ∃ j, n' = j + 1 := ⟨n' - 1, by omega⟩
    rw [vacant, vacant, next_slot, ← look]
    rcases Nat.eq_or_lt_of_le hm with rfl | hlt
    · rw [hk]
    · rw [ih n' hlt (by omega) (by omega)]

/-- Following a hash ends: only slots of the index are looked at, among the first of them is one
that was never used, and neither search depends on how many it may look at. -/
structure Searched (s : Store κ ν) (hash : UInt32) : Prop where
  inside : ∀ n, (s.next hash)^[n] (s.start hash) < s.index.size
  ends : ∃ n < s.index.size, s.look ((s.next hash)^[n] (s.start hash)) = .empty
  find : ∀ same n, s.index.size ≤ n → s.probe hash same n (s.start hash) = s.find? hash same
  insert : ∀ n, s.index.size ≤ n →
    s.vacant hash n (s.start hash) = s.vacant hash s.index.size (s.start hash)
  vacant : ∀ e, s.look (s.vacant hash s.index.size (s.start hash)) ≠ .place e

theorem Valid.searched (hs : s.Valid) (hash : UInt32) : s.Searched hash := by
  obtain ⟨i, hi, hempty⟩ := hs.exists_empty
  obtain ⟨k, hk, rfl⟩ := hs.slot_surj hash hi
  refine ⟨fun n => ?_, ⟨k, hk, ?_⟩, fun same n hn => ?_, fun n hn => ?_, ?_⟩
  · rw [iterate_next hs]
    exact hs.slot_lt hash n
  · rw [iterate_next hs]
    exact hempty
  · rw [find?, ← hs.slot_zero]
    exact probe_congr hempty n _ (Nat.zero_le k) (by omega) (by omega)
  · rw [← hs.slot_zero]
    exact vacant_congr hempty n _ (Nat.zero_le k) (by omega) (by omega)
  · obtain ⟨l, -, hv, hfree, -⟩ := hs.vacant_spec hash
    rw [hv]
    exact hfree

/-! ## fresh storage is least -/

theorem fitting_le {need k : Nat} (hk : need ≤ 2 ^ k) (n : Nat) {lg : Nat} (h : lg ≤ k) :
    fitting need n lg ≤ k := by
  induction n generalizing lg with
  | zero => exact h
  | succ n ih =>
    rw [fitting]
    split
    · exact h
    · rename_i hlg
      have hne : lg ≠ k := fun e => hlg (e ▸ hk)
      exact ih (Nat.lt_of_le_of_ne h hne)

theorem lg_foldl_append (l : List (Entry κ ν)) (s : Store κ ν) :
    (l.foldl Store.append s).lg = s.lg := by
  induction l generalizing s with
  | nil => rfl
  | cons ent l ih => exact ih (s.append ent)

theorem lg_rebuild (s : Store κ ν) (count : Nat) :
    (s.rebuild count).lg = fitting (2 * count) (2 * count) minLg :=
  lg_foldl_append _ _

theorem lg_rebuild_le {count k : Nat} (hk : 2 * count ≤ 2 ^ k) (h : minLg ≤ k) :
    (s.rebuild count).lg ≤ k := by
  rw [lg_rebuild]
  exact fitting_le hk _ h

theorem size_eq (hs : s.Valid) : s.size ≤ s.places.size := by
  rw [hs.counted, live]
  exact Nat.le_trans (List.length_filterMap_le _ _) (Nat.le_of_eq Array.length_toList)

/-- Storage that is least or filled to a quarter at least. -/
structure Snug (s : Store κ ν) : Prop extends s.Valid where
  quarter : s.lg = minLg ∨ 2 ^ s.lg ≤ 4 * s.size

/-- Fresh storage is filled to more than a quarter by the entries that it is made for. -/
theorem rebuild_quarter (s : Store κ ν) (count : Nat) :
    (s.rebuild count).lg = minLg ∨ 2 ^ (s.rebuild count).lg ≤ 4 * count := by
  refine or_iff_not_imp_left.mpr fun hne => ?_
  have hmin : minLg ≤ (s.rebuild count).lg := lg_rebuild s count ▸ le_fitting _ _ _
  obtain ⟨k, hk⟩ : ∃ k, (s.rebuild count).lg = k + 1 := ⟨(s.rebuild count).lg - 1, by omega⟩
  have hlt : 2 ^ k < 2 * count := by
    by_contra hge
    have := lg_rebuild_le (s := s) (Nat.le_of_not_lt hge) (show minLg ≤ k by omega)
    omega
  rw [hk, Nat.pow_succ]
  omega

/-! ## changes in place -/

/-- Storage goes on as the same storage: with the same room, no slot and no place of it lost, and
with no other entry at an old place. -/
structure Continues (s s' : Store κ ν) : Prop where
  lg : s'.lg = s.lg
  used : ∀ i, s.look i ≠ .empty → s'.look i ≠ .empty
  places : s.places.size ≤ s'.places.size
  entry : ∀ e < s.places.size, ∀ x, s'.places[e]? = some (some x) →
    ∃ y, s.places[e]? = some (some y) ∧ y.hash = x.hash ∧ y.key = x.key

theorem Continues.refl (s : Store κ ν) : s.Continues s :=
  ⟨rfl, fun _ h => h, Nat.le_refl _, fun _ _ x hx => ⟨x, hx, rfl, rfl⟩⟩

theorem look_setIfInBounds {index : Array Slot} {i j : Nat} {x : Slot} (hx : x ≠ .empty)
    (h : index[j]?.getD .empty ≠ .empty) :
    (index.setIfInBounds i x)[j]?.getD .empty ≠ .empty := by
  rw [Array.getElem?_setIfInBounds]
  split
  · split
    · exact hx
    · rename_i hij hi
      rw [Array.getElem?_eq_none (by omega)] at h
      exact absurd rfl h
  · exact h

theorem continues_append (s : Store κ ν) (ent : Entry κ ν) : s.Continues (s.append ent) := by
  refine ⟨rfl, fun i hi => look_setIfInBounds Slot.noConfusion hi, ?_, fun e he x hx => ?_⟩
  · show _ ≤ (s.places.push _).size
    rw [Array.size_push]
    exact Nat.le_succ _
  · have hx' : (s.places.push (some ent))[e]? = some (some x) := hx
    rw [Array.getElem?_push, if_neg (Nat.ne_of_lt he)] at hx'
    exact ⟨x, hx', rfl, rfl⟩

theorem continues_without (s : Store κ ν) (i e : Nat) : s.Continues (s.without i e) := by
  refine ⟨rfl, fun j hj => look_setIfInBounds Slot.noConfusion hj, ?_, fun e' _ x hx => ?_⟩
  · exact Nat.le_of_eq Array.size_setIfInBounds.symm
  · have hx' : (s.places.setIfInBounds e none)[e']? = some (some x) := hx
    rw [Array.getElem?_setIfInBounds] at hx'
    split at hx'
    · split at hx' <;> cases hx'
    · exact ⟨x, hx', rfl, rfl⟩

theorem continues_withValue (s : Store κ ν) (e : Nat) (v : ν) : s.Continues (s.withValue e v) := by
  refine ⟨rfl, fun _ hj => hj, Nat.le_of_eq Array.size_modify.symm, fun e' _ x hx => ?_⟩
  have hx' : (s.places.modify e (·.map fun old => { old with val := v }))[e']? = some (some x) := hx
  rw [Array.getElem?_modify] at hx'
  split at hx'
  · obtain ⟨o, ho, hox⟩ := Option.map_eq_some_iff.mp hx'
    obtain ⟨y, rfl, rfl⟩ := Option.map_eq_some_iff.mp hox
    exact ⟨y, ho, rfl, rfl⟩
  · exact ⟨x, hx', rfl, rfl⟩

/-! ## what each operation does to the storage -/

theorem Snug.withValue (hs : s.Snug) {e : Nat} {x : Entry κ ν} (v : ν)
    (he : s.places[e]? = some (some x)) : (s.withValue e v).Snug :=
  ⟨hs.toValid.withValue v he, hs.quarter⟩

theorem Snug.append (hs : s.Snug) (hroom : s.places.size < 2 ^ s.lg) (ent : Entry κ ν) :
    (s.append ent).Snug :=
  ⟨hs.toValid.append hroom ent, hs.quarter.imp_right fun h => by
    show _ ≤ 4 * (s.size + 1)
    exact Nat.le_trans h (by omega)⟩

/-- Full storage is replaced by storage that is not smaller and has room for one more entry. -/
theorem Snug.grow (hs : s.Snug) (hfull : 2 ^ s.lg ≤ s.places.size) (ent : Entry κ ν) :
    ((s.rebuild (s.size + 1)).append ent).Snug ∧ s.lg ≤ (s.rebuild (s.size + 1)).lg ∧
      ¬s.Continues ((s.rebuild (s.size + 1)).append ent) := by
  obtain ⟨hv, -, hfit, hplaces⟩ := hs.toValid.rebuild (Nat.le_add_right s.size 1)
  have hsize : (s.rebuild (s.size + 1)).size = s.size := by
    rw [hv.counted, (hs.toValid.rebuild (Nat.le_add_right s.size 1)).2.1, hs.counted]
  refine ⟨⟨hv.append (by omega) ent, ?_⟩, ?_, fun hc => ?_⟩
  · refine (rebuild_quarter s (s.size + 1)).imp_right fun h => ?_
    show _ ≤ 4 * ((s.rebuild (s.size + 1)).size + 1)
    rw [hsize]
    exact h
  · by_contra hlt
    have hle : 2 * 2 ^ (s.rebuild (s.size + 1)).lg ≤ 2 ^ s.lg := by
      rw [← Nat.pow_succ']
      exact Nat.pow_le_pow_right Nat.two_pos (by omega)
    rcases hs.quarter with h | h
    · exact hlt (h ▸ hv.least)
    · omega
  · have hlg : (s.rebuild (s.size + 1)).lg = s.lg := hc.lg
    have hps : s.places.size ≤ ((s.rebuild (s.size + 1)).places.push (some ent)).size := hc.places
    rw [Array.size_push, hplaces] at hps
    rw [hlg] at hfit
    omega

theorem Snug.without (hs : s.Snug) {i e : Nat} {x : Entry κ ν} (hi : s.look i = .place e)
    (he : s.places[e]? = some (some x))
    (hdense : (s.without i e).isSparseFor (s.without i e).size = false) :
    (s.without i e).Snug := by
  refine ⟨hs.toValid.without hi he, ?_⟩
  have hge := hs.least
  have hq : 2 ^ s.lg = 4 * (2 ^ s.lg / 4) := by
    obtain ⟨k, hk⟩ := Nat.exists_eq_add_of_le hge
    rw [hk, Nat.pow_add]
    show 4 * _ = 4 * (4 * _ / 4)
    omega
  have hd : ¬(minLg < s.lg ∧ (s.without i e).size < 2 ^ s.lg / 4) := by
    intro h
    have : (decide (minLg < s.lg) && decide ((s.without i e).size < 2 ^ s.lg / 4)) = false := hdense
    simp [h] at this
  show s.lg = minLg ∨ 2 ^ s.lg ≤ _
  omega

theorem Snug.shrink (hs : s.Snug) {i e : Nat} {x : Entry κ ν} (hi : s.look i = .place e)
    (he : s.places[e]? = some (some x))
    (hsparse : (s.without i e).isSparseFor (s.without i e).size = true) :
    ((s.without i e).rebuild (s.without i e).size).Snug ∧
      ((s.without i e).rebuild (s.without i e).size).lg < s.lg := by
  have hw := hs.toValid.without hi he
  obtain ⟨hv, hlive, -, -⟩ := hw.rebuild (Nat.le_refl _)
  have hd : minLg < s.lg ∧ (s.without i e).size < 2 ^ s.lg / 4 := by
    have : (decide (minLg < s.lg) && decide ((s.without i e).size < 2 ^ s.lg / 4)) = true := hsparse
    simpa using this
  refine ⟨⟨hv, ?_⟩, ?_⟩
  · rw [hv.counted, hlive, ← hw.counted]
    exact rebuild_quarter _ _
  · obtain ⟨k, hk⟩ : ∃ k, s.lg = k + 1 := ⟨s.lg - 1, by omega⟩
    have hpow : 2 ^ s.lg = 2 * 2 ^ k := by rw [hk, Nat.pow_succ']
    have hfit : 2 * (s.without i e).size ≤ 2 ^ k := by omega
    have := lg_rebuild_le (s := s.without i e) hfit (by omega)
    omega

/-- The sizes of storage. -/
structure Sized (s : Store κ ν) : Prop where
  index : s.index.size = 2 * s.capacity
  power : ∃ k, s.capacity = 2 ^ k
  least : 4 ≤ s.capacity
  places : s.places.size ≤ s.capacity
  used : s.index.countP (· != .empty) ≤ s.places.size
  unused : s.index.size ≤ 2 * s.index.countP (· == .empty)
  live : s.capacity = 4 ∨ s.capacity ≤ 4 * s.live.length

theorem Snug.sized (hs : s.Snug) : s.Sized where
  index := hs.index_size
  power := ⟨s.lg, rfl⟩
  least := Nat.pow_le_pow_right Nat.two_pos hs.least
  places := hs.room
  used := hs.load
  unused := by
    have hsplit : s.index.size = s.index.countP (· == .empty)
        + s.index.countP (fun x => ¬(x == .empty) = true) := Array.size_eq_countP_add_countP
    have hrest : s.index.countP (fun x => ¬(x == .empty) = true) = s.index.countP (· != .empty) :=
      congrArg (s.index.countP ·) (funext fun x => by cases x <;> rfl)
    have := hs.load
    have := hs.room
    have := hs.index_size
    omega
  live := by
    rw [← hs.counted]
    exact hs.quarter.imp_left fun h => congrArg (2 ^ ·) h

end Store

namespace Table

open Store (Continues Snug Sized Searched)

variable {κ ν : Type} {t : Table κ ν}

/-- The tables that setting and erasing lead to. -/
inductive Built : Table κ ν → Prop
  | empty : Built empty
  | set {t : Table κ ν} (ht : Built t) (ent : Entry κ ν) (same : Entry κ ν → Bool) :
      Built (t.set ent same).1
  | erase {t : Table κ ν} (ht : Built t) (hash : UInt32) (same : Entry κ ν → Bool) :
      Built (t.erase hash same).1

def Snug (t : Table κ ν) : Prop := ∀ s, t.store = some s → s.Snug

theorem Snug.valid (ht : t.Snug) : t.Valid := fun s hs => (ht s hs).toValid

/-- A table has storage that does not go on in another one. -/
def Retires (t t' : Table κ ν) : Prop :=
  ∃ s s', t.store = some s ∧ t'.store = some s' ∧ ¬s.Continues s'

/-- What setting does to the storage: the first one is made, or the storage goes on, or full
storage is replaced. -/
theorem set_storage (ht : t.Snug) (ent : Entry κ ν) (same : Entry κ ν → Bool) :
    ∃ s', (t.set ent same).1.store = some s' ∧ s'.Snug ∧
      ((t.store = none ∧ (t.set ent same).2 = false) ∨
        ∃ s, t.store = some s ∧ s.capacity ≤ s'.capacity ∧
          (((t.set ent same).2 = false ∧ s.Continues s') ∨
            ((t.set ent same).2 = true ∧ ¬s.Continues s' ∧
              s' = (s.rebuild (s.size + 1)).append ent))) := by
  rcases locate_cases ht.valid ent.hash same with ⟨hl, -⟩ | ⟨s, i, e, x, hst, hl, -, he, -⟩
  · have hset : t.set ent same = (t.append ent, t.isFull) := by
      rw [set, hl]
      rfl
    rw [hset]
    rcases t with ⟨_ | s⟩
    · refine ⟨_, rfl, ?_, .inl ⟨rfl, rfl⟩⟩
      exact Snug.append ⟨Store.valid_new (Nat.le_refl _), .inl rfl⟩ (by show 0 < 2 ^ 2; decide) ent
    · have hs := ht s rfl
      by_cases hfull : s.capacity ≤ s.places.size
      · obtain ⟨hg, hlg, hnot⟩ := hs.grow hfull ent
        refine ⟨(s.rebuild (s.size + 1)).append ent, ?_, hg, .inr ⟨s, rfl, ?_, .inr ⟨?_, hnot, rfl⟩⟩⟩
        · simp only [append, if_pos hfull]
        · exact Nat.pow_le_pow_right Nat.two_pos hlg
        · exact decide_eq_true hfull
      · refine ⟨s.append ent, ?_, hs.append (Nat.lt_of_not_le hfull) ent,
          .inr ⟨s, rfl, Nat.le_refl _, .inl ⟨?_, s.continues_append ent⟩⟩⟩
        · simp only [append, if_neg hfull]
        · exact decide_eq_false hfull
  · have hset : t.set ent same = (⟨some (s.withValue e ent.val)⟩, false) := by
      rw [set, hl]
      show ((⟨t.store.map _⟩ : Table κ ν), false) = _
      rw [hst]
      rfl
    rw [hset]
    exact ⟨_, rfl, (ht s hst).withValue ent.val he,
      .inr ⟨s, hst, Nat.le_refl _, .inl ⟨rfl, s.continues_withValue e ent.val⟩⟩⟩

/-- What erasing does to the storage: it goes on, or sparse storage is replaced. -/
theorem erase_storage (ht : t.Snug) (hash : UInt32) (same : Entry κ ν → Bool) :
    (t.store = none ∧ (t.erase hash same).1.store = none ∧ (t.erase hash same).2.2 = false) ∨
      ∃ s s', t.store = some s ∧ (t.erase hash same).1.store = some s' ∧ s'.Snug ∧
        (((t.erase hash same).2.2 = false ∧ s.Continues s') ∨
          ((t.erase hash same).2.2 = true ∧ s'.capacity < s.capacity ∧
            ∃ i e, s' = (s.without i e).rebuild (s.size - 1))) := by
  rcases locate_cases ht.valid hash same with ⟨hl, -⟩ | ⟨s, i, e, x, hst, hl, hi, he, -⟩
  · have herase : t.erase hash same = (t, none, false) := by
      rw [erase, hl]
      rfl
    rw [herase]
    rcases hst : t.store with _ | s
    · exact .inl ⟨rfl, rfl, rfl⟩
    · exact .inr ⟨s, s, rfl, rfl, ht s hst, .inl ⟨rfl, .refl s⟩⟩
  · have hs := ht s hst
    have hdrop : (t.erase hash same).1 = if (s.without i e).isSparseFor (s.without i e).size
        then ⟨some ((s.without i e).rebuild (s.without i e).size)⟩
        else ⟨some (s.without i e)⟩ := by
      rw [erase, hl]
      show t.eraseAt i e = _
      rw [eraseAt, hst]
    have hflag : (t.erase hash same).2.2 = (s.without i e).isSparseFor (s.without i e).size := by
      rw [erase, hl]
      show t.isSparse = _
      rw [isSparse, hst]
      rfl
    rw [hflag, hdrop]
    cases hsp : (s.without i e).isSparseFor (s.without i e).size with
    | false =>
      exact .inr ⟨s, s.without i e, hst, rfl, hs.without hi he hsp,
        .inl ⟨rfl, s.continues_without i e⟩⟩
    | true =>
      obtain ⟨hsn, hlg⟩ := hs.shrink hi he hsp
      refine .inr ⟨s, _, hst, rfl, hsn, .inr ⟨rfl, ?_, i, e, rfl⟩⟩
      exact Nat.pow_lt_pow_right Nat.one_lt_two hlg

theorem Built.snug (ht : t.Built) : t.Snug := by
  induction ht with
  | empty =>
    rintro _ ⟨⟩
  | set _ ent same ih =>
    intro s hs
    obtain ⟨s', hs', hsnug, -⟩ := set_storage ih ent same
    obtain rfl := Option.some.inj (hs.symm.trans hs')
    exact hsnug
  | erase _ hash same ih =>
    intro s hs
    rcases erase_storage ih hash same with ⟨-, hno, -⟩ | ⟨_, s', -, hs', hsnug, -⟩
    · rw [hno] at hs
      cases hs
    · obtain rfl := Option.some.inj (hs.symm.trans hs')
      exact hsnug

theorem retires_iff {s s' : Store κ ν} {t' : Table κ ν} (hs : t.store = some s)
    (hs' : t'.store = some s') : t.Retires t' ↔ ¬s.Continues s' := by
  constructor
  · rintro ⟨_, _, h, h', hnot⟩
    obtain rfl := Option.some.inj (hs.symm.trans h)
    obtain rfl := Option.some.inj (hs'.symm.trans h')
    exact hnot
  · exact fun h => ⟨s, s', hs, hs', h⟩

/-- **Storage stays in proportion.**  The storage of a table is sized, and following any hash
through it ends.  Setting never lowers the capacity; erasing never raises it, and lowers it when the
storage is replaced.  The flags tell exactly when the storage is replaced, by one that is rebuilt
from its entries. -/
theorem Built.storage_sized (ht : t.Built) :
    (∀ s, t.store = some s → s.Sized ∧ ∀ hash, s.Searched hash) ∧
    (∀ ent same, ∃ s', (t.set ent same).1.store = some s' ∧
      t.capacity ≤ (t.set ent same).1.capacity ∧
      ((t.set ent same).2 = true ↔ t.Retires (t.set ent same).1) ∧
      ((t.set ent same).2 = true → ∃ s, t.store = some s ∧
        s' = (s.rebuild (s.size + 1)).append ent)) ∧
    ∀ hash same,
      (t.erase hash same).1.store.isSome = t.store.isSome ∧
      (t.erase hash same).1.capacity ≤ t.capacity ∧
      ((t.erase hash same).2.2 = true ↔ t.Retires (t.erase hash same).1) ∧
      ((t.erase hash same).2.2 = true → (t.erase hash same).1.capacity < t.capacity ∧
        ∃ s i e, t.store = some s ∧
          (t.erase hash same).1.store = some ((s.without i e).rebuild (s.size - 1))) := by
  refine ⟨fun s hs => ⟨(ht.snug s hs).sized, (ht.snug s hs).toValid.searched⟩, fun ent same => ?_,
    fun hash same => ?_⟩
  · obtain ⟨s', hs', -, h⟩ := set_storage ht.snug ent same
    refine ⟨s', hs', ?_⟩
    rw [capacity, capacity, hs']
    rcases h with ⟨hno, hflag⟩ | ⟨s, hs, hcap, h⟩
    · rw [hno, hflag]
      refine ⟨Nat.zero_le _, ⟨Bool.noConfusion, ?_⟩, Bool.noConfusion⟩
      rintro ⟨_, _, h, -⟩
      rw [hno] at h
      cases h
    · rw [retires_iff hs hs', hs]
      rcases h with ⟨hflag, hc⟩ | ⟨hflag, hnot, he⟩
      · rw [hflag]
        exact ⟨hcap, ⟨Bool.noConfusion, fun h => absurd hc h⟩, Bool.noConfusion⟩
      · exact ⟨hcap, ⟨fun _ => hnot, fun _ => hflag⟩, fun _ => ⟨s, rfl, he⟩⟩
  · rw [capacity, capacity]
    rcases erase_storage ht.snug hash same with ⟨hno, hno', hflag⟩ | ⟨s, s', hs, hs', -, h⟩
    · rw [hno, hno', hflag]
      refine ⟨rfl, Nat.le_refl _, ⟨Bool.noConfusion, ?_⟩, Bool.noConfusion⟩
      rintro ⟨_, _, h, -⟩
      rw [hno] at h
      cases h
    · rw [retires_iff hs hs', hs, hs']
      rcases h with ⟨hflag, hc⟩ | ⟨hflag, hlt, i, e, rfl⟩
      · rw [hflag]
        refine ⟨rfl, ?_, ⟨Bool.noConfusion, fun h => absurd hc h⟩, Bool.noConfusion⟩
        show 2 ^ s'.lg ≤ 2 ^ s.lg
        rw [hc.lg]
      · refine ⟨rfl, Nat.le_of_lt hlt, ⟨fun _ hc => ?_, fun _ => hflag⟩,
          fun _ => ⟨hlt, s, i, e, rfl, rfl⟩⟩
        refine Nat.ne_of_lt hlt ?_
        show 2 ^ _ = 2 ^ s.lg
        rw [hc.lg]

/-- Five entries of one hash, under a key that equals no key, and then four of them. -/
def crowd : Table Unit Unit :=
  let x : Entry Unit Unit := ⟨7, false, (), ()⟩
  let more (t : Table Unit Unit) : Table Unit Unit := (t.set x fun _ => false).1
  ((more (more (more (more (more empty))))).erase 7 fun _ => true).1

theorem crowd_storage :
    crowd.Built ∧ crowd.capacity = 16 ∧ (crowd.erase 7 fun _ => true).2.2 = true ∧
      (∃ s, crowd.store = some s ∧ s.Sized ∧ s.Searched 7) ∧
      crowd.capacity ≤ (crowd.set ⟨7, true, (), ()⟩ fun _ => false).1.capacity ∧
      (crowd.erase 7 fun _ => true).1.capacity < 16 := by
  have hb : crowd.Built := .erase (.set (.set (.set (.set (.set .empty _ _) _ _) _ _) _ _) _ _) _ _
  have hflag : (crowd.erase 7 fun _ => true).2.2 = true := by decide +kernel
  have hcap : crowd.capacity = 16 := by decide +kernel
  obtain ⟨hstore, hset, herase⟩ := Built.storage_sized hb
  refine ⟨hb, hcap, hflag, ?_, ?_, ?_⟩
  · cases hs : crowd.store with
    | none => rw [capacity, hs] at hcap; cases hcap
    | some s => exact ⟨s, rfl, (hstore s hs).1, (hstore s hs).2 7⟩
  · obtain ⟨_, -, hle, -⟩ := hset ⟨7, true, (), ()⟩ fun _ => false
    exact hle
  · exact hcap ▸ ((herase 7 fun _ => true).2.2.2 hflag).1

end Table

end ScriptEngine
