import Mathlib.Tactic
import Mathlib.Data.Nat.ModEq
import ScriptEngine.Table

/-!
# The storage of a table

`Store.Valid` is what every operation on the storage of a table keeps:

* the index has twice the capacity and at most as many used slots as there are places, so at least
  half of it was never used;
* the places are not more than the capacity, and the live ones are counted;
* every live entry is met when its hash is followed, before any slot that was never used.

The stride is odd and the size of the index a power of two, so following a hash meets every slot
(`Store.slot_surj`).  From this come the two facts about following a hash: looking for an entry
finds one that passes the test exactly when there is one (`Store.find?_eq_none_iff`,
`Store.find?_eq_some`), and looking for a vacant slot finds one (`Store.vacant_spec`).
-/

namespace ScriptEngine.Store

variable {κ ν : Type}

/-! ## the slots looked at -/

/-- The `n`-th slot looked at for a hash. -/
def slot (s : Store κ ν) (hash : UInt32) (n : Nat) : Nat :=
  (s.start hash + n * s.stride hash) % s.index.size

theorem next_slot (s : Store κ ν) (hash : UInt32) (n : Nat) :
    s.next hash (s.slot hash n) = s.slot hash (n + 1) := by
  show (_ % _ + _) % _ = _
  rw [Nat.mod_add_mod, slot, Nat.succ_mul, Nat.add_assoc]

/-- What the slot `i` holds. -/
def look (s : Store κ ν) (i : Nat) : Slot := s.index[i]?.getD .empty

/-- What every operation keeps. -/
structure Valid (s : Store κ ν) : Prop where
  least : minLg ≤ s.lg
  index_size : s.index.size = 2 * 2 ^ s.lg
  room : s.places.size ≤ 2 ^ s.lg
  load : s.index.countP (· != .empty) ≤ s.places.size
  counted : s.size = s.live.length
  met : ∀ e ent, s.places[e]? = some (some ent) →
    ∃ n < s.index.size, s.look (s.slot ent.hash n) = .place e ∧
      ∀ m < n, s.look (s.slot ent.hash m) ≠ .empty

namespace Valid

variable {s : Store κ ν}

theorem index_pos (hs : s.Valid) : 0 < s.index.size := by
  rw [hs.index_size]
  exact Nat.mul_pos Nat.two_pos (Nat.two_pow_pos _)

theorem slot_lt (hs : s.Valid) (hash : UInt32) (n : Nat) : s.slot hash n < s.index.size :=
  Nat.mod_lt _ hs.index_pos

theorem start_lt (hs : s.Valid) (hash : UInt32) : s.start hash < s.index.size := by
  have hh := hash.toNat_lt
  rw [hs.index_size]
  show hash.toNat / 2 ^ (32 - s.lg) < _
  rw [Nat.div_lt_iff_lt_mul (Nat.two_pow_pos _), Nat.mul_assoc, ← Nat.pow_add]
  have : 2 ^ 32 ≤ 2 ^ (s.lg + (32 - s.lg)) := Nat.pow_le_pow_right Nat.two_pos (by omega)
  omega

theorem slot_zero (hs : s.Valid) (hash : UInt32) : s.slot hash 0 = s.start hash := by
  rw [slot, Nat.zero_mul, Nat.add_zero, Nat.mod_eq_of_lt (hs.start_lt hash)]

theorem coprime_stride (hs : s.Valid) (hash : UInt32) :
    Nat.Coprime s.index.size (s.stride hash) := by
  have hsz : s.index.size = 2 ^ (s.lg + 1) := by rw [hs.index_size, Nat.pow_succ, Nat.mul_comm]
  have hodd : (2 * hash + 1).toNat % 2 = 1 := by
    rw [UInt32.toNat_add, UInt32.toNat_mul]
    show (2 * hash.toNat % 2 ^ 32 + 1) % 2 ^ 32 % 2 = 1
    omega
  have hstr : s.stride hash % 2 = 1 := by
    show (2 * hash + 1).toNat % s.index.size % 2 = 1
    rw [hsz, Nat.mod_mod_of_dvd _ (dvd_pow_self 2 (Nat.succ_ne_zero _))]
    exact hodd
  rw [hsz]
  exact Nat.Coprime.pow_left _ (Nat.coprime_two_left.mpr (Nat.odd_iff.mpr hstr))

theorem slot_inj (hs : s.Valid) {hash : UInt32} {m n : Nat} (hm : m < s.index.size)
    (hn : n < s.index.size) (h : s.slot hash m = s.slot hash n) : m = n := by
  have h1 : m * s.stride hash ≡ n * s.stride hash [MOD s.index.size] :=
    Nat.ModEq.add_left_cancel' _ h
  have h2 : m ≡ n [MOD s.index.size] :=
    Nat.ModEq.cancel_right_of_coprime (hs.coprime_stride hash) h1
  rwa [Nat.ModEq, Nat.mod_eq_of_lt hm, Nat.mod_eq_of_lt hn] at h2

/-- **Following a hash meets every slot.** -/
theorem slot_surj (hs : s.Valid) (hash : UInt32) {i : Nat} (hi : i < s.index.size) :
    ∃ n < s.index.size, s.slot hash n = i := by
  have hinj : Set.InjOn (s.slot hash) (Finset.range s.index.size) := by
    intro m hm n hn h
    exact hs.slot_inj (Finset.mem_range.mp hm) (Finset.mem_range.mp hn) h
  have hsub : (Finset.range s.index.size).image (s.slot hash) ⊆ Finset.range s.index.size := by
    intro j hj
    obtain ⟨n, _, rfl⟩ := Finset.mem_image.mp hj
    exact Finset.mem_range.mpr (hs.slot_lt hash n)
  have hall := Finset.eq_of_subset_of_card_le hsub (by rw [Finset.card_image_of_injOn hinj])
  have hi' : i ∈ (Finset.range s.index.size).image (s.slot hash) := by
    rw [hall]
    exact Finset.mem_range.mpr hi
  obtain ⟨n, hn, rfl⟩ := Finset.mem_image.mp hi'
  exact ⟨n, Finset.mem_range.mp hn, rfl⟩

end Valid

/-! ## looking for an entry -/

def hit (hash : UInt32) (same : Entry κ ν → Bool) (ent : Entry κ ν) : Bool :=
  ent.hash == hash && same ent

theorem probe_eq_some {s : Store κ ν} {hash : UInt32} {same : Entry κ ν → Bool} {i e : Nat}
    (n : Nat) (j : Nat) (h : s.probe hash same n j = some (i, e)) :
    s.look i = .place e ∧
      ∃ ent, s.places[e]? = some (some ent) ∧ hit hash same ent = true := by
  induction n generalizing j with
  | zero => simp [probe] at h
  | succ n ih =>
    rw [probe] at h
    split at h
    · simp at h
    · exact ih _ h
    · rename_i e' he'
      split at h
      · rename_i ent hent
        split at h
        · rename_i hhit
          obtain ⟨rfl, rfl⟩ : j = i ∧ e' = e := by simpa using h
          exact ⟨he', ent, Option.join_eq_some_iff.mp hent, hhit⟩
        · exact ih _ h
      · exact ih _ h

/-- Looking on from the `m`-th slot gives up only when no entry met before a slot that was never
used is a hit. -/
theorem probe_eq_none {s : Store κ ν} {hash : UInt32} {same : Entry κ ν → Bool} (n m : Nat)
    (h : s.probe hash same n (s.slot hash m) = none) {k e : Nat} {ent : Entry κ ν}
    (hmk : m ≤ k) (hk : k < m + n) (hused : ∀ l, m ≤ l → l < k → s.look (s.slot hash l) ≠ .empty)
    (hslot : s.look (s.slot hash k) = .place e) (hent : s.places[e]? = some (some ent)) :
    hit hash same ent = false := by
  induction n generalizing m with
  | zero => omega
  | succ n ih =>
    rw [probe, next_slot, ← look] at h
    rcases Nat.eq_or_lt_of_le hmk with rfl | hlt
    · simp only [hslot, hent, Option.join_some] at h
      split at h
      · simp at h
      · rename_i hhit
        exact Bool.eq_false_iff.mpr hhit
    · have hrest : s.probe hash same n (s.slot hash (m + 1)) = none := by
        split at h
        · rename_i hx
          exact absurd hx (hused m (Nat.le_refl m) hlt)
        · exact h
        · split at h
          · split at h
            · simp at h
            · exact h
          · exact h
      exact ih (m + 1) hrest hlt (by omega) fun l hl => hused l (by omega)

theorem find?_eq_some {s : Store κ ν} {hash : UInt32} {same : Entry κ ν → Bool} {i e : Nat}
    (h : s.find? hash same = some (i, e)) :
    s.look i = .place e ∧
      ∃ ent, s.places[e]? = some (some ent) ∧ hit hash same ent = true :=
  probe_eq_some _ _ h

/-- **Nothing is found only when there is nothing to be found.** -/
theorem Valid.find?_eq_none {s : Store κ ν} (hs : s.Valid) {hash : UInt32}
    {same : Entry κ ν → Bool} (h : s.find? hash same = none) {e : Nat} {ent : Entry κ ν}
    (hent : s.places[e]? = some (some ent)) : hit hash same ent = false := by
  by_cases hh : ent.hash = hash
  · subst hh
    obtain ⟨n, hn, hslot, hused⟩ := hs.met e ent hent
    rw [find?, ← hs.slot_zero] at h
    exact probe_eq_none _ 0 h (Nat.zero_le n) (by omega) (fun l _ hl => hused l hl) hslot hent
  · have : (ent.hash == hash) = false := beq_false_of_ne hh
    rw [hit, this, Bool.false_and]

/-! ## looking for a vacant slot -/

theorem vacant_slot {s : Store κ ν} {hash : UInt32} (n m : Nat) {k : Nat} (hmk : m ≤ k)
    (hk : k < m + n) (hfree : ∀ e, s.look (s.slot hash k) ≠ .place e) :
    ∃ l, m ≤ l ∧ l ≤ k ∧ s.vacant hash n (s.slot hash m) = s.slot hash l ∧
      (∀ e, s.look (s.slot hash l) ≠ .place e) ∧
      ∀ j, m ≤ j → j < l → s.look (s.slot hash j) ≠ .empty := by
  induction n generalizing m with
  | zero => omega
  | succ n ih =>
    rw [vacant, next_slot, ← look]
    split
    · rename_i e he
      have hlt : m < k := by
        rcases Nat.eq_or_lt_of_le hmk with rfl | hlt
        · exact absurd he (hfree e)
        · exact hlt
      obtain ⟨l, hl, hlk, hv, hfr, hused⟩ := ih (m + 1) hlt (by omega)
      refine ⟨l, by omega, hlk, hv, hfr, fun j hj hjl => ?_⟩
      rcases Nat.eq_or_lt_of_le hj with rfl | hj'
      · rw [he]
        exact Slot.noConfusion
      · exact hused j hj' hjl
    · rename_i hne
      exact ⟨m, Nat.le_refl m, hmk, rfl, hne, fun j hj hjm => by omega⟩

/-- At least half of the index was never used. -/
theorem Valid.exists_empty {s : Store κ ν} (hs : s.Valid) :
    ∃ i < s.index.size, s.look i = .empty := by
  have hlt : s.index.countP (· != .empty) < s.index.size := by
    have := hs.load
    have := hs.room
    have := hs.index_size
    have := Nat.two_pow_pos s.lg
    omega
  by_contra hall
  push Not at hall
  have : s.index.countP (· != .empty) = s.index.size := by
    rw [Array.countP_eq_size]
    intro x hx
    obtain ⟨i, hi, rfl⟩ := Array.mem_iff_getElem.mp hx
    have := hall i hi
    simpa [look, hi] using this
  omega

/-- **A vacant slot is found**, and no slot before it was never used. -/
theorem Valid.vacant_spec {s : Store κ ν} (hs : s.Valid) (hash : UInt32) :
    ∃ l < s.index.size, s.vacant hash s.index.size (s.start hash) = s.slot hash l ∧
      (∀ e, s.look (s.slot hash l) ≠ .place e) ∧
      ∀ j < l, s.look (s.slot hash j) ≠ .empty := by
  obtain ⟨i, hi, hempty⟩ := hs.exists_empty
  obtain ⟨k, hk, rfl⟩ := hs.slot_surj hash hi
  have hfree : ∀ e, s.look (s.slot hash k) ≠ .place e := by
    intro e
    rw [hempty]
    exact Slot.noConfusion
  obtain ⟨l, _, hlk, hv, hfr, hused⟩ := vacant_slot s.index.size 0 (Nat.zero_le k) (by omega) hfree
  rw [hs.slot_zero] at hv
  exact ⟨l, by omega, hv, hfr, fun j hj => hused j (Nat.zero_le j) hj⟩

end ScriptEngine.Store
