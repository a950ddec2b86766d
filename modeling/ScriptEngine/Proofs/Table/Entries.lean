import ScriptEngine.Proofs.Table.Store

/-!
# The entries of a table

What the operations on a table do to its list of live entries, in order.  An entry is a *hit* for a
hash and a test when it has that hash and passes that test.

* `Table.find?_cases`   finding gives the value of a hit, and nothing when there is none;
* `Table.set_cases`     setting overwrites the value of a hit, else appends an entry;
* `Table.erase_cases`   erasing removes a hit, and nothing when there is none;
* `Table.size_eq`       the size is the number of entries.

Replacing the storage shows in none of this (`Store.Valid.rebuild`).
-/

namespace ScriptEngine

namespace Store

variable {κ ν : Type}

/-! ## storage after a change -/

theorem slot_congr {s t : Store κ ν} (hlg : t.lg = s.lg) (hsz : t.index.size = s.index.size)
    (hash : UInt32) (n : Nat) : t.slot hash n = s.slot hash n := by
  simp only [slot, start, stride, hlg, hsz]

theorem valid_new {lg : Nat} (h : minLg ≤ lg) : (new lg : Store κ ν).Valid where
  least := h
  index_size := Array.size_replicate
  room := Nat.zero_le _
  load := by simp [new, Array.countP_replicate]
  counted := rfl
  met e ent he := by simp [new] at he

theorem live_new (lg : Nat) : (new lg : Store κ ν).live = [] := rfl

theorem live_append (s : Store κ ν) (ent : Entry κ ν) : (s.append ent).live = s.live ++ [ent] := by
  simp [live, append]

def before (s : Store κ ν) (e : Nat) : List (Entry κ ν) := (s.places.toList.take e).filterMap id

def after (s : Store κ ν) (e : Nat) : List (Entry κ ν) :=
  (s.places.toList.drop (e + 1)).filterMap id

theorem live_eq {s : Store κ ν} {e : Nat} {ent : Entry κ ν}
    (h : s.places[e]? = some (some ent)) : s.live = s.before e ++ ent :: s.after e := by
  obtain ⟨he, hx⟩ := Array.getElem?_eq_some_iff.mp h
  have hl : s.places.toList = s.places.toList.take e
      ++ some ent :: s.places.toList.drop (e + 1) := by
    conv_lhs => rw [← List.take_append_drop e s.places.toList]
    rw [List.drop_eq_getElem_cons (by simpa using he), Array.getElem_toList, hx]
  show s.places.toList.filterMap id = _
  rw [hl, List.filterMap_append, List.filterMap_cons]
  rfl

theorem live_without {s : Store κ ν} {i e : Nat} {ent : Entry κ ν}
    (h : s.places[e]? = some (some ent)) :
    (s.without i e).live = s.before e ++ s.after e := by
  obtain ⟨he, -⟩ := Array.getElem?_eq_some_iff.mp h
  show (s.places.setIfInBounds e none).toList.filterMap id = _
  rw [Array.toList_setIfInBounds, List.set_eq_take_append_cons_drop, if_pos (by simpa using he),
    List.filterMap_append, List.filterMap_cons]
  rfl

def withValue (s : Store κ ν) (e : Nat) (v : ν) : Store κ ν :=
  { s with places := s.places.modify e (·.map fun old => { old with val := v }) }

theorem live_withValue {s : Store κ ν} {e : Nat} {ent : Entry κ ν} (v : ν)
    (h : s.places[e]? = some (some ent)) :
    (s.withValue e v).live = s.before e ++ { ent with val := v } :: s.after e := by
  obtain ⟨he, hx⟩ := Array.getElem?_eq_some_iff.mp h
  show (s.places.modify e _).toList.filterMap id = _
  rw [Array.toList_modify, List.modify_eq_take_cons_drop (by simpa using he),
    Array.getElem_toList, hx, List.filterMap_append, List.filterMap_cons]
  rfl

/-! ## changes keep the storage valid -/

theorem look_set (index : Array Slot) (i j : Nat) (x : Slot) (hi : i < index.size) :
    (index.setIfInBounds i x)[j]?.getD .empty = if i = j then x else index[j]?.getD .empty := by
  rw [Array.getElem?_setIfInBounds]
  by_cases h : i = j
  · subst h
    simp [hi]
  · simp [h]

/-- Filling a slot that holds no place spoils the way to no entry. -/
theorem Valid.append {s : Store κ ν} (hs : s.Valid) (hroom : s.places.size < 2 ^ s.lg)
    (ent : Entry κ ν) : (s.append ent).Valid := by
  obtain ⟨l, hl, hv, hfree, hused⟩ := hs.vacant_spec ent.hash
  have hlt := hs.slot_lt ent.hash l
  have hidx : (s.append ent).index = s.index.setIfInBounds (s.slot ent.hash l) (.place s.places.size) := by
    show s.index.setIfInBounds _ _ = _
    rw [hv]
  have hsz : (s.append ent).index.size = s.index.size := by
    rw [hidx, Array.size_setIfInBounds]
  have hslot : ∀ hash n, (s.append ent).slot hash n = s.slot hash n :=
    slot_congr rfl hsz
  have hlook : ∀ j, (s.append ent).look j
      = if s.slot ent.hash l = j then .place s.places.size else s.look j := by
    intro j
    rw [look, hidx]
    exact look_set _ _ _ _ hlt
  -- a used slot stays used
  have hstill : ∀ j, s.look j ≠ .empty → (s.append ent).look j ≠ .empty := by
    intro j hj
    rw [hlook]
    split
    · exact Slot.noConfusion
    · exact hj
  refine ⟨hs.least, hsz.trans hs.index_size, ?_, ?_, ?_, ?_⟩
  · show (s.places.push _).size ≤ _
    rw [Array.size_push]
    exact hroom
  · show (s.append ent).index.countP _ ≤ (s.places.push _).size
    rw [Array.size_push, hidx, Array.setIfInBounds, dif_pos hlt, Array.countP_set]
    have := hs.load
    simp only [bne_iff_ne, ne_eq]
    split <;> split <;> omega
  · rw [live_append, List.length_append, ← hs.counted]
    rfl
  · intro e en he
    rw [hsz]
    simp only [hslot]
    have he' : (s.places.push (some ent))[e]? = some (some en) := he
    rw [Array.getElem?_push] at he'
    split at he'
    · rename_i hnew
      obtain rfl : ent = en := by simpa using he'
      refine ⟨l, hl, ?_, fun m hm => hstill _ (hused m hm)⟩
      rw [hlook, if_pos rfl, hnew]
    · obtain ⟨n, hn, hplace, hway⟩ := hs.met e en he'
      refine ⟨n, hn, ?_, fun m hm => hstill _ (hway m hm)⟩
      rw [hlook, if_neg, hplace]
      intro heq
      exact hfree e (heq ▸ hplace)

theorem Valid.without {s : Store κ ν} (hs : s.Valid) {i e : Nat} {ent : Entry κ ν}
    (hi : s.look i = .place e) (he : s.places[e]? = some (some ent)) : (s.without i e).Valid := by
  have hlt : i < s.index.size := by
    by_contra hge
    rw [look, Array.getElem?_eq_none (Nat.le_of_not_lt hge)] at hi
    exact Slot.noConfusion hi
  have hsz : (s.without i e).index.size = s.index.size := Array.size_setIfInBounds
  have hslot : ∀ hash n, (s.without i e).slot hash n = s.slot hash n := slot_congr rfl hsz
  have hlook : ∀ j, (s.without i e).look j = if i = j then .gap else s.look j :=
    fun j => look_set _ _ _ _ hlt
  refine ⟨hs.least, hsz.trans hs.index_size, ?_, ?_, ?_, ?_⟩
  · show (s.places.setIfInBounds e none).size ≤ _
    rw [Array.size_setIfInBounds]
    exact hs.room
  · show (s.index.setIfInBounds i .gap).countP _ ≤ (s.places.setIfInBounds e none).size
    rw [Array.size_setIfInBounds, Array.setIfInBounds, dif_pos hlt, Array.countP_set]
    have hused : s.index[i] = .place e := by simpa [look, hlt] using hi
    have hpos : 0 < s.index.countP (· != .empty) :=
      Array.countP_pos_iff.mpr ⟨_, Array.getElem_mem hlt, by rw [hused]; rfl⟩
    have := hs.load
    rw [hused, if_pos (show (Slot.place e != .empty) = true from rfl), if_pos (by decide)]
    omega
  · show s.size - 1 = _
    rw [live_without he, hs.counted, live_eq he]
    simp only [List.length_append, List.length_cons]
    omega
  · intro e' en he'
    rw [hsz]
    simp only [hslot]
    have hx : (s.places.setIfInBounds e none)[e']? = some (some en) := he'
    rw [Array.getElem?_setIfInBounds] at hx
    have hne : e ≠ e' := by
      rintro rfl
      simp at hx
    rw [if_neg hne] at hx
    obtain ⟨n, hn, hplace, hway⟩ := hs.met e' en hx
    refine ⟨n, hn, ?_, fun m hm => ?_⟩
    · rw [hlook, if_neg, hplace]
      intro heq
      rw [← heq, hi] at hplace
      exact hne (Slot.place.inj hplace)
    · rw [hlook]
      split
      · exact Slot.noConfusion
      · exact hway m hm

theorem Valid.withValue {s : Store κ ν} (hs : s.Valid) {e : Nat} {ent : Entry κ ν} (v : ν)
    (he : s.places[e]? = some (some ent)) : (s.withValue e v).Valid := by
  have hps : (s.withValue e v).places.size = s.places.size := Array.size_modify
  refine ⟨hs.least, hs.index_size, hps.le.trans hs.room, hs.load.trans hps.ge, ?_, ?_⟩
  · show s.size = _
    rw [live_withValue v he, hs.counted, live_eq he]
    simp only [List.length_append, List.length_cons]
  · intro e' en he'
    have hx : (s.places.modify e _)[e']? = some (some en) := he'
    rw [Array.getElem?_modify] at hx
    split at hx
    · rename_i heq
      subst heq
      rw [he] at hx
      obtain rfl : { ent with val := v } = en := by simpa using hx
      exact hs.met e ent he
    · exact hs.met e' en hx

/-! ## fresh storage -/

theorem le_fitting (need n lg : Nat) : lg ≤ fitting need n lg := by
  induction n generalizing lg with
  | zero => exact Nat.le_refl _
  | succ n ih =>
    rw [fitting]
    split
    · exact Nat.le_refl _
    · exact Nat.le_trans (Nat.le_succ lg) (ih (lg + 1))

theorem need_le_fitting (need n lg : Nat) (h : need ≤ 2 ^ (lg + n)) :
    need ≤ 2 ^ fitting need n lg := by
  induction n generalizing lg with
  | zero => exact h
  | succ n ih =>
    rw [fitting]
    split
    · assumption
    · exact ih (lg + 1) (by rwa [Nat.add_right_comm])

/-- Appending entries one after the other, as long as there is room. -/
theorem Valid.foldl_append {t : Store κ ν} (ht : t.Valid) (l : List (Entry κ ν))
    (hroom : t.places.size + l.length ≤ 2 ^ t.lg) :
    (l.foldl Store.append t).Valid ∧ (l.foldl Store.append t).live = t.live ++ l ∧
      (l.foldl Store.append t).lg = t.lg ∧
      (l.foldl Store.append t).places.size = t.places.size + l.length := by
  induction l generalizing t with
  | nil => exact ⟨ht, (List.append_nil _).symm, rfl, rfl⟩
  | cons ent l ih =>
    rw [List.length_cons] at hroom
    have hlt : t.places.size < 2 ^ t.lg := by omega
    have hps : (t.append ent).places.size = t.places.size + 1 := Array.size_push _
    obtain ⟨h1, h2, h3, h4⟩ := ih (ht.append hlt ent) (by rw [hps]; show _ ≤ 2 ^ t.lg; omega)
    refine ⟨h1, ?_, h3, ?_⟩
    · rw [List.foldl_cons, h2, live_append, List.append_assoc, List.singleton_append]
    · rw [List.foldl_cons, h4, hps, List.length_cons]
      omega

/-- **Fresh storage holds the same entries in the same order**, and half of it is free. -/
theorem Valid.rebuild {s : Store κ ν} (hs : s.Valid) {count : Nat} (h : s.size ≤ count) :
    (s.rebuild count).Valid ∧ (s.rebuild count).live = s.live ∧
      2 * count ≤ 2 ^ (s.rebuild count).lg ∧ (s.rebuild count).places.size = s.size := by
  have hfit : 2 * count ≤ 2 ^ fitting (2 * count) (2 * count) minLg := by
    apply need_le_fitting
    exact Nat.le_trans (Nat.le_of_lt Nat.lt_two_pow_self)
      (Nat.pow_le_pow_right Nat.two_pos (Nat.le_add_left _ _))
  have hnew : (new (fitting (2 * count) (2 * count) minLg) : Store κ ν).Valid :=
    valid_new (le_fitting _ _ _)
  have hroom : (new (fitting (2 * count) (2 * count) minLg) : Store κ ν).places.size
      + s.live.length ≤ 2 ^ fitting (2 * count) (2 * count) minLg := by
    rw [← hs.counted]
    show 0 + s.size ≤ _
    omega
  obtain ⟨h1, h2, h3, h4⟩ := hnew.foldl_append s.live hroom
  refine ⟨h1, h2, ?_, ?_⟩
  · rw [Store.rebuild, h3]
    exact hfit
  · rw [Store.rebuild, h4, ← hs.counted]
    exact Nat.zero_add _

end Store

namespace Table

open Store (hit)

variable {κ ν : Type}

def Valid (t : Table κ ν) : Prop := ∀ s, t.store = some s → s.Valid

theorem valid_empty : (empty : Table κ ν).Valid := by
  rintro _ ⟨⟩

theorem valid_some {s : Store κ ν} (h : s.Valid) : (⟨some s⟩ : Table κ ν).Valid := by
  rintro _ ⟨⟩
  exact h

theorem size_eq {t : Table κ ν} (ht : t.Valid) : t.size = t.entries.length := by
  rcases t with ⟨_ | s⟩
  · rfl
  · exact (ht s rfl).counted

/-- Either no entry is a hit and none is located, or a hit is. -/
theorem locate_cases {t : Table κ ν} (ht : t.Valid) (hash : UInt32) (same : Entry κ ν → Bool) :
    (t.locate hash same = none ∧ ∀ ent ∈ t.entries, hit hash same ent = false) ∨
    ∃ s i e ent, t.store = some s ∧ t.locate hash same = some (i, e) ∧ s.look i = .place e ∧
      s.places[e]? = some (some ent) ∧ hit hash same ent = true := by
  rcases t with ⟨_ | s⟩
  · exact .inl ⟨rfl, fun ent h => by simp [entries] at h⟩
  · have hs := ht s rfl
    cases hf : s.find? hash same with
    | none =>
      refine .inl ⟨hf, fun ent hent => ?_⟩
      have hmem : some ent ∈ s.places.toList := by simpa [entries, Store.live] using hent
      obtain ⟨e, he⟩ := Array.mem_iff_getElem?.mp (Array.mem_toList_iff.mp hmem)
      exact hs.find?_eq_none hf he
    | some r =>
      obtain ⟨i, e⟩ := r
      obtain ⟨hi, ent, he, hhit⟩ := Store.find?_eq_some hf
      exact .inr ⟨s, i, e, ent, rfl, hf, hi, he, hhit⟩

theorem find?_cases {t : Table κ ν} (ht : t.Valid) (hash : UInt32) (same : Entry κ ν → Bool) :
    ((∀ x ∈ t.entries, hit hash same x = false) ∧ t.find? hash same = none) ∨
    ∃ a x b, t.entries = a ++ x :: b ∧ hit hash same x = true ∧
      t.find? hash same = some x.val := by
  rcases locate_cases ht hash same with ⟨hl, hno⟩ | ⟨s, i, e, x, hst, hl, -, he, hx⟩
  · exact .inl ⟨hno, by rw [find?, hl]; rfl⟩
  · refine .inr ⟨s.before e, x, s.after e, ?_, hx, ?_⟩
    · rw [entries, hst]
      exact Store.live_eq he
    · rw [find?, hl]
      show t.valueAt e = _
      rw [valueAt, hst]
      show (s.places[e]?.join.map _) = _
      rw [he]
      rfl

theorem append_spec {t : Table κ ν} (ht : t.Valid) (ent : Entry κ ν) :
    (t.append ent).Valid ∧ (t.append ent).entries = t.entries ++ [ent] := by
  rcases t with ⟨_ | s⟩
  · have hnew : (Store.new Store.minLg : Store κ ν).Valid := Store.valid_new (Nat.le_refl _)
    refine ⟨valid_some (hnew.append (by show 0 < 2 ^ 2; decide) ent), ?_⟩
    exact Store.live_append _ _
  · have hs := ht s rfl
    rw [append]
    dsimp only
    split
    · obtain ⟨h1, h2, h3, h4⟩ := hs.rebuild (show s.size ≤ s.size + 1 by omega)
      have hroom : (s.rebuild (s.size + 1)).places.size < 2 ^ (s.rebuild (s.size + 1)).lg := by
        omega
      refine ⟨valid_some (h1.append hroom ent), ?_⟩
      show ((s.rebuild (s.size + 1)).append ent).live = s.live ++ [ent]
      rw [Store.live_append, h2]
    · rename_i hroom
      refine ⟨valid_some (hs.append (Nat.lt_of_not_le hroom) ent), ?_⟩
      exact Store.live_append _ _

/-- **Setting overwrites the value of a hit, else appends.** -/
theorem set_cases {t : Table κ ν} (ht : t.Valid) (ent : Entry κ ν) (same : Entry κ ν → Bool) :
    (t.set ent same).1.Valid ∧
    (((∀ x ∈ t.entries, hit ent.hash same x = false) ∧
        (t.set ent same).1.entries = t.entries ++ [ent]) ∨
      ∃ a x b, t.entries = a ++ x :: b ∧ hit ent.hash same x = true ∧
        (t.set ent same).1.entries = a ++ { x with val := ent.val } :: b) := by
  rcases locate_cases ht ent.hash same with ⟨hl, hno⟩ | ⟨s, i, e, x, hst, hl, -, he, hx⟩
  · have hset : (t.set ent same).1 = t.append ent := by
      show t.put (t.locate ent.hash same) ent = _
      rw [hl]
      rfl
    obtain ⟨h1, h2⟩ := append_spec ht ent
    rw [hset]
    exact ⟨h1, .inl ⟨hno, h2⟩⟩
  · have hset : (t.set ent same).1 = ⟨some (s.withValue e ent.val)⟩ := by
      show t.put (t.locate ent.hash same) ent = _
      rw [hl]
      show (⟨t.store.map _⟩ : Table κ ν) = _
      rw [hst]
      rfl
    rw [hset]
    refine ⟨valid_some ((ht s hst).withValue ent.val he),
      .inr ⟨s.before e, x, s.after e, ?_, hx, Store.live_withValue ent.val he⟩⟩
    rw [entries, hst]
    exact Store.live_eq he

/-- **Erasing removes a hit.** -/
theorem erase_cases {t : Table κ ν} (ht : t.Valid) (hash : UInt32) (same : Entry κ ν → Bool) :
    (t.erase hash same).1.Valid ∧
    (((∀ x ∈ t.entries, hit hash same x = false) ∧ (t.erase hash same).1.entries = t.entries ∧
        (t.erase hash same).2.1 = none) ∨
      ∃ a x b, t.entries = a ++ x :: b ∧ hit hash same x = true ∧
        (t.erase hash same).1.entries = a ++ b ∧ (t.erase hash same).2.1 = some x.val) := by
  rcases locate_cases ht hash same with ⟨hl, hno⟩ | ⟨s, i, e, x, hst, hl, hi, he, hx⟩
  · have herase : t.erase hash same = (t, none, false) := by
      rw [erase, hl]
      rfl
    rw [herase]
    exact ⟨ht, .inl ⟨hno, rfl, rfl⟩⟩
  · have hs := ht s hst
    have hw := hs.without hi he
    have hlive := Store.live_without (i := i) he
    have hold : (t.erase hash same).2.1 = some x.val := by
      rw [erase, hl]
      show t.valueAt e = _
      rw [valueAt, hst]
      show (s.places[e]?.join.map _) = _
      rw [he]
      rfl
    have hent : t.entries = s.before e ++ x :: s.after e := by
      rw [entries, hst]
      exact Store.live_eq he
    have hdrop : (t.erase hash same).1 = if (s.without i e).isSparseFor (s.without i e).size
        then ⟨some ((s.without i e).rebuild (s.without i e).size)⟩
        else ⟨some (s.without i e)⟩ := by
      rw [erase, hl]
      show t.eraseAt i e = _
      rw [eraseAt, hst]
    rw [hdrop, hold, hent]
    split
    · obtain ⟨h1, h2, -, -⟩ := hw.rebuild (Nat.le_refl _)
      exact ⟨valid_some h1, .inr ⟨s.before e, x, s.after e, rfl, hx, h2.trans hlive, rfl⟩⟩
    · exact ⟨valid_some hw, .inr ⟨s.before e, x, s.after e, rfl, hx, hlive, rfl⟩⟩

/-! ## the entries of any table -/

theorem mem_live {s : Store κ ν} {x : Entry κ ν} : x ∈ s.live ↔ some x ∈ s.places := by
  simp [Store.live]

theorem live_foldl_append (s : Store κ ν) (l : List (Entry κ ν)) :
    (l.foldl Store.append s).live = s.live ++ l := by
  induction l generalizing s with
  | nil => exact (List.append_nil _).symm
  | cons x l ih => rw [List.foldl_cons, ih, Store.live_append, List.append_assoc]; rfl

theorem live_rebuild (s : Store κ ν) (count : Nat) : (s.rebuild count).live = s.live := by
  rw [Store.rebuild, live_foldl_append, Store.live_new, List.nil_append]

theorem entries_append (t : Table κ ν) (x : Entry κ ν) :
    (t.append x).entries = t.entries ++ [x] := by
  rcases t with ⟨_ | s⟩
  · exact Store.live_append _ _
  · rw [append]
    dsimp only
    split
    · show ((s.rebuild (s.size + 1)).append x).live = s.live ++ [x]
      rw [Store.live_append, live_rebuild]
    · exact Store.live_append _ _

/-- What is found is the value of an entry. -/
theorem find?_mem {t : Table κ ν} {hash : UInt32} {same : Entry κ ν → Bool} {v : ν}
    (h : t.find? hash same = some v) : ∃ x ∈ t.entries, x.val = v := by
  obtain ⟨⟨i, e⟩, -, h⟩ := Option.bind_eq_some_iff.mp h
  obtain ⟨s, hs, h⟩ := Option.bind_eq_some_iff.mp h
  obtain ⟨x, hx, rfl⟩ := Option.map_eq_some_iff.mp h
  refine ⟨x, ?_, rfl⟩
  rw [entries, hs]
  exact mem_live.mpr (Array.mem_of_getElem? (Option.join_eq_some_iff.mp hx))

/-- Storing an entry brings its key and its value into the table and nothing else. -/
theorem mem_entries_put {t : Table κ ν} {found : Option (Nat × Nat)} {ent x : Entry κ ν}
    (hx : x ∈ (t.put found ent).entries) :
    x = ent ∨ ∃ y ∈ t.entries, x.key = y.key ∧ (x.val = y.val ∨ x.val = ent.val) := by
  rcases found with _ | ⟨i, e⟩
  · have hx' : x ∈ (t.append ent).entries := hx
    rw [entries_append, List.mem_append, List.mem_singleton] at hx'
    rcases hx' with hx' | hx'
    · exact .inr ⟨x, hx', rfl, .inl rfl⟩
    · exact .inl hx'
  · rcases t with ⟨_ | s⟩
    · exact nomatch hx
    · have hx' : some x ∈ s.places.modify e (·.map fun old => { old with val := ent.val }) :=
        mem_live.mp hx
      obtain ⟨j, hj⟩ := Array.mem_iff_getElem?.mp hx'
      rw [Array.getElem?_modify] at hj
      split at hj
      · obtain ⟨o, ho, hx⟩ := Option.map_eq_some_iff.mp hj
        obtain ⟨y, rfl, rfl⟩ := Option.map_eq_some_iff.mp hx
        exact .inr ⟨y, mem_live.mpr (Array.mem_of_getElem? ho), rfl, .inr rfl⟩
      · exact .inr ⟨x, mem_live.mpr (Array.mem_of_getElem? hj), rfl, .inl rfl⟩

theorem mem_entries_drop {t : Table κ ν} {found : Option (Nat × Nat)} {x : Entry κ ν}
    (hx : x ∈ (t.drop found).entries) : x ∈ t.entries := by
  rcases found with _ | ⟨i, e⟩
  · exact hx
  · rcases t with ⟨_ | s⟩
    · exact hx
    · have hx' : x ∈ (s.without i e).live := by
        rw [drop, eraseAt] at hx
        dsimp only at hx
        split at hx
        · exact live_rebuild (s.without i e) _ ▸ hx
        · exact hx
      rw [mem_live] at hx'
      obtain ⟨j, hj⟩ := Array.mem_iff_getElem?.mp hx'
      have hj' : (s.places.setIfInBounds e none)[j]? = some (some x) := hj
      rw [Array.getElem?_setIfInBounds] at hj'
      split at hj'
      · split at hj' <;> simp at hj'
      · exact mem_live.mpr (Array.mem_of_getElem? hj')

end Table

end ScriptEngine
