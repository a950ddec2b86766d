import Mathlib
import ScriptEngine.Proofs.Heap.Scopes

/-!
# Chains of closures that end

A walk along the closures of a function follows one after the other and has no bound of its own.  It ends
where the chain leads on to a value that is no closure, after fewer links than there are cells.

* `Heap.Leads`        so many links lead to a value that is no closure, and no cell on the way is free;
* `Heap.Leads.le_size`    there are no more of them than cells;
* `Heap.Leads.holds`, `Heap.Leads.thins`   a chain stays as it is when other cells change or are freed;
* `Heap.Walk`, `Heap.Climb`   the walks, which go on until something ends them;
* `Heap.Settles`      all walks from a value end, and give what the bounded ones give;
* `Heap.Ended`        all closures lead to an end.
-/

namespace ScriptEngine.Heap

variable {h h' : Heap} {v last : Value} {n : Nat}

/-- From a value so many links lead to one that is no closure, and no free cell is met. -/
inductive Leads (h : Heap) : Value → Nat → Value → Prop
  | ends {v : Value} (hv : h.closure? v = none) (there : h.There v) : Leads h v 0 v
  | link {v ns next last : Value} {n : Nat} (hv : h.closure? v = some (ns, next))
    (rest : Leads h next n last) : Leads h v (n + 1) last

theorem Leads.nil : h.Leads .nil 0 .nil := .ends rfl nofun

theorem closure?_obj {a : Addr} {ns next : Value} :
    h.closure? (.obj a) = some (ns, next) ↔ h.body a = .closure ns next := by
  refine ⟨fun hv => ?_, fun hb => ?_⟩
  · obtain ⟨b, hab, hb⟩ := obj_of_closure? hv
    cases hab
    exact hb
  · rw [closure?, show h.bodyOf (.obj a) = .closure ns next from hb]

theorem there_of_closure? {p : Value × Value} (hv : h.closure? v = some p) : h.There v := by
  obtain ⟨a, rfl, hb⟩ := obj_of_closure? hv
  rintro _ ⟨⟩
  rw [hb]
  exact Body.noConfusion

theorem Leads.there (hl : h.Leads v n last) : h.There v := by
  cases hl with
  | ends hv there => exact there
  | link hv rest => exact there_of_closure? hv

theorem Leads.unique {m : Nat} {last' : Value} (hl : h.Leads v n last) (hl' : h.Leads v m last') :
    n = m ∧ last = last' := by
  induction hl generalizing m with
  | ends hv there =>
    cases hl' with
    | ends hv' there' => exact ⟨rfl, rfl⟩
    | link hv' rest' => exact nomatch hv.symm.trans hv'
  | link hv rest ih =>
    cases hl' with
    | ends hv' there' => exact nomatch hv'.symm.trans hv
    | link hv' rest' =>
      cases hv.symm.trans hv'
      obtain ⟨rfl, rfl⟩ := ih rest'
      exact ⟨rfl, rfl⟩

/-- The closures of a chain, each with what is left of it. -/
theorem Leads.closure (hl : h.Leads v n last) {k : Nat} (hk : k < n) :
    ∃ a, a < h.cells.size ∧ h.Leads (.obj a) (n - k) last := by
  induction hl generalizing k with
  | ends hv there => exact absurd hk (Nat.not_lt_zero k)
  | @link v ns next last n hv rest ih =>
    cases k with
    | zero =>
      obtain ⟨a, rfl, hb⟩ := obj_of_closure? hv
      exact ⟨a, lt_size_of_body (hb ▸ Body.noConfusion), .link hv rest⟩
    | succ k =>
      rw [Nat.add_sub_add_right]
      exact ih (Nat.lt_of_succ_lt_succ hk)

/-- **A chain that ends meets no cell twice**, since less of it is left each time. -/
theorem Leads.le_size (hl : h.Leads v n last) : n ≤ h.cells.size := by
  have hcell (i : Fin n) : ∃ a : Fin h.cells.size, h.Leads (.obj a) (n - i) last := by
    obtain ⟨a, ha, hrest⟩ := hl.closure i.isLt
    exact ⟨⟨a, ha⟩, hrest⟩
  choose cell hcell using hcell
  have hinj : Function.Injective cell := by
    intro i j hij
    have hleft : n - (i : Nat) = n - j := ((hcell i).unique (hij ▸ hcell j)).1
    omega
  have hcard := Fintype.card_le_of_injective cell hinj
  rwa [Fintype.card_fin, Fintype.card_fin] at hcard

/-- The namespaces of a chain that ends are the same under every bound that is not too small. -/
theorem Leads.scopes_eq (hl : h.Leads v n last) {m : Nat} (hm : n ≤ m) : h.scopes m v = h.scopes n v := by
  induction hl generalizing m with
  | ends hv there =>
    cases m with
    | zero => rfl
    | succ m => rw [scopes, scopes, hv]
  | link hv rest ih =>
    obtain ⟨m, rfl⟩ : ∃ k, m = k + 1 := ⟨m - 1, by omega⟩
    rw [scopes, scopes, hv]
    exact congrArg _ (ih (Nat.le_of_succ_le_succ hm))

/-! ## other cells change -/

/-- Closures stay as they are, and what is no closure does not become one. -/
theorem Leads.holds (hl : h.Leads v n last) (hh : h.Holds h') : h'.Leads v n last := by
  induction hl with
  | @ends v hv there =>
    refine .ends ?_ fun a ha => hh.body_ne (there a ha)
    rw [Option.eq_none_iff_forall_ne_some]
    rintro ⟨ns, next⟩ hv'
    obtain ⟨a, rfl, hb⟩ := obj_of_closure? hv'
    have hkind : (h.body a).kind? = some .closure := (hh.kind a (there a rfl)).symm.trans (by rw [hb]; rfl)
    cases ha : h.body a with
    | closure ns' next' => exact nomatch hv.symm.trans (closure?_obj.mpr ha)
    | _ => exact nomatch (congrArg Body.kind? ha).symm.trans hkind
  | @link v ns next last n hv rest ih =>
    obtain ⟨a, rfl, hb⟩ := obj_of_closure? hv
    have hafter : h'.body a = .closure ns next := (hh.fixed a (by rw [hb]; trivial)).trans hb
    exact .link (closure?_obj.mpr hafter) ih

/-- What a closure that is left refers to is left too. -/
theorem Leads.thins (hl : h.Leads v n last) (ht : h.Thins h') (there : h'.There v) : h'.Leads v n last := by
  induction hl with
  | @ends v hv _ =>
    refine .ends ?_ there
    rw [Option.eq_none_iff_forall_ne_some]
    rintro ⟨ns, next⟩ hv'
    obtain ⟨a, rfl, hb⟩ := obj_of_closure? hv'
    have hsame := (ht.body a).resolve_right (there a rfl)
    exact nomatch hv.symm.trans (closure?_obj.mpr (hsame.symm.trans hb))
  | @link v ns next last n hv rest ih =>
    obtain ⟨a, rfl, hb⟩ := obj_of_closure? hv
    have hleft := there a rfl
    have hafter : h'.body a = .closure ns next := ((ht.body a).resolve_right hleft).trans hb
    refine .link (closure?_obj.mpr hafter) (ih ?_)
    rintro b rfl
    have hchild : .obj b ∈ (h.body a).children := by
      rw [hb]
      exact List.mem_cons_of_mem _ List.mem_cons_self
    rw [ht.child a b hleft hchild]
    exact rest.there b rfl

/-! ## walks -/

/-- Goes through the namespaces of a chain up to the first one that is wanted. -/
inductive Walk (h : Heap) (wanted : Value → Bool) : Value → Option Value → Prop
  | found {v ns next : Value} (hv : h.closure? v = some (ns, next)) (hns : wanted ns = true) :
    Walk h wanted v (some ns)
  | further {v ns next : Value} {r : Option Value} (hv : h.closure? v = some (ns, next))
    (hns : wanted ns = false) (rest : Walk h wanted next r) : Walk h wanted v r
  | ends {v : Value} (hv : h.closure? v = none) : Walk h wanted v none

/-- Goes so many links up for the namespace there. -/
inductive Climb (h : Heap) : Value → Nat → Option Value → Prop
  | here {v ns next : Value} (hv : h.closure? v = some (ns, next)) : Climb h v 0 (some ns)
  | up {v ns next : Value} {level : Nat} {r : Option Value} (hv : h.closure? v = some (ns, next))
    (rest : Climb h next level r) : Climb h v (level + 1) r
  | ends {v : Value} {level : Nat} (hv : h.closure? v = none) : Climb h v level none

theorem Leads.walk (hl : h.Leads v n last) (wanted : Value → Bool) :
    h.Walk wanted v ((h.scopes n v).find? wanted) := by
  induction hl with
  | ends hv there => exact .ends hv
  | @link v ns next last n hv rest ih =>
    rw [scopes, hv]
    cases hns : wanted ns with
    | true =>
      rw [List.find?_cons_of_pos hns]
      exact .found hv hns
    | false =>
      rw [List.find?_cons_of_neg (by rw [hns]; exact Bool.false_ne_true)]
      exact .further hv hns ih

theorem Leads.climb (hl : h.Leads v n last) (level : Nat) : h.Climb v level (h.scopes n v)[level]? := by
  induction hl generalizing level with
  | ends hv there => exact .ends hv
  | link hv rest ih =>
    rw [scopes, hv]
    cases level with
    | zero => exact .here hv
    | succ level => exact .up hv (ih level)

theorem firstNamed?_eq_find? (h : Heap) (sym : Value) (hash : UInt32) (nss : List Value) :
    h.firstNamed? sym hash nss =
      (nss.find? fun ns => (h.named? ns sym hash).isSome).bind fun ns => h.named? ns sym hash := by
  induction nss with
  | nil => rfl
  | cons ns nss ih =>
    rw [firstNamed?] at ih ⊢
    rw [List.findSome?_cons]
    cases hns : h.named? ns sym hash with
    | none =>
      rw [List.find?_cons_of_neg (by rw [hns]; exact Bool.false_ne_true)]
      exact ih
    | some x =>
      rw [List.find?_cons_of_pos (by rw [hns]; rfl)]
      exact hns.symm

theorem target_eq_find? (h : Heap) (locals sym : Value) (hash : UInt32) (outer : List Value) :
    h.target locals sym hash outer = if (h.named? locals sym hash).isSome then locals
      else (outer.find? fun ns => (h.named? ns sym hash).isSome).getD locals := by
  rw [target, List.find?_cons]
  cases (h.named? locals sym hash).isSome <;> rfl

/-- The walks from a value end: for a name, for where to assign to it, and for every level.  What they give
is what is found within a bound of one link more than there are cells. -/
structure Settles (h : Heap) (v : Value) : Prop where
  named : ∀ sym hash, ∃ r, h.Walk (fun ns => (h.named? ns sym hash).isSome) v r ∧
    h.firstNamed? sym hash (h.scopes (h.cells.size + 1) v) = r.bind fun ns => h.named? ns sym hash
  target : ∀ sym hash locals, ∃ r, h.Walk (fun ns => (h.named? ns sym hash).isSome) v r ∧
    h.target locals sym hash (h.scopes (h.cells.size + 1) v) =
      if (h.named? locals sym hash).isSome then locals else r.getD locals
  level : ∀ level, h.Climb v level (h.scopes (h.cells.size + 1) v)[level]?

theorem Leads.settles (hl : h.Leads v n last) : h.Settles v := by
  have hscopes : h.scopes (h.cells.size + 1) v = h.scopes n v := hl.scopes_eq (Nat.le_succ_of_le hl.le_size)
  refine ⟨fun sym hash => ⟨_, hl.walk _, ?_⟩, fun sym hash locals => ⟨_, hl.walk _, ?_⟩, fun level => ?_⟩
  · rw [hscopes, firstNamed?_eq_find?]
  · rw [hscopes, target_eq_find?]
  · rw [hscopes]
    exact hl.climb level

/-! ## all closures -/

/-- All closures lead to an end. -/
def Ended (h : Heap) : Prop := ∀ a ns next, h.body a = .closure ns next → ∃ n last, h.Leads next n last

theorem Ended.leads (he : h.Ended) (there : h.There v) : ∃ n last, h.Leads v n last := by
  cases hv : h.closure? v with
  | none => exact ⟨0, v, .ends hv there⟩
  | some p =>
    obtain ⟨ns, next⟩ := p
    obtain ⟨a, rfl, hb⟩ := obj_of_closure? hv
    obtain ⟨n, last, hl⟩ := he a ns next hb
    exact ⟨n + 1, last, .link hv hl⟩

theorem Ended.thins (he : h.Ended) (ht : h.Thins h') : h'.Ended := by
  intro a ns next hb
  have hleft : h'.body a ≠ .free := by
    rw [hb]
    exact Body.noConfusion
  have hbefore : h.body a = .closure ns next := ((ht.body a).resolve_right hleft).symm.trans hb
  obtain ⟨n, last, hl⟩ := he a ns next hbefore
  refine ⟨n, last, hl.thins ht ?_⟩
  rintro b rfl
  have hchild : .obj b ∈ (h.body a).children := by
    rw [hbefore]
    exact List.mem_cons_of_mem _ List.mem_cons_self
  rw [ht.child a b hleft hchild]
  exact hl.there b rfl

/-- Objects stay, and a new closure leads on to what is there. -/
theorem Ended.holds (he : h.Ended) (hh : h.Holds h')
    (hnew : ∀ a ns next, h.body a = .free → h'.body a = .closure ns next → h.There next) : h'.Ended := by
  intro a ns next hb
  by_cases hfree : h.body a = .free
  · obtain ⟨n, last, hl⟩ := he.leads (hnew a ns next hfree hb)
    exact ⟨n, last, hl.holds hh⟩
  · have hkind : (h.body a).kind? = some .closure := (hh.kind a hfree).symm.trans (by rw [hb]; rfl)
    cases ha : h.body a with
    | closure ns' next' =>
      have hsame := hh.fixed a (by rw [ha]; trivial)
      rw [hb, ha] at hsame
      obtain ⟨rfl, rfl⟩ := Body.closure.inj hsame
      obtain ⟨n, last, hl⟩ := he a ns next ha
      exact ⟨n, last, hl.holds hh⟩
    | _ => exact nomatch (congrArg Body.kind? ha).symm.trans hkind

theorem ended_of_all (ha : h.All fun b => ∀ ns next, b ≠ .closure ns next) : h.Ended := fun a ns next hb =>
  absurd hb (All.bodyOf (fun _ _ => Body.noConfusion) ha (.obj a) ns next)

end ScriptEngine.Heap
