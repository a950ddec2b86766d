import ScriptEngine.Proofs.Heap.Scopes

/-!
# What parameters stand for

A call binds the first parameters to its arguments and the others to their defaults.  The arguments may
come by place or under the names of the parameters, in any order; the bindings are the same.

* `Loaded.bindings`      what the parameters stand for in a call;
* `Loaded.bindings_eq`   parameter by parameter;
* `Loaded.lookup_bindings`   a default counts where there is no argument;
* `Heap.Names`           a hash of named arguments;
* `Meaning.define`, `Meaning.settle`   one binding, over an older one or only where there is none.
-/

namespace ScriptEngine

theorem forall₂_mem {α β : Type} {R : α → β → Prop} {l : List α} {r : List β}
    (h : List.Forall₂ R l r) : List.Forall₂ (fun a b => a ∈ l ∧ b ∈ r ∧ R a b) l r := by
  induction h with
  | nil => exact .nil
  | cons hab _ ih =>
    exact .cons ⟨List.mem_cons_self, List.mem_cons_self, hab⟩ (ih.imp fun a b ⟨ha, hb, hab⟩ =>
      ⟨List.mem_cons_of_mem _ ha, List.mem_cons_of_mem _ hb, hab⟩)

theorem exists_of_forall₂ {α β : Type} {R : α → β → Prop} {l : List α} {r : List β}
    (h : List.Forall₂ R l r) {b : β} (hb : b ∈ r) : ∃ a ∈ l, R a b := by
  induction h with
  | nil => exact nomatch hb
  | @cons a c l r hac _ ih =>
    rcases List.mem_cons.mp hb with rfl | hb
    · exact ⟨a, List.mem_cons_self, hac⟩
    · obtain ⟨x, hx, hxb⟩ := ih hb
      exact ⟨x, List.mem_cons_of_mem _ hx, hxb⟩

theorem map_fst_zip_take {α β : Type} (l : List α) (r : List β) :
    (l.zip r).map Prod.fst = l.take r.length := by
  induction l generalizing r with
  | nil => rw [List.zip_nil_left, List.map_nil, List.take_nil]
  | cons a l ih =>
    cases r with
    | nil => rfl
    | cons b r => rw [List.zip_cons_cons, List.map_cons, ih, List.length_cons, List.take_succ_cons]

/-! ## one binding after the other -/

/-- What names stand for. -/
abbrev Meaning : Type := Value → Option Value

namespace Meaning

/-- A name bound to a value, in place of what it stood for. -/
def define (B : Meaning) (p : Value × Value) : Meaning := Function.update B p.1 (some p.2)

/-- A name bound to a value unless it is bound already. -/
def settle (B : Meaning) (p : Value × Value) : Meaning :=
  if (B p.1).isSome then B else define B p

variable {B : Meaning} {l l' : List (Value × Value)} {x v : Value}

/-- Different names come to stand for their own values. -/
theorem foldl_define (hl : (l.map Prod.fst).Nodup) (x : Value) :
    l.foldl define B x = (l.lookup x).or (B x) := by
  induction l generalizing B with
  | nil => rfl
  | cons p l ih =>
    obtain ⟨hp, hl⟩ := List.nodup_cons.mp hl
    rw [List.foldl_cons, ih hl, List.lookup_cons, define]
    by_cases hx : x = p.1
    · subst hx
      -- the name is not bound again
      have hnone : l.lookup p.1 = none := List.lookup_eq_none_iff.mpr fun q hq => by
        rw [bne_iff_ne]
        exact fun e => hp (List.mem_map.mpr ⟨q, hq, e.symm⟩)
      rw [hnone, Function.update_self, beq_self_eq_true]
      rfl
    · rw [Function.update_of_ne hx, beq_false_of_ne hx]

theorem foldl_settle (x : Value) : l.foldl settle B x = (B x).or (l.lookup x) := by
  induction l generalizing B with
  | nil => exact (Option.or_none ..).symm
  | cons p l ih =>
    rw [List.foldl_cons, ih, List.lookup_cons, settle]
    by_cases hx : x = p.1
    · subst hx
      rw [beq_self_eq_true]
      cases hB : B p.1 with
      | some v =>
        rw [Option.isSome_some, if_pos rfl, hB]
        rfl
      | none =>
        rw [Option.isSome_none, if_neg nofun, define, Function.update_self]
        rfl
    · rw [beq_false_of_ne hx]
      split
      · rfl
      · rw [define, Function.update_of_ne hx]

end Meaning

section

variable {l l' : List (Value × Value)} {x v : Value}

theorem isSome_lookup (hx : x ∈ l.map Prod.fst) : (l.lookup x).isSome = true := by
  by_contra hnone
  obtain ⟨p, hp, rfl⟩ := List.mem_map.mp hx
  have hne := List.lookup_eq_none_iff.mp (Option.not_isSome_iff_eq_none.mp hnone) p hp
  exact bne_iff_ne.mp hne rfl

theorem lookup_eq_some_iff_mem (hl : (l.map Prod.fst).Nodup) :
    l.lookup x = some v ↔ (x, v) ∈ l := by
  rw [List.lookup_eq_some_iff]
  constructor
  · rintro ⟨before, after, rfl, -⟩
    exact List.mem_append_right _ List.mem_cons_self
  · intro hmem
    obtain ⟨before, after, rfl⟩ := List.append_of_mem hmem
    refine ⟨before, after, rfl, fun p hp => bne_iff_ne.mpr ?_⟩
    rintro rfl
    rw [List.map_append, List.map_cons] at hl
    exact List.disjoint_of_nodup_append hl (List.mem_map_of_mem hp) List.mem_cons_self

/-- The order of bindings of different names does not matter. -/
theorem lookup_perm (hl : (l.map Prod.fst).Nodup) (hp : l.Perm l') (x : Value) :
    l'.lookup x = l.lookup x := by
  have hl' : (l'.map Prod.fst).Nodup := (hp.map _).nodup_iff.mp hl
  refine Option.ext fun v => ?_
  rw [lookup_eq_some_iff_mem hl, lookup_eq_some_iff_mem hl', hp.mem_iff]

end

/-! ## parameters -/

namespace Loaded

def names (c : Loaded) : List Value :=
  c.params.toList.map c.const ++ c.optional.toList.map fun p => c.const p.1

def defaults (c : Loaded) : List (Value × Value) :=
  c.optional.toList.map fun p => (c.const p.1, c.const p.2)

/-- What the parameters stand for in a call: the first ones for the arguments, the others for their
defaults. -/
def bindings (c : Loaded) (args : List Value) : List (Value × Value) :=
  c.names.zip args ++ c.defaults.drop (args.length - c.params.size)

/-- The name of the rest vector, where the code uses it. -/
def freshRest (c : Loaded) : Option Value := if c.needsRest then c.rest.map c.const else none

variable {c : Loaded} {args : List Value}

theorem NameAt.registered {h : Heap} {i : Nat} (hi : c.NameAt h i) :
    ∃ name s, h.symbols[name]? = some s ∧ c.const i = .obj s ∧ c.constHash i = hashBytes name := by
  obtain ⟨name, s, hconst, hs, -, hhash⟩ := hi
  refine ⟨name, s, hs, ?_, ?_⟩
  · rw [const, hconst]
    rfl
  · rw [constHash, hhash]
    rfl

theorem Proper.registered {h : Heap} (hc : c.Proper h) {x : Value} (hx : x ∈ c.names) :
    ∃ (name : Bytes) (s : Addr), h.symbols[name]? = some s ∧ x = .obj s := by
  rcases List.mem_append.mp hx with hx | hx
  · obtain ⟨i, hi, rfl⟩ := List.mem_map.mp hx
    obtain ⟨name, s, hs, hconst, -⟩ := (hc.required i (Array.mem_toList_iff.mp hi)).registered
    exact ⟨name, s, hs, hconst⟩
  · obtain ⟨p, hp, rfl⟩ := List.mem_map.mp hx
    obtain ⟨name, s, hs, hconst, -⟩ := (hc.optional p (Array.mem_toList_iff.mp hp)).registered
    exact ⟨name, s, hs, hconst⟩

theorem length_names : c.names.length = c.params.size + c.optional.size := by
  rw [names, List.length_append, List.length_map, List.length_map, Array.length_toList,
    Array.length_toList]

theorem map_fst_defaults : c.defaults.map Prod.fst = c.optional.toList.map fun p => c.const p.1 := by
  rw [defaults, List.map_map]
  rfl

theorem map_fst_bindings (hneed : c.params.size ≤ args.length) :
    (c.bindings args).map Prod.fst = c.names := by
  have hdrop : c.names.drop args.length =
      (c.defaults.map Prod.fst).drop (args.length - c.params.size) := by
    rw [names, List.drop_append, List.drop_eq_nil_of_le (by simpa using hneed), List.nil_append,
      List.length_map, map_fst_defaults]
    rfl
  rw [bindings, List.map_append, map_fst_zip_take, List.map_drop, ← hdrop, List.take_append_drop]

theorem lookup_bindings (x : Value) :
    ((c.names.zip args).lookup x).or (c.defaults.lookup x) = (c.bindings args).lookup x := by
  rw [bindings, List.lookup_append]
  cases hx : (c.names.zip args).lookup x with
  | some v => rfl
  | none =>
    rw [Option.none_or, Option.none_or]
    -- the defaults that are left out are those of parameters with arguments
    have hnone : (c.defaults.take (args.length - c.params.size)).lookup x = none := by
      rw [List.lookup_eq_none_iff] at hx ⊢
      intro p hp
      have hname : p.1 ∈ c.names.take args.length := by
        have hfst := List.mem_map_of_mem (f := Prod.fst) hp
        rw [List.map_take, map_fst_defaults] at hfst
        rw [names, List.take_append, List.length_map]
        exact List.mem_append_right _ hfst
      rw [← map_fst_zip_take] at hname
      obtain ⟨q, hq, hqp⟩ := List.mem_map.mp hname
      exact hqp ▸ hx q hq
    have hsplit := List.take_append_drop (args.length - c.params.size) c.defaults
    rw [← congrArg (List.lookup x) hsplit, List.lookup_append, hnone, Option.none_or]

theorem map_optional (os : List (Nat × Nat)) (n : Nat) :
    ((os.zipIdx n).map fun p => (c.const p.1.1, args[c.params.size + p.2]?.getD (c.const p.1.2))) =
      (os.map fun p => c.const p.1).zip (args.drop (c.params.size + n)) ++
        (os.map fun p => (c.const p.1, c.const p.2)).drop (args.length - (c.params.size + n)) := by
  induction os generalizing n with
  | nil => simp
  | cons o os ih =>
    rw [List.zipIdx_cons, List.map_cons, ih, List.map_cons, List.map_cons]
    by_cases hn : c.params.size + n < args.length
    · have hlen : args.length - (c.params.size + n) = args.length - (c.params.size + (n + 1)) + 1 := by
        omega
      rw [List.drop_eq_getElem_cons hn, hlen, List.getElem?_eq_getElem hn]
      rfl
    · have hle := Nat.le_of_not_lt hn
      have hle' : args.length ≤ c.params.size + (n + 1) := Nat.le_succ_of_le hle
      rw [List.drop_eq_nil_of_le hle, Nat.sub_eq_zero_of_le hle, Nat.sub_eq_zero_of_le hle',
        List.getElem?_eq_none hle, List.drop_eq_nil_of_le hle', List.zip_nil_right, List.zip_nil_right]
      rfl

/-- **The bindings parameter by parameter**, given arguments for all that are required. -/
theorem bindings_eq (hneed : c.params.size ≤ args.length) :
    ((c.params.toList.zip args).map fun p => (c.const p.1, p.2)) ++
      (c.optional.toList.zipIdx.map fun p =>
        (c.const p.1.1, args[c.params.size + p.2]?.getD (c.const p.1.2))) = c.bindings args := by
  have hsplit := List.take_append_drop c.params.size args
  have hlength : c.params.toList.length = (args.take c.params.size).length := by simpa using hneed
  have htake : c.params.toList.zip (args.take c.params.size) = c.params.toList.zip args := by
    have happend : (c.params.toList ++ []).zip (args.take c.params.size ++ args.drop c.params.size) = _ :=
      List.zip_append hlength
    rwa [List.append_nil, hsplit, List.zip_nil_left, List.append_nil, eq_comm] at happend
  have hzip : c.names.zip args =
      ((c.params.toList.zip args).map fun p => (c.const p.1, p.2)) ++
        (c.optional.toList.map fun p => c.const p.1).zip (args.drop c.params.size) := by
    rw [names, ← congrArg (List.zip _) hsplit, List.zip_append (by rw [List.length_map, hlength]),
      List.zip_map_left, htake]
    rfl
  rw [bindings, hzip, map_optional, List.append_assoc]
  rfl

end Loaded

namespace Heap

variable {h : Heap} {named v : Value} {names args : List Value}

/-- A hash of named arguments: each of the first names has its argument under a key that is the same,
the name itself or another string, in any order, and there is nothing else. -/
def Names (h : Heap) (named : Value) (names args : List Value) : Prop :=
  ∃ t ps, h.table? named = some t ∧ ps.Perm (names.zip args) ∧
    List.Forall₂ (fun e p => h.keysEqual e.key p.1 = true ∧ e.val = p.2) t.entries ps

theorem Live.argument (hlive : h.Live named) (hnamed : h.Names named names args)
    (hlen : args.length ≤ names.length) (hv : v ∈ args) : h.Live v := by
  obtain ⟨t, ps, htable, hperm, hentries⟩ := hnamed
  obtain ⟨a, rfl, ht⟩ := obj_of_table? htable
  have hmem : v ∈ ps.map Prod.snd := by
    rw [(hperm.map Prod.snd).mem_iff, List.map_snd_zip hlen]
    exact hv
  obtain ⟨p, hp, rfl⟩ := List.mem_map.mp hmem
  obtain ⟨e, he, -, hval⟩ := exists_of_forall₂ hentries hp
  exact hval ▸ (hlive.entry ht he).2

end Heap

end ScriptEngine
