import ScriptEngine.Proofs.Code.Expressions
import ScriptEngine.Proofs.Machine.Computing
import ScriptEngine.Proofs.Number

/-!
# The code of an expression computes its value

* `Evaluate.room`         how many operands the code of an expression needs;
* `Lexicon.Loads`         the objects that stand for the constants of a unit;
* `Machine.computes_expr` the code of an expression computes what evaluating it directly gives.
-/

namespace ScriptEngine

open Generate (binaryOp? literal?)
open Act (holding working Replaces)

theorem Number.ofFloat_of_beq_one {x : Float} (h : (x == 1.0) = true) : ofFloat x = ofFloat 1.0 := by
  have hcompare : ((ofFloat x).unpacked.compare (ofFloat 1.0).unpacked == some .eq) = true := h
  rw [beq_iff_eq, compare_eq_iff] at hcompare
  rcases hcompare with ⟨s, t, -, ht⟩ | ⟨he, hne⟩
  · exact nomatch ht
  · exact bits_eq_of_unpacked he hne

namespace Evaluate

section

-- How many operands an expression inside needs.
variable (room : Tree → Nat)

def elementsRoom (l : List Tree) : Nat := l.foldr (fun t n => max (1 + room t) n) 1

def entriesRoom : List Tree → Nat
  | .mk .colon _ [_, v] :: ts => max (2 + room v) (entriesRoom ts)
  | _ => 1

def assignRoom (lhs rhs : Tree) : Nat :=
  match lhs with
  | .mk .dot _ [owner, _] => max (room owner) (1 + room rhs)
  | .mk .index _ [owner, k] => max (room owner) (max (1 + room k) (2 + room rhs))
  | _ => room rhs

def compoundRoom (lhs rhs : Tree) : Nat :=
  match lhs with
  | .mk .dot _ [owner, _] => max (room owner) (2 + room rhs)
  | .mk .index _ [owner, k] => max (room owner) (max (1 + room k) (3 + room rhs))
  | _ => 1 + room rhs

/-- How many operands an expression needs, given how many those inside need. -/
def roomWith (t : Tree) : Nat :=
  match t with
  | .mk .lbra _ [list] => elementsRoom room list.items
  | .mk .lcurl _ [list] => entriesRoom room list.items
  | .mk .minus _ [a] | .mk .neg _ [a] | .mk .not _ [a] => room a
  | .mk .and _ [a, b] | .mk .or _ [a, b] => max (room a) (room b)
  | .mk .question _ [c, .mk .colon _ [a, b]] => max (room c) (max (room a) (room b))
  | .mk .assign _ [lhs, rhs] => assignRoom room lhs rhs
  | .mk .dot _ [owner, _] => room owner
  | .mk .index _ [owner, .mk .colon _ [start, stop]] =>
    max (room owner) (max (1 + room start) (2 + room stop))
  | .mk .index _ [owner, k] => max (room owner) (1 + room k)
  | .mk kind _ [a, b] =>
    if (kind.compoundBase?.bind binaryOp?).isSome then compoundRoom room a b else max (room a) (1 + room b)
  | _ => 1

end

/-- How many operands the code of an expression of at most the given height needs at once. -/
def room : Nat → Tree → Nat
  | 0, _ => 1
  | n + 1, t => roomWith (room n) t

section

variable {r : Tree → Nat}

theorem one_le_elementsRoom (l : List Tree) : 1 ≤ elementsRoom r l := by
  induction l with
  | nil => exact Nat.le_refl 1
  | cons t l ih => exact Nat.le_trans ih (Nat.le_max_right _ _)

theorem one_le_entriesRoom (l : List Tree) : 1 ≤ entriesRoom r l := by
  fun_induction entriesRoom r l with
  | case1 _ _ v ts ih => exact Nat.le_trans ih (Nat.le_max_right _ _)
  | case2 => exact Nat.le_refl 1

theorem one_le_assignRoom (hr : ∀ t, 1 ≤ r t) (lhs rhs : Tree) : 1 ≤ assignRoom r lhs rhs := by
  unfold assignRoom
  split
  · exact Nat.le_trans (hr _) (Nat.le_max_left _ _)
  · exact Nat.le_trans (hr _) (Nat.le_max_left _ _)
  · exact hr _

theorem one_le_compoundRoom (hr : ∀ t, 1 ≤ r t) (lhs rhs : Tree) : 1 ≤ compoundRoom r lhs rhs := by
  unfold compoundRoom
  split
  · exact Nat.le_trans (hr _) (Nat.le_max_left _ _)
  · exact Nat.le_trans (hr _) (Nat.le_max_left _ _)
  · exact Nat.le_add_right 1 _

theorem one_le_roomWith (hr : ∀ t, 1 ≤ r t) (t : Tree) : 1 ≤ roomWith r t := by
  have hleft (t : Tree) (n : Nat) : 1 ≤ max (r t) n := Nat.le_trans (hr t) (Nat.le_max_left _ _)
  unfold roomWith
  split
  · exact one_le_elementsRoom _
  · exact one_le_entriesRoom _
  · exact hr _
  · exact hr _
  · exact hr _
  · exact hleft _ _
  · exact hleft _ _
  · exact hleft _ _
  · exact one_le_assignRoom hr _ _
  · exact hr _
  · exact hleft _ _
  · exact hleft _ _
  · split
    · exact one_le_compoundRoom hr _ _
    · exact hleft _ _
  · exact Nat.le_refl 1

end

theorem one_le_room (n : Nat) (t : Tree) : 1 ≤ room n t := by
  induction n generalizing t with
  | zero => exact Nat.le_refl 1
  | succ n ih => exact one_le_roomWith ih t

end Evaluate

theorem binaryOp?_of_compound {kind : Tok} {op : Op} (h : kind.compoundBase?.bind binaryOp? = some op) :
    binaryOp? kind = none := by
  cases kind <;> first | rfl | cases h

namespace Tree.Plain

variable {kind : Tok} {op : Op} {line line' : Nat} {owner k start stop a b : Tree}

theorem not_statement {t : Tree} (h : t.Plain) : Generate.isStatement t = false := by
  cases h with
  | @compound kind _ _ _ hkind => cases kind <;> first | rfl | cases hkind
  | @binary kind _ _ _ hkind => cases kind <;> first | rfl | cases hkind
  | _ => rfl

theorem not_colon (h : (Tree.mk .colon line [start, stop]).Plain) : False := by
  cases h with
  | compound hkind => exact nomatch hkind
  | binary hkind => exact nomatch hkind

theorem of_slice (h : (Tree.mk .index line [owner, .mk .colon line' [start, stop]]).Plain) :
    owner.Plain ∧ start.Plain ∧ stop.Plain := by
  cases h with
  | slice ho hs he => exact ⟨ho, hs, he⟩
  | element _ hk => exact hk.not_colon.elim
  | compound hkind => exact nomatch hkind
  | binary hkind => exact nomatch hkind

theorem of_element (h : (Tree.mk .index line [owner, k]).Plain)
    (hk : ∀ line start stop, k ≠ .mk .colon line [start, stop]) : owner.Plain ∧ k.Plain := by
  cases h with
  | slice => exact absurd rfl (hk _ _ _)
  | element ho hk => exact ⟨ho, hk⟩
  | compound hkind => exact nomatch hkind
  | binary hkind => exact nomatch hkind

theorem of_compound (h : (Tree.mk kind line [a, b]).Plain)
    (hk : kind.compoundBase?.bind binaryOp? = some op) : Target a ∧ b.Plain := by
  cases h with
  | compound _ ha hb => exact ⟨ha, hb⟩
  | binary hkind =>
    rw [binaryOp?_of_compound hk] at hkind
    exact nomatch hkind
  | _ => exact nomatch hk

theorem of_binary (h : (Tree.mk kind line [a, b]).Plain) (hk : binaryOp? kind = some op) :
    a.Plain ∧ b.Plain := by
  cases h with
  | binary _ ha hb => exact ⟨ha, hb⟩
  | compound hkind =>
    obtain ⟨op', hop'⟩ := Option.isSome_iff_exists.mp hkind
    rw [binaryOp?_of_compound hop'] at hk
    exact nomatch hk
  | _ => exact nomatch hk

end Tree.Plain

namespace Evaluate

section

variable {lib : Library} {cx : CtxId} {lex : Lexicon} {eval : Tree → Act Value} {r : Tree → Nat}
  {kind : Tok} {op : Op} {line : Nat} {owner k a b : Tree}

theorem exprWith_element (hk : ∀ line start stop, k ≠ .mk .colon line [start, stop]) :
    exprWith lib cx lex eval (.mk .index line [owner, k]) = (do
      let box ← eval owner
      let key ← holding cx #[box] (eval k)
      working cx #[box, key] (Act.extract box key)) := by
  obtain ⟨kind, l, cs⟩ := k
  cases kind with
  | colon =>
    match cs with
    | [] | [_] | _ :: _ :: _ :: _ => rfl
    | [start, stop] => exact absurd rfl (hk l start stop)
  | _ => rfl

theorem roomWith_element (hk : ∀ line start stop, k ≠ .mk .colon line [start, stop]) :
    roomWith r (.mk .index line [owner, k]) = max (r owner) (1 + r k) := by
  obtain ⟨kind, l, cs⟩ := k
  cases kind with
  | colon =>
    match cs with
    | [] | [_] | _ :: _ :: _ :: _ => rfl
    | [start, stop] => exact absurd rfl (hk l start stop)
  | _ => rfl

theorem exprWith_compound (hk : kind.compoundBase?.bind binaryOp? = some op) :
    exprWith lib cx lex eval (.mk kind line [a, b]) = compound lib cx lex eval op a b := by
  cases kind <;> cases hk <;> rfl

theorem roomWith_compound (hk : kind.compoundBase?.bind binaryOp? = some op) :
    roomWith r (.mk kind line [a, b]) = compoundRoom r a b := by
  cases kind <;> cases hk <;> rfl

theorem exprWith_binary (hk : binaryOp? kind = some op) :
    exprWith lib cx lex eval (.mk kind line [a, b]) = (do
      let x ← eval a
      let y ← holding cx #[x] (eval b)
      working cx #[x, y] (operate cx op x y)) := by
  cases kind <;> cases hk <;> rfl

theorem roomWith_binary (hk : binaryOp? kind = some op) :
    roomWith r (.mk kind line [a, b]) = max (r a) (1 + r b) := by
  cases kind <;> cases hk <;> rfl

end

end Evaluate

/-! ## code in its place -/

/-- The objects that stand for the constants of a unit. -/
structure Lexicon.Loads (lex : Lexicon) (consts : Array Const) (code : Loaded) : Prop where
  const : ∀ {i : Nat} {c : Const}, consts[i]? = some c → c.key?.isSome = true → code.const i = lex.const c
  hash : ∀ {i : Nat} {s : Bytes}, consts[i]? = some (.name s) → code.constHash i = hashBytes s

/-- The instructions of structured code stand in loaded code, and its constants are those of the unit. -/
structure Asm.Stored (x : Asm) (code : Loaded) (consts : Array Const) (a : Nat) : Prop where
  items : ∀ i ∈ x.items a unaimed, i.In code.words
  uses : x.Uses consts

namespace Asm.Stored

variable {x y : Asm} {code : Loaded} {consts : Array Const} {a : Nat}

theorem seq (h : (Asm.seq x y).Stored code consts a) :
    x.Stored code consts a ∧ y.Stored code consts (a + x.size) :=
  ⟨⟨fun i hi => h.items i (List.mem_append_left _ hi), h.uses.1⟩,
    ⟨fun i hi => h.items i (List.mem_append_right _ hi), h.uses.2⟩⟩

theorem op {o : Op} (h : (Asm.op o).Stored code consts a) : Item.In ⟨a, o, 0⟩ code.words :=
  h.items _ List.mem_cons_self

theorem const {o : Op} {i : Nat} {c : Const} (h : (Asm.const o i c).Stored code consts a) :
    Item.In ⟨a, o, i⟩ code.words ∧ consts[i]? = some c := ⟨h.items _ List.mem_cons_self, h.uses c rfl⟩

theorem bypass {j : Op} (h : (Asm.bypass j x).Stored code consts a) :
    Item.In ⟨a, j, a + j.length + x.size⟩ code.words ∧ x.Stored code consts (a + j.length) :=
  ⟨h.items _ List.mem_cons_self, fun i hi => h.items i (List.mem_cons_of_mem _ hi), h.uses⟩

theorem branch (h : (Asm.branch x y).Stored code consts a) :
    Item.In ⟨a, .jifNotPop, a + 2 + x.size + 2⟩ code.words ∧ x.Stored code consts (a + 2) ∧
      Item.In ⟨a + 2 + x.size, .jmp, a + 2 + x.size + 2 + y.size⟩ code.words ∧
      y.Stored code consts (a + 2 + x.size + 2) := by
  have hitems := h.items
  simp only [Asm.items, List.mem_append, or_imp, forall_and] at hitems
  obtain ⟨hjump, hx, hjmp, hy⟩ := hitems
  exact ⟨hjump _ List.mem_cons_self, ⟨hx, h.uses.1⟩, hjmp _ List.mem_cons_self, hy, h.uses.2⟩

end Asm.Stored

namespace Machine

theorem le_max_three (i j k : Nat) : i ≤ max i (max j k) ∧ j ≤ max i (max j k) ∧ k ≤ max i (max j k) := by
  omega

section

variable {lib : Library} {waiting : List Waiting} {cx : CtxId} {code : Loaded} {consts : Array Const}
  {lex : Lexicon} {E : Lowering} {eval : Tree → Act Value} {r : Tree → Nat} {ls : List (Option Bytes)}
  (hlib : lib.Placeless) (hlex : lex.Loads consts code)
  (hE : ∀ {t x a}, E ls t x → t.Plain → x.Stored code consts a →
    Computes lib waiting cx code (r t) a (a + x.size) #[] (eval t) fun v => #[v])
  (hr : ∀ t, 1 ≤ r t)

variable {x y : Asm} {a N : Nat} {t lhs rhs : Tree}

include hE in
theorem computes_held (h : E ls t x) (hplain : t.Plain) (hx : x.Stored code consts a) (vs : Array Value)
    (hN : vs.size + r t ≤ N) :
    Computes lib waiting cx code N a (a + x.size) vs (holding cx vs (eval t)) fun v => vs ++ #[v] := by
  have hheld := ((hE h hplain hx).hold vs).mono hN
  rw [Array.append_empty] at hheld
  exact hheld

theorem computes_below {op : Op} {arg : Nat} {ins : Array Value} {x : Act Value}
    (h : Replaces cx ins x (Act.perform lib cx code op arg)) (hin : Item.In ⟨a, op, arg⟩ code.words)
    (vs : Array Value) (hN : vs.size + 1 ≤ N) :
    Computes lib waiting cx code N a (a + op.length) (vs ++ ins) (working cx (vs ++ ins) x) fun v => vs ++ #[v] :=
  ((computes_instr h hin (Nat.le_refl 1)).below vs).mono hN

/-! ## literals and names -/

theorem computes_number {v : Float} {i : Nat} (hlex : lex.Loads consts code)
    (h : (Lowering.number v i).Stored code consts a) :
    Computes lib waiting cx code 1 a (a + (Lowering.number v i).size) #[] (pure (.ofFloat v)) fun r => #[r] := by
  unfold Lowering.number at h ⊢
  split at h
  · rename_i hzero
    rw [if_pos hzero]
    have hv : Value.ofNat 0 = .ofFloat v := by
      rw [Value.ofFloat, Number.ofFloat, beq_iff_eq.mp hzero]
      rfl
    rw [← hv]
    exact (computes_instr Act.replaces_pushZero h.op (Nat.le_refl 1)).unheld (Act.reads_pure _)
  · rename_i hzero
    rw [if_neg hzero]
    split at h
    · rename_i hone
      rw [if_pos hone]
      have hv : Value.ofNat 1 = .ofFloat v := congrArg Value.num (Number.ofFloat_of_beq_one hone).symm
      rw [← hv]
      exact (computes_instr Act.replaces_pushOne h.op (Nat.le_refl 1)).unheld (Act.reads_pure _)
    · rename_i hone
      rw [if_neg hone]
      obtain ⟨hin, hc⟩ := h.const
      rw [show Value.ofFloat v = code.const i from (hlex.const hc rfl).symm]
      exact (computes_instr Act.replaces_pushConst hin (Nat.le_refl 1)).unheld (Act.reads_pure _)

include hlex in
theorem computes_lookup {i : Nat} {s : Bytes} (h : (Asm.const .loadSym i (.name s)).Stored code consts a) :
    Computes lib waiting cx code 1 a (a + 2) #[] (Evaluate.lookup cx lex s) fun v => #[v] := by
  obtain ⟨hin, hc⟩ := h.const
  have hload : Computes lib waiting cx code 1 a (a + 2) #[]
      (working cx #[] (Act.lookupSym cx (code.const i) (code.constHash i))) fun v => #[v] :=
    computes_instr Act.replaces_loadSym hin (Nat.le_refl 1)
  rw [hlex.const hc rfl, hlex.hash hc] at hload
  exact hload

include hlex in
theorem computes_assignName {i : Nat} {s : Bytes} {v : Value}
    (h : (Asm.const .setSym i (.name s)).Stored code consts a) (hN : 1 ≤ N) :
    Computes lib waiting cx code N a (a + 2) #[v] (working cx #[v] (Evaluate.assignName cx lex s v))
      fun r => #[r] := by
  obtain ⟨hin, hc⟩ := h.const
  have hset : Computes lib waiting cx code N a (a + 2) #[v] (working cx #[v] do
      Act.setSym cx (code.const i) (code.constHash i) v
      return v) fun r => #[r] := computes_instr Act.replaces_setSym hin hN
  rw [hlex.const hc rfl, hlex.hash hc] at hset
  exact hset

include hlib hlex in
theorem computes_member {i : Nat} {s : Bytes} {obj : Value}
    (h : (Asm.const .member i (.name s)).Stored code consts a) (vs : Array Value) (hN : vs.size + 1 ≤ N) :
    Computes lib waiting cx code N a (a + 2) (vs ++ #[obj])
      (working cx (vs ++ #[obj]) (Evaluate.member lib cx lex obj s)) fun v => vs ++ #[v] := by
  obtain ⟨hin, hc⟩ := h.const
  exact computes_below (Act.replaces_member hlib (hlex.const hc rfl) (hlex.hash hc)) hin vs hN

include hlib hlex in
theorem computes_assignMember {i : Nat} {s : Bytes} {obj v : Value}
    (h : (Asm.const .setMember i (.name s)).Stored code consts a) (vs : Array Value) (hN : vs.size + 1 ≤ N) :
    Computes lib waiting cx code N a (a + 2) (vs ++ #[obj, v])
      (working cx (vs ++ #[obj, v]) (Evaluate.assignMember lib cx lex obj s v)) fun v => vs ++ #[v] := by
  obtain ⟨hin, hc⟩ := h.const
  exact computes_below (Act.replaces_setMember hlib (hlex.const hc rfl) (hlex.hash hc)) hin vs hN

theorem exists_of_name? {s : Bytes} (h : t.name? = some s) : ∃ line cs, t = .mk (.symbol s) line cs := by
  obtain ⟨kind, line, cs⟩ := t
  cases kind with
  | symbol s' =>
    obtain rfl := Option.some.inj h
    exact ⟨line, cs, rfl⟩
  | _ => exact nomatch h

/-! ## containers -/

include hE in
theorem computes_elements {l : List Tree} (h : Lowering.Elements E ls l x) (hplain : ∀ t ∈ l, t.Plain)
    (hx : x.Stored code consts a) (box : Value) (hN : Evaluate.elementsRoom r l ≤ N) :
    Computes lib waiting cx code N a (a + x.size) #[box] (Evaluate.elements cx eval box l) fun v => #[v] := by
  induction h generalizing a with
  | nil => exact computes_pure rfl
  | @cons t ts x y head tail ih =>
    obtain ⟨hx, hx'⟩ := hx.seq
    obtain ⟨happend, hy⟩ := hx'.seq
    have hN' : max (1 + r t) (Evaluate.elementsRoom r ts) ≤ N := hN
    have hitem := computes_held hE head (hplain t List.mem_cons_self) hx #[box]
      (Nat.le_trans (Nat.le_max_left _ _) hN')
    have hrest := ih (fun t ht => hplain t (List.mem_cons_of_mem _ ht)) hy
      (Nat.le_trans (Nat.le_max_right _ _) hN')
    have happended (v : Value) : Computes lib waiting cx code N (a + x.size) (a + x.size + 1) #[box, v]
        (working cx #[box, v] (discard <| Act.vecPush box v)) fun _ => #[box] :=
      (computes_instr Act.replaces_vappend happend.op (show 1 ≤ N by omega)).discarded
    rw [Asm.size, Asm.size, ← Nat.add_assoc, ← Nat.add_assoc]
    exact hitem.bind fun v => (happended v).bind fun _ => hrest

theorem key_of_keyConst? (lex : Lexicon) {k : Tree} {c : Const} (h : Lowering.keyConst? k = some c) :
    Evaluate.key lex k = lex.const c := by
  unfold Lowering.keyConst? at h
  unfold Evaluate.key
  cases hname : k.name? with
  | some s =>
    rw [hname] at h
    obtain rfl := Option.some.inj h
    rfl
  | none =>
    rw [hname] at h
    dsimp only at h ⊢
    rw [h]

include hlex hE in
theorem computes_entries {l : List Tree} (h : Lowering.Entries E ls l x)
    (hplain : ∀ line k v, .mk .colon line [k, v] ∈ l → v.Plain) (hx : x.Stored code consts a) (box : Value)
    (hN : Evaluate.entriesRoom r l ≤ N) :
    Computes lib waiting cx code N a (a + x.size) #[box] (Evaluate.entries cx lex eval box l) fun v => #[v] := by
  induction h generalizing a with
  | nil => exact computes_pure rfl
  | @cons k v line i c ts x y hkey value tail ih =>
    obtain ⟨hconst, hx'⟩ := hx.seq
    obtain ⟨hx, hy'⟩ := hx'.seq
    obtain ⟨happend, hy⟩ := hy'.seq
    obtain ⟨hin, hc⟩ := hconst.const
    have hN' : max (2 + r v) (Evaluate.entriesRoom r ts) ≤ N := hN
    have hpush : Computes lib waiting cx code N a (a + 2) #[box] (pure ()) fun _ => #[box, code.const i] :=
      computes_pushConst hin (show 1 < N by omega)
    rw [hlex.const hc (Lowering.key?_of_keyConst? hkey), ← key_of_keyConst? lex hkey] at hpush
    have hvalue := computes_held hE value.code (hplain _ _ _ List.mem_cons_self) hx #[box, Evaluate.key lex k]
      (Nat.le_trans (Nat.le_max_left _ _) hN')
    have hrest := ih (fun line k v h => hplain line k v (List.mem_cons_of_mem _ h)) hy
      (Nat.le_trans (Nat.le_max_right _ _) hN')
    have happended (u : Value) : Computes lib waiting cx code N (a + 2 + x.size) (a + 2 + x.size + 1)
        #[box, Evaluate.key lex k, u]
        (working cx #[box, Evaluate.key lex k, u] (Act.hashSet box (Evaluate.key lex k) u)) fun _ => #[box] :=
      (computes_instr Act.replaces_happend happend.op (show 1 ≤ N by omega)).discarded
    simp only [Asm.size, ← Nat.add_assoc]
    exact hpush.lead (hvalue.bind fun v => (happended v).bind fun _ => hrest)

/-! ## assignments -/

include hlib hlex hE in
theorem computes_assign (h : Lowering.Assign E ls rhs lhs x) (hl : lhs.Target) (hrhs : rhs.Plain)
    (hx : x.Stored code consts a) (hr : ∀ t, 1 ≤ r t) :
    Computes lib waiting cx code (Evaluate.assignRoom r lhs rhs) a (a + x.size) #[]
      (Evaluate.assign lib cx lex eval lhs rhs) fun v => #[v] := by
  cases h with
  | symbol hv =>
    obtain ⟨hx, hset⟩ := hx.seq
    simp only [Asm.size, ← Nat.add_assoc]
    exact (hE hv.code hrhs hx).bind fun v => computes_assignName hlex hset (hr rhs)
  | declared hn hv => cases hl
  | @member owner t name line i o x hn ho hv =>
    obtain ⟨line', cs, rfl⟩ := exists_of_name? hn
    cases hl with
    | member howner =>
      obtain ⟨ho', hx'⟩ := hx.seq
      obtain ⟨hx, hset⟩ := hx'.seq
      simp only [Asm.size, ← Nat.add_assoc]
      have hroom : 1 + r rhs ≤ max (r owner) (1 + r rhs) := Nat.le_max_right _ _
      refine ((hE ho howner ho').mono (Nat.le_max_left _ _)).bind fun obj => ?_
      refine (computes_held hE hv.code hrhs hx #[obj] hroom).bind fun v => ?_
      exact computes_assignMember hlib hlex hset #[] (Nat.le_trans (Nat.le_add_right 1 _) hroom)
  | @element owner k line o y x hs ho hk hv =>
    cases hl with
    | element howner hkey =>
      obtain ⟨ho', hx'⟩ := hx.seq
      obtain ⟨hy, hx''⟩ := hx'.seq
      obtain ⟨hx, hinsert⟩ := hx''.seq
      simp only [Asm.size, ← Nat.add_assoc]
      obtain ⟨howns, hkeys, hvals⟩ := le_max_three (r owner) (1 + r k) (2 + r rhs)
      refine ((hE ho howner ho').mono howns).bind fun box => ?_
      refine (computes_held hE hk.code hkey hy #[box] hkeys).bind fun key => ?_
      refine (computes_held hE hv.code hrhs hx #[box, key] hvals).bind fun v => ?_
      exact computes_instr Act.replaces_insert hinsert.op
        (Nat.le_trans (Nat.le_add_right 1 _) hkeys)

include hlib hlex hE in
theorem computes_compound {kind : Tok} {op : Op} (hop : binaryOp? kind = some op)
    (h : Lowering.Compound E ls op rhs lhs x) (hl : lhs.Target) (hrhs : rhs.Plain)
    (hx : x.Stored code consts a) (hr : ∀ t, 1 ≤ r t) :
    Computes lib waiting cx code (Evaluate.compoundRoom r lhs rhs) a (a + x.size) #[]
      (Evaluate.compound lib cx lex eval op lhs rhs) fun v => #[v] := by
  have hone := hr rhs
  cases h with
  | @symbol name line i cs x hv =>
    obtain ⟨hload, hx'⟩ := hx.seq
    obtain ⟨hx, hx''⟩ := hx'.seq
    obtain ⟨hcompute, hset⟩ := hx''.seq
    simp only [Asm.size, ← Nat.add_assoc]
    refine ((computes_lookup hlex hload).mono (Nat.le_add_right 1 _)).bind fun old => ?_
    refine (computes_held hE hv.code hrhs hx #[old] (Nat.le_refl _)).bind fun v => ?_
    refine (computes_instr (Act.replaces_operate hop) hcompute.op (Nat.le_add_right 1 _)).bind fun new => ?_
    exact computes_assignName hlex hset (Nat.le_add_right 1 _)
  | @member owner t name line i o x hn ho hv =>
    obtain ⟨line', cs, rfl⟩ := exists_of_name? hn
    cases hl with
    | member howner =>
      obtain ⟨ho', h₁⟩ := hx.seq
      obtain ⟨hdup, h₂⟩ := h₁.seq
      obtain ⟨hmember, h₃⟩ := h₂.seq
      obtain ⟨hx, h₄⟩ := h₃.seq
      obtain ⟨hcompute, hset⟩ := h₄.seq
      simp only [Asm.size, ← Nat.add_assoc]
      have hroom : 2 + r rhs ≤ max (r owner) (2 + r rhs) := Nat.le_max_right _ _
      have htwo : 2 ≤ max (r owner) (2 + r rhs) := Nat.le_trans (Nat.le_add_right 2 _) hroom
      refine ((hE ho howner ho').mono (Nat.le_max_left _ _)).bind fun obj => ?_
      refine (computes_dup hdup.op htwo).lead ?_
      refine (computes_member hlib hlex hmember #[obj] htwo).bind fun old => ?_
      refine (computes_held hE hv.code hrhs hx #[obj, old] hroom).bind fun v => ?_
      refine (computes_below (Act.replaces_operate hop) hcompute.op #[obj] htwo).bind fun new => ?_
      exact computes_assignMember hlib hlex hset #[] (Nat.le_of_succ_le htwo)
  | @element owner k line o y x hs ho hk hv =>
    cases hl with
    | element howner hkey =>
      obtain ⟨ho', h₁⟩ := hx.seq
      obtain ⟨hy, h₂⟩ := h₁.seq
      obtain ⟨hdup, h₃⟩ := h₂.seq
      obtain ⟨hextract, h₄⟩ := h₃.seq
      obtain ⟨hx, h₅⟩ := h₄.seq
      obtain ⟨hcompute, hinsert⟩ := h₅.seq
      simp only [Asm.size, ← Nat.add_assoc]
      obtain ⟨howns, hkeys, hvals⟩ := le_max_three (r owner) (1 + r k) (3 + r rhs)
      have hfour : 4 ≤ max (r owner) (max (1 + r k) (3 + r rhs)) :=
        Nat.le_trans (Nat.add_le_add_left hone 3) hvals
      refine ((hE ho howner ho').mono howns).bind fun box => ?_
      refine (computes_held hE hk.code hkey hy #[box] hkeys).bind fun key => ?_
      refine (computes_dup2 hdup.op hfour).lead ?_
      refine (computes_below Act.replaces_extract hextract.op #[box, key] (Nat.le_of_succ_le hfour)).bind
        fun old => ?_
      refine (computes_held hE hv.code hrhs hx #[box, key, old] hvals).bind fun v => ?_
      refine (computes_below (Act.replaces_operate hop) hcompute.op #[box, key] (Nat.le_of_succ_le hfour)).bind
        fun new => ?_
      exact computes_instr Act.replaces_insert hinsert.op (Nat.le_trans (Nat.le_add_right 1 _) hkeys)

/-! ## every expression -/

include hE in
theorem computes_indexed {line : Nat} {owner k : Tree} (h : Lowering.Indexed E ls owner k x)
    (hplain : (Tree.mk .index line [owner, k]).Plain) (hx : x.Stored code consts a) :
    Computes lib waiting cx code (Evaluate.roomWith r (.mk .index line [owner, k])) a (a + x.size) #[]
      (Evaluate.exprWith lib cx lex eval (.mk .index line [owner, k])) fun v => #[v] := by
  cases h with
  | @slice start stop line' o x y ho hs he =>
    obtain ⟨howner, hstart, hstop⟩ := hplain.of_slice
    obtain ⟨ho', h₁⟩ := hx.seq
    obtain ⟨hx, h₂⟩ := h₁.seq
    obtain ⟨hy, hslice⟩ := h₂.seq
    simp only [Asm.size, ← Nat.add_assoc]
    obtain ⟨howns, hfirst, hlast⟩ := le_max_three (r owner) (1 + r start) (2 + r stop)
    refine ((hE ho howner ho').mono howns).bind fun box => ?_
    refine (computes_held hE hs hstart hx #[box] hfirst).bind fun first => ?_
    refine (computes_held hE he hstop hy #[box, first] hlast).bind fun last => ?_
    exact computes_instr Act.replaces_slice hslice.op (Nat.le_trans (Nat.le_add_right 1 _) hfirst)
  | @element _ o x ho hs hk =>
    obtain ⟨howner, hkey⟩ := hplain.of_element hs
    obtain ⟨ho', h₁⟩ := hx.seq
    obtain ⟨hx, hextract⟩ := h₁.seq
    rw [Evaluate.exprWith_element hs, Evaluate.roomWith_element hs]
    simp only [Asm.size, ← Nat.add_assoc]
    have hroom : 1 + r k ≤ max (r owner) (1 + r k) := Nat.le_max_right _ _
    refine ((hE ho howner ho').mono (Nat.le_max_left _ _)).bind fun box => ?_
    refine (computes_held hE hk.code hkey hx #[box] hroom).bind fun key => ?_
    exact computes_instr Act.replaces_extract hextract.op (Nat.le_trans (Nat.le_add_right 1 _) hroom)

theorem computes_text (hlex : lex.Loads consts code) {i : Nat} {s : Bytes}
    (h : (Asm.const .pushConst i (.text s)).Stored code consts a) :
    Computes lib waiting cx code 1 a (a + 2) #[] (pure (lex.text s)) fun v => #[v] := by
  obtain ⟨hin, hc⟩ := h.const
  have hpush : Computes lib waiting cx code 1 a (a + 2) #[] (pure (code.const i)) fun v => #[v] :=
    (computes_instr Act.replaces_pushConst hin (Nat.le_refl 1)).unheld (Act.reads_pure _)
  rw [hlex.const hc rfl] at hpush
  exact hpush

include hE in
/-- An operator on one operand, which is read. -/
theorem computes_unary {op : Op} {f : Value → Act Value} (hf : ∀ v, Act.Reads (f v))
    (hop : ∀ v, Act.Replaces cx #[v] (f v) (Act.perform lib cx code op 0)) (h : E ls t x) (hplain : t.Plain)
    (hx : (Asm.seq x (.op op)).Stored code consts a) (hr : 1 ≤ r t) :
    Computes lib waiting cx code (r t) a (a + (Asm.seq x (.op op)).size) #[] (do
      let v ← eval t
      f v) fun v => #[v] := by
  obtain ⟨hx, hop'⟩ := hx.seq
  simp only [Asm.size, ← Nat.add_assoc]
  exact (hE h hplain hx).bind fun v => (computes_instr (hop v) hop'.op hr).unheld (hf v)

include hE in
/-- `and`: the second operand counts if the first one is true. -/
theorem computes_and {line : Nat} (ha : E ls lhs x) (hb : E ls rhs y) (hlhs : lhs.Plain) (hrhs : rhs.Plain)
    (hx : (Asm.seq x (.bypass .jifNot (.seq (.op .pop) y))).Stored code consts a) :
    Computes lib waiting cx code (Evaluate.roomWith r (.mk .and line [lhs, rhs])) a
      (a + (Asm.seq x (.bypass .jifNot (.seq (.op .pop) y))).size) #[]
      (Evaluate.exprWith lib cx lex eval (.mk .and line [lhs, rhs])) fun v => #[v] := by
  obtain ⟨hx, h₁⟩ := hx.seq
  obtain ⟨hjump, h₂⟩ := h₁.bypass
  obtain ⟨hpop, hy⟩ := h₂.seq
  simp only [Asm.size, ← Nat.add_assoc] at hjump ⊢
  refine ((hE ha hlhs hx).mono (Nat.le_max_left _ _)).bind fun v => ?_
  refine computes_jifNot hjump ?_ (computes_pure rfl)
  exact (computes_pop hpop.op).lead ((hE hb hrhs hy).mono (Nat.le_max_right _ _))

include hE in
/-- `or`: the second operand counts if the first one is false. -/
theorem computes_or {line : Nat} (ha : E ls lhs x) (hb : E ls rhs y) (hlhs : lhs.Plain) (hrhs : rhs.Plain)
    (hx : (Asm.seq x (.bypass .jifTrue (.seq (.op .pop) y))).Stored code consts a) :
    Computes lib waiting cx code (Evaluate.roomWith r (.mk .or line [lhs, rhs])) a
      (a + (Asm.seq x (.bypass .jifTrue (.seq (.op .pop) y))).size) #[]
      (Evaluate.exprWith lib cx lex eval (.mk .or line [lhs, rhs])) fun v => #[v] := by
  obtain ⟨hx, h₁⟩ := hx.seq
  obtain ⟨hjump, h₂⟩ := h₁.bypass
  obtain ⟨hpop, hy⟩ := h₂.seq
  simp only [Asm.size, ← Nat.add_assoc] at hjump ⊢
  refine ((hE ha hlhs hx).mono (Nat.le_max_left _ _)).bind fun v => ?_
  refine computes_jifTrue hjump (computes_pure rfl) ?_
  exact (computes_pop hpop.op).lead ((hE hb hrhs hy).mono (Nat.le_max_right _ _))

include hE in
theorem computes_ternary {line line' : Nat} {c yes no : Tree} {z : Asm} (hc : Lowering.Value E ls c x)
    (ha : E ls yes y) (hb : E ls no z) (hplain : c.Plain) (hyes : yes.Plain) (hno : no.Plain)
    (hx : (Asm.seq x (.branch y z)).Stored code consts a) :
    Computes lib waiting cx code (Evaluate.roomWith r (.mk .question line [c, .mk .colon line' [yes, no]])) a
      (a + (Asm.seq x (.branch y z)).size) #[]
      (Evaluate.exprWith lib cx lex eval (.mk .question line [c, .mk .colon line' [yes, no]])) fun v => #[v] := by
  obtain ⟨hx, h₁⟩ := hx.seq
  obtain ⟨htest, hy, hjmp, hz⟩ := h₁.branch
  simp only [Asm.size, ← Nat.add_assoc] at hjmp ⊢
  obtain ⟨hconds, hyess, hnos⟩ := le_max_three (r c) (r yes) (r no)
  refine ((hE hc.code hplain hx).mono hconds).bind fun v => ?_
  refine computes_jifNotPop htest ?_ ((hE hb hno hz).mono hnos)
  exact ((hE ha hyes hy).mono hyess).trail fun _ => (computes_jmp hjmp).lead (computes_pure rfl)

include hE in
/-- An operator on two operands, the first of which is held while the second one is evaluated. -/
theorem computes_binary {kind : Tok} {op : Op} {line : Nat} (hk : binaryOp? kind = some op) (ha : E ls lhs x)
    (hb : E ls rhs y) (hplain : (Tree.mk kind line [lhs, rhs]).Plain)
    (hx : (Asm.seq x (.seq y (.op op))).Stored code consts a) :
    Computes lib waiting cx code (Evaluate.roomWith r (.mk kind line [lhs, rhs])) a
      (a + (Asm.seq x (.seq y (.op op))).size) #[]
      (Evaluate.exprWith lib cx lex eval (.mk kind line [lhs, rhs])) fun v => #[v] := by
  obtain ⟨hlhs, hrhs⟩ := hplain.of_binary hk
  obtain ⟨hx, h₁⟩ := hx.seq
  obtain ⟨hy, hop⟩ := h₁.seq
  rw [Evaluate.exprWith_binary hk, Evaluate.roomWith_binary hk]
  simp only [Asm.size, ← Nat.add_assoc]
  have hroom : 1 + r rhs ≤ max (r lhs) (1 + r rhs) := Nat.le_max_right _ _
  refine ((hE ha hlhs hx).mono (Nat.le_max_left _ _)).bind fun u => ?_
  refine (computes_held hE hb hrhs hy #[u] hroom).bind fun v => ?_
  exact computes_instr (Act.replaces_operate hk) hop.op (Nat.le_trans (Nat.le_add_right 1 _) hroom)

include hlib hlex hE in
/-- **The code of an expression, given that of the expressions inside.** -/
theorem computes_exprWith {C S : Lowering} (h : Lowering.Expr E C S ls t x) (hplain : t.Plain)
    (hx : x.Stored code consts a) (hr : ∀ t, 1 ≤ r t) :
    Computes lib waiting cx code (Evaluate.roomWith r t) a (a + x.size) #[]
      (Evaluate.exprWith lib cx lex eval t) fun v => #[v] := by
  have hone := Evaluate.one_le_roomWith hr t
  cases h with
  | nil => exact (computes_instr Act.replaces_pushNil hx.op hone).unheld (Act.reads_pure _)
  | empty => exact (computes_instr Act.replaces_pushNil hx.op hone).unheld (Act.reads_pure _)
  | number => exact (computes_number hlex hx).mono hone
  | text => exact (computes_text hlex hx).mono hone
  | symbol => exact (computes_lookup hlex hx).mono hone
  | @vector list line x hitems =>
    cases hplain with
    | vector hlist =>
      obtain ⟨hnew, hx⟩ := hx.seq
      rw [Asm.size, ← Nat.add_assoc]
      refine (computes_instr Act.replaces_newVec hnew.op hone).bind fun box => ?_
      exact computes_elements hE hitems hlist hx box (Nat.le_refl _)
  | @hash list line x hentries =>
    cases hplain with
    | hash hlist =>
      obtain ⟨hnew, hx⟩ := hx.seq
      rw [Asm.size, ← Nat.add_assoc]
      refine (computes_instr Act.replaces_newHash hnew.op hone).bind fun box => ?_
      exact computes_entries hlex hE hentries hlist hx box (Nat.le_refl _)
  | func => cases hplain with
    | compound hkind => cases hkind
    | binary hkind => cases hkind
  | minus ha => cases hplain with
    | minus ha' => exact computes_unary hE (fun _ => Act.reads_read _ _) (fun _ => Act.replaces_neg) ha ha' hx (hr _)
  | neg ha => cases hplain with
    | neg ha' => exact computes_unary hE (fun _ => Act.reads_read _ _) (fun _ => Act.replaces_neg) ha ha' hx (hr _)
  | not ha => cases hplain with
    | not ha' => exact computes_unary hE (fun _ => Act.reads_read _ _) (fun _ => Act.replaces_not) ha ha' hx (hr _)
  | and ha hb => cases hplain with
    | and ha' hb' => exact computes_and hE ha hb ha' hb' hx
    | compound hkind => cases hkind
    | binary hkind => cases hkind
  | or ha hb => cases hplain with
    | or ha' hb' => exact computes_or hE ha hb ha' hb' hx
    | compound hkind => cases hkind
    | binary hkind => cases hkind
  | ternary hc ha hb => cases hplain with
    | ternary hc' ha' hb' => exact computes_ternary hE hc ha hb hc' ha' hb' hx
    | compound hkind => cases hkind
    | binary hkind => cases hkind
  | assign ha => cases hplain with
    | assign hl hrhs => exact computes_assign hlib hlex hE ha hl hrhs hx hr
    | compound hkind => cases hkind
    | binary hkind => cases hkind
  | member hn ho =>
    obtain ⟨line', cs, rfl⟩ := exists_of_name? hn
    cases hplain with
    | member howner =>
      obtain ⟨hx, hmember⟩ := hx.seq
      rw [Asm.size, ← Nat.add_assoc]
      exact (hE ho howner hx).bind fun obj => computes_member hlib hlex hmember #[] (hr _)
    | compound hkind => cases hkind
    | binary hkind => cases hkind
  | call => cases hplain with
    | compound hkind => cases hkind
    | binary hkind => cases hkind
  | index hi => exact computes_indexed hE hi hplain hx
  | declared => cases hplain
  | list => cases hplain with
    | compound hkind => cases hkind
    | binary hkind => cases hkind
  | compound hk hc =>
    obtain ⟨hl, hrhs⟩ := hplain.of_compound hk
    obtain ⟨base, -, hop⟩ := Option.bind_eq_some_iff.mp hk
    rw [Evaluate.exprWith_compound hk, Evaluate.roomWith_compound hk]
    exact computes_compound hlib hlex hE hop hc hl hrhs hx hr
  | binary hk ha hb => exact computes_binary hE hk ha hb hplain hx
  | statement ht => exact absurd ht (by rw [hplain.not_statement]; exact Bool.false_ne_true)

end

/-- **The code of an expression computes its value.** -/
theorem computes_expr {lib : Library} (hlib : lib.Placeless) {waiting : List Waiting} {cx : CtxId}
    {code : Loaded} {consts : Array Const} {lex : Lexicon} (hlex : lex.Loads consts code) (n : Nat)
    {ls : List (Option Bytes)} {t : Tree} {x : Asm} {a : Nat} (h : Lowering.expr n ls t x)
    (hplain : t.Plain) (hx : x.Stored code consts a) :
    Computes lib waiting cx code (Evaluate.room n t) a (a + x.size) #[] (Evaluate.expr lib cx lex n t)
      fun v => #[v] := by
  induction n generalizing t x a with
  | zero => exact nomatch h
  | succ n ih => exact computes_exprWith hlib hlex ih h hplain hx (Evaluate.one_le_room n)

end Machine

end ScriptEngine
