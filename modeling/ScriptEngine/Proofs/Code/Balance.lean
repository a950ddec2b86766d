import ScriptEngine.Proofs.Code.Expressions
import ScriptEngine.Proofs.Code.Shapes

/-!
# Structured code is balanced

Code for an expression leaves one operand and code for a statement none, whatever is inside.

* `Turns`               how many operands code takes and leaves;
* `Turns.valid`         the operands of its instructions are of the right kinds;
* `Lowering.turns_all`  the code of every expression and statement.
-/

namespace ScriptEngine

open Generate (binaryOp?)

/-- The constants an instruction can be used with. -/
def Op.accepts (op : Op) (c : Const) : Prop :=
  match op with
  | .pushConst => c.key?.isSome = true
  | .func => ∃ d, c = .code d
  | _ => ∃ name, c = .name name

/-- Inside `j` loops the code takes `m` operands and leaves `n`. -/
inductive Turns : Nat → Nat → Nat → Asm → Prop
  | skip {j : Nat} : Turns j 0 0 .skip
  | op {j : Nat} {o : Op} (hp : o.isPlain = true) (ho : o.hasOperand = false) :
    Turns j (o.takes 0) o.gives (.op o)
  | const {j i : Nat} {o : Op} {c : Const} (hp : o.isPlain = true) (hc : o.takesConst = true)
    (ha : o.accepts c) : Turns j (o.takes i) o.gives (.const o i c)
  | call {j n : Nat} {o : Op} (ho : o = .fcall ∨ o = .mcall) (hn : n ≤ 65535) :
    Turns j (o.takes n) 1 (.instr o n none)
  | ret {j : Nat} : Turns j 1 0 (.op .ret)
  | frame {j m n : Nat} {x : Asm} (k : Nat) (h : Turns j m n x) : Turns j (m + k) (n + k) x
  | seq {j l m n : Nat} {x y : Asm} (hx : Turns j l m x) (hy : Turns j m n y) :
    Turns j l n (.seq x y)
  | guard {j : Nat} {x : Asm} (h : Turns j 0 0 x) : Turns j 1 0 (.bypass .jifNotPop x)
  | short {j : Nat} {o : Op} {x : Asm} (ho : o = .jifTrue ∨ o = .jifNot) (h : Turns j 1 1 x) :
    Turns j 1 1 (.bypass o x)
  | branch {j n : Nat} {x y : Asm} (hx : Turns j 0 n x) (hy : Turns j 0 n y) :
    Turns j 1 n (.branch x y)
  | loop {j q : Nat} {pre head body update : Asm} {exit : Option Op} (hpre : Turns j 0 0 pre)
    (hhead : Turns j 0 q head) (hexit : exit = none ∧ q = 0 ∨ exit = some .jifNotPop ∧ q = 1)
    (hbody : Turns (j + 1) 0 0 body) (hupdate : Turns j 0 0 update) :
    Turns j 0 0 (.loop pre head exit body update .skip)
  | each {j : Nat} {pre body : Asm} {step : Op} (hpre : Turns j 0 2 pre)
    (hstep : step = .each ∨ step = .index) (hbody : Turns (j + 1) 1 0 body) :
    Turns j 0 0 (.loop pre (.op step) (some .jifEnd) body .skip (.seq (.op .pop) (.op .pop)))
  | leave {j k : Nat} {out : Bool} (h : k < j) : Turns j 0 0 (.leave out k)

/-- Every jump of code inside `j` loops leads to one of them. -/
theorem Turns.closed {j m n : Nat} {x : Asm} (h : Turns j m n x) : x.Closed j := by
  induction h with
  | skip | op | const | call | ret => trivial
  | frame k _ ih => exact ih
  | seq _ _ hx hy => exact ⟨hx, hy⟩
  | guard _ ih => exact ih
  | short _ _ ih => exact ih
  | branch _ _ hx hy => exact ⟨hx, hy⟩
  | loop _ _ _ _ _ hpre hhead hbody hupdate => exact ⟨hpre, hhead, hbody, hupdate, trivial⟩
  | each _ _ _ hpre hbody => exact ⟨hpre, trivial, hbody, trivial, trivial, trivial⟩
  | leave h => exact h

/-! ## operands -/

/-- The operand of an instruction is of the kind that it takes; where jumps lead is left open. -/
structure Item.Valid (consts : Array Const) (i : Item) : Prop where
  none : i.op.hasOperand = false → i.arg = 0
  const : i.op.takesConst = true → ∃ c, consts[i.arg]? = some c ∧ i.op.accepts c
  count : i.op.hasOperand = true → i.op.isJump = false → i.op.takesConst = false → i.arg ≤ 65535

section

variable {consts : Array Const} {a : Nat} {o : Op}

theorem Item.Valid.const_lt {i : Item} (h : i.Valid consts) (ht : i.op.takesConst = true) :
    i.arg < consts.size := by
  obtain ⟨c, hc, -⟩ := h.const ht
  exact (Array.getElem?_eq_some_iff.mp hc).1

theorem valid_bare (ho : o.hasOperand = false) : Item.Valid consts ⟨a, o, 0⟩ where
  none _ := rfl
  const hc := by
    rw [Op.hasOperand_of_takesConst hc] at ho
    exact nomatch ho
  count h := by
    rw [ho] at h
    exact nomatch h

theorem valid_jump {target : Nat} (ho : o.isJump = true) : Item.Valid consts ⟨a, o, target⟩ where
  none h := by
    rw [Op.hasOperand_of_isJump ho] at h
    exact nomatch h
  const hc := by
    rw [Op.takesConst_of_isJump ho] at hc
    exact nomatch hc
  count _ h := by
    rw [ho] at h
    exact nomatch h

theorem valid_drops (a k : Nat) : ∀ i ∈ Asm.drops a k, i.Valid consts := by
  induction k generalizing a with
  | zero => exact fun _ hi => nomatch hi
  | succ k ih =>
    intro i hi
    rcases List.mem_cons.mp hi with rfl | hi
    · exact valid_bare rfl
    · exact ih _ i hi

/-- **The operands of balanced code are of the right kinds.** -/
theorem Turns.valid {j m n : Nat} {x : Asm} (h : Turns j m n x) (hu : x.Uses consts) (a : Nat)
    (T : Targets) : ∀ i ∈ x.items a T, i.Valid consts := by
  have hone {i k : Item} (hk : k.Valid consts) (hi : i ∈ [k]) : i.Valid consts :=
    List.mem_singleton.mp hi ▸ hk
  induction h generalizing a T with
  | skip => exact fun _ hi => by cases hi
  | op _ ho => exact fun i hi => hone (valid_bare ho) hi
  | @const _ k o c _ hc ha =>
    refine fun i hi => hone ⟨fun h => ?_, fun _ => ⟨c, hu c rfl, ha⟩, fun _ _ h => ?_⟩ hi
    · rw [Op.hasOperand_of_takesConst hc] at h
      cases h
    · rw [hc] at h
      cases h
  | call ho hn =>
    refine fun i hi => hone ⟨fun h => ?_, fun h => ?_, fun _ _ _ => hn⟩ hi
    · rcases ho with rfl | rfl <;> cases h
    · rcases ho with rfl | rfl <;> cases h
  | ret => exact fun i hi => hone (valid_bare rfl) hi
  | frame _ _ ih => exact ih hu a T
  | seq _ _ hx hy =>
    simp only [Asm.items, List.mem_append, or_imp, forall_and]
    exact ⟨hx hu.1 _ T, hy hu.2 _ T⟩
  | guard _ ih =>
    simp only [Asm.items, List.mem_append, or_imp, forall_and]
    exact ⟨fun _ => hone (valid_jump rfl), ih hu _ T⟩
  | short ho _ ih =>
    simp only [Asm.items, List.mem_append, or_imp, forall_and]
    refine ⟨fun _ => hone (valid_jump ?_), ih hu _ T⟩
    rcases ho with rfl | rfl <;> rfl
  | branch _ _ hx hy =>
    simp only [Asm.items, List.mem_append, or_imp, forall_and]
    exact ⟨fun _ => hone (valid_jump rfl), hx hu.1 _ T, fun _ => hone (valid_jump rfl), hy hu.2 _ T⟩
  | loop _ _ hexit _ _ hpre hhead hbody hupdate =>
    obtain ⟨u1, u2, u3, u4, -⟩ := hu
    simp only [Asm.items, List.mem_append, or_imp, forall_and]
    refine ⟨hpre u1 _ T, fun _ => hone (valid_bare rfl), hhead u2 _ T, fun i hi => ?_, hbody u3 _ _,
      hupdate u4 _ T, fun _ => hone (valid_jump rfl), fun _ => hone (valid_bare rfl), fun _ hi => by cases hi⟩
    rcases hexit with ⟨rfl, -⟩ | ⟨rfl, -⟩
    · cases hi
    · exact hone (valid_jump rfl) hi
  | each _ hstep _ hpre hbody =>
    obtain ⟨u1, -, u3, -⟩ := hu
    simp only [Asm.items, Asm.op, List.mem_append, or_imp, forall_and]
    refine ⟨hpre u1 _ T, fun _ => hone (valid_bare rfl), fun _ => hone (valid_bare ?_),
      fun _ => hone (valid_jump rfl), hbody u3 _ _, fun _ hi => (by cases hi), fun _ => hone (valid_jump rfl),
      fun _ => hone (valid_bare rfl), fun _ => hone (valid_bare rfl), fun _ => hone (valid_bare rfl)⟩
    rcases hstep with rfl | rfl <;> rfl
  | leave _ =>
    simp only [Asm.items, List.mem_append, or_imp, forall_and]
    exact ⟨valid_drops _ _, fun _ => hone (valid_bare rfl), fun _ => hone (valid_jump rfl)⟩

end

/-! ## the code of trees -/

namespace Lowering

section

variable {E C S : Lowering} {ls : List (Option Bytes)} {x : Asm}
  (hE : ∀ {ls t x}, E ls t x → Turns ls.length 0 1 x)
  (hC : ∀ {ls t x}, C ls t x → Turns ls.length 0 0 x)
  (hS : ∀ {ls t x}, S ls t x → Turns ls.length 0 0 x)

theorem turns_number {j i : Nat} (v : Float) : Turns j 0 1 (number v i) := by
  unfold number
  split
  · exact .op (o := .pushZero) rfl rfl
  · split
    · exact .op (o := .pushOne) rfl rfl
    · exact .const (o := .pushConst) (c := .number v) rfl rfl rfl

theorem turns_name {j i : Nat} {o : Op} {name : Bytes} (hp : o.isPlain = true)
    (hc : o.takesConst = true) (ha : o.accepts (.name name)) :
    Turns j (o.takes i) o.gives (.const o i (.name name)) := .const hp hc ha

theorem key?_of_keyConst? {t : Tree} {c : Const} (h : keyConst? t = some c) :
    c.key?.isSome = true := by
  unfold keyConst? at h
  split at h
  · obtain rfl := Option.some.inj h
    rfl
  · exact Generate.key?_of_literal? h

include hE in
theorem turns_elements {ts : List Tree} (h : Elements E ls ts x) : Turns ls.length 1 1 x := by
  induction h with
  | nil => exact .frame 1 .skip
  | cons head _ ih => exact (Turns.frame 1 (hE head)).seq (.seq (.op (o := .vappend) rfl rfl) ih)

include hE in
theorem turns_entries {ts : List Tree} (h : Entries E ls ts x) : Turns ls.length 1 1 x := by
  induction h with
  | nil => exact .frame 1 .skip
  | @cons _ _ _ i _ _ _ _ key value _ ih =>
    have hkey := Turns.const (j := ls.length) (i := i) (o := .pushConst) rfl rfl
      (key?_of_keyConst? key)
    exact (hkey.frame 1).seq (((hE value.code).frame 2).seq (.seq (.op (o := .happend) rfl rfl) ih))

include hE in
theorem turns_arguments {ts : List Tree} (h : Arguments E ls ts x) :
    Turns ls.length 0 ts.length x := by
  induction h with
  | nil => exact .skip
  | @cons _ ts _ _ head _ ih =>
    have htail := ih.frame 1
    rw [Nat.zero_add] at htail
    exact (hE head).seq htail

include hE hS in
theorem turns_sequence {keep : Bool} {ts : List Tree} (h : Sequence E S ls keep ts x) :
    Turns ls.length 0 (if ts.isEmpty then 0 else keep.toNat) x := by
  induction h with
  | nil => exact .skip
  | @stmt _ ts _ _ _ head _ ih =>
    cases ts with
    | nil =>
      cases keep with
      | true => exact (hS head).seq (.seq (.op (o := .pushNil) rfl rfl) (ih.frame 1))
      | false => exact (hS head).seq (.seq .skip ih)
    | cons t ts =>
      rw [show (keep && (t :: ts).isEmpty) = false from Bool.and_false keep]
      exact (hS head).seq (.seq .skip ih)
  | @expr _ ts _ _ _ head _ ih =>
    cases ts with
    | nil =>
      cases keep with
      | true => exact (hE head).seq (.seq (.frame 1 .skip) (ih.frame 1))
      | false => exact (hE head).seq (.seq (.op (o := .pop) rfl rfl) ih)
    | cons t ts =>
      rw [show (keep && (t :: ts).isEmpty) = false from Bool.and_false keep]
      exact (hE head).seq (.seq (.op (o := .pop) rfl rfl) ih)

include hE hS in
theorem turns_statements {t : Tree} {keep : Bool} (h : Statements E S ls t keep x) :
    Turns ls.length 0 keep.toNat x := by
  cases h with
  | none =>
    cases keep with
    | true => exact .op (o := .pushNil) rfl rfl
    | false => exact .skip
  | some hne hx =>
    have hseq := turns_sequence hE hS hx
    rwa [if_neg (by rw [List.isEmpty_iff]; exact hne)] at hseq

include hE hS in
theorem turns_block {t : Tree} (h : Block E S ls t x) : Turns ls.length 0 0 x := by
  cases h with
  | braced h => exact turns_statements hE hS h
  | bare h => exact turns_statements hE hS h

include hE hC hS in
theorem turns_ifParts {ts : List Tree} (h : IfParts E C S ls ts x) : Turns ls.length 0 0 x := by
  cases h with
  | one hc hb => exact (hE hc.code).seq (.guard (turns_block hE hS hb))
  | other hc hb _ ho => exact (hE hc.code).seq (.branch (turns_block hE hS hb) (turns_block hE hS ho))
  | chain hc hb _ ho => exact (hE hc.code).seq (.branch (turns_block hE hS hb) (hC ho))

include hE in
theorem turns_dropped {t : Tree} (h : Dropped E ls t x) : Turns ls.length 0 0 x := by
  cases h with
  | none => exact .skip
  | some _ hx => exact (hE hx).seq (.op (o := .pop) rfl rfl)

include hE hC hS in
/-- **Statements leave no operand.** -/
theorem turns_statement {t : Tree} (h : Statement E C S ls t x) : Turns ls.length 0 0 x := by
  cases h with
  | ifs h => exact turns_ifParts hE hC hS h
  | whiles _ hc hb => exact .loop .skip (hE hc.code) (.inr ⟨rfl, rfl⟩) (turns_block hE hS hb) .skip
  | fors _ hs hc hb hu =>
    have hbody := turns_block hE hS hb
    cases hc with
    | none => exact .loop (turns_dropped hE hs) .skip (.inl ⟨rfl, rfl⟩) hbody (turns_dropped hE hu)
    | some hc =>
      exact .loop (turns_dropped hE hs) (hE hc.code) (.inr ⟨rfl, rfl⟩) hbody (turns_dropped hE hu)
  | @foreach _ step set _ i _ _ _ _ _ name _ _ hk _ hv he hb =>
    have hpre : Turns ls.length 0 2 (.seq _ (.op .pushZero)) :=
      (hE he).seq ((Turns.op (o := .pushZero) rfl rfl).frame 1)
    have hset : Turns (ls.length + 1) 1 1 (.const set i (.name name)) := by
      cases hv with
      | symbol => exact turns_name (o := .setSym) rfl rfl ⟨_, rfl⟩
      | declared => exact turns_name (o := .setLocal) rfl rfl ⟨_, rfl⟩
    have hstep : step = .each ∨ step = .index := hk.imp And.right And.right
    exact .each hpre hstep (hset.seq (.seq (.op (o := .pop) rfl rfl) (turns_block hE hS hb)))
  | ret h => exact (hE h).seq .ret
  | leave _ h => exact .leave h.lt

/-- The instruction of a binary operator turns two operands into one. -/
theorem turns_binaryOp {j : Nat} {t : Tok} {op : Op} (h : binaryOp? t = some op) :
    Turns j 2 1 (.op op) := by
  have hop : op.isPlain = true ∧ op.hasOperand = false ∧ op.takes 0 = 2 ∧ op.gives = 1 := by
    unfold binaryOp? at h
    split at h <;> cases h <;> exact ⟨rfl, rfl, rfl, rfl⟩
  have hturns := Turns.op (j := j) hop.1 hop.2.1
  rwa [hop.2.2.1, hop.2.2.2] at hturns

include hE in
theorem turns_assign {rhs lhs : Tree} (h : Assign E ls rhs lhs x) : Turns ls.length 0 1 x := by
  cases h with
  | symbol h => exact (hE h.code).seq (turns_name (o := .setSym) rfl rfl ⟨_, rfl⟩)
  | declared _ h => exact (hE h.code).seq (turns_name (o := .setLocal) rfl rfl ⟨_, rfl⟩)
  | member _ ho h =>
    refine (hE ho).seq (((hE h.code).frame 1).seq ?_)
    exact turns_name (o := .setMember) rfl rfl ⟨_, rfl⟩
  | element _ ho hk h =>
    refine (hE ho).seq (((hE hk.code).frame 1).seq (((hE h.code).frame 2).seq ?_))
    exact .op (o := .insert) rfl rfl

include hE in
theorem turns_compound {t : Tok} {op : Op} (hop : binaryOp? t = some op) {rhs lhs : Tree}
    (h : Compound E ls op rhs lhs x) : Turns ls.length 0 1 x := by
  cases h with
  | symbol h =>
    refine (turns_name (o := .loadSym) rfl rfl ⟨_, rfl⟩).seq (((hE h.code).frame 1).seq ?_)
    exact (turns_binaryOp hop).seq (turns_name (o := .setSym) rfl rfl ⟨_, rfl⟩)
  | @member _ _ name _ i _ _ _ ho h =>
    have hmember : Turns ls.length 1 1 (.const .member i (.name name)) :=
      turns_name (o := .member) rfl rfl ⟨_, rfl⟩
    refine (hE ho).seq ((Turns.op (o := .dup) rfl rfl).seq ((hmember.frame 1).seq ?_))
    refine ((hE h.code).frame 2).seq (((turns_binaryOp hop).frame 1).seq ?_)
    exact turns_name (o := .setMember) rfl rfl ⟨_, rfl⟩
  | element _ ho hk h =>
    have hextract : Turns ls.length 2 1 (.op .extract) := .op (o := .extract) rfl rfl
    refine (hE ho).seq (((hE hk.code).frame 1).seq ((Turns.op (o := .dup2) rfl rfl).seq ?_))
    refine (hextract.frame 2).seq (((hE h.code).frame 3).seq (((turns_binaryOp hop).frame 2).seq ?_))
    exact .op (o := .insert) rfl rfl

include hE in
theorem turns_callee {t : Tree} {method : Bool} (h : Callee E ls t method x) :
    Turns ls.length 0 (if method then 2 else 1) x := by
  cases h with
  | @method _ _ name _ i _ _ ho =>
    have hmember : Turns ls.length 1 1 (.const .member i (.name name)) :=
      turns_name (o := .member) rfl rfl ⟨_, rfl⟩
    exact (hE ho).seq ((Turns.op (o := .dup) rfl rfl).seq (hmember.frame 1))
  | plain h => exact hE h

include hE in
theorem turns_call {t : Tree} {args : List Tree} (h : Call E ls t args x) :
    Turns ls.length 0 1 x := by
  cases h with
  | @named method _ _ hc ha =>
    have hhash : Turns ls.length 0 1 (.op .newHash) := .op (o := .newHash) rfl rfl
    have hentries := turns_entries hE ha
    refine (turns_callee hE hc).seq ?_
    cases method with
    | true =>
      exact (hhash.frame 2).seq ((hentries.frame 2).seq (.op (o := .mcallh) rfl rfl))
    | false =>
      exact (hhash.frame 1).seq ((hentries.frame 1).seq (.op (o := .fcallh) rfl rfl))
  | @placed method _ _ hc ha hlen =>
    have hargs := turns_arguments hE ha
    refine (turns_callee hE hc).seq ?_
    cases method with
    | true =>
      have hframe := hargs.frame 2
      rw [Nat.zero_add] at hframe
      exact hframe.seq (.call (.inr rfl) hlen)
    | false =>
      have hframe := hargs.frame 1
      rw [Nat.zero_add] at hframe
      exact hframe.seq (.call (.inl rfl) hlen)

include hE in
theorem turns_indexed {owner k : Tree} (h : Indexed E ls owner k x) : Turns ls.length 0 1 x := by
  cases h with
  | slice ho hx hy =>
    exact (hE ho).seq (((hE hx).frame 1).seq (((hE hy).frame 2).seq (.op (o := .slice) rfl rfl)))
  | element ho _ hx =>
    exact (hE ho).seq (((hE hx.code).frame 1).seq (.op (o := .extract) rfl rfl))

include hE hC hS in
/-- **Expressions leave one operand.** -/
theorem turns_expr {t : Tree} (h : Expr E C S ls t x) : Turns ls.length 0 1 x := by
  have hpop : Turns ls.length 1 0 (.op .pop) := .op (o := .pop) rfl rfl
  cases h with
  | nil => exact .op (o := .pushNil) rfl rfl
  | empty => exact .op (o := .pushNil) rfl rfl
  | number => exact turns_number _
  | text => exact .const (o := .pushConst) rfl rfl rfl
  | symbol => exact turns_name (o := .loadSym) rfl rfl ⟨_, rfl⟩
  | vector h => exact .seq (.op (o := .newVec) rfl rfl) (turns_elements hE h)
  | hash h => exact .seq (.op (o := .newHash) rfl rfl) (turns_entries hE h)
  | func => exact .const (o := .func) rfl rfl ⟨_, rfl⟩
  | minus h => exact (hE h).seq (.op (o := .neg) rfl rfl)
  | neg h => exact (hE h).seq (.op (o := .neg) rfl rfl)
  | not h => exact (hE h).seq (.op (o := .not) rfl rfl)
  | and ha hb => exact (hE ha).seq (.short (.inr rfl) (hpop.seq (hE hb)))
  | or ha hb => exact (hE ha).seq (.short (.inl rfl) (hpop.seq (hE hb)))
  | ternary hc ha hb => exact (hE hc.code).seq (.branch (hE ha) (hE hb))
  | assign h => exact turns_assign hE h
  | member _ ho => exact (hE ho).seq (turns_name (o := .member) rfl rfl ⟨_, rfl⟩)
  | call h => exact turns_call hE h
  | index h => exact turns_indexed hE h
  | declared =>
    exact .seq (.op (o := .pushNil) rfl rfl) (turns_name (o := .setLocal) rfl rfl ⟨_, rfl⟩)
  | list h => exact turns_statements hE hS h
  | compound hk h =>
    obtain ⟨base, -, hop⟩ := Option.bind_eq_some_iff.mp hk
    exact turns_compound hE hop h
  | binary hk ha hb => exact (hE ha).seq (((hE hb).frame 1).seq (turns_binaryOp hk))
  | statement _ h => exact (turns_statement hE hC hS h).seq (.op (o := .pushNil) rfl rfl)

end

/-- **The code of every tree is balanced.** -/
theorem turns_all (n : Nat) : (∀ {ls t x}, expr n ls t x → Turns ls.length 0 1 x) ∧
    (∀ {ls t x}, stmt n ls t x → Turns ls.length 0 0 x) ∧
    ∀ {ls t x}, chain n ls t x → Turns ls.length 0 0 x := by
  induction n with
  | zero => exact ⟨nofun, nofun, nofun⟩
  | succ n ih =>
    obtain ⟨hE, hS, hC⟩ := ih
    exact ⟨turns_expr hE hC hS, turns_statement hE hC hS, turns_ifParts hE hC hS⟩

end Lowering

end ScriptEngine
