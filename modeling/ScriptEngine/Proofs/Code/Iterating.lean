import ScriptEngine.Proofs.Code.Decoding

/-!
# Where an iteration may come to its end

An instruction that iterates leaves the next item on top, or the end when there are no further ones.
In compiled code the test for the end stands directly behind each of them, whatever is around the loop.

* `Item.Guarded`            instructions with the test for the end behind each one that iterates;
* `Asm.Guarded`             structured code whose instructions are such;
* `Lowering.guarded_all`    the code of every expression and statement;
* `Code.Assembled.guarded`  **the words of a compiled unit spell such instructions**.
-/

namespace ScriptEngine

open Generate (binaryOp?)

/-- Whether the instruction leaves the next item of an iteration on top, or its end. -/
def Op.iterates : Op → Bool
  | each | index => true
  | _ => false

/-! ## instructions in a row -/

namespace Item

/-- Directly behind each instruction that iterates stands the test for the end. -/
def Guarded : List Item → Prop
  | [] => True
  | i :: l => (i.op.iterates = true → ∃ k, l.head? = some k ∧ k.op = .jifEnd) ∧ Guarded l

variable {i : Item} {a b : Nat} {l l' : List Item}

theorem guarded_one (h : i.op.iterates = false) : Guarded [i] :=
  ⟨fun hi => absurd hi (by rw [h]; exact Bool.false_ne_true), trivial⟩

theorem Guarded.append (h : Guarded l) (h' : Guarded l') : Guarded (l ++ l') := by
  induction l with
  | nil => exact h'
  | cons i l ih =>
    refine ⟨fun hi => ?_, ih h.2⟩
    obtain ⟨k, hk, hop⟩ := h.1 hi
    exact ⟨k, List.head?_append.trans (by rw [hk]; rfl), hop⟩

theorem Guarded.of_append (h : Guarded (l ++ l')) : Guarded l' := by
  induction l with
  | nil => exact h
  | cons i l ih => exact ih h.2

/-- Behind an instruction that iterates stands the test for the end. -/
theorem Guarded.behind (h : Guarded l) (hrow : Row a l b) (hi : i ∈ l) (hit : i.op.iterates = true) :
    ∃ pre k post, l = pre ++ i :: k :: post ∧ k.op = .jifEnd ∧ k.place = i.place + i.op.length := by
  obtain ⟨pre, post, rfl⟩ := List.append_of_mem hi
  obtain ⟨m, -, hplace, hpost⟩ := Row.of_append hrow
  obtain ⟨k, hk, hop⟩ := h.of_append.1 hit
  obtain ⟨post, rfl⟩ := List.head?_eq_some_iff.mp hk
  exact ⟨pre, k, post, rfl, hop, hplace ▸ hpost.1⟩

end Item

/-! ## structured code -/

namespace Asm

/-- Only the heads of loops iterate, and only those that the test for the end leaves. -/
def Guarded : Asm → Prop
  | skip => True
  | instr o _ _ => o.iterates = false
  | seq x y => x.Guarded ∧ y.Guarded
  | bypass j x => j.iterates = false ∧ x.Guarded
  | branch x y => x.Guarded ∧ y.Guarded
  | loop pre head exit body update post =>
    pre.Guarded ∧ (head.Guarded ∧ (∀ o ∈ exit, o.iterates = false) ∨
      (∃ step, head = .op step) ∧ exit = some .jifEnd) ∧ body.Guarded ∧ update.Guarded ∧ post.Guarded
  | leave _ _ => True

theorem guarded_drops (a k : Nat) : Item.Guarded (drops a k) := by
  induction k generalizing a with
  | zero => trivial
  | succ k ih => exact ⟨nofun, ih (a + 1)⟩

theorem guarded_exitItems {exit : Option Op} (h : ∀ o ∈ exit, o.iterates = false) (test done : Nat) :
    Item.Guarded (exitItems exit test done) := by
  cases exit with
  | none => trivial
  | some o => exact Item.guarded_one (h o rfl)

/-- **The instructions of such code** have the test for the end behind each one that iterates. -/
theorem Guarded.items {x : Asm} (h : x.Guarded) (a : Nat) (T : Targets) :
    Item.Guarded (x.items a T) := by
  induction x generalizing a T with
  | skip => trivial
  | instr o arg c => exact Item.guarded_one h
  | seq x y hx hy => exact (hx h.1 a T).append (hy h.2 _ T)
  | bypass j x hx => exact (Item.guarded_one h.1).append (hx h.2 _ T)
  | branch x y hx hy =>
    have hjump := Item.guarded_one (i := ⟨a, .jifNotPop, a + 2 + x.size + 2⟩) rfl
    have hskip := Item.guarded_one (i := ⟨a + 2 + x.size, .jmp, a + 2 + x.size + 2 + y.size⟩) rfl
    exact hjump.append ((hx h.1 _ T).append (hskip.append (hy h.2 _ T)))
  | loop pre head exit body update post hpre hhead hbody hupdate hpost =>
    obtain ⟨gpre, ghead, gbody, gupdate, gpost⟩ := h
    let s := spots pre head exit body update a
    have hinside : Item.Guarded (body.items s.inside (T.into s.done s.next) ++ (update.items s.next T ++
        ([⟨s.back, .jmpLoop, s.top⟩] ++ ([⟨s.done, .unmark, 0⟩] ++ post.items s.post T)))) :=
      (hbody gbody _ _).append ((hupdate gupdate _ T).append
        ((Item.guarded_one rfl).append ((Item.guarded_one rfl).append (hpost gpost _ T))))
    have htop : Item.Guarded (head.items s.top T ++ (exitItems exit s.test s.done ++
        (body.items s.inside (T.into s.done s.next) ++ (update.items s.next T ++
          ([⟨s.back, .jmpLoop, s.top⟩] ++ ([⟨s.done, .unmark, 0⟩] ++ post.items s.post T)))))) := by
      rcases ghead with ⟨ghead, gexit⟩ | ⟨⟨step, rfl⟩, rfl⟩
      · exact (hhead ghead _ T).append ((guarded_exitItems gexit ..).append hinside)
      -- the test for the end is what leaves the loop
      · exact ⟨fun _ => ⟨_, rfl, rfl⟩, nofun, hinside⟩
    exact (hpre gpre a T).append ((Item.guarded_one rfl).append htop)
  | leave out k =>
    exact (guarded_drops a k).append ((Item.guarded_one rfl).append (Item.guarded_one rfl))

end Asm

/-! ## the code of trees -/

namespace Lowering

section

variable {E C S : Lowering} {ls : List (Option Bytes)} {x : Asm}
  (hE : ∀ {ls t x}, E ls t x → x.Guarded) (hC : ∀ {ls t x}, C ls t x → x.Guarded)
  (hS : ∀ {ls t x}, S ls t x → x.Guarded)

theorem guarded_number (v : Float) (i : Nat) : (number v i).Guarded := by
  unfold number
  split
  · rfl
  · split
    · rfl
    · rfl

include hE in
theorem guarded_elements {ts : List Tree} (h : Elements E ls ts x) : x.Guarded := by
  induction h with
  | nil => trivial
  | cons head _ ih => exact ⟨hE head, rfl, ih⟩

include hE in
theorem guarded_entries {ts : List Tree} (h : Entries E ls ts x) : x.Guarded := by
  induction h with
  | nil => trivial
  | cons _ value _ ih => exact ⟨rfl, hE value.code, rfl, ih⟩

include hE in
theorem guarded_arguments {ts : List Tree} (h : Arguments E ls ts x) : x.Guarded := by
  induction h with
  | nil => trivial
  | cons head _ ih => exact ⟨hE head, ih⟩

theorem guarded_either {p : Bool} {y z : Asm} (hy : y.Guarded) (hz : z.Guarded) :
    (if p then y else z).Guarded := by
  split
  · exact hy
  · exact hz

include hE hS in
theorem guarded_sequence {keep : Bool} {ts : List Tree} (h : Sequence E S ls keep ts x) :
    x.Guarded := by
  have hnil : (Asm.op .pushNil).Guarded := rfl
  have hpop : (Asm.op .pop).Guarded := rfl
  have hskip : Asm.skip.Guarded := trivial
  induction h with
  | nil => trivial
  | stmt _ head _ ih => exact ⟨hS head, guarded_either hnil hskip, ih⟩
  | expr _ head _ ih => exact ⟨hE head, guarded_either hskip hpop, ih⟩

include hE hS in
theorem guarded_statements {t : Tree} {keep : Bool} (h : Statements E S ls t keep x) :
    x.Guarded := by
  cases h with
  | none => exact guarded_either (y := .op .pushNil) (z := .skip) rfl trivial
  | some _ hx => exact guarded_sequence hE hS hx

include hE hS in
theorem guarded_block {t : Tree} (h : Block E S ls t x) : x.Guarded := by
  cases h with
  | braced h => exact guarded_statements hE hS h
  | bare h => exact guarded_statements hE hS h

include hE hC hS in
theorem guarded_ifParts {ts : List Tree} (h : IfParts E C S ls ts x) : x.Guarded := by
  cases h with
  | one hc hb => exact ⟨hE hc.code, rfl, guarded_block hE hS hb⟩
  | other hc hb _ ho => exact ⟨hE hc.code, guarded_block hE hS hb, guarded_block hE hS ho⟩
  | chain hc hb _ ho => exact ⟨hE hc.code, guarded_block hE hS hb, hC ho⟩

include hE in
theorem guarded_dropped {t : Tree} (h : Dropped E ls t x) : x.Guarded := by
  cases h with
  | none => trivial
  | some _ hx => exact ⟨hE hx, rfl⟩

include hE in
theorem guarded_test {t : Tree} {exit : Option Op} (h : Test E ls t x exit) :
    x.Guarded ∧ ∀ o ∈ exit, o.iterates = false := by
  cases h with
  | none => exact ⟨trivial, nofun⟩
  | some hc => exact ⟨hE hc.code, fun o ho => Option.some.inj ho ▸ rfl⟩

include hE hC hS in
/-- **Statements**: the step of a `foreach` or `forindex` is the head of its loop. -/
theorem guarded_statement {t : Tree} (h : Statement E C S ls t x) : x.Guarded := by
  cases h with
  | ifs h => exact guarded_ifParts hE hC hS h
  | whiles _ hc hb =>
    exact ⟨trivial, .inl (guarded_test hE (.some hc)), guarded_block hE hS hb, trivial, trivial⟩
  | fors _ hs hc hb hu =>
    exact ⟨guarded_dropped hE hs, .inl (guarded_test hE hc), guarded_block hE hS hb,
      guarded_dropped hE hu, trivial⟩
  | foreach _ _ hv he hb =>
    refine ⟨⟨hE he, rfl⟩, .inr ⟨⟨_, rfl⟩, rfl⟩, ⟨?_, rfl, guarded_block hE hS hb⟩, trivial, rfl, rfl⟩
    cases hv with
    | symbol => rfl
    | declared => rfl
  | ret h => exact ⟨hE h, rfl⟩
  | leave => trivial

theorem guarded_binaryOp {t : Tok} {op : Op} (h : binaryOp? t = some op) : (Asm.op op).Guarded := by
  unfold binaryOp? at h
  split at h <;> cases h <;> rfl

include hE in
theorem guarded_assign {rhs lhs : Tree} (h : Assign E ls rhs lhs x) : x.Guarded := by
  cases h with
  | symbol h => exact ⟨hE h.code, rfl⟩
  | declared _ h => exact ⟨hE h.code, rfl⟩
  | member _ ho h => exact ⟨hE ho, hE h.code, rfl⟩
  | element _ ho hk h => exact ⟨hE ho, hE hk.code, hE h.code, rfl⟩

include hE in
theorem guarded_compound {op : Op} (hop : (Asm.op op).Guarded) {rhs lhs : Tree}
    (h : Compound E ls op rhs lhs x) : x.Guarded := by
  cases h with
  | symbol h => exact ⟨rfl, hE h.code, hop, rfl⟩
  | member _ ho h => exact ⟨hE ho, rfl, rfl, hE h.code, hop, rfl⟩
  | element _ ho hk h => exact ⟨hE ho, hE hk.code, rfl, rfl, hE h.code, hop, rfl⟩

include hE in
theorem guarded_callee {t : Tree} {method : Bool} (h : Callee E ls t method x) : x.Guarded := by
  cases h with
  | method _ ho => exact ⟨hE ho, rfl, rfl⟩
  | plain h => exact hE h

include hE in
theorem guarded_call {t : Tree} {args : List Tree} (h : Call E ls t args x) : x.Guarded := by
  cases h with
  | @named method _ _ hc ha =>
    refine ⟨guarded_callee hE hc, rfl, guarded_entries hE ha, ?_⟩
    cases method <;> rfl
  | @placed method _ _ hc ha _ =>
    refine ⟨guarded_callee hE hc, guarded_arguments hE ha, ?_⟩
    cases method <;> rfl

include hE in
theorem guarded_indexed {owner k : Tree} (h : Indexed E ls owner k x) : x.Guarded := by
  cases h with
  | slice ho hx hy => exact ⟨hE ho, hE hx, hE hy, rfl⟩
  | element ho _ hx => exact ⟨hE ho, hE hx.code, rfl⟩

include hE hC hS in
/-- **Expressions** iterate only in the statements they contain. -/
theorem guarded_expr {t : Tree} (h : Expr E C S ls t x) : x.Guarded := by
  cases h with
  | nil | empty | text | symbol | func => rfl
  | number => exact guarded_number _ _
  | vector h => exact ⟨rfl, guarded_elements hE h⟩
  | hash h => exact ⟨rfl, guarded_entries hE h⟩
  | minus h | neg h | not h => exact ⟨hE h, rfl⟩
  | and ha hb | or ha hb => exact ⟨hE ha, rfl, rfl, hE hb⟩
  | ternary hc ha hb => exact ⟨hE hc.code, hE ha, hE hb⟩
  | assign h => exact guarded_assign hE h
  | member _ ho => exact ⟨hE ho, rfl⟩
  | call h => exact guarded_call hE h
  | index h => exact guarded_indexed hE h
  | declared => exact ⟨rfl, rfl⟩
  | list h => exact guarded_statements hE hS h
  | compound hk h =>
    obtain ⟨base, -, hop⟩ := Option.bind_eq_some_iff.mp hk
    exact guarded_compound hE (guarded_binaryOp hop) h
  | binary hk ha hb => exact ⟨hE ha, hE hb, guarded_binaryOp hk⟩
  | statement _ h => exact ⟨guarded_statement hE hC hS h, rfl⟩

end

/-- **The code of every tree** iterates only in the heads of loops. -/
theorem guarded_all (n : Nat) : (∀ {ls t x}, expr n ls t x → x.Guarded) ∧
    (∀ {ls t x}, stmt n ls t x → x.Guarded) ∧ ∀ {ls t x}, chain n ls t x → x.Guarded := by
  induction n with
  | zero => exact ⟨nofun, nofun, nofun⟩
  | succ n ih =>
    obtain ⟨hE, hS, hC⟩ := ih
    exact ⟨guarded_expr hE hC hS, guarded_statement hE hC hS, guarded_ifParts hE hC hS⟩

end Lowering

/-! ## units -/

/-- **The words of a compiled unit** spell instructions with the test for the end directly behind each one
that iterates. -/
theorem Code.Assembled.guarded {c : Code Const} (h : c.Assembled) :
    ∃ l, Decoded c.words l ∧ Item.Guarded l := by
  cases h with
  | @mk _ n _ x lowered words small few uses =>
    obtain ⟨hE, hS, -⟩ := Lowering.guarded_all n
    have hx : x.Guarded := Lowering.guarded_statements hE hS lowered
    have hunit : (Asm.seq x (.op .ret)).Guarded := ⟨hx, rfl⟩
    obtain ⟨tE, tS, -⟩ := Lowering.turns_all n
    have hturns : Turns 0 0 1 x := Lowering.turns_statements tE tS lowered
    exact ⟨_, hturns.decoded words small few uses, hunit.items 0 unaimed⟩

end ScriptEngine
