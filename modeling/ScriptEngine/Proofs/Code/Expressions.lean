import ScriptEngine.Proofs.Code.Statements

/-!
# Compiled units are structured code

Expressions, and from them and the statements every unit: a function literal is a unit of its own,
which is complete when it becomes a constant of the one around it.

* `writes_exprWith`   every expression;
* `writes_function`   function literals;
* `writes_all`        expressions and statements of any height;
* `generate_assembled`, `compile_assembled`   **every unit that a source text compiles to is
  assembled from structured code**, also when compilation fails later.
-/

namespace ScriptEngine

namespace Generate

open Gen

section

variable {expr : Tree → Gen Unit} {E : Lowering}
  (hexpr : ∀ t, Writes (fun ls => E ls t) (expr t))

variable {ls : List (Option Bytes)} {g : State}

/-! ## constants -/

/-- An instruction on a constant that no unit is stored in. -/
theorem writes_emitConst (op : Op) (ho : op.hasOperand = true) {c : Const} (hc : c.key?.isSome) :
    Writes (fun _ y => ∃ i, y = .const op i c) (do emitArg op (← constIndex c)) := by
  refine ⟨fun hg => (holds_index hg hc).bind fun i g₁ ⟨h₁, hi⟩ => ?_⟩
  exact (holds_emitConst (h₁.at hg) op ho hi).mono fun _ g₂ w => ⟨_, ⟨i, rfl⟩, w.after h₁⟩

theorem writes_emitName (op : Op) (ho : op.hasOperand = true) (t : Tree) :
    Writes (fun _ y => ∃ i name, t.name? = some name ∧ y = .const op i (.name name))
      (do emitArg op (← symbol t)) := by
  refine ⟨fun hg => (holds_symbol hg t).bind fun i g₁ ⟨name, hname, h₁, hi⟩ => ?_⟩
  exact (holds_emitConst (h₁.at hg) op ho hi).mono fun _ g₂ w =>
    ⟨_, ⟨i, name, hname, rfl⟩, w.after h₁⟩

theorem writes_pushNumber (x : Float) :
    Writes (fun _ y => ∃ i, y = Lowering.number x i) (pushNumber x) := by
  unfold pushNumber Lowering.number
  split
  · exact (writes_emit .pushZero rfl).mono fun _ y hy => ⟨0, hy⟩
  · split
    · exact (writes_emit .pushOne rfl).mono fun _ y hy => ⟨0, hy⟩
    · exact writes_emitConst .pushConst rfl rfl

theorem writes_key (t : Tree) :
    Writes (fun _ y => ∃ i c, Lowering.keyConst? t = some c ∧ y = .const .pushConst i c) (key t) := by
  have hconst {c : Const} (hc : c.key?.isSome) : Writes (fun _ y => ∃ i d, some c = some d ∧
      y = .const .pushConst i d) (do emitArg .pushConst (← constIndex c)) := by
    refine (writes_emitConst .pushConst rfl hc).mono ?_
    rintro _ y ⟨i, rfl⟩
    exact ⟨i, c, rfl, rfl⟩
  unfold key Lowering.keyConst?
  cases t.name? with
  | some name => exact hconst rfl
  | none =>
    cases hc : literal? t with
    | some c => exact hconst (key?_of_literal? hc)
    | none => exact writes_fail_bind _

/-! ## assignments -/

include hexpr in
theorem writes_assign (lhs rhs : Tree) :
    Writes (fun ls => Lowering.Assign E ls rhs lhs) (assign expr lhs rhs) := by
  have hval := writes_value hexpr rhs
  refine ⟨fun {ls g} hg => ?_⟩
  unfold assign
  split
  · refine (holds_symbol hg _).bind fun i g₁ ⟨name, hname, h₁, hi⟩ => ?_
    obtain rfl := Option.some.inj hname
    refine (hval.holds (h₁.at hg)).bind fun _ g₂ ⟨x, hx, w₂⟩ => ?_
    refine (holds_emitConst (w₂.at (h₁.at hg)) .setSym rfl (w₂.grew.consts hi)).mono fun _ g₃ w₃ => ?_
    exact ⟨_, .symbol hx, (w₂.seq w₃).after h₁⟩
  · refine (holds_symbol hg _).bind fun i g₁ ⟨name, hname, h₁, hi⟩ => ?_
    refine (hval.holds (h₁.at hg)).bind fun _ g₂ ⟨x, hx, w₂⟩ => ?_
    refine (holds_emitConst (w₂.at (h₁.at hg)) .setLocal rfl (w₂.grew.consts hi)).mono fun _ g₃ w₃ => ?_
    exact ⟨_, .declared hname hx, (w₂.seq w₃).after h₁⟩
  · refine (holds_symbol hg _).bind fun i g₁ ⟨name, hname, h₁, hi⟩ => ?_
    have hg₁ := h₁.at hg
    refine ((hexpr _).holds hg₁).bind fun _ g₂ ⟨o, ho, w₂⟩ => ?_
    refine (hval.holds (w₂.at hg₁)).bind fun _ g₃ ⟨x, hx, w₃⟩ => ?_
    refine (holds_emitConst (w₃.at (w₂.at hg₁)) .setMember rfl
      (w₃.grew.consts (w₂.grew.consts hi))).mono fun _ g₄ w₄ => ?_
    exact ⟨_, .member hname ho hx, (w₂.seq (w₃.seq w₄)).after h₁⟩
  · split
    · exact holds_fail hg _
    · rename_i hs
      refine ((hexpr _).holds hg).bind fun _ g₁ ⟨o, ho, w₁⟩ => ?_
      refine ((writes_value hexpr _).holds (w₁.at hg)).bind fun _ g₂ ⟨y, hy, w₂⟩ => ?_
      refine (hval.holds (w₂.at (w₁.at hg))).bind fun _ g₃ ⟨x, hx, w₃⟩ => ?_
      refine (holds_emit (w₃.at (w₂.at (w₁.at hg))) .insert rfl).mono fun _ g₄ w₄ => ?_
      exact ⟨_, .element (eq_false_of_ne_true hs) ho hy hx, w₁.seq (w₂.seq (w₃.seq w₄))⟩
  · exact holds_fail hg _

/-- The instruction of a binary operator has no operand. -/
theorem hasOperand_of_binaryOp? {t : Tok} {op : Op} (h : binaryOp? t = some op) :
    op.hasOperand = false := by
  unfold binaryOp? at h
  split at h <;> cases h <;> rfl

include hexpr in
theorem writes_compound {op : Op} (hop : op.hasOperand = false) (lhs rhs : Tree) :
    Writes (fun ls => Lowering.Compound E ls op rhs lhs) (compound expr op lhs rhs) := by
  have hval := writes_value hexpr rhs
  refine ⟨fun {ls g} hg => ?_⟩
  unfold compound
  split
  · refine (holds_symbol hg _).bind fun i g₁ ⟨name, hname, h₁, hi⟩ => ?_
    obtain rfl := Option.some.inj hname
    have hg₁ := h₁.at hg
    refine (holds_emitConst hg₁ .loadSym rfl hi).bind fun _ g₂ w₂ => ?_
    have hg₂ := w₂.at hg₁
    refine (hval.holds hg₂).bind fun _ g₃ ⟨x, hx, w₃⟩ => ?_
    have hg₃ := w₃.at hg₂
    refine (holds_emit hg₃ op hop).bind fun _ g₄ w₄ => ?_
    refine (holds_emitConst (w₄.at hg₃) .setSym rfl
      (w₄.grew.consts (w₃.grew.consts (w₂.grew.consts hi)))).mono fun _ g₅ w₅ => ?_
    exact ⟨_, .symbol hx, (w₂.seq (w₃.seq (w₄.seq w₅))).after h₁⟩
  · refine (holds_symbol hg _).bind fun i g₁ ⟨name, hname, h₁, hi⟩ => ?_
    have hg₁ := h₁.at hg
    refine ((hexpr _).holds hg₁).bind fun _ g₂ ⟨o, ho, w₂⟩ => ?_
    have hg₂ := w₂.at hg₁
    refine (holds_emit hg₂ .dup rfl).bind fun _ g₃ w₃ => ?_
    have hg₃ := w₃.at hg₂
    have hi₃ := w₃.grew.consts (w₂.grew.consts hi)
    refine (holds_emitConst hg₃ .member rfl hi₃).bind fun _ g₄ w₄ => ?_
    have hg₄ := w₄.at hg₃
    refine (hval.holds hg₄).bind fun _ g₅ ⟨x, hx, w₅⟩ => ?_
    have hg₅ := w₅.at hg₄
    refine (holds_emit hg₅ op hop).bind fun _ g₆ w₆ => ?_
    refine (holds_emitConst (w₆.at hg₅) .setMember rfl
      (w₆.grew.consts (w₅.grew.consts (w₄.grew.consts hi₃)))).mono fun _ g₇ w₇ => ?_
    exact ⟨_, .member hname ho hx,
      (w₂.seq (w₃.seq (w₄.seq (w₅.seq (w₆.seq w₇))))).after h₁⟩
  · split
    · exact holds_fail hg _
    · rename_i hs
      refine ((hexpr _).holds hg).bind fun _ g₁ ⟨o, ho, w₁⟩ => ?_
      have hg₁ := w₁.at hg
      refine ((writes_value hexpr _).holds hg₁).bind fun _ g₂ ⟨y, hy, w₂⟩ => ?_
      have hg₂ := w₂.at hg₁
      refine (holds_emit hg₂ .dup2 rfl).bind fun _ g₃ w₃ => ?_
      have hg₃ := w₃.at hg₂
      refine (holds_emit hg₃ .extract rfl).bind fun _ g₄ w₄ => ?_
      have hg₄ := w₄.at hg₃
      refine (hval.holds hg₄).bind fun _ g₅ ⟨x, hx, w₅⟩ => ?_
      have hg₅ := w₅.at hg₄
      refine (holds_emit hg₅ op hop).bind fun _ g₆ w₆ => ?_
      refine (holds_emit (w₆.at hg₅) .insert rfl).mono fun _ g₇ w₇ => ?_
      exact ⟨_, .element (eq_false_of_ne_true hs) ho hy hx,
        w₁.seq (w₂.seq (w₃.seq (w₄.seq (w₅.seq (w₆.seq w₇)))))⟩
  · exact holds_fail hg _

/-! ## containers and calls -/

include hexpr in
theorem writes_entries (l : List Tree) :
    Writes (fun ls => Lowering.Entries E ls l) (entries expr l) := by
  fun_induction entries expr l with
  | case1 => exact writes_nothing.mono fun _ y hy => hy ▸ .nil
  | case2 line k v more ih =>
    refine ((writes_key k).seq ((writes_value hexpr v).seq
      ((writes_emit .happend rfl).seq ih))).mono ?_
    rintro ls z ⟨_, _, ⟨i, c, hc, rfl⟩, ⟨x, _, hx, ⟨_, y, rfl, hy, rfl⟩, rfl⟩, rfl⟩
    exact .cons hc hx hy
  | case3 => exact writes_fail _

include hexpr in
theorem writes_elements (l : List Tree) :
    Writes (fun ls => Lowering.Elements E ls l) (elements expr l) := by
  induction l with
  | nil => exact writes_nothing.mono fun _ y hy => hy ▸ .nil
  | cons t ts ih =>
    refine ((hexpr t).seq ((writes_emit .vappend rfl).seq ih)).mono ?_
    rintro ls z ⟨x, _, hx, ⟨_, y, rfl, hy, rfl⟩, rfl⟩
    exact .cons hx hy

include hexpr in
theorem writes_arguments (l : List Tree) :
    Writes (fun ls => Lowering.Arguments E ls l) (l.forM expr) := by
  induction l with
  | nil => exact writes_nothing.mono fun _ y hy => hy ▸ .nil
  | cons t ts ih =>
    refine ((hexpr t).seq ih).mono ?_
    rintro ls z ⟨x, y, hx, hy, rfl⟩
    exact .cons hx hy

include hexpr in
/-- The arguments of a call and the call itself. -/
theorem writes_callArgs (method : Bool) (line : Nat) (args : List Tree) (named : Prop)
    [Decidable named] :
    Writes (fun ls z => (∃ y, Lowering.Entries E ls args y ∧
        z = .seq (.op .newHash) (.seq y (.op (if method then .mcallh else .fcallh)))) ∨
      ∃ y, Lowering.Arguments E ls args y ∧ args.length ≤ 65535 ∧
        z = .seq y (.instr (if method then .mcall else .fcall) args.length none))
      (if named then do
        emit .newHash
        entries expr args
        atLine line
        emit (if method then .mcallh else .fcallh)
      else do
        if 65535 < args.length then fail .tooManyArguments
        args.forM expr
        atLine line
        emitArg (if method then .mcall else .fcall) args.length) := by
  by_cases hnamed : named
  · rw [if_pos hnamed]
    have hop : (if method then Op.mcallh else Op.fcallh).hasOperand = false := by
      cases method <;> rfl
    refine ((writes_emit .newHash rfl).seq ((writes_entries hexpr args).seq
      ((writes_emit _ hop).atLine line))).mono ?_
    rintro ls z ⟨_, _, rfl, ⟨y, _, hy, rfl, rfl⟩, rfl⟩
    exact .inl ⟨y, hy, rfl⟩
  · rw [if_neg hnamed]
    refine ⟨fun {ls g} hg => ?_⟩
    by_cases hlen : 65535 < args.length
    · rw [if_pos hlen]
      exact holds_fail_bind hg _
    · rw [if_neg hlen]
      have hop : (if method then Op.mcall else Op.fcall).hasOperand = true := by
        cases method <;> rfl
      refine ((writes_arguments hexpr args).holds hg).bind fun _ g₁ ⟨y, hy, w₁⟩ => ?_
      refine (holds_atLine (w₁.at hg) line).bind fun _ g₂ h₂ => ?_
      refine (holds_emitArg (h₂.at (w₁.at hg)) _ hop args.length none nofun).mono fun _ g₃ w₃ => ?_
      exact ⟨_, .inr ⟨y, hy, Nat.le_of_not_lt hlen, rfl⟩, w₁.seq (w₃.after h₂)⟩

include hexpr in
theorem writes_call (line : Nat) (callee arguments : Tree) :
    Writes (fun ls => Lowering.Call E ls callee arguments.items) (call expr line callee arguments) := by
  have hargs (method : Bool) {ls : List (Option Bytes)} {g g₁ : State} {x : Asm} (hg : At ls g)
      (hc : Lowering.Callee E ls callee method x) (w : Wrote x g g₁) :=
    ((writes_callArgs hexpr method line arguments.items
      (0 < arguments.items.countP fun a => a.kind == .colon)).holds (w.at hg)).mono
      fun _ g' ⟨z, hz, w'⟩ => show ∃ z, Lowering.Call E ls callee arguments.items z ∧ Wrote z g g' by
        rcases hz with ⟨y, hy, rfl⟩ | ⟨y, hy, hlen, rfl⟩
        · exact ⟨_, .named hc hy, w.seq w'⟩
        · exact ⟨_, .placed hc hy hlen, w.seq w'⟩
  refine ⟨fun {ls g} hg => ?_⟩
  unfold call
  show Holds _ (EStateM.run (ite _ _ _) g)
  split
  · exact holds_fail_bind hg _
  · dsimp only
    split
    · refine (holds_symbol hg _).bind fun i g₁ ⟨name, hname, h₁, hi⟩ => ?_
      refine ((hexpr _).holds (h₁.at hg)).bind fun _ g₂ ⟨o, ho, w₂⟩ => ?_
      have hg₂ := w₂.at (h₁.at hg)
      refine (holds_emit hg₂ .dup rfl).bind fun _ g₃ w₃ => ?_
      refine (holds_emitConst (w₃.at hg₂) .member rfl
        (w₃.grew.consts (w₂.grew.consts hi))).bind fun _ g₄ w₄ => ?_
      exact hargs true hg (.method hname ho) ((w₂.seq (w₃.seq w₄)).after h₁)
    · refine ((hexpr callee).holds hg).bind fun _ g₁ ⟨x, hx, w₁⟩ => ?_
      exact hargs false hg (.plain hx) w₁

include hexpr in
theorem writes_indexed (line : Nat) (owner k : Tree) :
    Writes (fun ls => Lowering.Indexed E ls owner k) (indexed expr line owner k) := by
  refine ⟨fun {ls g} hg => ?_⟩
  unfold indexed
  refine ((hexpr owner).holds hg).bind fun _ g₁ ⟨o, ho, w₁⟩ => ?_
  have hg₁ := w₁.at hg
  split
  · rename_i start stop
    have hslice := (hexpr start).seq ((hexpr stop).seq ((writes_emit .slice rfl).atLine line))
    refine (hslice.holds hg₁).mono ?_
    rintro _ g₂ ⟨_, ⟨x, _, hx, ⟨y, _, hy, rfl, rfl⟩, rfl⟩, w₂⟩
    exact ⟨_, .slice ho hx hy, w₁.seq w₂⟩
  · rename_i hs
    have hextract := (writes_value hexpr k).seq ((writes_emit .extract rfl).atLine line)
    refine (hextract.holds hg₁).mono ?_
    rintro _ g₂ ⟨_, ⟨x, _, hx, rfl, rfl⟩, w₂⟩
    exact ⟨_, .element ho (fun l a b h => hs l a b h) hx, w₁.seq w₂⟩

/-! ## jumps -/

include hexpr in
theorem writes_ternary (line : Nat) (cond branches : Tree) {C S : Lowering} :
    Writes (fun ls => Lowering.Expr E C S ls (.mk .question line [cond, branches]))
      (ternary expr cond branches) := by
  refine ⟨fun {ls g} hg => ?_⟩
  unfold ternary
  split
  · rename_i yes no
    refine (holds_condition hexpr hg cond).bind fun o g₂ ⟨x, g₁, hx, w₁, ho, h₂⟩ => ?_
    have hg₂ := h₂.at (w₁.at hg)
    refine ((hexpr yes).holds hg₂).bind fun _ g₃ ⟨y, hy, w₃⟩ => ?_
    have hg₃ := w₃.at hg₂
    refine (holds_emitJump hg₃ .jmp rfl).bind fun o' g₄ ⟨ho', h₄⟩ => ?_
    refine (holds_patch o g₄).bind fun _ g₅ h₅ => ?_
    subst ho ho' h₅
    refine ((hexpr no).holds ((h₄.at hg₃).aimed _)).bind fun _ g₆ ⟨z, hz, w₆⟩ => ?_
    refine (holds_patch _ g₆).mono fun _ g₇ h₇ => ?_
    subst h₇
    exact ⟨_, .ternary hx hy hz, w₁.seq (.branch h₂ w₃ h₄ w₆)⟩
  · exact holds_fail hg _

include hexpr in
theorem writes_shortCircuit {jump : Op} (hjump : jump.hasOperand = true) (a b : Tree) :
    Writes (fun ls z => ∃ x y, E ls a x ∧ E ls b y ∧ z = .seq x (.bypass jump (.seq (.op .pop) y)))
      (shortCircuit expr jump a b) := by
  refine ⟨fun {ls g} hg => ?_⟩
  unfold shortCircuit
  refine ((hexpr a).holds hg).bind fun _ g₁ ⟨x, hx, w₁⟩ => ?_
  have hg₁ := w₁.at hg
  refine (holds_emitJump hg₁ jump hjump).bind fun o g₂ ⟨ho, h₂⟩ => ?_
  have hg₂ := h₂.at hg₁
  refine (holds_emit hg₂ .pop rfl).bind fun _ g₃ w₃ => ?_
  refine ((hexpr b).holds (w₃.at hg₂)).bind fun _ g₄ ⟨y, hy, w₄⟩ => ?_
  refine (holds_patch o g₄).mono fun _ g₅ h₅ => ?_
  subst ho h₅
  exact ⟨_, ⟨x, y, hx, hy, rfl⟩, w₁.seq (.bypass hjump h₂ (w₃.seq w₄))⟩

include hexpr in
theorem writes_binary {t : Tok} {op : Op} (hop : binaryOp? t = some op) (line : Nat) (a b : Tree) :
    Writes (fun ls z => ∃ x y, E ls a x ∧ E ls b y ∧ z = .seq x (.seq y (.op op)))
      (binary expr line op a b) := by
  have hemit := writes_emit op (hasOperand_of_binaryOp? hop)
  refine ((hexpr a).seq ((hexpr b).seq (hemit.atLine line))).mono ?_
  rintro ls z ⟨x, _, hx, ⟨y, _, hy, rfl, rfl⟩, rfl⟩
  exact ⟨x, y, hx, hy, rfl⟩

/-! ## function literals -/

theorem Params.Named.mono {ps : Params} {consts consts' : Array Const} (h : ps.Named consts)
    (hle : ∀ {i : Nat} {c}, consts[i]? = some c → consts'[i]? = some c) : ps.Named consts' where
  required i hi := (h.required i hi).imp fun _ => hle
  optional p hp := ⟨(h.optional p hp).1.imp fun _ => hle,
    (h.optional p hp).2.imp fun _ => Exists.imp fun _ => And.imp_right hle⟩
  rest i hi := (h.rest i hi).imp fun _ => hle

/-- A parameter with its constants is stored, and nothing is written. -/
theorem holds_param (hg : At ls g) {ps : Params} (hps : ps.Named g.draft.consts) (t : Tree) :
    Holds (fun ps' g' => Grew [] (fun _ _ => []) g g' ∧ ps'.Named g'.draft.consts)
      ((param ps t).run g) := by
  unfold param
  refine (holds_atLine hg t.line).bind fun _ g₁ h₁ => ?_
  have hg₁ := h₁.at hg
  show Holds _ (EStateM.run (ite _ _ _) g₁)
  split
  · exact holds_fail_bind hg₁ _
  · dsimp only [pure_bind]
    split
    · split
      · refine (holds_symbol hg₁ _).bind fun i g₂ ⟨name, hname, h₂, hi⟩ => .done ⟨h₁.trans h₂, ?_⟩
        have hps₂ := hps.mono fun hc => h₂.consts (h₁.consts hc)
        refine { hps₂ with required := fun j hj => ?_ }
        rcases Array.mem_push.mp hj with hj | rfl
        · exact hps₂.required j hj
        · exact ⟨name, hi⟩
      · exact holds_fail hg₁ _
    · refine (holds_symbol hg₁ _).bind fun i g₂ ⟨name, hname, h₂, hi⟩ => ?_
      split
      · rename_i c hc
        refine (holds_index (h₂.at hg₁) (key?_of_literal? hc)).bind
          fun d g₃ ⟨h₃, hd⟩ => .done ⟨h₁.trans (h₂.trans h₃), ?_⟩
        have hps₃ := hps.mono fun hc => h₃.consts (h₂.consts (h₁.consts hc))
        refine { hps₃ with optional := fun p hp => ?_ }
        rcases Array.mem_push.mp hp with hp | rfl
        · exact hps₃.optional p hp
        · exact ⟨⟨name, h₃.consts hi⟩, _, c, hc, hd⟩
      · exact holds_fail (h₂.at hg₁) _
    · refine (holds_symbol hg₁ _).bind fun i g₂ ⟨name, hname, h₂, hi⟩ => .done ⟨h₁.trans h₂, ?_⟩
      have hps₂ := hps.mono fun hc => h₂.consts (h₁.consts hc)
      exact { hps₂ with rest := fun j hj => ⟨name, Option.some.inj hj ▸ hi⟩ }
    · exact holds_fail hg₁ _

theorem holds_paramList (hg : At ls g) {ps : Params} (hps : ps.Named g.draft.consts)
    (l : List Tree) :
    Holds (fun ps' g' => Grew [] (fun _ _ => []) g g' ∧ ps'.Named g'.draft.consts)
      ((l.foldlM param ps).run g) := by
  induction l generalizing ps g with
  | nil => exact .done ⟨.refl hg.tidy, hps⟩
  | cons t l ih =>
    rw [List.foldlM_cons]
    refine (holds_param hg hps t).bind fun ps₁ g₁ ⟨h₁, hps₁⟩ => ?_
    exact (ih (h₁.at hg) hps₁).mono fun ps₂ g₂ ⟨h₂, hps₂⟩ => ⟨h₁.trans h₂, hps₂⟩

theorem holds_params (hg : At ls g) (list : Option Tree) :
    Holds (fun ps g' => Grew [] (fun _ _ => []) g g' ∧ ps.Named g'.draft.consts)
      ((params list).run g) := by
  have hnone : Params.Named {} g.draft.consts :=
    ⟨fun _ hi => (nomatch hi), fun _ hp => (nomatch hp), fun _ hi => nomatch hi⟩
  unfold params
  split
  · refine (holds_index hg (c := .name argName) rfl).bind fun i g₁ ⟨h₁, hi⟩ => .done ⟨h₁, ?_⟩
    exact { hnone.mono h₁.consts with rest := fun j hj => ⟨_, Option.some.inj hj ▸ hi⟩ }
  · rename_i list
    refine (holds_paramList hg hnone list.items).bind fun ps g₁ ⟨h₁, hps⟩ => ?_
    split
    · exact .done ⟨h₁, hps⟩
    · refine (holds_index (h₁.at hg) (c := .name argName) rfl).bind
        fun i g₂ ⟨h₂, hi⟩ => .done ⟨h₁.trans h₂, ?_⟩
      exact { hps.mono h₂.consts with rest := fun j hj => ⟨_, Option.some.inj hj ▸ hi⟩ }

end

section

variable {expr chain stmt : Tree → Gen Unit} {n : Nat}
  (hexpr : ∀ t, Writes (fun ls => Lowering.expr n ls t) (expr t))
  (hchain : ∀ t, Writes (fun ls => Lowering.chain n ls t) (chain t))
  (hstmt : ∀ t, Writes (fun ls => Lowering.stmt n ls t) (stmt t))

variable {ls : List (Option Bytes)} {g : State}

include hexpr hstmt in
/-- What is written from nothing is a complete unit. -/
theorem holds_unitBody (hg : g.Tidy) (hempty : g.draft = {}) (list : Option Tree) (body : Tree) :
    Holds (fun ps g' => g'.Tidy ∧ g'.outer = g.outer ∧ ∀ file, (finish file g'.draft ps).Assembled)
      ((unitBody expr stmt list body).run g) := by
  have hat : At [] g := ⟨hg, by rw [hempty]; rfl⟩
  unfold unitBody
  refine (holds_params hat list).bind fun ps g₁ ⟨h₁, hps⟩ => ?_
  refine (holds_atLine (h₁.at hat) body.line).bind fun _ g₂ h₂ => ?_
  have hgrew := h₁.trans h₂
  have hg₂ := hgrew.at hat
  refine ((writes_statements hexpr hstmt body true).holds hg₂).bind fun _ g₃ ⟨x, hx, w₃⟩ => ?_
  refine (holds_emit (w₃.at hg₂) .ret rfl).bind fun _ g₄ w₄ => .done ?_
  have w := (w₃.seq w₄).after hgrew
  refine ⟨w.grew.tidy, w.grew.outer, fun file => ?_⟩
  have htidy := w.grew.tidy.draft
  refine .mk hx ?_ htidy.small htidy.few w.uses.1 ?_ ?_ ?_ htidy.closed
  · have hwords := w.grew.words
    rw [hempty] at hwords
    exact hwords
  · exact hps.mono fun hc => w₄.grew.consts (w₃.grew.consts (h₂.consts hc))
  · intro i j d d' hi hj hkey heq
    obtain ⟨k, hk⟩ := Option.isSome_iff_exists.mp hkey
    have hplace := (htidy.keyed hi hk).symm.trans (htidy.keyed hj (heq.symm.trans hk))
    exact Option.some.inj hplace
  · intro run hrun
    have hwords := w.grew.words
    have hstarts := w.grew.runs.starts run hrun
    rw [hempty] at hwords hstarts
    obtain ⟨k, hk, e⟩ := hstarts.resolve_left fun h => nomatch h
    rw [show (finish file g₄.draft ps).words = g₄.draft.words from rfl, hwords, e]
    rw [show (({} : Draft).words.size + k) = k from Nat.zero_add k]
    exact hk

include hexpr hstmt in
theorem writes_function (line : Nat) (cs : List Tree) (list : Option Tree) (body : Tree)
    {E C S : Lowering} :
    Writes (fun ls => Lowering.Expr E C S ls (.mk .kFunc line cs)) (function expr stmt list body) := by
  refine ⟨fun {ls g} hg => ?_⟩
  unfold function
  show Holds _ (EStateM.run (unitBody expr stmt list body >>= fun ps => _)
    { g with draft := {}, outer := g.draft :: g.outer })
  have htidy : State.Tidy { g with draft := {}, outer := g.draft :: g.outer } :=
    ⟨Draft.tidy_empty, hg.tidy.closed⟩
  refine (holds_unitBody hexpr hstmt htidy rfl list body).bind fun ps g₁ ⟨ht₁, hout, hcode⟩ => ?_
  show Holds _ (EStateM.run (needRoomOutside >>= fun _ => _) { g₁ with line := g.line })
  unfold needRoomOutside
  show Holds _ (EStateM.run (ite _ _ _ >>= fun _ => _) _)
  split
  · exact .failed ht₁.closed
  · -- the unit around is as it was
    have hback : Holds (fun d g₂ => d = g₁.draft ∧ Grew [] (fun _ _ => []) g g₂)
        (leave.run { g₁ with line := g.line }) := by
      have hgrew := Grew.refl hg.tidy
      refine .done ⟨rfl, ?_⟩
      rw [hout]
      exact ⟨⟨hgrew.tidy.draft, hgrew.tidy.outer⟩, rfl, hgrew.words, hgrew.loops, hgrew.consts, hgrew.runs⟩
    rw [pure_bind]
    refine hback.bind fun d g₂ ⟨hd, h₂⟩ => ?_
    subst hd
    have hg₂ := h₂.at hg
    refine (holds_constIndex (c := .code (finish g₂.file g₁.draft ps)) hg₂ ?_).bind
      fun i g₃ ⟨h₃, hi⟩ => ?_
    · rintro d ⟨⟩
      exact hcode g₂.file
    · refine (holds_emitConst (h₃.at hg₂) .func rfl hi).mono fun _ g₄ w => ?_
      exact ⟨_, .func, w.after (h₂.trans h₃)⟩

/-! ## expressions -/

include hexpr hchain hstmt in
theorem writes_statementExpr (t : Tree) (k : Tok) :
    Writes (fun ls => Lowering.expr (n + 1) ls t) (if isStatement t then do
      statementWith expr chain stmt t
      emit .pushNil
    else fail (.unexpected k)) := by
  split
  · rename_i ht
    refine ((writes_statementWith hexpr hchain hstmt t).seq (writes_emit .pushNil rfl)).mono ?_
    rintro ls z ⟨x, _, hx, rfl, rfl⟩
    exact .statement ht hx
  · exact writes_fail _

include hexpr hchain hstmt in
/-- **Every expression is written as its structured code.** -/
theorem writes_exprWith (t : Tree) :
    Writes (fun ls => Lowering.expr (n + 1) ls t) (exprWith expr chain stmt t) := by
  unfold exprWith
  refine .atLine _ ?_
  -- an operator behind its operand
  have hunary (a : Tree) (op : Op) (ho : op.hasOperand = false) :=
    (hexpr a).seq (writes_emit op ho)
  split
  · exact (writes_emit .pushNil rfl).mono fun _ y hy => hy ▸ .nil
  · exact (writes_emit .pushNil rfl).mono fun _ y hy => hy ▸ .empty
  · refine (writes_pushNumber _).mono ?_
    rintro ls y ⟨i, rfl⟩
    exact .number
  · refine (writes_emitConst .pushConst rfl rfl).mono ?_
    rintro ls y ⟨i, rfl⟩
    exact .text
  · refine (writes_emitName .loadSym rfl _).mono ?_
    rintro ls y ⟨i, name, hname, rfl⟩
    obtain rfl := Option.some.inj hname
    exact .symbol
  · refine ((writes_emit .newVec rfl).seq (writes_elements hexpr _)).mono ?_
    rintro ls y ⟨_, x, rfl, hx, rfl⟩
    exact .vector hx
  · refine ((writes_emit .newHash rfl).seq (writes_entries hexpr _)).mono ?_
    rintro ls y ⟨_, x, rfl, hx, rfl⟩
    exact .hash hx
  · exact writes_function hexpr hstmt _ _ none _
  · exact writes_function hexpr hstmt _ _ (some _) _
  · exact writes_fail _
  · refine (hunary _ .neg rfl).mono ?_
    rintro ls y ⟨x, _, hx, rfl, rfl⟩
    exact .minus hx
  · refine (hunary _ .neg rfl).mono ?_
    rintro ls y ⟨x, _, hx, rfl, rfl⟩
    exact .neg hx
  · refine (hunary _ .not rfl).mono ?_
    rintro ls y ⟨x, _, hx, rfl, rfl⟩
    exact .not hx
  · refine (writes_shortCircuit hexpr rfl _ _).mono ?_
    rintro ls z ⟨x, y, hx, hy, rfl⟩
    exact .and hx hy
  · refine (writes_shortCircuit hexpr rfl _ _).mono ?_
    rintro ls z ⟨x, y, hx, hy, rfl⟩
    exact .or hx hy
  · exact writes_ternary hexpr _ _ _
  · exact (writes_assign hexpr _ _).mono fun ls y hy => .assign hy
  · refine ((hexpr _).seq ((writes_emitName .member rfl _).atLine _)).mono ?_
    rintro ls y ⟨x, _, hx, ⟨i, name, hname, rfl⟩, rfl⟩
    exact .member hname hx
  · exact (writes_call hexpr _ _ _).mono fun ls y hy => .call hy
  · exact (writes_indexed hexpr _ _ _).mono fun ls y hy => .index hy
  · refine ⟨fun hg => (holds_symbol hg _).bind fun i g₁ ⟨name, hname, h₁, hi⟩ => ?_⟩
    refine (holds_emit (h₁.at hg) .pushNil rfl).bind fun _ g₂ w₂ => ?_
    refine (holds_emitConst (w₂.at (h₁.at hg)) .setLocal rfl (w₂.grew.consts hi)).mono fun _ g₃ w₃ => ?_
    exact ⟨_, .declared hname, (w₂.seq w₃).after h₁⟩
  · exact (writes_statements hexpr hstmt _ true).mono fun ls y hy => .list hy
  · split
    · rename_i op _ hop
      obtain ⟨base, -, hbase⟩ := Option.bind_eq_some_iff.mp hop
      exact (writes_compound hexpr (hasOperand_of_binaryOp? hbase) _ _).mono
        fun ls y hy => .compound hop hy
    · rename_i op _ hop
      refine (writes_binary hexpr hop _ _ _).mono ?_
      rintro ls z ⟨x, y, hx, hy, rfl⟩
      exact .binary hop hx hy
    · exact writes_statementExpr hexpr hchain hstmt _ _
  · exact writes_statementExpr hexpr hchain hstmt _ _

end

/-- **Trees of any height are written as their structured code.** -/
theorem writes_all (n : Nat) : (∀ t, Writes (fun ls => Lowering.expr n ls t) (expr n t)) ∧
    (∀ t, Writes (fun ls => Lowering.stmt n ls t) (stmt n t)) ∧
    ∀ t, Writes (fun ls => Lowering.chain n ls t) (chain n t) := by
  induction n with
  | zero => exact ⟨fun t => writes_fail _, fun t => writes_fail _, fun t => writes_fail _⟩
  | succ n ih =>
    obtain ⟨hexpr, hstmt, hchain⟩ := ih
    exact ⟨fun t => writes_exprWith hexpr hchain hstmt t,
      fun t => writes_statementWith hexpr hchain hstmt t,
      fun t => writes_ifParts hexpr hchain hstmt t.children⟩

end Generate

/-! ## units -/

/-- A unit that was compiled is assembled from structured code, and so are the units among the
constants that were made before a fault. -/
inductive CompilesAssembled : Except Unfinished (Code Const) → Prop
  | ok {c : Code Const} (h : c.Assembled) : CompilesAssembled (.ok c)
  | error {u : Unfinished} (h : ∀ consts ∈ u.made, ∀ c, .code c ∈ consts → c.Assembled) :
    CompilesAssembled (.error u)

theorem generate_assembled (tree : Tree) (file : String) :
    CompilesAssembled (generate tree file) := by
  have hstart : Gen.State.Tidy { file, line := tree.line } :=
    ⟨Draft.tidy_empty, fun _ hd => nomatch hd⟩
  obtain ⟨hexpr, hstmt, -⟩ := Generate.writes_all tree.height
  have hbody := Generate.holds_unitBody hexpr hstmt hstart rfl none tree
  unfold generate
  dsimp only
  split
  · rename_i ps s hrun
    rw [hrun] at hbody
    cases hbody with
    | done h => exact .ok (h.2.2 file)
  · rename_i e s hrun
    rw [hrun] at hbody
    cases hbody with
    | failed h =>
      refine .error fun consts hc c hcode => ?_
      obtain ⟨d, hd, rfl⟩ := List.mem_map.mp hc
      exact h d (List.mem_reverse.mp hd) c hcode

/-- **Every unit that a source text compiles to is assembled from structured code.** -/
theorem compile_assembled (src : Bytes) (file : String) (firstLine : Nat) :
    CompilesAssembled (compile src file firstLine) := by
  unfold compile
  split
  · exact generate_assembled _ file
  · exact .error fun _ hc => nomatch hc

end ScriptEngine
