import ScriptEngine.Proofs.Code.Writing

/-!
# Statements are written as structured code

`Writes R x` says that `x` writes structured code for which `R` holds.  Each construct writes the
code of its tree, given that what generates the trees inside it does.

* `writes_loopJump`   `break` and `continue`;
* `writes_whileLoop`, `writes_forLoop`, `writes_foreachLoop`   loops;
* `writes_statementWith`   every statement.
-/

namespace ScriptEngine.Generate

open Gen

/-- `x` writes code for which `R` holds, given the labels of the loops around. -/
structure Writes (R : List (Option Bytes) → Asm → Prop) (x : Gen Unit) : Prop where
  holds : ∀ {ls : List (Option Bytes)} {g : State}, At ls g →
    Holds (fun _ g' => ∃ y, R ls y ∧ Wrote y g g') (x.run g)

section

variable {R R' : List (Option Bytes) → Asm → Prop} {x y : Gen Unit} {ls : List (Option Bytes)}
  {g : State}

theorem writes_fail (fault : Fault) : Writes R (fail fault) := ⟨fun h => holds_fail h fault⟩

theorem writes_fail_bind {α : Type} (fault : Fault) {f : α → Gen Unit} :
    Writes R (fail fault >>= f) := ⟨fun h => holds_fail_bind h fault⟩

theorem Writes.mono (hx : Writes R x) (h : ∀ ls y, R ls y → R' ls y) : Writes R' x :=
  ⟨fun hg => (hx.holds hg).mono fun _ _ ⟨y, hy, w⟩ => ⟨y, h _ _ hy, w⟩⟩

theorem Writes.atLine (line : Nat) (hx : Writes R x) : Writes R (do atLine line; x) := by
  refine ⟨fun hg => (holds_atLine hg line).bind fun _ g₁ h₁ => ?_⟩
  exact (hx.holds (h₁.at hg)).mono fun _ _ ⟨y, hy, w⟩ => ⟨y, hy, w.after h₁⟩

theorem Writes.seq (hx : Writes R x) (hy : Writes R' y) :
    Writes (fun ls z => ∃ a b, R ls a ∧ R' ls b ∧ z = .seq a b) (do x; y) := by
  refine ⟨fun hg => (hx.holds hg).bind fun _ g₁ ⟨a, ha, w₁⟩ => ?_⟩
  refine (hy.holds (w₁.at hg)).mono fun _ _ ⟨b, hb, w₂⟩ => ⟨_, ⟨a, b, ha, hb, rfl⟩, w₁.seq w₂⟩

theorem writes_emit (op : Op) (ho : op.hasOperand = false) :
    Writes (fun _ y => y = .op op) (emit op) :=
  ⟨fun hg => (holds_emit hg op ho).mono fun _ _ w => ⟨_, rfl, w⟩⟩

theorem writes_nothing : Writes (fun _ y => y = .skip) (pure ()) :=
  ⟨fun hg => .done ⟨_, rfl, wrote_skip hg.tidy⟩⟩

/-! ## constants -/

/-- The index of a constant that no unit is stored in. -/
theorem holds_index (hg : At ls g) {c : Const} (hc : c.key?.isSome) :
    Holds (fun i g' => Grew [] (fun _ _ => []) g g' ∧ g'.draft.consts[i]? = some c)
      ((constIndex c).run g) := by
  refine holds_constIndex hg fun d hd => ?_
  rw [hd] at hc
  exact nomatch hc

theorem holds_symbol (hg : At ls g) (t : Tree) :
    Holds (fun i g' => ∃ name, t.name? = some name ∧ Grew [] (fun _ _ => []) g g' ∧
      g'.draft.consts[i]? = some (.name name)) ((symbol t).run g) := by
  unfold symbol
  split
  · rename_i name hname
    exact (holds_index hg rfl).mono fun i g' h => ⟨name, hname, h⟩
  · exact holds_fail hg _

theorem holds_emitConst (hg : At ls g) (op : Op) (ho : op.hasOperand = true) {i : Nat} {c : Const}
    (hc : g.draft.consts[i]? = some c) :
    Holds (fun _ g' => Wrote (.const op i c) g g') ((emitArg op i).run g) :=
  holds_emitArg hg op ho i (some c) fun _ hd => Option.some.inj hd ▸ hc

theorem key?_of_literal? {t : Tree} {c : Const} (h : literal? t = some c) : c.key?.isSome := by
  unfold literal? at h
  split at h <;> cases h <;> rfl

end

/-! ## statements -/

section

variable {expr chain stmt : Tree → Gen Unit} {E C S : Lowering}
  (hexpr : ∀ t, Writes (fun ls => E ls t) (expr t))
  (hchain : ∀ t, Writes (fun ls => C ls t) (chain t))
  (hstmt : ∀ t, Writes (fun ls => S ls t) (stmt t))

variable {ls : List (Option Bytes)} {g : State}

include hexpr in
theorem writes_value (t : Tree) : Writes (fun ls => Lowering.Value E ls t) (value expr t) := by
  unfold value
  split
  · exact writes_fail _
  · rename_i ht
    exact (hexpr t).mono fun ls y hy => ⟨eq_false_of_ne_true ht, hy⟩

include hexpr in
theorem holds_condition (hg : At ls g) (t : Tree) :
    Holds (fun o g' => ∃ y g₁, Lowering.Value E ls t y ∧ Wrote y g g₁ ∧
      o = g₁.draft.words.size + 1 ∧
      Grew [Op.jifNotPop.word, unset.toNat.toUInt16] (fun _ _ => []) g₁ g')
      ((condition expr t).run g) := by
  unfold condition
  show Holds _ (EStateM.run (ite _ _ _) g)
  split
  · exact holds_fail_bind hg _
  · rename_i ht
    refine ((hexpr t).holds hg).bind fun _ g₁ ⟨y, hy, w⟩ => ?_
    exact (holds_emitJump (w.at hg) .jifNotPop rfl).mono fun o g' ⟨ho, hj⟩ =>
      ⟨y, g₁, ⟨eq_false_of_ne_true ht, hy⟩, w, ho, hj⟩

theorem holds_label? (hg : At ls g) (t : Tree) :
    Holds (fun label g' => g' = g ∧ (t.isEmpty = true ∧ label = none ∨
      t.isEmpty = false ∧ ∃ name, t.name? = some name ∧ label = some name)) ((label? t).run g) := by
  unfold label?
  split
  · rename_i ht
    exact .done ⟨rfl, .inl ⟨ht, rfl⟩⟩
  · rename_i ht
    split
    · rename_i name hname
      exact .done ⟨rfl, .inr ⟨eq_false_of_ne_true ht, name, hname, rfl⟩⟩
    · exact holds_fail hg _

theorem holds_drops (hg : At ls g) (k : Nat) :
    Holds (fun _ g' => Grew ((Asm.drops g.draft.words.size k).flatMap Item.words) (fun _ _ => []) g g' ∧
      g'.draft.words.size = g.draft.words.size + k) (((List.replicate k Op.cutBackPop).forM emit).run g) := by
  induction k generalizing g with
  | zero => exact .done ⟨.refl hg.tidy, rfl⟩
  | succ k ih =>
    refine (holds_emit hg .cutBackPop rfl).bind fun _ g₁ w => ?_
    have hsize : g₁.draft.words.size = g.draft.words.size + 1 := w.size
    refine (ih (w.at hg)).mono fun _ g₂ ⟨h, hs⟩ => ?_
    rw [hsize] at h hs
    exact ⟨w.grew.trans h, by omega⟩

/-- Noting one jump at the loop it leads to. -/
theorem note_jump (loops : List Loop) (out : Bool) (k a : Nat) :
    loops.modify k (fun lp => if out then { lp with breaks := lp.breaks ++ [a + k + 2] }
      else { lp with continues := lp.continues ++ [a + k + 2] }) =
      note ((Asm.leave out k).jumps a) loops := by
  apply List.ext_getElem?
  intro i
  rw [List.getElem?_modify]
  simp only [note, List.getElem?_mapIdx, Asm.jumps]
  cases loops[i]? with
  | none => rfl
  | some lp =>
    by_cases hk : k = i
    · subst hk
      cases out <;> simp
    · simp [hk]

theorem writes_loopJump (out : Bool) (t : Tree) :
    Writes (fun ls y => ∃ k, Lowering.Aim ls t k ∧ y = .leave out k) (loopJump out t) := by
  refine ⟨fun {ls g} hg => ?_⟩
  unfold loopJump
  refine (holds_label? hg t).bind fun label g' ⟨hg', hlabel⟩ => ?_
  subst hg'
  refine .state ?_
  dsimp only
  split
  · split
    · exact holds_fail hg _
    · exact holds_fail hg _
  · rename_i k hk
    have haim : Lowering.Aim ls t k := by
      rcases hlabel with ⟨ht, rfl⟩ | ⟨ht, name, hname, rfl⟩
      · dsimp only at hk
        split at hk
        · cases hk
        · rename_i hne
          obtain rfl := Option.some.inj hk
          refine .innermost ht fun h0 => hne ?_
          rw [← hg.labels, List.map_eq_nil_iff] at h0
          rw [h0]
          rfl
      · refine .labelled ht hname ?_
        rw [← hg.labels, List.findIdx?_map]
        exact hk
    refine (holds_drops hg k).bind fun _ g₁ ⟨h₁, hs₁⟩ => ?_
    refine (holds_emit (h₁.at hg) .cutBack rfl).bind fun _ g₂ w₂ => ?_
    have hs₂ : g₂.draft.words.size = g'.draft.words.size + k + 1 := by rw [w₂.size, hs₁]; rfl
    refine (holds_emitJump (w₂.at (h₁.at hg)) .jmp rfl).bind fun j g₃ ⟨hj, h₃⟩ => .done ?_
    have hall := h₁.trans (w₂.grew.trans h₃)
    have hwords (a : Nat) : (Asm.leave out k).words a unaimed = (Asm.drops a k).flatMap Item.words ++
        ((Asm.op .cutBack).words (a + k) unaimed ++ [Op.jmp.word, unset.toNat.toUInt16]) := by
      rw [Asm.words, Asm.items, List.flatMap_append, List.flatMap_append]
      rfl
    rw [hs₁, ← hwords] at hall
    refine ⟨_, ⟨k, haim, rfl⟩, ⟨⟨⟨{ hall.tidy.draft with }, hall.tidy.outer⟩, hall.outer, hall.words, ?_,
      hall.consts, ⟨hall.runs.whole, hall.runs.starts⟩⟩, trivial⟩⟩
    · have hloops : g₃.draft.loops = g'.draft.loops := by
        rw [hall.loops]
        exact note_none _
      rw [hj, hs₂, ← note_jump, ← hloops]

/-! ## lists of statements -/

include hexpr hstmt in
theorem writes_sequence (keep : Bool) (ts : List Tree) :
    Writes (fun ls => Lowering.Sequence E S ls keep ts) (sequence expr stmt keep ts) := by
  induction ts with
  | nil => exact writes_nothing.mono fun _ y hy => hy ▸ .nil
  | cons t ts ih =>
    -- what is written between a statement and those behind it
    have hbetween (b : Bool) (op : Op) (ho : op.hasOperand = false) :
        Writes (fun ls z => ∃ y, Lowering.Sequence E S ls keep ts y ∧
          z = .seq (if b then .op op else .skip) y)
          (if b then do emit op; sequence expr stmt keep ts else sequence expr stmt keep ts) := by
      split
      · exact ((writes_emit op ho).seq ih).mono fun _ z ⟨_, y, ha, hy, hz⟩ => ⟨y, hy, ha ▸ hz⟩
      · refine ⟨fun hg => (ih.holds hg).mono fun _ g' ⟨y, hy, w⟩ => ⟨_, ⟨y, hy, rfl⟩, ?_⟩⟩
        exact (wrote_skip hg.tidy).seq w
    unfold sequence
    dsimp only
    split
    · rename_i ht
      refine ((hstmt t).seq (hbetween _ .pushNil rfl)).mono ?_
      rintro ls z ⟨x, _, hx, ⟨y, hy, rfl⟩, rfl⟩
      exact .stmt ht hx hy
    · rename_i ht
      refine ((hexpr t).seq (hbetween (!(keep && ts.isEmpty)) .pop rfl)).mono ?_
      rintro ls z ⟨x, _, hx, ⟨y, hy, rfl⟩, rfl⟩
      have h : Lowering.Sequence E S ls keep (t :: ts) _ := .expr (eq_false_of_ne_true ht) hx hy
      cases hk : keep && ts.isEmpty <;> rw [hk] at h <;> exact h

include hexpr hstmt in
theorem writes_statements (t : Tree) (keep : Bool) :
    Writes (fun ls => Lowering.Statements E S ls t keep) (statements expr stmt t keep) := by
  unfold statements
  split
  · rename_i ht
    cases keep with
    | false => exact writes_nothing.mono fun _ y hy => hy ▸ .none ht
    | true => exact (writes_emit .pushNil rfl).mono fun _ y hy => hy ▸ .none ht
  · rename_i hne
    exact (writes_sequence hexpr hstmt keep t.items).mono fun _ y hy => .some (fun h => hne h) hy

include hexpr hstmt in
theorem writes_block (t : Tree) : Writes (fun ls => Lowering.Block E S ls t) (block expr stmt t) := by
  unfold block
  split
  · exact (writes_statements hexpr hstmt _ false).mono fun _ _ h => .braced h
  · exact (writes_statements hexpr hstmt _ false).mono fun _ _ h => .bare h

/-! ## loops -/

/-- What a loop's header gives does not depend on what has been written. -/
theorem loopHeader_cases (head : Tree) (n : Nat) :
    (∃ p : Option Bytes × List Tree, loopHeader head n = pure p) ∨
      ∃ fault, loopHeader head n = fail fault := by
  unfold loopHeader
  dsimp only
  split
  · split
    · split
      · exact .inl ⟨_, rfl⟩
      · exact .inr ⟨_, rfl⟩
    · exact .inr ⟨_, rfl⟩
  · split
    · exact .inl ⟨_, rfl⟩
    · exact .inr ⟨_, rfl⟩

theorem holds_loopHeader (hg : At ls g) (head : Tree) (n : Nat) :
    Holds (fun p g' => g' = g ∧ Lowering.Header head n p.1 p.2) ((loopHeader head n).run g) := by
  unfold Lowering.Header
  rcases loopHeader_cases head n with ⟨p, hp⟩ | ⟨fault, hf⟩
  · rw [hp]
    exact .done ⟨rfl, fun _ => rfl⟩
  · rw [hf]
    exact holds_fail hg _

include hexpr hstmt in
/-- The body of a loop; the jumps out of it are noted at the loop. -/
theorem holds_loopBody (hg : At ls g) (label : Option Bytes) (body : Tree) :
    Holds (fun lp g' => ∃ y, Lowering.Block E S (label :: ls) body y ∧
        Grew (y.words g.draft.words.size unaimed) (fun k => y.jumps g.draft.words.size (k + 1)) g g' ∧
        y.Uses g'.draft.consts ∧ lp.breaks = y.jumps g.draft.words.size 0 true ∧
        lp.continues = y.jumps g.draft.words.size 0 false)
      ((loopBody expr stmt label body).run g) := by
  unfold loopBody
  have hin : At (label :: ls) { g with draft := { g.draft with loops := { label } :: g.draft.loops } } :=
    ⟨⟨{ hg.tidy.draft with }, hg.tidy.outer⟩, congrArg (label :: ·) hg.labels⟩
  refine ((writes_block hexpr hstmt body).holds hin).bind fun _ g₁ ⟨y, hy, w⟩ => .done ?_
  have hloops := w.grew.loops
  rw [note, List.mapIdx_cons] at hloops
  refine ⟨y, hy, ⟨⟨{ w.grew.tidy.draft with }, w.grew.tidy.outer⟩, w.grew.outer, w.grew.words, ?_,
    w.grew.consts, ⟨w.grew.runs.whole, w.grew.runs.starts⟩⟩, w.uses, ?_, ?_⟩
  · show g₁.draft.loops.tail = _
    rw [hloops]
    rfl
  · rw [hloops]
    rfl
  · rw [hloops]
    rfl

/-- The end of a loop: the jumps out of its head and behind it are aimed at the place where its mark
is dropped. -/
theorem holds_endLoop (hg : At ls g) (lp : Loop) (exit : Option Nat) :
    Holds (fun _ g' => Wrote (.op .unmark) ((g.aimed exit.toList).aimed lp.breaks) g')
      ((endLoop lp exit).run g) := by
  have hrest {g : State} (hg : At ls g) : Holds (fun _ g' => Wrote (.op .unmark) (g.aimed lp.breaks) g')
      ((do lp.breaks.forM patch; emit .unmark).run g) := by
    have hrun : Holds (fun _ g' => g' = g.aimed lp.breaks) ((lp.breaks.forM patch).run g) := by
      rw [run_patches]
      exact .done rfl
    refine hrun.bind fun _ g₁ h₁ => ?_
    subst h₁
    exact holds_emit (hg.aimed _) .unmark rfl
  unfold endLoop
  cases exit with
  | none => exact hrest hg
  | some j => exact hrest (hg.aimed [j])

theorem holds_continueHere (lp : Loop) (g : State) :
    Holds (fun _ g' => g' = g.aimed lp.continues) ((continueHere lp).run g) := by
  rw [continueHere, run_patches]
  exact .done rfl

/-- What all loops end with.  `top` is the start of a round and `operand` that of the jump out of
the head. -/
theorem holds_nextRound {g₁ g₂ g₃ g₄ g₅ g₆ : State} {pre head body update : Asm} {lp : Loop}
    {top : Nat} (exit : Option Op) (operand : Option Nat) (hg : At ls g)
    (hops : ∀ o, exit = some o → o.hasOperand = true)
    (hpre : Wrote pre g g₁) (hmark : Wrote (.op .mark) g₁ g₂) (hhead : Wrote head g₂ g₃)
    (hexit : Grew (exitWords exit unset.toNat.toUInt16) (fun _ _ => []) g₃ g₄)
    (hbody : Grew (body.words g₄.draft.words.size unaimed)
      (fun k => body.jumps g₄.draft.words.size (k + 1)) g₄ g₅) (huses : body.Uses g₅.draft.consts)
    (hbreaks : lp.breaks = body.jumps g₄.draft.words.size 0 true)
    (hnext : lp.continues = body.jumps g₄.draft.words.size 0 false)
    (hupdate : Wrote update (g₅.aimed lp.continues) g₆) (htop : top = g₂.draft.words.size)
    (hop : operand = exit.map fun _ => g₃.draft.words.size + 1) :
    Holds (fun _ g₈ => At ls g₈ ∧
        ∀ {post g₉}, Wrote post g₈ g₉ → Wrote (.loop pre head exit body update post) g g₉)
      ((do emitArg .jmpLoop top; endLoop lp operand).run g₆) := by
  subst htop hop
  rw [hnext] at hupdate
  have hg₅ := hbody.at (hexit.at (hhead.at (hmark.at (hpre.at hg))))
  have hg₆ := hupdate.at (hg₅.aimed _)
  refine (holds_emitArg hg₆ .jmpLoop rfl _ none fun _ hd => nomatch hd).bind fun _ g₇ w₇ => ?_
  refine (holds_endLoop (w₇.at hg₆) lp _).mono fun _ g₈ w₈ => ?_
  refine ⟨w₈.at (((w₇.at hg₆).aimed _).aimed _), fun hpost => ?_⟩
  rw [hbreaks, Option.toList_map] at w₈
  exact .loop hops hpre hmark hhead hexit hbody huses hupdate w₇ w₈ hpost

include hexpr hstmt in
theorem writes_whileLoop (line : Nat) (head body : Tree) :
    Writes (fun ls => Lowering.Statement E C S ls (.mk .kWhile line [head, body]))
      (whileLoop expr stmt head body) := by
  refine ⟨fun {ls g} hg => ?_⟩
  unfold whileLoop
  refine (holds_loopHeader hg head 1).bind fun found g' hfound => ?_
  obtain ⟨label, parts⟩ := found
  obtain ⟨rfl, hheader⟩ := hfound
  refine (holds_emit hg .mark rfl).bind fun _ g₁ w₁ => .here ?_
  have hg₁ := w₁.at hg
  split
  · refine (holds_condition hexpr hg₁ _).bind fun o g₃ ⟨x, g₂, hx, w₂, ho, h₃⟩ => ?_
    refine (holds_loopBody hexpr hstmt (h₃.at (w₂.at hg₁)) label body).bind
      fun lp g₄ ⟨y, hy, h₄, hu, hbreaks, hnext⟩ => ?_
    refine (holds_continueHere lp g₄).bind fun _ g₅ h₅ => ?_
    subst h₅
    have hg₅ : At ls (g₄.aimed lp.continues) := (h₄.at (h₃.at (w₂.at hg₁))).aimed _
    refine (holds_nextRound (some .jifNotPop) _ hg (by rintro _ ⟨⟩; rfl) (wrote_skip hg.tidy) w₁ w₂
      h₃ h₄ hu hbreaks hnext (wrote_skip hg₅.tidy) rfl (by rw [ho]; rfl)).mono fun _ g₆ ⟨hg₆, h₆⟩ => ?_
    exact ⟨_, .whiles hheader hx hy, h₆ (wrote_skip hg₆.tidy)⟩
  · exact holds_fail hg₁ _

include hexpr in
/-- An expression that may be missing, and what comes behind it. -/
theorem holds_dropped {R : State → Prop} (hg : At ls g) (t : Tree) {rest : Unit → Gen Unit}
    (hrest : ∀ x g', Lowering.Dropped E ls t x → Wrote x g g' →
      Holds (fun _ => R) ((rest ()).run g')) :
    Holds (fun _ => R) (EStateM.run (if !t.isEmpty then do
      expr t
      let r ← emit .pop
      rest r
    else rest ()) g) := by
  split
  · rename_i ht
    refine ((hexpr t).holds hg).bind fun _ g₁ ⟨x, hx, w₁⟩ => ?_
    refine (holds_emit (w₁.at hg) .pop rfl).bind fun _ g₂ w₂ => ?_
    exact hrest _ g₂ (.some (by simpa using ht) hx) (w₁.seq w₂)
  · rename_i ht
    exact hrest _ g (.none (by simpa using ht)) (wrote_skip hg.tidy)

include hexpr hstmt in
theorem holds_forRounds {g₁ g₂ g₃ g₄ : State} {pre x : Asm} (exit : Option Op) (hg : At ls g)
    (hops : ∀ o, exit = some o → o.hasOperand = true) (hpre : Wrote pre g g₁)
    (hmark : Wrote (.op .mark) g₁ g₂) (hhead : Wrote x g₂ g₃)
    (hexit : Grew (exitWords exit unset.toNat.toUInt16) (fun _ _ => []) g₃ g₄)
    (label : Option Bytes) (update body : Tree) :
    Holds (fun _ g' => ∃ y u, Lowering.Block E S (label :: ls) body y ∧
        Lowering.Dropped E ls update u ∧ Wrote (.loop pre x exit y u .skip) g g') (EStateM.run (do
      let lp ← loopBody expr stmt label body
      continueHere lp
      if !update.isEmpty then
        expr update
        emit .pop
      emitArg .jmpLoop g₂.draft.words.size
      endLoop lp (exit.map fun _ => g₃.draft.words.size + 1)) g₄) := by
  have hg₄ := hexit.at (hhead.at (hmark.at (hpre.at hg)))
  refine (holds_loopBody hexpr hstmt hg₄ label body).bind
    fun lp g₅ ⟨y, hy, h₅, hu, hbreaks, hnext⟩ => ?_
  refine (holds_continueHere lp g₅).bind fun _ g₆ h₆ => ?_
  subst h₆
  extract_lets back
  refine holds_dropped hexpr ((h₅.at hg₄).aimed _) update fun u g₇ hup w₇ => ?_
  refine (holds_nextRound exit _ hg hops hpre hmark hhead hexit h₅ hu hbreaks hnext w₇ rfl rfl).mono
    fun _ g₈ ⟨hg₈, h₈⟩ => ?_
  exact ⟨y, u, hy, hup, h₈ (wrote_skip hg₈.tidy)⟩

include hexpr hstmt in
theorem writes_forLoop (line : Nat) (head body : Tree) :
    Writes (fun ls => Lowering.Statement E C S ls (.mk .kFor line [head, body]))
      (forLoop expr stmt head body) := by
  refine ⟨fun {ls g} hg => ?_⟩
  unfold forLoop
  refine (holds_loopHeader hg head 3).bind fun found g' hfound => ?_
  obtain ⟨label, parts⟩ := found
  obtain ⟨rfl, hheader⟩ := hfound
  dsimp -zeta only
  split
  · rename_i start cond update
    extract_lets rounds
    refine holds_dropped hexpr hg start fun p g₁ hp w₁ => ?_
    refine (holds_emit (w₁.at hg) .mark rfl).bind fun _ g₂ w₂ => .here ?_
    have hg₂ := w₂.at (w₁.at hg)
    show Holds _ (EStateM.run (ite _ _ _) g₂)
    split
    · rename_i hc
      refine (holds_forRounds hexpr hstmt none hg (by rintro _ ⟨⟩) w₁ w₂ (wrote_skip hg₂.tidy)
        (.refl hg₂.tidy) label update body).mono fun _ g₃ ⟨y, u, hy, hu, w₃⟩ => ?_
      exact ⟨_, .fors hheader hp (.none hc) hy hu, w₃⟩
    · have hcond : Holds (fun exit g₄ => ∃ x g₃, Lowering.Value E ls cond x ∧ Wrote x g₂ g₃ ∧
          exit = some (g₃.draft.words.size + 1) ∧
          Grew [Op.jifNotPop.word, unset.toNat.toUInt16] (fun _ _ => []) g₃ g₄)
          (EStateM.run (some <$> condition expr cond) g₂) :=
        Holds.map ((holds_condition hexpr hg₂ cond).mono
          fun o g₄ ⟨x, g₃, hx, w₃, ho, h₄⟩ => ⟨x, g₃, hx, w₃, congrArg some ho, h₄⟩)
      refine hcond.bind fun exit g₄ ⟨x, g₃, hx, w₃, ho, h₄⟩ => ?_
      subst ho
      refine (holds_forRounds hexpr hstmt (some .jifNotPop) hg (by rintro _ ⟨⟩; rfl) w₁ w₂ w₃ h₄
        label update body).mono fun _ g₅ ⟨y, u, hy, hu, w₅⟩ => ?_
      exact ⟨_, .fors hheader hp (.some hx) hy hu, w₅⟩
  · exact holds_fail hg _

include hexpr hstmt in
/-- A `foreach` loop whose variable is the name at `i`. -/
theorem holds_foreachOver (hg : At ls g) {step set : Op} (hstep : step.hasOperand = false)
    (hset : set.hasOperand = true) {i : Nat} {name : Bytes}
    (hi : g.draft.consts[i]? = some (.name name)) (label : Option Bytes) (vec body : Tree) :
    Holds (fun _ g' => ∃ v y, E ls vec v ∧ Lowering.Block E S (label :: ls) body y ∧
        Wrote (Lowering.foreach step v set i name y) g g') (EStateM.run (do
      expr vec
      emit .pushZero
      emit .mark
      let top ← here
      emit step
      let exit ← emitJump .jifEnd
      emitArg set i
      emit .pop
      let lp ← loopBody expr stmt label body
      continueHere lp
      emitArg .jmpLoop top
      endLoop lp (some exit)
      emit .pop
      emit .pop) g) := by
  refine ((hexpr vec).holds hg).bind fun _ g₁ ⟨v, hv, w₁⟩ => ?_
  have hg₁ := w₁.at hg
  refine (holds_emit hg₁ .pushZero rfl).bind fun _ g₂ w₂ => ?_
  have hg₂ := w₂.at hg₁
  refine (holds_emit hg₂ .mark rfl).bind fun _ g₃ w₃ => .here ?_
  have hg₃ := w₃.at hg₂
  refine (holds_emit hg₃ step hstep).bind fun _ g₄ w₄ => ?_
  have hg₄ := w₄.at hg₃
  refine (holds_emitJump hg₄ .jifEnd rfl).bind fun o g₅ ⟨ho, h₅⟩ => ?_
  have hg₅ := h₅.at hg₄
  have hi₅ := h₅.consts (w₄.grew.consts (w₃.grew.consts (w₂.grew.consts (w₁.grew.consts hi))))
  refine (holds_emitConst hg₅ set hset hi₅).bind fun _ g₆ w₆ => ?_
  have hg₆ := w₆.at hg₅
  refine (holds_emit hg₆ .pop rfl).bind fun _ g₇ w₇ => ?_
  have hg₇ := w₇.at hg₆
  refine (holds_loopBody hexpr hstmt hg₇ label body).bind
    fun lp g₈ ⟨y, hy, h₈, hu, hbreaks, hnext⟩ => ?_
  refine (holds_continueHere lp g₈).bind fun _ g₉ h₉ => ?_
  subst h₉
  -- the variable is set before the loop is entered, which makes no difference
  obtain ⟨c, hc⟩ : ∃ c, c = Asm.seq (.const set i (.name name)) (.seq (.op .pop) y) := ⟨_, rfl⟩
  have hs₆ := w₆.size
  have hs₇ : g₇.draft.words.size = g₆.draft.words.size + 1 := w₇.size
  have hjumps : c.jumps g₅.draft.words.size = y.jumps g₇.draft.words.size := by
    funext k out
    rw [hc, hs₇, hs₆]
    rfl
  have hbody : Grew (c.words g₅.draft.words.size unaimed)
      (fun k => c.jumps g₅.draft.words.size (k + 1)) g₅ g₈ := by
    rw [hjumps, hc, Asm.words_seq, Asm.words_seq, ← hs₆,
      show g₆.draft.words.size + (Asm.op .pop).size = g₇.draft.words.size from hs₇.symm]
    exact w₆.grew.trans (w₇.grew.trans h₈)
  have huses : c.Uses g₈.draft.consts := by
    rw [hc]
    exact ⟨w₆.uses.mono fun hc => h₈.consts (w₇.grew.consts hc),
      w₇.uses.mono fun hc => h₈.consts hc, hu⟩
  have hround := holds_nextRound (some .jifEnd) (some o) hg (by rintro _ ⟨⟩; rfl) (w₁.seq w₂) w₃ w₄ h₅
    hbody huses (by rw [hjumps]; exact hbreaks) (by rw [hjumps]; exact hnext)
    (wrote_skip ((h₈.at hg₇).aimed _).tidy) rfl (by rw [ho]; rfl)
  show Holds _ (EStateM.run (emitArg .jmpLoop g₃.draft.words.size >>= fun _ =>
    endLoop lp (some o) >>= fun _ => do emit .pop; emit .pop) _)
  rw [← bind_assoc]
  refine hround.bind fun _ g₉ ⟨hg₉, h₉⟩ => ?_
  refine (holds_emit hg₉ .pop rfl).bind fun _ g₁₀ w₁₀ => ?_
  refine (holds_emit (w₁₀.at hg₉) .pop rfl).mono fun _ g₁₁ w₁₁ => ?_
  rw [hc] at h₉
  exact ⟨v, y, hv, hy, h₉ (w₁₀.seq w₁₁)⟩

include hexpr hstmt in
theorem writes_foreachLoop {kind : Tok} {step : Op}
    (hk : kind = .kForeach ∧ step = .each ∨ kind = .kForindex ∧ step = .index) (line : Nat)
    (head body : Tree) :
    Writes (fun ls => Lowering.Statement E C S ls (.mk kind line [head, body]))
      (foreachLoop expr stmt step head body) := by
  have hstep : step.hasOperand = false := by
    rcases hk with ⟨-, rfl⟩ | ⟨-, rfl⟩ <;> rfl
  refine ⟨fun {ls g} hg => ?_⟩
  unfold foreachLoop
  refine (holds_loopHeader hg head 2).bind fun found g' hfound => ?_
  obtain ⟨label, parts⟩ := found
  obtain ⟨rfl, hheader⟩ := hfound
  dsimp -zeta only
  split
  · rename_i var vec
    split
    · refine (holds_symbol hg _).bind fun i g₁ ⟨name, hname, h₁, hi⟩ => ?_
      obtain rfl := Option.some.inj hname
      refine (holds_foreachOver hexpr hstmt (h₁.at hg) hstep rfl hi label vec body).mono
        fun _ g₂ ⟨v, y, hv, hy, w⟩ => ?_
      exact ⟨_, .foreach hk hheader .symbol hv hy, w.after h₁⟩
    · refine (holds_symbol hg _).bind fun i g₁ ⟨name, hname, h₁, hi⟩ => ?_
      refine (holds_foreachOver hexpr hstmt (h₁.at hg) hstep rfl hi label vec body).mono
        fun _ g₂ ⟨v, y, hv, hy, w⟩ => ?_
      exact ⟨_, .foreach hk hheader (.declared hname) hv hy, w.after h₁⟩
    · exact holds_fail_bind hg _
  · exact holds_fail hg _

/-! ## branches -/

theorem holds_patch (o : Nat) (g : State) :
    Holds (fun _ g' => g' = g.aimed [o]) ((patch o).run g) := by
  rw [run_patch]
  exact .done rfl

include hexpr hchain hstmt in
theorem writes_ifParts (parts : List Tree) :
    Writes (fun ls => Lowering.IfParts E C S ls parts) (ifParts expr chain stmt parts) := by
  refine ⟨fun {ls g} hg => ?_⟩
  unfold ifParts
  split
  · rename_i cond body
    refine (holds_condition hexpr hg cond).bind fun o g₂ ⟨x, g₁, hx, w₁, ho, h₂⟩ => ?_
    have hg₂ := h₂.at (w₁.at hg)
    refine ((writes_block hexpr hstmt body).holds hg₂).bind fun _ g₃ ⟨y, hy, w₃⟩ => ?_
    refine (holds_patch o g₃).mono fun _ g₄ h₄ => ?_
    rw [h₄, ho]
    exact ⟨_, .one hx hy, w₁.seq (.bypass rfl h₂ w₃)⟩
  · rename_i cond body other
    refine (holds_condition hexpr hg cond).bind fun o g₂ ⟨x, g₁, hx, w₁, ho, h₂⟩ => ?_
    have hg₂ := h₂.at (w₁.at hg)
    refine ((writes_block hexpr hstmt body).holds hg₂).bind fun _ g₃ ⟨y, hy, w₃⟩ => ?_
    have hg₃ := w₃.at hg₂
    refine (holds_emitJump hg₃ .jmp rfl).bind fun o' g₄ ⟨ho', h₄⟩ => ?_
    refine (holds_patch o g₄).bind fun _ g₅ h₅ => ?_
    subst ho ho' h₅
    have hg₅ := (h₄.at hg₃).aimed [g₁.draft.words.size + 1]
    show Holds _ (EStateM.run (ite _ _ _) _)
    split
    · rename_i hk
      refine ((hchain other).holds hg₅).bind fun _ g₆ ⟨z, hz, w₆⟩ => ?_
      refine (holds_patch _ g₆).mono fun _ g₇ h₇ => ?_
      subst h₇
      exact ⟨_, .chain hx hy hk hz, w₁.seq (.branch h₂ w₃ h₄ w₆)⟩
    · rename_i hk
      refine ((writes_block hexpr hstmt other).holds hg₅).bind fun _ g₆ ⟨z, hz, w₆⟩ => ?_
      refine (holds_patch _ g₆).mono fun _ g₇ h₇ => ?_
      subst h₇
      exact ⟨_, .other hx hy (eq_false_of_ne_true hk) hz, w₁.seq (.branch h₂ w₃ h₄ w₆)⟩
  · exact holds_fail hg _

include hexpr hchain hstmt in
/-- **Every statement is written as its structured code.** -/
theorem writes_statementWith (t : Tree) :
    Writes (fun ls => Lowering.Statement E C S ls t) (statementWith expr chain stmt t) := by
  unfold statementWith
  refine .atLine _ ?_
  split
  · exact (writes_ifParts hexpr hchain hstmt _).mono fun _ _ h => .ifs h
  · exact writes_whileLoop hexpr hstmt _ _ _
  · exact writes_forLoop hexpr hstmt _ _ _
  · exact writes_foreachLoop hexpr hstmt (.inl ⟨rfl, rfl⟩) _ _ _
  · exact writes_foreachLoop hexpr hstmt (.inr ⟨rfl, rfl⟩) _ _ _
  · refine ((hexpr _).seq (writes_emit .ret rfl)).mono ?_
    rintro ls z ⟨x, _, hx, rfl, rfl⟩
    exact .ret hx
  · refine (writes_loopJump true _).mono ?_
    rintro ls z ⟨k, hk, rfl⟩
    exact .leave (.inl ⟨rfl, rfl⟩) hk
  · refine (writes_loopJump false _).mono ?_
    rintro ls z ⟨k, hk, rfl⟩
    exact .leave (.inr ⟨rfl, rfl⟩) hk
  · exact writes_fail _

end

end ScriptEngine.Generate
