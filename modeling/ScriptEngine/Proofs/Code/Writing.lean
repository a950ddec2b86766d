import ScriptEngine.Proofs.Code.Lowering
import ScriptEngine.Proofs.Code.Spans

/-!
# Writing structured code

`Wrote x g g'` says that between two states of writing code the words of `x` have been added to the
current unit, with its jumps out of the loops around left open and noted there.

* `Code.Assembled`    a unit whose words are those of some structured code;
* `Draft.Tidy`        constants are stored once each, and where they are looked for;
* `Gen.Holds.bind`    one activity after the other;
* `Gen.holds_emit`, `Gen.holds_constIndex`, ...   the activities of writing;
* `Gen.Wrote.bypass`, `Gen.Wrote.branch`, `Gen.Wrote.loop`   aiming jumps.
-/

namespace ScriptEngine

open Generate (Params literal?)

theorem Const.eq_of_key? {c d : Const} {k : Const.Key} (hc : c.key? = some k)
    (hd : d.key? = some k) : c = d := by
  have hbits {x y : Float} (h : x.toBits = y.toBits) : x = y := by
    obtain ⟨⟨x, hx⟩⟩ := x
    obtain ⟨⟨y, hy⟩⟩ := y
    obtain rfl : x = y := h
    rfl
  cases c with
  | code c => exact nomatch hc
  | nil =>
    obtain rfl := Option.some.inj hc
    cases d <;> first | rfl | exact nomatch hd
  | number x =>
    obtain rfl := Option.some.inj hc
    cases d with
    | number y =>
      have h := Option.some.inj hd
      rw [hbits (Const.Key.number.inj h)]
    | _ => exact nomatch hd
  | text s =>
    obtain rfl := Option.some.inj hc
    cases d with
    | text t => rw [Const.Key.text.inj (Option.some.inj hd)]
    | _ => exact nomatch hd
  | name s =>
    obtain rfl := Option.some.inj hc
    cases d with
    | name t => rw [Const.Key.name.inj (Option.some.inj hd)]
    | _ => exact nomatch hd

/-- Parameters are named by constants, and their defaults are literals. -/
structure Generate.Params.Named (ps : Params) (consts : Array Const) : Prop where
  required : ∀ i ∈ ps.required, ∃ name, consts[i]? = some (.name name)
  optional : ∀ p ∈ ps.optional, (∃ name, consts[p.1]? = some (.name name)) ∧
    ∃ t c, literal? t = some c ∧ consts[p.2]? = some c
  rest : ∀ i, ps.rest = some i → ∃ name, consts[i]? = some (.name name)

/-- The targets of jumps that are open. -/
def unaimed : Targets := fun _ _ => Gen.unset.toNat

/-- Units whose words are those of structured code for some tree, and so all units inside. -/
inductive Code.Assembled : Code Const → Prop
  | mk {c : Code Const} {n : Nat} {body : Tree} {x : Asm}
    (lowered : Lowering.Statements (Lowering.expr n) (Lowering.stmt n) [] body true x)
    (words : c.words.toList = (Asm.seq x (.op .ret)).words 0 unaimed)
    (small : c.words.size ≤ 65534) (few : c.consts.size ≤ 65535) (uses : x.Uses c.consts)
    (params : Params.Named ⟨c.params, c.optional, c.rest, c.needsRest⟩ c.consts)
    (once : ∀ {i j : Nat} {d d' : Const}, c.consts[i]? = some d → c.consts[j]? = some d' →
      d.key?.isSome → d.key? = d'.key? → i = j)
    (lined : ∀ run ∈ c.lines, Begins c.words.toList run.1)
    (inner : ∀ d, .code d ∈ c.consts → Code.Assembled d) : Code.Assembled c

theorem Code.Assembled.inside {c : Code Const} (h : c.Assembled) :
    ∀ d, .code d ∈ c.consts → d.Assembled := by
  cases h with
  | mk _ _ _ _ _ _ _ _ inner => exact inner

/-- The units among the constants are assembled. -/
def Draft.Closed (d : Draft) : Prop := ∀ c, .code c ∈ d.consts → c.Assembled

/-- A unit that is not too large, with each constant stored once. -/
structure Draft.Tidy (d : Draft) : Prop where
  small : d.words.size ≤ 65534
  few : d.consts.size ≤ Gen.maxConsts
  placed : ∀ {k : Const.Key} {i : Nat}, d.places[k]? = some i →
    ∃ c, d.consts[i]? = some c ∧ c.key? = some k
  keyed : ∀ {i : Nat} {c : Const} {k : Const.Key}, d.consts[i]? = some c → c.key? = some k →
    d.places[k]? = some i
  closed : d.Closed

theorem Draft.tidy_empty : ({} : Draft).Tidy := by
  refine ⟨Nat.zero_le _, Nat.zero_le _, fun h => ?_, fun h => ?_, fun c hc => nomatch hc⟩
  · simp at h
  · simp at h

/-- Loops with further jumps noted. -/
def note (js : Nat → Bool → List Nat) (loops : List Loop) : List Loop :=
  loops.mapIdx fun k lp =>
    { lp with breaks := lp.breaks ++ js k true, continues := lp.continues ++ js k false }

theorem note_none (loops : List Loop) : note (fun _ _ => []) loops = loops := by
  unfold note
  apply List.ext_getElem <;> simp

theorem note_note (js js' : Nat → Bool → List Nat) (loops : List Loop) :
    note js' (note js loops) = note (fun k out => js k out ++ js' k out) loops := by
  unfold note
  simp [List.mapIdx_mapIdx, Function.comp_def]

theorem label_note (js : Nat → Bool → List Nat) (loops : List Loop) :
    (note js loops).map (·.label) = loops.map (·.label) := by
  unfold note
  apply List.ext_getElem <;> simp

namespace Gen

/-- The current unit is tidy, and all units around it are closed. -/
structure State.Tidy (g : State) : Prop where
  draft : g.draft.Tidy
  outer : ∀ d ∈ g.outer, d.Closed

/-- Between two states words were added, and jumps to loops around. -/
structure Grew (ws : List UInt16) (js : Nat → Bool → List Nat) (g g' : State) : Prop where
  tidy : g'.Tidy
  outer : g'.outer = g.outer
  words : g'.draft.words.toList = g.draft.words.toList ++ ws
  loops : g'.draft.loops = note js g.draft.loops
  consts : ∀ {i : Nat} {c : Const}, g.draft.consts[i]? = some c → g'.draft.consts[i]? = some c
  runs : Runs ws g.draft g'.draft

/-- Between two states `x` was written. -/
structure Wrote (x : Asm) (g g' : State) : Prop where
  grew : Grew (x.words g.draft.words.size unaimed) (x.jumps g.draft.words.size) g g'
  uses : x.Uses g'.draft.consts

/-- Inside loops with these labels. -/
structure At (ls : List (Option Bytes)) (g : State) : Prop where
  tidy : g.Tidy
  labels : g.draft.loops.map (·.label) = ls

/-- What writing has led to: with `ok` for what it gives, or with a fault.  In either case the units
among the constants are assembled. -/
inductive Holds {α : Type} (ok : α → State → Prop) : EStateM.Result CompileError State α → Prop
  | done {a : α} {g : State} (h : ok a g) : Holds ok (.ok a g)
  | failed {e : CompileError} {g : State} (h : ∀ d ∈ g.draft :: g.outer, d.Closed) :
    Holds ok (.error e g)

section

variable {α β : Type} {g g₁ g₂ g₃ : State} {ok : α → State → Prop} {ls : List (Option Bytes)}
  {ws ws' : List UInt16} {js js' : Nat → Bool → List Nat} {x y : Asm}

theorem Holds.bind {mid : β → State → Prop} {x : Gen β} {f : β → Gen α} (hx : Holds mid (x.run g))
    (hf : ∀ b g', mid b g' → Holds ok ((f b).run g')) : Holds ok ((x >>= f).run g) := by
  have hx' : Holds mid (x g) := hx
  show Holds ok (EStateM.bind x f g)
  rw [EStateM.bind]
  cases hr : x g with
  | ok b g' =>
    rw [hr] at hx'
    cases hx' with
    | done hb => exact hf b g' hb
  | error err g' =>
    rw [hr] at hx'
    cases hx' with
    | failed hc => exact .failed hc

theorem Holds.map {x : Gen β} {f : β → α} (hx : Holds (fun b => ok (f b)) (x.run g)) :
    Holds ok ((f <$> x).run g) := hx.bind fun _ _ hb => .done hb

theorem Holds.mono {mid : α → State → Prop} {r : EStateM.Result CompileError State α}
    (hr : Holds mid r) (h : ∀ a g', mid a g' → ok a g') : Holds ok r := by
  cases hr with
  | done ha => exact .done (h _ _ ha)
  | failed hc => exact .failed hc

theorem State.Tidy.closed (h : g.Tidy) : ∀ d ∈ g.draft :: g.outer, d.Closed := by
  intro d hd
  rcases List.mem_cons.mp hd with rfl | hd
  · exact h.draft.closed
  · exact h.outer d hd

theorem holds_fail (h : At ls g) (fault : Fault) : Holds ok ((fail fault : Gen α).run g) :=
  .failed h.tidy.closed

theorem Holds.here {f : Nat → Gen α} (h : Holds ok ((f g.draft.words.size).run g)) :
    Holds ok ((Gen.here >>= f).run g) := h

theorem Holds.state {f : State → Gen α} (h : Holds ok ((f g).run g)) : Holds ok (((get : Gen State) >>= f).run g) := h

theorem holds_fail_bind (h : At ls g) (fault : Fault) {f : β → Gen α} :
    Holds ok ((fail fault >>= f).run g) := .failed h.tidy.closed

/-! ## putting writings together -/

theorem Grew.refl (h : g.Tidy) : Grew [] (fun _ _ => []) g g :=
  ⟨h, rfl, (List.append_nil _).symm, (note_none _).symm, fun h => h, .refl _⟩

theorem Grew.size (h : Grew ws js g g₁) :
    g₁.draft.words.size = g.draft.words.size + ws.length := by
  rw [← Array.length_toList, h.words, List.length_append, Array.length_toList]

theorem Grew.trans (h : Grew ws js g g₁) (h' : Grew ws' js' g₁ g₂) :
    Grew (ws ++ ws') (fun k out => js k out ++ js' k out) g g₂ where
  tidy := h'.tidy
  outer := h'.outer.trans h.outer
  words := by rw [h'.words, h.words, List.append_assoc]
  loops := by rw [h'.loops, h.loops, note_note]
  consts hc := h'.consts (h.consts hc)
  runs := h.runs.trans h'.runs h.size

theorem Wrote.size (h : Wrote x g g₁) : g₁.draft.words.size = g.draft.words.size + x.size := by
  rw [h.grew.size, Asm.length_words]

theorem Grew.at (h : Grew ws js g g₁) (hg : At ls g) : At ls g₁ :=
  ⟨h.tidy, by rw [h.loops, label_note]; exact hg.labels⟩

theorem Wrote.at (h : Wrote x g g₁) (hg : At ls g) : At ls g₁ := h.grew.at hg

theorem wrote_skip (h : g.Tidy) : Wrote .skip g g := ⟨.refl h, trivial⟩

theorem Wrote.seq (h : Wrote x g g₁) (h' : Wrote y g₁ g₂) : Wrote (.seq x y) g g₂ := by
  have hgrew := h.grew.trans h'.grew
  rw [h.size] at hgrew
  refine ⟨?_, h.uses.mono h'.grew.consts, h'.uses⟩
  rw [Asm.words_seq]
  exact hgrew

/-- Nothing was written, but constants may have been stored. -/
theorem Wrote.after (h : Grew [] (fun _ _ => []) g g₁) (h' : Wrote y g₁ g₂) : Wrote y g g₂ := by
  have hgrew := h.trans h'.grew
  have hsize := h.size
  rw [List.length_nil, Nat.add_zero] at hsize
  rw [hsize] at hgrew
  exact ⟨hgrew, h'.uses⟩

/-! ## aiming jumps -/

def State.aimed (g : State) (os : List Nat) : State :=
  { g with draft := { g.draft with
      words := os.foldl (fun ws o => ws.setIfInBounds o g.draft.words.size.toUInt16) g.draft.words } }

theorem toList_foldl_set (os : List Nat) (v : UInt16) (ws : Array UInt16) :
    (os.foldl (fun ws o => ws.setIfInBounds o v) ws).toList = Asm.setAll os v ws.toList := by
  induction os generalizing ws with
  | nil => rfl
  | cons o os ih =>
    rw [List.foldl_cons, ih, Array.toList_setIfInBounds]
    rfl

theorem size_foldl_set (os : List Nat) (v : UInt16) (ws : Array UInt16) :
    (os.foldl (fun ws o => ws.setIfInBounds o v) ws).size = ws.size := by
  induction os generalizing ws with
  | nil => rfl
  | cons o os ih => rw [List.foldl_cons, ih, Array.size_setIfInBounds]

theorem run_patch (o : Nat) (g : State) : (patch o).run g = .ok () (g.aimed [o]) := rfl

theorem run_patches (os : List Nat) (g : State) : (os.forM patch).run g = .ok () (g.aimed os) := by
  induction os generalizing g with
  | nil => rfl
  | cons o os ih =>
    show (os.forM patch).run (g.aimed [o]) = _
    rw [ih]
    simp only [State.aimed, List.foldl_cons, List.foldl_nil, Array.size_setIfInBounds]

theorem Grew.aimed (h : Grew ws js g g₁) (os : List Nat)
    (hset : Asm.setAll os g₁.draft.words.size.toUInt16 (g.draft.words.toList ++ ws) =
      g.draft.words.toList ++ ws') (hspans : spans ws' = spans ws) : Grew ws' js g (g₁.aimed os) where
  tidy := by
    refine ⟨{ h.tidy.draft with small := ?_ }, h.tidy.outer⟩
    show (os.foldl _ g₁.draft.words).size ≤ 65534
    rw [size_foldl_set]
    exact h.tidy.draft.small
  outer := h.outer
  words := by
    show (os.foldl _ g₁.draft.words).toList = _
    rw [toList_foldl_set, h.words, hset]
  loops := h.loops
  consts := h.consts
  runs := by
    have hlen := congrArg List.length hset
    rw [Asm.length_setAll, List.length_append, List.length_append] at hlen
    exact h.runs.alike hspans (Nat.add_left_cancel hlen).symm rfl

theorem At.aimed (h : At ls g) (os : List Nat) : At ls (g.aimed os) := by
  refine ⟨⟨{ h.tidy.draft with small := ?_ }, h.tidy.outer⟩, h.labels⟩
  show (os.foldl _ g.draft.words).size ≤ 65534
  rw [size_foldl_set]
  exact h.tidy.draft.small

/-! ## instructions -/

theorem holds_atLine (h : At ls g) (line : Nat) :
    Holds (fun _ g' => Grew [] (fun _ _ => []) g g') ((atLine line).run g) := by
  have hgrew := Grew.refl h.tidy
  exact .done ⟨⟨hgrew.tidy.draft, hgrew.tidy.outer⟩, rfl, hgrew.words, hgrew.loops, hgrew.consts, hgrew.runs⟩

theorem grew_item (h : g.Tidy) (hsize : g.draft.words.size ≤ maxWords) (i : Item) (words : Array UInt16)
    (hw : words.toList = g.draft.words.toList ++ i.words) :
    Grew i.words (fun _ _ => []) g
      { g with draft := { g.draft with words, lines := (Draft.addOp g.draft g.line i.op).lines } } where
  tidy := by
    refine ⟨{ h.draft with small := ?_ }, h.outer⟩
    show words.size ≤ 65534
    have hlen := congrArg List.length hw
    have htwo : i.op.length ≤ 2 := by
      unfold Op.length
      split <;> omega
    rw [List.length_append, Array.length_toList, Array.length_toList, Item.length_words] at hlen
    rw [maxWords] at hsize
    omega
  outer := rfl
  words := hw
  loops := (note_none _).symm
  consts h := h
  runs := runs_addOp g.draft g.line i rfl

theorem holds_emit (h : At ls g) (op : Op) (ho : op.hasOperand = false) :
    Holds (fun _ g' => Wrote (.op op) g g') ((emit op).run g) := by
  unfold emit
  show Holds _ (EStateM.run (ite _ _ _) g)
  split
  · exact holds_fail_bind h _
  · rename_i hsize
    have hwords : Item.words ⟨g.draft.words.size, op, 0⟩ = [op.word] :=
      if_neg (by rw [ho]; exact Bool.false_ne_true)
    have hgrew := grew_item h.tidy (Nat.le_of_not_lt hsize) ⟨g.draft.words.size, op, 0⟩
      (g.draft.words.push op.word) (by rw [Array.toList_push, hwords])
    refine .done ⟨?_, fun _ hd => nomatch hd⟩
    rw [Asm.words, Asm.op, Asm.items, List.flatMap_singleton]
    exact hgrew

theorem holds_emitArg_raw (h : At ls g) {op : Op} (ho : op.hasOperand = true) (arg : Nat) :
    Holds (fun _ g' => Grew [op.word, arg.toUInt16] (fun _ _ => []) g g' ∧
      g'.draft.consts = g.draft.consts) ((emitArg op arg).run g) := by
  have hemit : Holds (fun _ g' => g.draft.words.size ≤ maxWords ∧
      g' = { g with draft := Draft.addOp g.draft g.line op }) ((emit op).run g) := by
    unfold emit
    show Holds _ (EStateM.run (ite _ _ _) g)
    split
    · exact holds_fail_bind h _
    · rename_i hsize
      exact .done ⟨Nat.le_of_not_lt hsize, rfl⟩
  refine hemit.bind fun _ g₁ ⟨hsize, hg₁⟩ => .done ?_
  subst hg₁
  have hwords : Item.words ⟨g.draft.words.size, op, arg⟩ = [op.word, arg.toUInt16] := if_pos ho
  have hgrew := grew_item h.tidy hsize ⟨g.draft.words.size, op, arg⟩
    ((g.draft.words.push op.word).push arg.toUInt16) (by
      rw [Array.toList_push, Array.toList_push, List.append_assoc, hwords]
      rfl)
  rw [hwords] at hgrew
  exact ⟨hgrew, rfl⟩

theorem holds_emitArg (h : At ls g) (op : Op) (ho : op.hasOperand = true) (arg : Nat)
    (c : Option Const) (hc : ∀ d, c = some d → g.draft.consts[arg]? = some d) :
    Holds (fun _ g' => Wrote (.instr op arg c) g g') ((emitArg op arg).run g) := by
  refine (holds_emitArg_raw h ho arg).mono fun _ g' ⟨hgrew, hconsts⟩ => ⟨?_, ?_⟩
  · rw [Asm.words, Asm.items, List.flatMap_singleton, Item.words, if_pos ho]
    exact hgrew
  · rw [hconsts]
    exact hc

/-- A jump that is left open, and the place of its operand. -/
theorem holds_emitJump (h : At ls g) (op : Op) (ho : op.hasOperand = true) :
    Holds (fun o g' => o = g.draft.words.size + 1 ∧
      Grew [op.word, unset.toNat.toUInt16] (fun _ _ => []) g g') ((emitJump op).run g) := by
  refine (holds_emitArg_raw h ho unset.toNat).bind fun _ g' ⟨hgrew, _⟩ => .done ⟨?_, hgrew⟩
  show g'.draft.words.size - 1 = _
  rw [hgrew.size]
  rfl

/-! ## constants -/

theorem getElem?_push_of_some {κ : Type} {consts : Array κ} {i : Nat} {e : κ} (c : κ)
    (he : consts[i]? = some e) : (consts.push c)[i]? = some e := by
  obtain ⟨hlt, rfl⟩ := Array.getElem?_eq_some_iff.mp he
  exact Array.getElem?_push_lt hlt

theorem tidy_addConst {d : Draft} (h : d.Tidy) {c : Const} (hfew : d.consts.size < maxConsts)
    (hnew : Draft.place? d c = none) (hc : ∀ e, c = .code e → e.Assembled) :
    (Draft.addConst d c).Tidy := by
  have hplaces (k : Const.Key) : (Draft.addConst d c).places[k]? =
      if c.key? = some k then some d.consts.size else d.places[k]? := by
    rw [Draft.addConst]
    dsimp only
    cases hk : c.key? with
    | none => rfl
    | some k' =>
      show (d.places.insert k' d.consts.size)[k]? = _
      rw [Std.HashMap.getElem?_insert]
      simp
  refine ⟨h.small, ?_, fun {k i} hk => ?_, fun {i e k} he hk => ?_, fun e he => ?_⟩
  · show (d.consts.push c).size ≤ maxConsts
    rw [Array.size_push]
    omega
  · rw [hplaces] at hk
    split at hk
    · obtain rfl := Option.some.inj hk
      exact ⟨c, Array.getElem?_push_size, ‹_›⟩
    · obtain ⟨e, he, hek⟩ := h.placed hk
      exact ⟨e, getElem?_push_of_some c he, hek⟩
  · rw [hplaces]
    have hi : i ≤ d.consts.size := by
      have := (Array.getElem?_eq_some_iff.mp he).1
      rw [show (Draft.addConst d c).consts = d.consts.push c from rfl, Array.size_push] at this
      omega
    rcases Nat.lt_or_eq_of_le hi with hi | rfl
    · have he : d.consts[i]? = some e := by
        rw [← he]
        exact (Array.getElem?_push_lt hi).symm ▸ Array.getElem?_eq_getElem hi
      have hold := h.keyed he hk
      split
      · rename_i hck
        rw [Draft.place?, hck] at hnew
        cases hold.symm.trans hnew
      · exact hold
    · obtain rfl : c = e := Option.some.inj (Array.getElem?_push_size.symm.trans he)
      rw [if_pos hk]
  · rcases Array.mem_push.mp he with he | he
    · exact h.closed e he
    · exact hc e he.symm

/-- The index of a constant is where it is stored. -/
theorem holds_constIndex (h : At ls g) {c : Const} (hc : ∀ d, c = .code d → d.Assembled) :
    Holds (fun i g' => Grew [] (fun _ _ => []) g g' ∧ g'.draft.consts[i]? = some c)
      ((constIndex c).run g) := by
  unfold constIndex
  refine .state ?_
  dsimp only
  split
  · rename_i i hi
    obtain ⟨k, hk, hi⟩ := Option.bind_eq_some_iff.mp hi
    obtain ⟨d, hd, hdk⟩ := h.tidy.draft.placed hi
    obtain rfl := Const.eq_of_key? hk hdk
    exact .done ⟨.refl h.tidy, hd⟩
  · rename_i hnew
    show Holds _ (EStateM.run (ite _ _ _) g)
    split
    · exact holds_fail_bind h _
    · rename_i hfew
      have htidy := tidy_addConst h.tidy.draft (Nat.lt_of_not_le hfew) hnew hc
      refine .done ⟨⟨⟨htidy, h.tidy.outer⟩, rfl, (List.append_nil _).symm, (note_none _).symm, ?_, ?_⟩, ?_⟩
      · exact fun hi => getElem?_push_of_some c hi
      · exact (Runs.refl g.draft).alike rfl rfl rfl
      · exact Array.getElem?_push_size

/-! ## constructs with jumps -/

/-- A part behind an open jump, which is aimed behind it. -/
theorem Wrote.bypass {j : Op} (hj : j.hasOperand = true)
    (h : Grew [j.word, unset.toNat.toUInt16] (fun _ _ => []) g g₁) (h' : Wrote y g₁ g₂) :
    Wrote (.bypass j y) g (g₂.aimed [g.draft.words.size + 1]) := by
  have hsize : g₁.draft.words.size = g.draft.words.size + 2 := h.size
  have hlen : j.length = 2 := if_pos hj
  have hgrew := h.trans h'.grew
  refine ⟨?_, h'.uses⟩
  have hwords : (Asm.bypass j y).words g.draft.words.size unaimed =
      j.word :: (g.draft.words.size + 2 + y.size).toUInt16 :: y.words (g.draft.words.size + 2) unaimed := by
    rw [Asm.words, Asm.items, List.flatMap_append, List.flatMap_singleton, Item.words, if_pos hj, hlen]
    rfl
  have hjumps : (Asm.bypass j y).jumps g.draft.words.size = y.jumps (g.draft.words.size + 2) := by
    funext k out
    rw [Asm.jumps, hlen]
  rw [hwords, hjumps]
  rw [hsize] at hgrew
  refine hgrew.aimed _ ?_ ((spans_operand hj ..).trans (spans_operand hj ..).symm)
  rw [h'.size, hsize]
  exact Asm.setAll_one ..

/-- Two parts, of which an open jump leads to the second and another one behind it. -/
theorem Wrote.branch {g₄ : State}
    (h₁ : Grew [Op.jifNotPop.word, unset.toNat.toUInt16] (fun _ _ => []) g g₁) (hx : Wrote x g₁ g₂)
    (h₃ : Grew [Op.jmp.word, unset.toNat.toUInt16] (fun _ _ => []) g₂ g₃)
    (hy : Wrote y (g₃.aimed [g.draft.words.size + 1]) g₄) :
    Wrote (.branch x y) g (g₄.aimed [g₂.draft.words.size + 1]) := by
  have hs₁ : g₁.draft.words.size = g.draft.words.size + 2 := h₁.size
  have hs₂ := hx.size
  have hs₃ : g₃.draft.words.size = g₂.draft.words.size + 2 := h₃.size
  have hs₄ := hy.size
  rw [show (g₃.aimed _).draft.words.size = g₃.draft.words.size from size_foldl_set ..] at hs₄
  rw [hs₁] at hs₂
  rw [hs₂] at hs₃
  rw [hs₃] at hs₄
  -- the first jump leads behind the second
  have hfirst := (h₁.trans (hx.grew.trans h₃)).aimed [g.draft.words.size + 1]
    (Asm.setAll_one g.draft.words.toList ..) ((spans_operand rfl ..).trans (spans_operand rfl ..).symm)
  have hgrew := hfirst.trans hy.grew
  rw [show (g₃.aimed _).draft.words.size = g₃.draft.words.size from size_foldl_set .., hs₃, hs₁]
    at hgrew
  refine ⟨?_, hx.uses.mono fun hc => hy.grew.consts (h₃.consts hc), hy.uses⟩
  have hwords : (Asm.branch x y).words g.draft.words.size unaimed =
      [Op.jifNotPop.word, (g.draft.words.size + 2 + x.size + 2).toUInt16] ++
        (x.words (g.draft.words.size + 2) unaimed ++
          ([Op.jmp.word, (g.draft.words.size + 2 + x.size + 2 + y.size).toUInt16] ++
            y.words (g.draft.words.size + 2 + x.size + 2) unaimed)) := by
    rw [Asm.words, Asm.items, List.flatMap_append, List.flatMap_append, List.flatMap_append]
    rfl
  have hjumps : (Asm.branch x y).jumps g.draft.words.size = fun k out =>
      x.jumps (g.draft.words.size + 2) k out ++ y.jumps (g.draft.words.size + 2 + x.size + 2) k out := by
    funext k out
    rw [Asm.jumps]
  rw [hwords, hjumps]
  simp only [List.nil_append, List.append_nil] at hgrew
  have hjif := @spans_operand .jifNotPop rfl
  have hjmp := @spans_operand .jmp rfl
  refine hgrew.aimed _ ?_ (by
    simp only [List.append_eq, List.append_assoc, List.cons_append, List.nil_append]
    rw [hjif, hjif, spans_words, spans_words, hjmp, hjmp])
  have hbefore : (g.draft.words.toList ++ ([Op.jifNotPop.word,
      (g.draft.words.size + 2 + x.size + 2).toUInt16] ++
        x.words (g.draft.words.size + 2) unaimed)).length = g₂.draft.words.size := by
    rw [List.length_append, List.length_append, Asm.length_words, Array.length_toList, hs₂]
    exact (Nat.add_assoc ..).symm
  have hset := Asm.setAll_one (g.draft.words.toList ++ ([Op.jifNotPop.word,
      (g.draft.words.size + 2 + x.size + 2).toUInt16] ++ x.words (g.draft.words.size + 2) unaimed))
    (y.words (g.draft.words.size + 2 + x.size + 2) unaimed) Op.jmp.word
    g₄.draft.words.size.toUInt16 unset.toNat.toUInt16
  rw [hbefore, hs₄] at hset
  rw [hs₄]
  simp only [List.append_eq, List.append_assoc, List.cons_append, List.nil_append] at hset ⊢
  exact hset

def exitWords (exit : Option Op) (v : UInt16) : List UInt16 :=
  exit.toList.flatMap fun o => [o.word, v]

theorem length_exitWords {exit : Option Op} (hops : ∀ o, exit = some o → o.hasOperand = true)
    (v : UInt16) : (exitWords exit v).length = Asm.exitSize exit := by
  cases exit with
  | none => rfl
  | some o => exact (if_pos (hops o rfl)).symm

theorem spans_exitWords {exit : Option Op} (hops : ∀ o, exit = some o → o.hasOperand = true)
    (v w : UInt16) {ws ws' : List UInt16} (h : spans ws = spans ws') :
    spans (exitWords exit v ++ ws) = spans (exitWords exit w ++ ws') := by
  cases exit with
  | none => exact h
  | some o =>
    have ho := hops o rfl
    exact (spans_operand ho v ws).trans ((congrArg _ h).trans (spans_operand ho w ws').symm)

theorem setAll_exitWords (exit : Option Op) (v w : UInt16) (before after : List UInt16) :
    Asm.setAll (exit.toList.map fun _ => before.length + 1) v (before ++ (exitWords exit w ++ after)) =
      before ++ (exitWords exit v ++ after) := by
  cases exit with
  | none => rfl
  | some o => exact Asm.setAll_one ..

/-- The targets inside a loop are set one after the other. -/
theorem set_set_unaimed (done next : Nat) :
    Targets.set (Targets.set unaimed 0 false next) 0 true done = Targets.into unaimed done next := by
  funext k out
  cases k with
  | zero => cases out <;> rfl
  | succ k => simp [Targets.set, Targets.into, unaimed]

theorem words_loop {pre head body update post : Asm} {exit : Option Op}
    (hops : ∀ o, exit = some o → o.hasOperand = true) (a : Nat) {s : Asm.Spots}
    (hs : s = Asm.spots pre head exit body update a) :
    (Asm.loop pre head exit body update post).words a unaimed =
      pre.words a unaimed ++ ((Asm.op .mark).words s.mark unaimed ++ (head.words s.top unaimed ++
        (exitWords exit s.done.toUInt16 ++ (body.words s.inside (Targets.into unaimed s.done s.next) ++
          (update.words s.next unaimed ++ ((Asm.instr .jmpLoop s.top none).words s.back unaimed ++
            ((Asm.op .unmark).words s.done unaimed ++ post.words s.post unaimed))))))) := by
  subst hs
  have hexit (test done : Nat) :
      (Asm.exitItems exit test done).flatMap Item.words = exitWords exit done.toUInt16 := by
    cases exit with
    | none => rfl
    | some o =>
      show Item.words ⟨test, o, done⟩ ++ [] = [o.word, done.toUInt16] ++ []
      rw [Item.words, if_pos (hops o rfl)]
  simp only [Asm.words, Asm.items, Asm.op, List.flatMap_append, hexit]

/-- A loop: the jumps to its next round, out of its head and behind it are aimed one after the
other. -/
theorem Wrote.loop {pre head body update post : Asm} {exit : Option Op}
    (hops : ∀ o, exit = some o → o.hasOperand = true)
    {g₄ g₅ g₆ g₇ g₈ g₉ : State} (hpre : Wrote pre g g₁) (hmark : Wrote (.op .mark) g₁ g₂)
    (hhead : Wrote head g₂ g₃)
    (hexit : Grew (exitWords exit unset.toNat.toUInt16) (fun _ _ => []) g₃ g₄)
    (hbody : Grew (body.words g₄.draft.words.size unaimed)
      (fun k => body.jumps g₄.draft.words.size (k + 1)) g₄ g₅) (huses : body.Uses g₅.draft.consts)
    (hupdate : Wrote update (g₅.aimed (body.jumps g₄.draft.words.size 0 false)) g₆)
    (hback : Wrote (.instr .jmpLoop g₂.draft.words.size none) g₆ g₇)
    (hunmark : Wrote (.op .unmark)
      ((g₇.aimed (exit.toList.map fun _ => g₃.draft.words.size + 1)).aimed
        (body.jumps g₄.draft.words.size 0 true)) g₈) (hpost : Wrote post g₈ g₉) :
    Wrote (.loop pre head exit body update post) g g₉ := by
  have haimed (g : State) (os : List Nat) : (g.aimed os).draft.words.size = g.draft.words.size :=
    size_foldl_set ..
  -- the places of the loop are the sizes of the states
  obtain ⟨s, hs⟩ : ∃ s, s = Asm.spots pre head exit body update g.draft.words.size := ⟨_, rfl⟩
  have hs₁ : g₁.draft.words.size = s.mark := by rw [hpre.size, hs]; rfl
  have hs₂ : g₂.draft.words.size = s.top := by rw [hmark.size, hs₁, hs]; rfl
  have hs₃ : g₃.draft.words.size = s.test := by rw [hhead.size, hs₂, hs]; rfl
  have hs₄ : g₄.draft.words.size = s.inside := by
    rw [hexit.size, hs₃, length_exitWords hops, hs]
    rfl
  have hs₅ : g₅.draft.words.size = s.next := by rw [hbody.size, hs₄, Asm.length_words, hs]; rfl
  have hs₆ : g₆.draft.words.size = s.back := by rw [hupdate.size, haimed, hs₅, hs]; rfl
  have hs₇ : g₇.draft.words.size = s.done := by rw [hback.size, hs₆, hs]; rfl
  have hs₈ : g₈.draft.words.size = s.post := by rw [hunmark.size, haimed, haimed, hs₇, hs]; rfl
  have hnext : Grew (body.words s.inside (Targets.set unaimed 0 false s.next))
      (fun k => body.jumps s.inside (k + 1)) g₄ (g₅.aimed (body.jumps g₄.draft.words.size 0 false)) := by
    rw [hs₄] at hbody ⊢
    refine hbody.aimed _ ?_ (body.spans_words_eq ..)
    have hset := body.setAll_jumps 0 false unaimed s.next (Array.length_toList.trans hs₄) []
    rw [List.append_nil, List.append_nil] at hset
    rw [hs₅]
    exact hset
  have hrounds := hexit.trans (hnext.trans (hupdate.grew.trans hback.grew))
  have hleft := hrounds.aimed (exit.toList.map fun _ => g₃.draft.words.size + 1)
    (setAll_exitWords exit _ _ g₃.draft.words.toList _) (spans_exitWords hops _ _ rfl)
  have hbefore : (g₃.draft.words.toList ++ exitWords exit s.done.toUInt16).length = s.inside := by
    rw [List.length_append, length_exitWords hops, Array.length_toList, hs₃, hs]
    rfl
  have hdone : Grew (exitWords exit s.done.toUInt16 ++
      (body.words s.inside (Targets.into unaimed s.done s.next) ++
        (update.words s.next unaimed ++ (Asm.instr .jmpLoop s.top none).words s.back unaimed)))
      _ g₃ _ := hleft.aimed (body.jumps g₄.draft.words.size 0 true) (by
    rw [haimed, haimed, hs₂, hs₄, hs₅, hs₆, hs₇, ← List.append_assoc,
      body.setAll_jumps 0 true _ s.done hbefore, set_set_unaimed, List.append_assoc]) (by
    simp only [hs₂, hs₅, hs₆, haimed]
    refine spans_exitWords hops _ _ ?_
    rw [spans_words, spans_words body])
  have hall := hpre.grew.trans (hmark.grew.trans (hhead.grew.trans
    (hdone.trans (hunmark.grew.trans hpost.grew))))
  refine ⟨?_, ?_⟩
  · rw [words_loop hops g.draft.words.size hs]
    have hjumps : (Asm.loop pre head exit body update post).jumps g.draft.words.size = fun k out =>
        pre.jumps g.draft.words.size k out ++ (head.jumps s.top k out ++
          (body.jumps s.inside (k + 1) out ++ (update.jumps s.next k out ++ post.jumps s.post k out))) := by
      funext k out
      rw [Asm.jumps, hs]
    rw [hjumps]
    simp only [haimed, hs₁, hs₂, hs₅, hs₇, hs₈, Asm.op, Asm.jumps, List.nil_append, List.append_nil,
      List.append_assoc] at hall ⊢
    exact hall
  · refine ⟨hpre.uses.mono fun hc => ?_, hhead.uses.mono fun hc => ?_, huses.mono fun hc => ?_,
      hupdate.uses.mono fun hc => ?_, hpost.uses⟩
    · exact hpost.grew.consts (hunmark.grew.consts (hdone.consts
        (hhead.grew.consts (hmark.grew.consts hc))))
    · exact hpost.grew.consts (hunmark.grew.consts (hdone.consts hc))
    · exact hpost.grew.consts (hunmark.grew.consts (hback.grew.consts (hupdate.grew.consts hc)))
    · exact hpost.grew.consts (hunmark.grew.consts (hback.grew.consts hc))

end

end Gen

end ScriptEngine
