import ScriptEngine.Proofs.Code.Flow

/-!
# Decoding the words of a unit

Words spell instructions from the first word on.  Those of a compiled unit spell the instructions of
its structured code again, so a jump cannot lead between two instructions.

* `decodeFrom`              the instructions that words spell;
* `Item.Row.decodeFrom_eq`  the words of instructions in a row spell just these;
* `Decoded.row`, `Decoded.within`   the instructions that words spell, in their places;
* `Code.Assembled.decoded`  **the words of a compiled unit spell instructions** that end with a
  return, whose jumps lead to one another, and whose constants are of the right kinds;
* `Code.Lined.lineAt_word`  all words of an instruction are on its line.
-/

namespace ScriptEngine

/-- The instructions that words spell, the first of them at a place.  There are none if a word is no
instruction, or if the words end before an operand. -/
def decodeFrom : Nat → List UInt16 → Option (List Item)
  | _, [] => some []
  | a, w :: ws =>
    match Op.ofWord? w with
    | none => none
    | some op =>
      if op.hasOperand then
        match ws with
        | [] => none
        | arg :: ws => (decodeFrom (a + 2) ws).map (⟨a, op, arg.toNat⟩ :: ·)
      else (decodeFrom (a + 1) ws).map (⟨a, op, 0⟩ :: ·)

theorem decodeFrom_append (i : Item) (harg : i.arg < 65536)
    (hnone : i.op.hasOperand = false → i.arg = 0) (ws : List UInt16) :
    decodeFrom i.place (i.words ++ ws) =
      (decodeFrom (i.place + i.op.length) ws).map (i :: ·) := by
  obtain ⟨place, op, arg⟩ := i
  unfold Item.words Op.length
  cases ho : op.hasOperand with
  | true =>
    have hback : arg.toUInt16.toNat = arg := Nat.mod_eq_of_lt harg
    simp only [ite_true, List.cons_append, List.nil_append, decodeFrom, Op.ofWord?_word, ho, hback]
  | false =>
    obtain rfl : arg = 0 := hnone ho
    simp [decodeFrom, Op.ofWord?_word, ho]

/-- **The words of instructions in a row spell these instructions.** -/
theorem Item.Row.decodeFrom_eq {a b : Nat} {l : List Item} (h : Row a l b)
    (harg : ∀ i ∈ l, i.arg < 65536) (hnone : ∀ i ∈ l, i.op.hasOperand = false → i.arg = 0) :
    decodeFrom a (l.flatMap words) = some l := by
  induction l generalizing a with
  | nil => rfl
  | cons i l ih =>
    have hrest := ih h.2 (fun k hk => harg k (List.mem_cons_of_mem _ hk))
      fun k hk => hnone k (List.mem_cons_of_mem _ hk)
    rw [List.flatMap_cons, ← h.1,
      decodeFrom_append i (harg i List.mem_cons_self) (hnone i List.mem_cons_self), h.1, hrest]
    rfl

namespace Item

variable {i : Item} {a b : Nat} {l : List Item}

theorem Row.of_append {r : List Item} (h : Row a (l ++ r) b) : ∃ m, Row a l m ∧ Row m r b := by
  induction l generalizing a with
  | nil => exact ⟨a, rfl, h⟩
  | cons i l ih =>
    obtain ⟨m, hl, hr⟩ := ih h.2
    exact ⟨m, ⟨h.1, hl⟩, hr⟩

/-- Behind an instruction of a row stands the next one, or the row ends. -/
theorem Row.behind (h : Row a l b) (hi : i ∈ l) :
    i.place + i.op.length = b ∨ ∃ k ∈ l, k.place = i.place + i.op.length := by
  obtain ⟨pre, post, rfl⟩ := List.append_of_mem hi
  obtain ⟨m, -, hplace, hpost⟩ := Row.of_append h
  cases post with
  | nil => exact .inl (hplace ▸ hpost)
  | cons k post =>
    exact .inr ⟨k, List.mem_append_right _ (List.mem_cons_of_mem _ List.mem_cons_self), hplace ▸ hpost.1⟩

/-- An instruction that begins before the end of another one begins there or before. -/
theorem Row.le_of_lt (h : Row a l b) (hi : i ∈ l) {j : Item} (hj : j ∈ l)
    (hlt : j.place < i.place + i.op.length) : j.place ≤ i.place := by
  obtain ⟨pre, post, rfl⟩ := List.append_of_mem hi
  obtain ⟨m, hpre, hplace, hpost⟩ := Row.of_append h
  rcases List.mem_append.mp hj with hj | hj
  · exact Nat.le_trans (Nat.le_of_add_right_le (hpre.bounds hj).2) (Nat.le_of_eq hplace.symm)
  · rcases List.mem_cons.mp hj with rfl | hj
    · exact Nat.le_refl _
    · have := (hpost.bounds hj).1
      omega

/-- Behind some instructions of a row begins the next one. -/
theorem Row.place_of_lengths (h : Row a l b) {before behind : List Nat} {n : Nat}
    (hl : l.map (·.op.length) = before ++ n :: behind) : ∃ j ∈ l, j.place = a + before.sum := by
  obtain ⟨pre, post, rfl, rfl, hpost⟩ := List.map_eq_append_iff.mp hl
  obtain ⟨j, post, rfl, -, -⟩ := List.map_eq_cons_iff.mp hpost
  obtain ⟨m, hpre, hplace, -⟩ := Row.of_append h
  refine ⟨j, List.mem_append_right _ List.mem_cons_self, ?_⟩
  rw [hplace, sum_lengths, Nat.add_comm]
  exact hpre.length.symm

end Item

theorem Op.word_of_ofWord? {w : UInt16} {op : Op} (h : Op.ofWord? w = some op) : op.word = w := by
  have htable : ∀ i : Fin Op.table.size, Op.table[i].1.number = i := by decide
  obtain ⟨p, hp, rfl⟩ := Option.map_eq_some_iff.mp h
  obtain ⟨hlt, rfl⟩ := Array.getElem?_eq_some_iff.mp hp
  have hnumber : Op.table[w.toNat].1.number = w.toNat := htable ⟨w.toNat, hlt⟩
  rw [Op.word, hnumber]
  exact UInt16.ofNat_toNat

/-- What words spell fills them, and its words are these. -/
theorem decodeFrom_spec {a : Nat} {ws : List UInt16} {l : List Item} (h : decodeFrom a ws = some l) :
    Item.Row a l (a + ws.length) ∧ l.flatMap Item.words = ws ∧
      ∀ i ∈ l, i.arg < 65536 ∧ (i.op.hasOperand = false → i.arg = 0) := by
  fun_induction decodeFrom a ws generalizing l with
  | case1 a =>
    cases h
    exact ⟨rfl, rfl, fun _ hi => by cases hi⟩
  | case2 | case3 => cases h
  | case4 a w op hw ho arg ws ih =>
    obtain ⟨l, hl, rfl⟩ := Option.map_eq_some_iff.mp h
    obtain ⟨hrow, hwords, hargs⟩ := ih hl
    have hlen : op.length = 2 := if_pos ho
    refine ⟨⟨rfl, ?_⟩, ?_, List.forall_mem_cons.mpr ⟨⟨arg.toNat_lt, fun h => ?_⟩, hargs⟩⟩
    · rw [hlen, List.length_cons, List.length_cons, show a + (ws.length + 1 + 1) = a + 2 + ws.length by omega]
      exact hrow
    · rw [List.flatMap_cons, hwords, Item.words, if_pos ho, Op.word_of_ofWord? hw]
      exact congrArg (w :: · :: ws) UInt16.ofNat_toNat
    · rw [ho] at h
      cases h
  | case5 a w ws op hw ho ih =>
    obtain ⟨l, hl, rfl⟩ := Option.map_eq_some_iff.mp h
    obtain ⟨hrow, hwords, hargs⟩ := ih hl
    have hlen : op.length = 1 := if_neg ho
    refine ⟨⟨rfl, ?_⟩, ?_, List.forall_mem_cons.mpr ⟨⟨Nat.zero_lt_succ _, fun _ => rfl⟩, hargs⟩⟩
    · rw [hlen, List.length_cons, show a + (ws.length + 1) = a + 1 + ws.length by omega]
      exact hrow
    · rw [List.flatMap_cons, hwords, Item.words, if_neg ho, Op.word_of_ofWord? hw]
      rfl

/-- Words that spell instructions, of which the last one is a return and each jump leads to one. -/
structure Decoded (words : Array UInt16) (l : List Item) : Prop where
  spells : decodeFrom 0 words.toList = some l
  returns : l.getLast?.map Item.op = some .ret
  lands : ∀ i ∈ l, i.op.isJump = true → ∃ k ∈ l, k.place = i.arg

namespace Decoded

variable {words : Array UInt16} {l : List Item} {i : Item}

theorem row (h : Decoded words l) : Item.Row 0 l words.size := by
  have hrow := (decodeFrom_spec h.spells).1
  rwa [Nat.zero_add, Array.length_toList] at hrow

theorem within (h : Decoded words l) (hi : i ∈ l) : i.In words := by
  obtain ⟨-, hwords, hargs⟩ := decodeFrom_spec h.spells
  exact h.row.in_words hwords.symm hi (hargs i hi).1 (hargs i hi).2

theorem first (h : Decoded words l) : ∃ i ∈ l, i.place = 0 := by
  have hlast := h.returns
  have hrow := h.row
  cases l with
  | nil => exact nomatch hlast
  | cons i l => exact ⟨i, List.mem_cons_self, hrow.1⟩

theorem item_of_begins (h : Decoded words l) {k : Nat} (hk : Begins words.toList k) :
    ∃ j ∈ l, j.place = k := by
  obtain ⟨before, n, behind, hs, rfl⟩ := hk
  have hspans := spans_flatMap l []
  rw [List.append_nil, (decodeFrom_spec h.spells).2.1, show spans [] = [] from rfl, List.append_nil, hs]
    at hspans
  obtain ⟨j, hj, hplace⟩ := h.row.place_of_lengths hspans.symm
  exact ⟨j, hj, hplace.trans (Nat.zero_add _)⟩

end Decoded

/-- Words that spell instructions, with lines that start where these begin. -/
structure Code.Lined {κ : Type} (c : Code κ) : Prop where
  decoded : ∃ l, Decoded c.words l
  begins : ∀ run ∈ c.lines, Begins c.words.toList run.1

/-- **All words of an instruction** are on its line. -/
theorem Code.Lined.lineAt_word {κ : Type} {c : Code κ} (h : c.Lined) {l : List Item}
    (hl : Decoded c.words l) {i : Item} (hi : i ∈ l) {k : Nat} (hk : k < i.op.length) :
    c.lineAt (i.place + k) = c.lineAt i.place := by
  refine lineAt_congr fun run hrun => ⟨fun hle => ?_, Nat.le_add_right_of_le⟩
  obtain ⟨j, hj, hplace⟩ := hl.item_of_begins (h.begins run hrun)
  rw [← hplace] at hle ⊢
  exact hl.row.le_of_lt hi hj (Nat.lt_of_le_of_lt hle (Nat.add_lt_add_left hk _))

/-- The words of a unit that is assembled from balanced code spell its instructions. -/
theorem Turns.decoded {x : Asm} (hx : Turns 0 0 1 x) {c : Code Const}
    (hwords : c.words.toList = (Asm.seq x (.op .ret)).words 0 unaimed) (hsmall : c.words.size ≤ 65534)
    (hfew : c.consts.size ≤ 65535) (huses : x.Uses c.consts) :
    Decoded c.words ((Asm.seq x (.op .ret)).items 0 unaimed) := by
  have hvalid := hx.valid_unit huses
  rw [← size_of_words hwords] at hsmall
  have hrow := (Asm.seq x (.op .ret)).row_items 0 unaimed
  refine ⟨?_, ?_, fun i hi hj => hx.lands hi hj⟩
  · rw [hwords]
    exact hrow.decodeFrom_eq (fun i hi => hx.arg_lt hsmall hfew hi (hvalid i hi)) fun i hi => (hvalid i hi).none
  · rw [Asm.items, List.getLast?_append]
    rfl

/-- **The words of a compiled unit spell instructions**, and their operands name constants of the
right kinds. -/
theorem Code.Assembled.decoded {c : Code Const} (h : c.Assembled) :
    ∃ l, Decoded c.words l ∧ ∀ i ∈ l, i.op.takesConst = true →
      ∃ d, c.consts[i.arg]? = some d ∧ i.op.accepts d := by
  cases h with
  | @mk _ n _ x lowered words small few uses =>
    obtain ⟨hE, hS, -⟩ := Lowering.turns_all n
    have hx : Turns 0 0 1 x := Lowering.turns_statements hE hS lowered
    exact ⟨_, hx.decoded words small few uses, fun i hi => (hx.valid_unit uses i hi).const⟩

theorem Code.Assembled.lined {c : Code Const} (h : c.Assembled) : c.Lined := by
  obtain ⟨l, hl, -⟩ := h.decoded
  refine ⟨⟨l, hl⟩, ?_⟩
  cases h
  assumption

end ScriptEngine
