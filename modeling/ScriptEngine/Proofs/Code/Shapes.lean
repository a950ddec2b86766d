import ScriptEngine.Proofs.Code.Assembly

/-!
# How high the operand stack is at each instruction

A `Shape` says how many operands of the call there are where an instruction starts, and how high each
mark of a loop around it is.  Code is typed by shapes at its places when each of them suffices for the
instruction there, and the instruction leads to places whose shapes are related to what it leaves: as
lower bounds, or exactly.

* `Shape.Le`           one shape asks for no more than another;
* `Op.takes`, `Op.next`, `Op.target`   what an instruction needs and where it leads;
* `Kept`               relations between shapes that every instruction keeps;
* `Item.Flows`         one instruction fits the shapes around it;
* `Typing`             shapes that fit the whole of a unit.
-/

namespace ScriptEngine

/-- A list of bounds is met by a list of heights, from the top on. -/
def Under : List Nat → List Nat → Prop
  | [], _ => True
  | _ :: _, [] => False
  | x :: xs, y :: ys => x ≤ y ∧ Under xs ys

namespace Under

theorem refl (xs : List Nat) : Under xs xs := by
  induction xs with
  | nil => trivial
  | cons x xs ih => exact ⟨Nat.le_refl x, ih⟩

theorem trans {xs ys zs : List Nat} (h : Under xs ys) (h' : Under ys zs) : Under xs zs := by
  induction xs generalizing ys zs with
  | nil => trivial
  | cons x xs ih =>
    cases ys with
    | nil => exact h.elim
    | cons y ys =>
      cases zs with
      | nil => exact h'.elim
      | cons z zs => exact ⟨Nat.le_trans h.1 h'.1, ih h.2 h'.2⟩

theorem tail {xs ys : List Nat} (h : Under xs ys) : Under xs.tail ys.tail := by
  cases xs with
  | nil => trivial
  | cons x xs =>
    cases ys with
    | nil => exact h.elim
    | cons y ys => exact h.2

end Under

/-- How many operands there are, and how high the marks are, innermost first. -/
structure Shape where
  height : Nat
  marks : List Nat

namespace Shape

/-- The shape a unit starts with. -/
def none : Shape := ⟨0, []⟩

def up (s : Shape) (n : Nat) : Shape := { s with height := s.height + n }

/-- The shape `s` asks for no more than `t`. -/
structure Le (s t : Shape) : Prop where
  height : s.height ≤ t.height
  marks : Under s.marks t.marks

instance : LE Shape := ⟨Le⟩

theorem le_refl (s : Shape) : s ≤ s := ⟨Nat.le_refl _, .refl _⟩

theorem le_trans {s t u : Shape} (h : s ≤ t) (h' : t ≤ u) : s ≤ u :=
  ⟨Nat.le_trans h.height h'.height, h.marks.trans h'.marks⟩

@[simp] theorem up_height (s : Shape) (n : Nat) : (s.up n).height = s.height + n := rfl

@[simp] theorem up_marks (s : Shape) (n : Nat) : (s.up n).marks = s.marks := rfl

@[simp] theorem up_zero (s : Shape) : s.up 0 = s := rfl

@[simp] theorem up_up (s : Shape) (m n : Nat) : (s.up m).up n = s.up (m + n) := by
  simp [up, Nat.add_assoc]

end Shape

namespace Op

/-- How many operands an instruction uses. -/
def takes (arg : Nat) : Op → Nat
  | nop | pushConst | pushOne | pushZero | pushNil | newVec | newHash | loadSym | func => 0
  | mark | unmark | cutBack | cutBackPop | jmp | jmpLoop => 0
  | pop | dup | not | neg | jifNotPop | jifEnd | jifTrue | jifNot | ret => 1
  | setSym | setLocal | member => 1
  | dup2 | vappend | plus | minus | mul | div | cat | lt | lte | gt | gte | eq | neq => 2
  | setMember | extract | each | index | fcallh => 2
  | happend | insert | slice | mcallh => 3
  | fcall => arg + 1
  | mcall => arg + 2

/-- How many operands it leaves in their place. -/
def gives : Op → Nat
  | nop | pop | mark | unmark | cutBack | cutBackPop | jmp | jmpLoop | jifNotPop | ret => 0
  | dup => 2
  | dup2 => 4
  | each | index => 3
  | _ => 1

def usesMark : Op → Bool
  | unmark | cutBack | cutBackPop => true
  | _ => false

/-- Whether its operand is the place it may jump to. -/
def isJump : Op → Bool
  | jmp | jmpLoop | jifNotPop | jifEnd | jifTrue | jifNot => true
  | _ => false

/-- The shape behind it, if it ever goes on there. -/
def next (op : Op) (arg : Nat) (s : Shape) : Option Shape :=
  match op with
  | jmp | jmpLoop | ret => none
  | mark => some ⟨s.height, s.height :: s.marks⟩
  | unmark => some ⟨s.height, s.marks.tail⟩
  | cutBack => some ⟨min s.height (s.marks.headD 0), s.marks⟩
  | cutBackPop => some ⟨min s.height (s.marks.headD 0), s.marks.tail⟩
  | _ => some ⟨s.height - op.takes arg + op.gives, s.marks⟩

/-- The shape where it jumps to, if it may jump. -/
def target (op : Op) (s : Shape) : Option Shape :=
  match op with
  | jmp | jmpLoop | jifTrue | jifNot => some s
  | jifNotPop | jifEnd => some ⟨s.height - 1, s.marks⟩
  | _ => none

/-- Whether it does nothing but replace operands, before it goes on behind itself. -/
def isPlain : Op → Bool
  | mark | unmark | cutBack | cutBackPop | ret => false
  | op => !op.isJump

theorem hasOperand_of_isJump {op : Op} (h : op.isJump = true) : op.hasOperand = true := by
  cases op <;> first | rfl | exact nomatch h

theorem isJump_of_target {op : Op} {s t : Shape} (h : op.target s = some t) :
    op.isJump = true := by
  cases op <;> first | rfl | exact nomatch h

theorem hasOperand_of_takesConst {op : Op} (h : op.takesConst = true) : op.hasOperand = true := by
  cases op <;> first | rfl | exact nomatch h

theorem hasOperand_of_usesMark {op : Op} (h : op.usesMark = true) : op.hasOperand = false := by
  cases op <;> first | rfl | exact nomatch h

theorem takesConst_of_isJump {op : Op} (h : op.isJump = true) : op.takesConst = false := by
  cases op <;> first | rfl | exact nomatch h

theorem takes_of_isJump {op : Op} (h : op.isJump = true) (m n : Nat) : op.takes m = op.takes n := by
  cases op <;> first | rfl | exact nomatch h

end Op

theorem Op.usesMark_of_isPlain {op : Op} (h : op.isPlain = true) : op.usesMark = false := by
  cases op <;> first | rfl | exact nomatch h

theorem Op.target_of_isPlain {op : Op} (h : op.isPlain = true) (s : Shape) :
    op.target s = Option.none := by
  cases op <;> first | rfl | exact nomatch h

theorem Op.next_of_isPlain {op : Op} (h : op.isPlain = true) (arg : Nat) (s : Shape) :
    op.next arg s = some ⟨s.height - op.takes arg + op.gives, s.marks⟩ := by
  cases op <;> first | rfl | exact nomatch h

theorem Op.next_up_of_isPlain {op : Op} (h : op.isPlain = true) {arg : Nat} {s : Shape} :
    op.next arg (s.up (op.takes arg)) = some (s.up op.gives) := by
  rw [Op.next_of_isPlain h, Shape.up_height, Nat.add_sub_cancel]
  rfl

theorem Op.next_of_isJump {op : Op} (h : op.isJump = true) (m n : Nat) (s : Shape) :
    op.next m s = op.next n s := by
  cases op <;> first | rfl | exact nomatch h

def Op.argAt (op : Op) (words : Array UInt16) (ip : Nat) : Nat :=
  if op.hasOperand then (words[ip + 1]?.getD 0).toNat else 0

/-! ## typings -/

/-- Relations between shapes that every instruction keeps. -/
structure Kept (R : Shape → Shape → Prop) : Prop where
  refl : ∀ s, R s s
  trans : ∀ {s t u}, R s t → R t u → R s u
  next : ∀ {op : Op} {arg s t t'}, R s t → op.next arg t = some t' →
    ∃ s', op.next arg s = some s' ∧ R s' t'
  target : ∀ {op : Op} {s t t'}, R s t → op.target t = some t' →
    ∃ s', op.target s = some s' ∧ R s' t'

theorem kept_eq : Kept (· = ·) where
  refl _ := rfl
  trans h h' := h.trans h'
  next h ht := ⟨_, h ▸ ht, rfl⟩
  target h ht := ⟨_, h ▸ ht, rfl⟩

theorem Under.headD_le {xs ys : List Nat} (h : Under xs ys) : xs.headD 0 ≤ ys.headD 0 := by
  cases xs with
  | nil => exact Nat.zero_le _
  | cons x xs =>
    cases ys with
    | nil => exact h.elim
    | cons y ys => exact h.1

theorem kept_le : Kept (· ≤ ·) where
  refl := Shape.le_refl
  trans := Shape.le_trans
  next {op arg s t t'} h ht := by
    have hplain : (⟨s.height - op.takes arg + op.gives, s.marks⟩ : Shape) ≤
        ⟨t.height - op.takes arg + op.gives, t.marks⟩ :=
      ⟨Nat.add_le_add_right (Nat.sub_le_sub_right h.height _) _, h.marks⟩
    have hcut : min s.height (s.marks.headD 0) ≤ min t.height (t.marks.headD 0) :=
      Nat.le_min.mpr ⟨Nat.le_trans (Nat.min_le_left ..) h.height,
        Nat.le_trans (Nat.min_le_right ..) h.marks.headD_le⟩
    cases op with
    | jmp | jmpLoop | ret => exact nomatch ht
    | mark => exact Option.some.inj ht ▸ ⟨_, rfl, h.height, h.height, h.marks⟩
    | unmark => exact Option.some.inj ht ▸ ⟨_, rfl, h.height, h.marks.tail⟩
    | cutBack => exact Option.some.inj ht ▸ ⟨_, rfl, hcut, h.marks⟩
    | cutBackPop => exact Option.some.inj ht ▸ ⟨_, rfl, hcut, h.marks.tail⟩
    | _ => exact Option.some.inj ht ▸ ⟨_, rfl, hplain⟩
  target {op s t t'} h ht := by
    have hpopped : (⟨s.height - 1, s.marks⟩ : Shape) ≤ ⟨t.height - 1, t.marks⟩ :=
      ⟨Nat.sub_le_sub_right h.height _, h.marks⟩
    cases op with
    | jmp | jmpLoop | jifTrue | jifNot => exact Option.some.inj ht ▸ ⟨_, rfl, h⟩
    | jifNotPop | jifEnd => exact Option.some.inj ht ▸ ⟨_, rfl, hpopped⟩
    | _ => exact nomatch ht

structure Item.In (i : Item) (words : Array UInt16) : Prop where
  word : words[i.place]? = some i.op.word
  room : i.place + i.op.length ≤ words.size
  arg : i.op.argAt words i.place = i.arg

/-- There is one instruction at a place. -/
theorem Item.In.unique {words : Array UInt16} {i j : Item} (hi : i.In words) (hj : j.In words)
    (hp : i.place = j.place) : i = j := by
  have hop : i.op = j.op := Op.word_injective (Option.some.inj (hi.word.symm.trans (hp ▸ hj.word)))
  have harg : i.arg = j.arg := by rw [← hi.arg, ← hj.arg, hop, hp]
  cases i
  cases j
  cases hp
  cases hop
  cases harg
  rfl

/-- With the shape `s` there is enough for the instruction, and it leads to places with shapes that
`R` relates to what it leaves. -/
structure Item.Flows (R : Shape → Shape → Prop) (K : Nat → Shape → Prop) (i : Item) (s : Shape) :
    Prop where
  takes : i.op.takes i.arg ≤ s.height
  marked : i.op.usesMark = true → s.marks ≠ []
  next : ∀ t, i.op.next i.arg s = some t → ∃ u, K (i.place + i.op.length) u ∧ R u t
  jump : ∀ t, i.op.target s = some t → ∃ u, K i.arg u ∧ R u t

/-- The places with their shapes `K` fit the whole of a unit. -/
structure Typing (R : Shape → Shape → Prop) (words : Array UInt16) (consts : Nat)
    (K : Nat → Shape → Prop) : Prop where
  start : K 0 .none
  fits : ∀ ip s, K ip s → ∃ i : Item, i.place = ip ∧ i.In words ∧
    (i.op.takesConst = true → i.arg < consts) ∧ i.Flows R K s

end ScriptEngine
