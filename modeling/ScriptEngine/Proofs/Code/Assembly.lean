import ScriptEngine.Code.Basic

/-!
# Structured code

`Asm` is code before its jumps are offsets: instructions in a row, parts that are jumped over, two
branches, loops, and jumps out of loops.  Written at a place it gives a row of instructions, and
these give words.  The jumps out of the loops around it are written with the targets that are given;
`Asm.jumps` are the places of their operands, and setting the words there is the same as writing
with other targets.

* `Asm.items`, `Asm.words`   the instructions and the words of structured code;
* `Item.Row`                 the instructions are next to each other;
* `Asm.patched_jumps`        setting the operands of jumps out of loops;
* `Asm.Closed`               no jump leaves more loops than there are.
-/

namespace ScriptEngine

def Op.length (op : Op) : Nat := if op.hasOperand then 2 else 1

theorem Op.length_pos (op : Op) : 0 < op.length := by
  unfold length
  split <;> omega

/-! ## instructions in a row -/

/-- An instruction at a place, with its operand or zero. -/
structure Item where
  place : Nat
  op : Op
  arg : Nat

namespace Item

def words (i : Item) : List UInt16 :=
  if i.op.hasOperand then [i.op.word, i.arg.toUInt16] else [i.op.word]

theorem length_words (i : Item) : i.words.length = i.op.length := by
  unfold words Op.length
  split <;> rfl

/-- The instructions fill the words from one place to another. -/
def Row : Nat → List Item → Nat → Prop
  | a, [], b => a = b
  | a, i :: l, b => i.place = a ∧ Row (a + i.op.length) l b

variable {a b m : Nat} {l r : List Item}

theorem Row.append (hl : Row a l m) (hr : Row m r b) : Row a (l ++ r) b := by
  induction l generalizing a with
  | nil =>
    rw [show a = m from hl]
    exact hr
  | cons i l ih => exact ⟨hl.1, ih hl.2⟩

theorem Row.length (h : Row a l b) : (l.flatMap words).length + a = b := by
  induction l generalizing a with
  | nil => exact (Nat.zero_add a).trans h
  | cons i l ih =>
    have := ih h.2
    rw [List.flatMap_cons, List.length_append, length_words]
    omega

theorem Row.le (h : Row a l b) : a ≤ b := by
  have := h.length
  omega

theorem Row.bounds (h : Row a l b) {i : Item} (hi : i ∈ l) : a ≤ i.place ∧ i.place + i.op.length ≤ b := by
  induction l generalizing a with
  | nil => exact nomatch hi
  | cons j l ih =>
    rcases List.mem_cons.mp hi with rfl | hi
    · have := h.2.le
      have := h.1
      omega
    · have := ih h.2 hi
      omega

/-- There is one instruction at a place, and one thing is noted with it. -/
theorem Row.unique {α : Type} {l : List (Item × α)} (h : Row a (l.map Prod.fst) b)
    {p p' : Item × α} (hp : p ∈ l) (hp' : p' ∈ l) (he : p.1.place = p'.1.place) : p = p' := by
  induction l generalizing a with
  | nil => exact nomatch hp
  | cons k l ih =>
    have hfirst : k.1.place = a := h.1
    have hpos := k.1.op.length_pos
    have hlater {r : Item × α} (hr : r ∈ l) : a < r.1.place := by
      have := (Row.bounds h.2 (List.mem_map_of_mem hr)).1
      omega
    rcases List.mem_cons.mp hp with hp | hp
    · rcases List.mem_cons.mp hp' with hp' | hp'
      · rw [hp, hp']
      · have := hlater hp'
        rw [hp] at he
        omega
    · rcases List.mem_cons.mp hp' with hp' | hp'
      · have := hlater hp
        rw [hp'] at he
        omega
      · exact ih h.2 hp hp'

/-- The words at the place of an instruction are its own. -/
theorem Row.words_at (h : Row a l b) {i : Item} (hi : i ∈ l) (before after : List UInt16)
    (ha : before.length = a) :
    ∃ x y, before ++ (l.flatMap words ++ after) = x ++ (i.words ++ y) ∧ x.length = i.place := by
  induction l generalizing a before with
  | nil => exact nomatch hi
  | cons j l ih =>
    rw [List.flatMap_cons, List.append_assoc]
    rcases List.mem_cons.mp hi with rfl | hi
    · exact ⟨before, _, rfl, ha.trans h.1.symm⟩
    · rw [← List.append_assoc]
      refine ih h.2 hi _ ?_
      rw [List.length_append, length_words, ha]

end Item

/-! ## structured code -/

/-- Where the jumps out of the loops around lead, the innermost first: behind a loop, or to its next
round. -/
abbrev Targets := Nat → Bool → Nat

namespace Targets

/-- Inside one more loop. -/
def into (T : Targets) (done next : Nat) : Targets
  | 0, true => done
  | 0, false => next
  | k + 1, out => T k out

/-- With another target for one kind of jump. -/
def set (T : Targets) (k : Nat) (out : Bool) (v : Nat) : Targets := fun k' out' =>
  if k' = k ∧ out' = out then v else T k' out'

theorem into_set (T : Targets) (k : Nat) (out : Bool) (v done next : Nat) :
    (T.set k out v).into done next = (T.into done next).set (k + 1) out v := by
  funext k' out'
  cases k' with
  | zero => cases out' <;> rfl
  | succ k' => simp [into, set]

end Targets

/-- Structured code. -/
inductive Asm where
  | skip
  /-- An instruction with its operand, and the constant that its operand is the index of. -/
  | instr (op : Op) (arg : Nat) (const : Option Const)
  | seq (x y : Asm)
  /-- A part that a jump leads behind. -/
  | bypass (jump : Op) (x : Asm)
  /-- One of two parts, as the operand on top says. -/
  | branch (x y : Asm)
  /-- A loop, with what is before and behind its mark.  At the start of each round `head` is
  executed and `exit` may leave the loop; before the next round there is `update`. -/
  | loop (pre head : Asm) (exit : Option Op) (body update post : Asm)
  /-- A jump behind a loop around, or to its next round. -/
  | leave (out : Bool) (k : Nat)

namespace Asm

def op (o : Op) : Asm := instr o 0 none

def const (o : Op) (i : Nat) (c : Const) : Asm := instr o i (some c)

def exitSize (exit : Option Op) : Nat := exit.elim 0 Op.length

def size : Asm → Nat
  | skip => 0
  | instr o _ _ => o.length
  | seq x y => x.size + y.size
  | bypass j x => j.length + x.size
  | branch x y => 2 + (x.size + (2 + y.size))
  | loop pre head exit body update post =>
    pre.size + (1 + (head.size + (exitSize exit + (body.size + (update.size + (2 + (1 + post.size)))))))
  | leave _ k => k + 3

/-- The places of a loop. -/
structure Spots where
  /-- Where the height of the stack is noted. -/
  mark : Nat
  /-- The start of a round. -/
  top : Nat
  /-- The jump out of the head. -/
  test : Nat
  inside : Nat
  /-- What comes before the next round. -/
  next : Nat
  back : Nat
  /-- Where the mark is dropped. -/
  done : Nat
  post : Nat

def spots (pre head : Asm) (exit : Option Op) (body update : Asm) (a : Nat) : Spots :=
  let mark := a + pre.size
  let top := mark + 1
  let test := top + head.size
  let inside := test + exitSize exit
  let next := inside + body.size
  let back := next + update.size
  let done := back + 2
  { mark, top, test, inside, next, back, done, post := done + 1 }

/-- The instructions that drop the marks of `k` loops. -/
def drops : Nat → Nat → List Item
  | _, 0 => []
  | a, k + 1 => ⟨a, .cutBackPop, 0⟩ :: drops (a + 1) k

/-- The jump out of a loop's head. -/
def exitItems (exit : Option Op) (test done : Nat) : List Item :=
  exit.toList.map fun o => ⟨test, o, done⟩

def items : Asm → Nat → Targets → List Item
  | skip, _, _ => []
  | instr o arg _, a, _ => [⟨a, o, arg⟩]
  | seq x y, a, T => x.items a T ++ y.items (a + x.size) T
  | bypass j x, a, T => [⟨a, j, a + j.length + x.size⟩] ++ x.items (a + j.length) T
  | branch x y, a, T =>
    [⟨a, .jifNotPop, a + 2 + x.size + 2⟩] ++ (x.items (a + 2) T ++
      ([⟨a + 2 + x.size, .jmp, a + 2 + x.size + 2 + y.size⟩] ++ y.items (a + 2 + x.size + 2) T))
  | loop pre head exit body update post, a, T =>
    let s := spots pre head exit body update a
    pre.items a T ++ ([⟨s.mark, .mark, 0⟩] ++ (head.items s.top T ++
      (exitItems exit s.test s.done ++ (body.items s.inside (T.into s.done s.next) ++
        (update.items s.next T ++ ([⟨s.back, .jmpLoop, s.top⟩] ++ ([⟨s.done, .unmark, 0⟩] ++
          post.items s.post T)))))))
  | leave out k, a, T => drops a k ++ ([⟨a + k, .cutBack, 0⟩] ++ [⟨a + k + 1, .jmp, T k out⟩])

def words (x : Asm) (a : Nat) (T : Targets) : List UInt16 := (x.items a T).flatMap Item.words

theorem words_seq (x y : Asm) (a : Nat) (T : Targets) :
    (seq x y).words a T = x.words a T ++ y.words (a + x.size) T := by
  rw [words, items, List.flatMap_append]
  rfl

theorem row_exitItems (exit : Option Op) (test done : Nat) :
    Item.Row test (exitItems exit test done) (test + exitSize exit) := by
  cases exit with
  | none => exact rfl
  | some o => exact ⟨rfl, rfl⟩

theorem row_drops (a k : Nat) : Item.Row a (drops a k) (a + k) := by
  induction k generalizing a with
  | zero => exact rfl
  | succ k ih =>
    refine ⟨rfl, ?_⟩
    have := ih (a + 1)
    rwa [show a + 1 + k = a + (k + 1) by omega] at this

/-! ## jumps out of loops -/

def jumps : Asm → Nat → Nat → Bool → List Nat
  | skip, _, _, _ => []
  | instr _ _ _, _, _, _ => []
  | seq x y, a, k, out => x.jumps a k out ++ y.jumps (a + x.size) k out
  | bypass j x, a, k, out => x.jumps (a + j.length) k out
  | branch x y, a, k, out => x.jumps (a + 2) k out ++ y.jumps (a + 2 + x.size + 2) k out
  | loop pre head exit body update post, a, k, out =>
    let s := spots pre head exit body update a
    pre.jumps a k out ++ (head.jumps s.top k out ++ (body.jumps s.inside (k + 1) out ++
      (update.jumps s.next k out ++ post.jumps s.post k out)))
  | leave out' k', a, k, out => if k' = k ∧ out' = out then [a + k' + 2] else []

/-- Words with some of them set. -/
def setAll (js : List Nat) (v : UInt16) (ws : List UInt16) : List UInt16 :=
  js.foldl (fun ws j => ws.set j v) ws

theorem setAll_append (js js' : List Nat) (v : UInt16) (ws : List UInt16) :
    setAll (js ++ js') v ws = setAll js' v (setAll js v ws) := List.foldl_append

theorem length_setAll (js : List Nat) (v : UInt16) (ws : List UInt16) : (setAll js v ws).length = ws.length := by
  induction js generalizing ws with
  | nil => rfl
  | cons j js ih => exact (ih (ws.set j v)).trans List.length_set

/-- Instructions from `a` to `b` in which setting the words at `js` changes the target of the jumps to
the `k`-th loop around. -/
structure Patched (k : Nat) (out : Bool) (a : Nat) (js : List Nat) (l : Targets → List Item)
    (b : Nat) : Prop where
  row : ∀ T, Item.Row a (l T) b
  set : ∀ (T : Targets) (v : Nat) (before after : List UInt16), before.length = a →
    setAll js v.toUInt16 (before ++ ((l T).flatMap Item.words ++ after)) =
      before ++ ((l (T.set k out v)).flatMap Item.words ++ after)

section

variable {a b m k : Nat} {out : Bool} {js js' : List Nat} {l l' : Targets → List Item}

theorem patched_fixed {l : List Item} (h : Item.Row a l b) : Patched k out a [] (fun _ => l) b :=
  ⟨fun _ => h, fun _ _ _ _ _ => rfl⟩

theorem patched_one (i : Item) (k : Nat) (out : Bool) :
    Patched k out i.place [] (fun _ => [i]) (i.place + i.op.length) := patched_fixed ⟨rfl, rfl⟩

theorem Patched.append (h : Patched k out a js l m) (h' : Patched k out m js' l' b) :
    Patched k out a (js ++ js') (fun T => l T ++ l' T) b := by
  refine ⟨fun T => (h.row T).append (h'.row T), fun T v before after ha => ?_⟩
  have hm : (before ++ (l (T.set k out v)).flatMap Item.words).length = m := by
    rw [List.length_append, ha, Nat.add_comm]
    exact (h.row _).length
  rw [setAll_append, List.flatMap_append, List.append_assoc, h.set T v before _ ha,
    ← List.append_assoc, h'.set T v _ after hm, List.flatMap_append, List.append_assoc,
    List.append_assoc]

/-- Inside a loop the targets are those around it, one further. -/
theorem Patched.inside {done next : Nat} (h : Patched (k + 1) out a js l b) :
    Patched k out a js (fun T => l (T.into done next)) b := by
  refine ⟨fun T => h.row _, fun T v before after ha => ?_⟩
  rw [h.set (T.into done next) v before after ha, Targets.into_set]

theorem setAll_one (before after : List UInt16) (op v w : UInt16) :
    setAll [before.length + 1] v (before ++ (op :: w :: after)) = before ++ (op :: v :: after) := by
  show (before ++ (op :: w :: after)).set (before.length + 1) v = _
  rw [List.set_append_right _ _ (by omega), Nat.add_sub_cancel_left]
  rfl

theorem patched_jump (a k' : Nat) (out' : Bool) (k : Nat) (out : Bool) :
    Patched k out a (if k' = k ∧ out' = out then [a + 1] else [])
      (fun T => [⟨a, .jmp, T k' out'⟩]) (a + 2) := by
  refine ⟨fun T => ⟨rfl, rfl⟩, fun T v before after ha => ?_⟩
  subst ha
  unfold Targets.set
  split
  · exact setAll_one before after _ _ _
  · rfl

end

/-- **Setting the operands of the jumps to a loop** is writing the code with that target. -/
theorem patched_jumps (x : Asm) (a k : Nat) (out : Bool) :
    Patched k out a (x.jumps a k out) (x.items a) (a + x.size) := by
  induction x generalizing a k with
  | skip => exact patched_fixed rfl
  | instr o arg c => exact patched_one ⟨a, o, arg⟩ k out
  | seq x y hx hy =>
    rw [size, ← Nat.add_assoc]
    exact (hx a k).append (hy _ k)
  | bypass j x hx =>
    rw [size, ← Nat.add_assoc]
    exact (patched_one ⟨a, j, a + j.length + x.size⟩ k out).append (hx _ k)
  | branch x y hx hy =>
    rw [size, show a + (2 + (x.size + (2 + y.size))) = a + 2 + x.size + 2 + y.size by omega]
    refine (patched_one ⟨a, .jifNotPop, a + 2 + x.size + 2⟩ k out).append ((hx _ k).append ?_)
    exact (patched_one ⟨_, .jmp, a + 2 + x.size + 2 + y.size⟩ k out).append (hy _ k)
  | loop pre head exit body update post hpre hhead hbody hupdate hpost =>
    have hend : a + size (.loop pre head exit body update post) =
        (spots pre head exit body update a).post + post.size := by
      simp only [size, spots]
      omega
    rw [hend]
    refine (hpre a k).append ((patched_one ⟨_, .mark, 0⟩ k out).append ((hhead _ k).append ?_))
    refine (patched_fixed (row_exitItems exit ..)).append ((hbody _ (k + 1)).inside.append ?_)
    refine (hupdate _ k).append ((patched_one ⟨_, .jmpLoop, _⟩ k out).append ?_)
    exact (patched_one ⟨_, .unmark, 0⟩ k out).append (hpost _ k)
  | leave out' k' =>
    refine (patched_fixed (row_drops a k')).append ((patched_one ⟨_, .cutBack, 0⟩ k out).append ?_)
    exact patched_jump (a + k' + 1) k' out' k out

/-- **The instructions fill the words of the code.** -/
theorem row_items (x : Asm) (a : Nat) (T : Targets) : Item.Row a (x.items a T) (a + x.size) :=
  (x.patched_jumps a 0 true).row T

theorem length_words (x : Asm) (a : Nat) (T : Targets) : (x.words a T).length = x.size := by
  have := (x.row_items a T).length
  unfold words
  omega

theorem setAll_jumps (x : Asm) {a : Nat} (k : Nat) (out : Bool) (T : Targets) (v : Nat)
    {before : List UInt16} (ha : before.length = a) (after : List UInt16) :
    setAll (x.jumps a k out) v.toUInt16 (before ++ (x.words a T ++ after)) =
      before ++ (x.words a (T.set k out v) ++ after) :=
  (x.patched_jumps a k out).set T v before after ha

/-! ## what code refers to -/

/-- Every jump leads to one of `n` loops around. -/
def Closed (n : Nat) : Asm → Prop
  | skip => True
  | instr _ _ _ => True
  | seq x y => x.Closed n ∧ y.Closed n
  | bypass _ x => x.Closed n
  | branch x y => x.Closed n ∧ y.Closed n
  | loop pre head _ body update post =>
    pre.Closed n ∧ head.Closed n ∧ body.Closed (n + 1) ∧ update.Closed n ∧ post.Closed n
  | leave _ k => k < n

/-- The constants are stored where the instructions look for them. -/
def Uses (consts : Array Const) : Asm → Prop
  | skip => True
  | instr _ i c => ∀ d, c = some d → consts[i]? = some d
  | seq x y => x.Uses consts ∧ y.Uses consts
  | bypass _ x => x.Uses consts
  | branch x y => x.Uses consts ∧ y.Uses consts
  | loop pre head _ body update post =>
    pre.Uses consts ∧ head.Uses consts ∧ body.Uses consts ∧ update.Uses consts ∧ post.Uses consts
  | leave _ _ => True

theorem Uses.mono {x : Asm} {consts consts' : Array Const} (h : x.Uses consts)
    (hle : ∀ {i : Nat} {c}, consts[i]? = some c → consts'[i]? = some c) : x.Uses consts' := by
  induction x with
  | skip => trivial
  | instr o i c => exact fun d hd => hle (h d hd)
  | seq x y hx hy => exact ⟨hx h.1, hy h.2⟩
  | bypass j x hx => exact hx h
  | branch x y hx hy => exact ⟨hx h.1, hy h.2⟩
  | loop pre head exit body update post hpre hhead hbody hupdate hpost =>
    obtain ⟨h1, h2, h3, h4, h5⟩ := h
    exact ⟨hpre h1, hhead h2, hbody h3, hupdate h4, hpost h5⟩
  | leave out k => trivial

end Asm

end ScriptEngine
