import ScriptEngine.Proofs.Code.Decoding
import ScriptEngine.Proofs.Code.Expressions

/-!
# The course of writing

`Course x s a t log` tells how writing by `x` goes from the state `s` to the state `t` with the
answer `a`: put together from the activities of `Gen` in the order in which `x` goes through them.
The log lists the instructions that are added to the current unit, each as it was written, in its
place, and with the line that was set when it was written.

Nothing but `emit` and `emitArg` adds words, nothing but `atLine` sets the line, and no activity
asks for the line table (`Blind`).  What is aimed is the operand of an instruction (`IsOperand`), so an
instruction word stays as it was written.  A function literal has a course of its own inside, from an
empty unit on, which adds nothing to the log of the unit around it.

* `Inscribed`           instructions whose words are in their places, whatever the operands are;
* `Course.run`        a course is a run;
* `Course.inscribed`    the instructions of the log are the words that were added;
* `Code.Logged`       a unit and the log of its course;
* `Generate.told_all` every run of the generator that succeeds has a course;
* `Compiled.logged`   **every unit that compiling a source text makes has a log**.
-/

namespace ScriptEngine

/-- Where an instruction is, and which one. -/
def Item.head (i : Item) : Nat × Op := (i.place, i.op)

/-- Instructions that fill the words, with each instruction word in its place. -/
structure Inscribed (words : Array UInt16) (l : List Item) : Prop where
  row : Item.Row 0 l words.size
  word : ∀ i ∈ l, words[i.place]? = some i.op.word

/-- The offset of the operand of an instruction. -/
def IsOperand (words : Array UInt16) (j : Nat) : Prop :=
  ∃ l, Inscribed words l ∧ ∃ i ∈ l, i.op.hasOperand = true ∧ j = i.place + 1

section

variable {words : Array UInt16} {l l' : List Item} {i : Item} {j : Nat}

/-- Where instructions are and which ones is read off the words. -/
theorem Item.Row.agree {a b : Nat} (h : Row a l b) (h' : Row a l' b)
    (hw : ∀ i ∈ l, words[i.place]? = some i.op.word) (hw' : ∀ i ∈ l', words[i.place]? = some i.op.word) :
    l.map Item.head = l'.map Item.head := by
  have hnonempty {a : Nat} {k : Item} {l : List Item} (h : Row a (k :: l) b) : a < b := by
    have hbounds := h.bounds List.mem_cons_self
    have hpos := k.op.length_pos
    omega
  induction l generalizing a l' with
  | nil =>
    cases l' with
    | nil => rfl
    | cons k' l' => exact absurd (show a = b from h) (Nat.ne_of_lt (hnonempty h'))
  | cons k l ih =>
    cases l' with
    | nil => exact absurd (show a = b from h') (Nat.ne_of_lt (hnonempty h))
    | cons k' l' =>
      have hplace : k'.place = k.place := h'.1.trans h.1.symm
      have hword := (hw' k' List.mem_cons_self).symm.trans (hplace ▸ hw k List.mem_cons_self)
      have hop : k'.op = k.op := Op.word_injective (Option.some.inj hword)
      rw [List.map_cons, List.map_cons, Item.head, Item.head, hplace, hop]
      exact congrArg _ (ih h.2 (hop ▸ h'.2) (fun i hi => hw i (List.mem_cons_of_mem _ hi))
        fun i hi => hw' i (List.mem_cons_of_mem _ hi))

/-- The words of a row spell one row of instructions only. -/
theorem Inscribed.agree (h : Inscribed words l) (h' : Inscribed words l') : l.map Item.head = l'.map Item.head :=
  h.row.agree h'.row h.word h'.word

theorem Decoded.inscribed (h : Decoded words l) : Inscribed words l := ⟨h.row, fun _ hi => (h.within hi).word⟩

theorem Inscribed.ne_operand (h : Inscribed words l) (hi : i ∈ l) (hj : IsOperand words j) : i.place ≠ j := by
  rintro rfl
  obtain ⟨l', h', k, hk, ho, hj⟩ := hj
  obtain ⟨i', hi', he⟩ := List.mem_map.mp (h.agree h' ▸ List.mem_map_of_mem (f := Item.head) hi)
  have he : i'.place = i.place := congrArg Prod.fst he
  have hlength : k.op.length = 2 := if_pos ho
  have := h'.row.le_of_lt hk hi' (by omega)
  omega

theorem inscribed_nil : Inscribed #[] [] := ⟨rfl, fun _ hi => by cases hi⟩

theorem Inscribed.aimed (h : Inscribed words l) (hj : IsOperand words j) (w : UInt16) :
    Inscribed (words.setIfInBounds j w) l where
  row := by
    rw [Array.size_setIfInBounds]
    exact h.row
  word i hi := by
    rw [Array.getElem?_setIfInBounds_ne (h.ne_operand hi hj).symm]
    exact h.word i hi

theorem Inscribed.add (h : Inscribed words l) {words' : Array UInt16} {op : Op} (arg : Nat)
    (hkept : ∀ (k : Nat) (w : UInt16), words[k]? = some w → words'[k]? = some w) (hnew : words'[words.size]? = some op.word)
    (hsize : words'.size = words.size + op.length) : Inscribed words' (l ++ [⟨words.size, op, arg⟩]) where
  row := h.row.append ⟨rfl, hsize.symm⟩
  word i hi := by
    rcases List.mem_append.mp hi with hi | hi
    · exact hkept _ _ (h.word i hi)
    · obtain rfl := List.mem_singleton.mp hi
      exact hnew

end

def Loop.jumps (lp : Loop) : List Nat := lp.breaks ++ lp.continues

namespace Gen

open Generate (unitBody function finish Params)

def State.added (s : State) (op : Op) : State := { s with draft := Draft.addOp s.draft s.line op }

def State.pushed (s : State) (w : UInt16) : State :=
  { s with draft := { s.draft with words := s.draft.words.push w } }

def State.entered (s : State) : State := { s with draft := {}, outer := s.draft :: s.outer }

def State.stored (s : State) (c : Code Const) : State :=
  { s with draft := Draft.addConst s.draft (.code c) }

/-- Whatever the line table of the current unit is. -/
def Blind {α : Type} (f : State → α) : Prop :=
  ∀ (s : State) (lines : Array (Nat × Nat)), f { s with draft := { s.draft with lines } } = f s

/-- How writing goes from one state to another. -/
inductive Course : {α : Type} → Gen α → State → α → State → List (Item × Nat) → Prop
  | pure {α : Type} (a : α) (s : State) : Course (pure a) s a s []
  | bind {α β : Type} {x : Gen β} {f : β → Gen α} {s s₁ t : State} {b : β} {a : α}
    {log log' : List (Item × Nat)} (hx : Course x s b s₁ log) (hf : Course (f b) s₁ a t log') :
    Course (x >>= f) s a t (log ++ log')
  | read {α : Type} {f : State → α} (hf : Blind f) (s : State) :
    Course (do return f (← get)) s (f s) s []
  | atLine (line : Nat) (s : State) : Course (atLine line) s () { s with line } []
  | loops (f : List Loop → List Loop) (s : State) :
    Course (modifyDraft fun d => { d with loops := f d.loops }) s ()
      { s with draft := { s.draft with loops := f s.draft.loops } } []
  | aim (operand target : Nat) {s : State} (hoperand : IsOperand s.draft.words operand) :
    Course (patchTo operand target) s ()
      { s with draft := { s.draft with
          words := s.draft.words.setIfInBounds operand target.toUInt16 } } []
  | const {c : Const} {s t : State} {i : Nat} (hc : c.key?.isSome)
    (h : (constIndex c).run s = .ok i t) : Course (constIndex c) s i t []
  | emit {op : Op} {s : State} (ho : op.hasOperand = false) (hroom : s.draft.words.size ≤ maxWords) :
    Course (emit op) s () (s.added op) [(⟨s.draft.words.size, op, 0⟩, s.line)]
  | emitArg {op : Op} {arg : Nat} {s : State} (ho : op.hasOperand = true)
    (hroom : s.draft.words.size ≤ maxWords) :
    Course (emitArg op arg) s () ((s.added op).pushed arg.toUInt16)
      [(⟨s.draft.words.size, op, arg⟩, s.line)]
  | literal {n : Nat} {list : Option Tree} {body : Tree} {s u : State} {ps : Params}
    {inner : List (Item × Nat)}
    (hbody : Course (unitBody (Generate.expr n) (Generate.stmt n) list body) s.entered ps u inner)
    (hfew : s.draft.consts.size < maxConsts) (hroom : s.draft.words.size ≤ maxWords) :
    Course (function (Generate.expr n) (Generate.stmt n) list body) s ()
      (((s.stored (finish s.file u.draft ps)).added .func).pushed s.draft.consts.size.toUInt16)
      [(⟨s.draft.words.size, .func, s.draft.consts.size⟩, s.line)]

/-! ## what a course is -/

section

variable {α β : Type} {x : Gen α} {s t u : State} {a : α} {log : List (Item × Nat)} {c : Const} {i : Nat}
  {op : Op} {arg : Nat}

theorem run_emit (op : Op) (s : State) : (emit op).run s =
    if maxWords < s.draft.words.size then .error { line := s.line, fault := .functionTooLarge } s
    else .ok () (s.added op) := by
  unfold emit
  show EStateM.run (ite _ _ _) s = _
  split <;> rfl

theorem run_emitArg (op : Op) (arg : Nat) (s : State) : (emitArg op arg).run s =
    if maxWords < s.draft.words.size then .error { line := s.line, fault := .functionTooLarge } s
    else .ok () ((s.added op).pushed arg.toUInt16) := by
  show EStateM.bind (emit op) _ s = _
  rw [EStateM.bind, show emit op s = _ from run_emit op s]
  by_cases h : maxWords < s.draft.words.size
  · rw [if_pos h, if_pos h]
  · rw [if_neg h, if_neg h]
    rfl

theorem run_get_bind {f : State → Gen α} : ((get : Gen State) >>= f).run s = (f s).run s := rfl

/-- A constant is stored already, or there is no room for it, or it is stored as the last one. -/
theorem run_constIndex (c : Const) (s : State) :
    (∃ i, Draft.place? s.draft c = some i ∧ (constIndex c).run s = .ok i s) ∨
      Draft.place? s.draft c = none ∧ (constIndex c).run s =
        if maxConsts ≤ s.draft.consts.size then .error { line := s.line, fault := .tooManyConstants } s
        else .ok s.draft.consts.size { s with draft := Draft.addConst s.draft c } := by
  unfold constIndex
  cases h : Draft.place? s.draft c with
  | some i =>
    refine .inl ⟨i, rfl, ?_⟩
    rw [run_get_bind, h]
    rfl
  | none =>
    refine .inr ⟨rfl, ?_⟩
    rw [run_get_bind, h]
    show EStateM.run (ite _ _ _) s = _
    split <;> rfl

theorem constIndex_ok (h : (constIndex c).run s = .ok i t) :
    t = s ∨ t = { s with draft := Draft.addConst s.draft c } := by
  rcases run_constIndex c s with ⟨j, -, hr⟩ | ⟨-, hr⟩
  · rw [hr] at h
    cases h
    exact .inl rfl
  · rw [hr] at h
    split at h <;> cases h
    exact .inr rfl

theorem Course.around (h : Course x s a t log) : t.outer = s.outer ∧ t.file = s.file := by
  induction h with
  | bind _ _ ihx ihf => exact ⟨ihf.1.trans ihx.1, ihf.2.trans ihx.2⟩
  | const _ h => rcases constIndex_ok h with rfl | rfl <;> exact ⟨rfl, rfl⟩
  | _ => exact ⟨rfl, rfl⟩

/-- A function literal whose body is written becomes a constant, if there is room. -/
theorem run_function {expr stmt : Tree → Gen Unit} {list : Option Tree} {body : Tree} {ps : Params}
    (hbody : (unitBody expr stmt list body).run s.entered = .ok ps u)
    (houter : u.outer = s.draft :: s.outer) (hfile : u.file = s.file) :
    (function expr stmt list body).run s =
      if maxConsts ≤ s.draft.consts.size then
        .error { line := s.line, fault := .tooManyConstants } { u with line := s.line }
      else (emitArg .func s.draft.consts.size).run (s.stored (finish s.file u.draft ps)) := by
  have hback : ({ u with line := s.line, draft := s.draft, outer := s.outer } : State) = s := by
    rw [hfile]
  unfold function
  show EStateM.bind (unitBody expr stmt list body) _ s.entered = _
  rw [EStateM.bind, show unitBody expr stmt list body s.entered = _ from hbody]
  show EStateM.run (needRoomOutside >>= fun _ => _) { u with line := s.line } = _
  unfold needRoomOutside
  show EStateM.run (ite (maxConsts ≤ (u.outer.headD {}).consts.size) _ _ >>= fun _ => _) _ = _
  rw [houter]
  show EStateM.run (ite (maxConsts ≤ s.draft.consts.size) _ _ >>= fun _ => _) _ = _
  split
  · rfl
  · rename_i hfew
    rw [pure_bind]
    show EStateM.bind (constIndex (.code (finish u.file u.draft ps))) (emitArg .func)
      { u with line := s.line, draft := s.draft, outer := s.outer } = _
    rw [hback, hfile, EStateM.bind]
    rcases run_constIndex (.code (finish s.file u.draft ps)) s with ⟨_, h, -⟩ | ⟨-, hr⟩
    · cases h
    · rw [if_neg hfew] at hr
      rw [show constIndex (.code (finish s.file u.draft ps)) s = _ from hr]
      rfl

/-- **A course is a run.** -/
theorem Course.run (h : Course x s a t log) : x.run s = .ok a t := by
  induction h with
  | @bind _ _ x f s s₁ t b a _ _ _ _ ihx ihf =>
    show EStateM.bind x f s = _
    rw [EStateM.bind, show x s = _ from ihx]
    exact ihf
  | const _ h => exact h
  | emit _ hroom => rw [run_emit, if_neg (Nat.not_lt.mpr hroom)]
  | emitArg _ hroom => rw [run_emitArg, if_neg (Nat.not_lt.mpr hroom)]
  | literal hbody hfew hroom ih =>
    rw [run_function ih hbody.around.1 hbody.around.2, if_neg (Nat.not_le.mpr hfew), run_emitArg]
    exact if_neg (Nat.not_lt.mpr hroom)
  | _ => rfl

theorem size_added (s : State) (op : Op) :
    (s.added op).draft.words.size = s.draft.words.size + 1 := Array.size_push ..

theorem size_pushed (s : State) (w : UInt16) :
    (s.pushed w).draft.words.size = s.draft.words.size + 1 := Array.size_push ..

theorem getElem?_added {s : State} {op : Op} {k : Nat} {w : UInt16} (h : s.draft.words[k]? = some w) :
    (s.added op).draft.words[k]? = some w :=
  getElem?_push_of_some _ h

theorem getElem?_pushed {s : State} {k : Nat} {w x : UInt16} (h : s.draft.words[k]? = some w) :
    (s.pushed x).draft.words[k]? = some w :=
  getElem?_push_of_some _ h

/-- **The instructions of the log are the words that were added.** -/
theorem Course.inscribed (h : Course x s a t log) {l : List Item} (hs : Inscribed s.draft.words l) :
    Inscribed t.draft.words (l ++ log.map Prod.fst) := by
  induction h generalizing l with
  | bind _ _ ihx ihf =>
    rw [List.map_append, ← List.append_assoc]
    exact ihf (ihx hs)
  | aim operand target hoperand =>
    rw [List.map_nil, List.append_nil]
    exact hs.aimed hoperand _
  | const _ h =>
    rw [List.map_nil, List.append_nil]
    rcases constIndex_ok h with rfl | rfl <;> exact hs
  | @emit op s ho _ =>
    refine hs.add 0 (fun _ _ => getElem?_added) Array.getElem?_push_size ?_
    rw [size_added]
    exact congrArg (s.draft.words.size + ·) (if_neg (by rw [ho]; exact Bool.false_ne_true)).symm
  | @emitArg op arg s ho _ =>
    refine hs.add arg (fun _ _ h => getElem?_pushed (getElem?_added h))
      (getElem?_pushed (s := s.added op) Array.getElem?_push_size) ?_
    rw [size_pushed, size_added, show op.length = 2 from if_pos ho]
  | @literal _ _ _ s u ps _ _ _ _ =>
    refine hs.add _ (fun _ _ h => getElem?_pushed (getElem?_added h))
      (getElem?_pushed (s := (s.stored (finish s.file u.draft ps)).added .func) Array.getElem?_push_size) ?_
    rw [size_pushed, size_added]
    rfl
  | _ =>
    rw [List.map_nil, List.append_nil]
    exact hs

theorem Course.isOperand (h : Course x s a t log) {j : Nat} (hj : IsOperand s.draft.words j) : IsOperand t.draft.words j := by
  obtain ⟨l, hl, i, hi, hj⟩ := hj
  exact ⟨_, h.inscribed hl, i, List.mem_append_left _ hi, hj⟩

end

end Gen

/-! ## the units that are made -/

open Gen
open Generate (unitBody finish)

/-- A unit that is written from nothing on, and the log of its course. -/
inductive Code.Logged : Code Const → List (Item × Nat) → Prop
  | mk {n : Nat} {list : Option Tree} {body : Tree} {s t : State} {ps : Generate.Params}
    {log : List (Item × Nat)} (empty : s.draft = {})
    (course : Course (unitBody (Generate.expr n) (Generate.stmt n) list body) s ps t log) :
    Logged (finish s.file t.draft ps) log

namespace Gen

variable {α β : Type} {x : Gen α} {s t : State} {a : α} {log : List (Item × Nat)}

/-- The units that a course stores as constants are logged. -/
theorem Course.units (h : Course x s a t log) {c : Code Const} (hc : .code c ∈ t.draft.consts) :
    .code c ∈ s.draft.consts ∨ ∃ log, c.Logged log := by
  induction h with
  | bind _ _ ihx ihf =>
    rcases ihf hc with hc | h
    · exact ihx hc
    · exact .inr h
  | const hkey h =>
    rcases constIndex_ok h with rfl | rfl
    · exact .inl hc
    · rcases Array.mem_push.mp hc with hc | rfl
      · exact .inl hc
      · cases hkey
  | literal hbody _ _ =>
    rcases Array.mem_push.mp hc with hc | hc
    · exact .inl hc
    · have hlogged := Code.Logged.mk rfl hbody
      cases hc
      exact .inr ⟨_, hlogged⟩
  | _ => exact .inl hc

/-- The units among the constants are logged, here and around. -/
def State.Known (s : State) : Prop :=
  ∀ d ∈ s.draft :: s.outer, ∀ c, .code c ∈ d.consts → ∃ log, c.Logged log

theorem Course.known (h : Course x s a t log) (hs : s.Known) : t.Known := by
  refine List.forall_mem_cons.mpr ⟨fun c hc => ?_, fun d hd => ?_⟩
  · rcases h.units hc with hc | hc
    · exact hs s.draft List.mem_cons_self c hc
    · exact hc
  · rw [h.around.1] at hd
    exact hs d (List.mem_cons_of_mem _ hd)

/-- The words spell instructions, and what is going to be aimed are operands of theirs: these ones and
those of the jumps out of the loops. -/
structure State.Fit (s : State) (js : List Nat) : Prop where
  inscribed : ∃ l, Inscribed s.draft.words l
  slots : ∀ j ∈ js ++ s.draft.loops.flatMap Loop.jumps, IsOperand s.draft.words j

theorem State.Fit.mono {js js' : List Nat} (h : s.Fit js') (hjs : ∀ j ∈ js, j ∈ js') : s.Fit js where
  inscribed := h.inscribed
  slots j hj := h.slots j (List.mem_append.mpr ((List.mem_append.mp hj).imp_left (hjs j)))

theorem Course.fit (h : Course x s a t log) {js : List Nat} (hs : s.Fit js)
    (hloops : t.draft.loops = s.draft.loops) : t.Fit js where
  inscribed := by
    obtain ⟨l, hl⟩ := hs.inscribed
    exact ⟨_, h.inscribed hl⟩
  slots j hj := by
    rw [hloops] at hj
    exact h.isOperand (hs.slots j hj)

/-- A run that succeeds has a course, and the offsets in what it gives are of operands; one that fails has
stored no units but logged ones. -/
inductive Tells (p : α → List Nat) (x : Gen α) (s : State) : EStateM.Result CompileError State α → Prop
  | done {a : α} {t : State} {log : List (Item × Nat)} (h : Course x s a t log) (hfit : t.Fit (p a)) :
    Tells p x s (.ok a t)
  | failed {e : CompileError} {t : State} (h : s.Known → t.Known) : Tells p x s (.error e t)

/-- Every run tells its course, as long as these offsets are of operands, and gives others. -/
def Gives (js : List Nat) (p : α → List Nat) (x : Gen α) : Prop :=
  ∀ s, s.Fit js → Tells (fun a => p a ++ js) x s (x.run s)

/-- Every run tells its course, and aims only jumps of its own. -/
def Told (x : Gen α) : Prop := ∀ js, Gives js (fun _ => []) x

section

variable {js : List Nat} {p : α → List Nat} {q : β → List Nat}

theorem gives_fail (fault : Fault) : Gives js p (fail fault : Gen α) := fun _ _ => .failed id

theorem gives_fail_bind (fault : Fault) {f : β → Gen α} : Gives js p (fail fault >>= f) :=
  fun _ _ => .failed id

theorem Gives.bind {f : α → Gen β} (hx : Gives js p x) (hf : ∀ a, Gives (p a ++ js) q (f a)) :
    Gives js q (x >>= f) := by
  intro s hs
  have hx := hx s hs
  show Tells _ _ s (EStateM.bind x f s)
  rw [EStateM.bind]
  cases hr : x s with
  | ok a s₁ =>
    rw [show x.run s = x s from rfl, hr] at hx
    cases hx with
    | done hc hfit =>
      have hf := hf a s₁ hfit
      show Tells _ _ s ((f a).run s₁)
      cases hr' : (f a).run s₁ with
      | ok b t =>
        rw [hr'] at hf
        cases hf with
        | done hc' hfit' =>
          refine .done (hc.bind hc') (hfit'.mono fun j hj => ?_)
          exact List.mem_append.mpr ((List.mem_append.mp hj).imp_right (List.mem_append_right _))
      | error e t =>
        rw [hr'] at hf
        cases hf with
        | failed h => exact .failed fun hs => h (hc.known hs)
  | error e t =>
    rw [show x.run s = x s from rfl, hr] at hx
    cases hx with
    | failed h => exact .failed h

theorem gives_get {f : State → Gen α} (hblind : Blind f) (hf : ∀ s, s.Fit js → Gives js p (f s)) :
    Gives js p (get >>= f) := by
  intro s hs
  have h := hf s hs s hs
  show Tells _ ((do return f (← get)) >>= fun y => y) s ((f s).run s)
  cases hr : (f s).run s with
  | ok a t =>
    rw [hr] at h
    cases h with
    | done hc hfit => exact .done ((Course.read hblind s).bind hc) hfit
  | error e t =>
    rw [hr] at h
    cases h with
    | failed h => exact .failed h

theorem gives_ite {c : Prop} [Decidable c] {y : Gen α} (hx : Gives js p x) (hy : Gives js p y) :
    Gives js p (if c then x else y) := by
  split
  · exact hx
  · exact hy

theorem gives_forM {γ : Type} {f : γ → Gen Unit} {l : List γ} (hf : ∀ c ∈ l, Gives js (fun _ => []) (f c)) :
    Gives js (fun _ => []) (l.forM f) := by
  induction l with
  | nil => exact fun s hs => .done (.pure () s) hs
  | cons c l ih =>
    exact (hf c List.mem_cons_self).bind fun _ => ih fun c hc => hf c (List.mem_cons_of_mem _ hc)

theorem gives_pure (a : α) (h : ∀ j ∈ p a, j ∈ js) : Gives js p (pure a : Gen α) := by
  refine fun s hs => .done (.pure a s) (hs.mono fun j hj => ?_)
  exact (List.mem_append.mp hj).elim (h j) id

theorem Gives.map {f : α → β} (hx : Gives js p x) (hf : ∀ a, ∀ j ∈ q (f a), j ∈ p a) : Gives js q (f <$> x) :=
  hx.bind fun a => gives_pure (f a) fun j hj => List.mem_append_left _ (hf a j hj)

/-- The jumps of a loop that is noted are operands. -/
theorem gives_loops {f : List Loop → List Loop}
    (hf : ∀ loops, ∀ lp ∈ f loops, ∀ j ∈ lp.jumps, j ∈ js ∨ ∃ lp' ∈ loops, j ∈ lp'.jumps) :
    Gives js (fun _ => []) (modifyDraft fun d => { d with loops := f d.loops }) := by
  refine fun s hs => .done (.loops f s) ⟨hs.inscribed, fun j hj => hs.slots j ?_⟩
  rcases List.mem_append.mp hj with hj | hj
  · exact List.mem_append_left _ hj
  · obtain ⟨lp, hlp, hj⟩ := List.mem_flatMap.mp hj
    rcases hf _ lp hlp j hj with hj | ⟨lp', hlp', hj⟩
    · exact List.mem_append_left _ hj
    · exact List.mem_append_right _ (List.mem_flatMap.mpr ⟨lp', hlp', hj⟩)

end

theorem told_pure (a : α) : Told (pure a : Gen α) := fun _ s hs => .done (.pure a s) hs

theorem told_fail (fault : Fault) : Told (fail fault : Gen α) := fun _ => gives_fail fault

theorem told_fail_bind (fault : Fault) {f : β → Gen α} : Told (fail fault >>= f) :=
  fun _ => gives_fail_bind fault

theorem Told.bind {f : α → Gen β} (hx : Told x) (hf : ∀ a, Told (f a)) : Told (x >>= f) :=
  fun js => (hx js).bind fun a => hf a js

theorem told_ite {p : Prop} [Decidable p] {y : Gen α} (hx : Told x) (hy : Told y) :
    Told (if p then x else y) := fun js => gives_ite (hx js) (hy js)

theorem told_atLine (line : Nat) : Told (atLine line) :=
  fun _ s hs => .done (.atLine line s) ((Course.atLine line s).fit hs rfl)

theorem told_here : Told here := fun _ s hs => .done (.read (fun _ _ => rfl) s) hs

theorem told_const {c : Const} (hc : c.key?.isSome) : Told (constIndex c) := by
  intro js s hs
  rcases run_constIndex c s with ⟨i, -, hr⟩ | ⟨-, hr⟩
  · rw [hr]
    exact .done (.const hc hr) hs
  · by_cases hfew : maxConsts ≤ s.draft.consts.size
    · rw [hr, if_pos hfew]
      exact .failed id
    · rw [if_neg hfew] at hr
      rw [hr]
      exact .done (.const hc hr) ((Course.const hc hr).fit hs rfl)

theorem told_emit {op : Op} (ho : op.hasOperand = false) : Told (emit op) := by
  intro js s hs
  rw [run_emit]
  split
  · exact .failed id
  · rename_i hroom
    have hc := Course.emit ho (Nat.le_of_not_lt hroom)
    exact .done hc (hc.fit hs rfl)

theorem told_emitArg {op : Op} (ho : op.hasOperand = true) (arg : Nat) : Told (emitArg op arg) := by
  intro js s hs
  rw [run_emitArg]
  split
  · exact .failed id
  · rename_i hroom
    have hc := @Course.emitArg op arg s ho (Nat.le_of_not_lt hroom)
    exact .done hc (hc.fit hs rfl)

theorem told_forM {γ : Type} {f : γ → Gen Unit} {l : List γ} (hf : ∀ c ∈ l, Told (f c)) :
    Told (l.forM f) := fun js => gives_forM fun c hc => hf c hc js

/-! ### jumps -/

variable {js : List Nat}

/-- **A jump that is written gives the offset of its operand.** -/
theorem gives_emitJump {op : Op} (ho : op.hasOperand = true) : Gives js (fun j => [j]) (emitJump op) := by
  intro s hs
  have harg : emitArg op unset.toNat s = _ := run_emitArg op unset.toNat s
  show Tells _ _ s (EStateM.bind (emitArg op unset.toNat) (fun _ => here >>= fun n => pure (n - 1)) s)
  rw [EStateM.bind, harg]
  by_cases hroom : maxWords < s.draft.words.size
  · rw [if_pos hroom]
    exact .failed id
  · rw [if_neg hroom]
    have hc := @Course.emitArg op unset.toNat s ho (Nat.le_of_not_lt hroom)
    have hfit := hc.fit hs rfl
    refine .done (hc.bind ((Course.read (fun _ _ => rfl) _).bind (.pure _ _))) ⟨hfit.inscribed, fun j hj => ?_⟩
    rcases List.mem_cons.mp hj with rfl | hj
    · obtain ⟨l, hl⟩ := hs.inscribed
      refine ⟨_, hc.inscribed hl, _, List.mem_append_right _ List.mem_cons_self, ho, ?_⟩
      rw [size_pushed, size_added]
      rfl
    · exact hfit.slots j hj

theorem gives_patch {j : Nat} (hj : j ∈ js) : Gives js (fun _ => []) (patch j) := by
  refine (told_here js).bind fun target s hs => ?_
  have hc := Course.aim j target (hs.slots j (List.mem_append_left _ hj))
  exact .done hc (hc.fit hs rfl)

end Gen

/-! ## every construct has a course -/

namespace Generate

open Gen

theorem told_symbol (t : Tree) : Told (symbol t) := by
  unfold symbol
  split
  · exact told_const rfl
  · exact told_fail _

theorem told_pushNumber (x : Float) : Told (pushNumber x) := by
  unfold pushNumber
  split
  · exact told_emit rfl
  · split
    · exact told_emit rfl
    · exact (told_const rfl).bind fun i => told_emitArg rfl i

theorem told_key (t : Tree) : Told (key t) := by
  have hpush (i : Nat) : Told (emitArg .pushConst i) := told_emitArg rfl i
  unfold key
  split
  · exact (told_const rfl).bind hpush
  · split
    · rename_i c hc
      exact (told_const (key?_of_literal? hc)).bind hpush
    · exact told_fail_bind _

theorem told_label? (t : Tree) : Told (label? t) := by
  unfold label?
  split
  · exact told_pure _
  · split
    · exact told_pure _
    · exact told_fail _

theorem told_loopHeader (head : Tree) (parts : Nat) : Told (loopHeader head parts) := by
  unfold loopHeader
  dsimp only
  split
  · split
    · split
      · exact told_pure _
      · exact told_fail _
    · exact told_fail _
  · split
    · exact told_pure _
    · exact told_fail _

theorem mem_modify {α : Type} {l : List α} {k : Nat} {f : α → α} {a : α} (h : a ∈ l.modify k f) :
    a ∈ l ∨ ∃ b ∈ l, a = f b := by
  obtain ⟨i, hi⟩ := List.mem_iff_getElem?.mp h
  rw [List.getElem?_modify] at hi
  obtain ⟨b, hb, rfl⟩ := Option.map_eq_some_iff.mp hi
  have hb := List.mem_of_getElem? hb
  split
  · exact .inr ⟨b, hb, rfl⟩
  · exact .inl hb

theorem told_loopJump (isBreak : Bool) (t : Tree) : Told (loopJump isBreak t) := by
  refine fun js => (told_label? t js).bind fun label => gives_get (fun _ _ => rfl) fun s _ => ?_
  dsimp only
  split
  · split <;> exact gives_fail _
  · have hdrops (k : Nat) : Told ((List.replicate k Op.cutBackPop).forM emit) := told_forM fun op hop => by
      obtain rfl := List.eq_of_mem_replicate hop
      exact told_emit rfl
    refine (hdrops _ _).bind fun _ => (told_emit rfl _).bind fun _ => (gives_emitJump rfl).bind fun jump =>
      gives_loops fun loops lp hlp j hj => ?_
    -- the jump is noted with the loop it leaves
    rcases mem_modify hlp with hlp | ⟨lp', hlp', rfl⟩
    · exact .inr ⟨lp, hlp, hj⟩
    · split at hj <;> simp only [Loop.jumps, List.mem_append, List.mem_singleton] at hj ⊢ <;>
        grind

section

variable {js : List Nat} {lp : Loop} {exit : Option Nat}

theorem gives_continueHere (h : ∀ j ∈ lp.jumps, j ∈ js) : Gives js (fun _ => []) (continueHere lp) :=
  gives_forM fun j hj => gives_patch (h j (List.mem_append_right _ hj))

theorem gives_endLoop (h : ∀ j ∈ lp.jumps, j ∈ js) (hexit : ∀ j ∈ exit, j ∈ js) :
    Gives js (fun _ => []) (endLoop lp exit) := by
  have hbreaks : Gives js (fun _ => []) (lp.breaks.forM patch >>= fun _ => emit .unmark) :=
    (gives_forM fun j hj => gives_patch (h j (List.mem_append_left _ hj))).bind fun _ => told_emit rfl _
  unfold endLoop
  split
  · exact (gives_patch (hexit _ rfl)).bind fun _ => hbreaks
  · exact hbreaks

theorem gives_roundEnd (top : Nat) (h : ∀ j ∈ lp.jumps, j ∈ js)
    (hexit : ∀ j ∈ exit, j ∈ js) : Gives js (fun _ => []) (emitArg .jmpLoop top >>= fun _ => endLoop lp exit) :=
  (told_emitArg rfl top js).bind fun _ => gives_endLoop h hexit

end

section

variable {js : List Nat} {expr chain stmt : Tree → Gen Unit}
  (hexpr : ∀ t, Told (expr t)) (hchain : ∀ t, Told (chain t)) (hstmt : ∀ t, Told (stmt t))

include hexpr

theorem told_value (t : Tree) : Told (value expr t) := by
  unfold value
  split
  · exact told_fail _
  · exact hexpr t

theorem gives_condition (t : Tree) : Gives js (fun j => [j]) (condition expr t) := by
  unfold condition
  split
  · exact gives_fail_bind _
  · exact (hexpr t js).bind fun _ => gives_emitJump rfl

theorem told_entries (l : List Tree) : Told (entries expr l) := by
  fun_induction entries expr l with
  | case1 => exact told_pure ()
  | case2 _ k v more ih =>
    exact (told_key k).bind fun _ => (told_value hexpr v).bind fun _ =>
      (told_emit rfl).bind fun _ => ih
  | case3 => exact told_fail _

theorem told_elements (l : List Tree) : Told (elements expr l) := by
  induction l with
  | nil => exact told_pure ()
  | cons t ts ih => exact (hexpr t).bind fun _ => (told_emit rfl).bind fun _ => ih

theorem told_ternary (cond branches : Tree) : Told (ternary expr cond branches) := by
  unfold ternary
  split
  · exact fun js => (gives_condition hexpr cond).bind fun skip => (hexpr _ _).bind fun _ =>
      (gives_emitJump rfl).bind fun done => (gives_patch (by simp)).bind fun _ => (hexpr _ _).bind fun _ =>
      gives_patch (by simp)
  · exact told_fail _

theorem told_assign (lhs rhs : Tree) : Told (assign expr lhs rhs) := by
  have hval := told_value hexpr rhs
  unfold assign
  split
  · exact (told_symbol _).bind fun i => hval.bind fun _ => told_emitArg rfl i
  · exact (told_symbol _).bind fun i => hval.bind fun _ => told_emitArg rfl i
  · exact (told_symbol _).bind fun i => (hexpr _).bind fun _ => hval.bind fun _ => told_emitArg rfl i
  · split
    · exact told_fail _
    · exact (hexpr _).bind fun _ => (told_value hexpr _).bind fun _ => hval.bind fun _ => told_emit rfl
  · exact told_fail _

theorem told_compound {op : Op} (hop : op.hasOperand = false) (lhs rhs : Tree) :
    Told (compound expr op lhs rhs) := by
  have hval := told_value hexpr rhs
  unfold compound
  split
  · exact (told_symbol _).bind fun i => (told_emitArg rfl i).bind fun _ => hval.bind fun _ =>
      (told_emit hop).bind fun _ => told_emitArg rfl i
  · exact (told_symbol _).bind fun i => (hexpr _).bind fun _ => (told_emit rfl).bind fun _ =>
      (told_emitArg rfl i).bind fun _ => hval.bind fun _ => (told_emit hop).bind fun _ =>
      told_emitArg rfl i
  · split
    · exact told_fail _
    · exact (hexpr _).bind fun _ => (told_value hexpr _).bind fun _ => (told_emit rfl).bind fun _ =>
        (told_emit rfl).bind fun _ => hval.bind fun _ => (told_emit hop).bind fun _ => told_emit rfl
  · exact told_fail _

/-- The arguments and the call, whatever the function is. -/
theorem told_callArgs (method : Bool) (line : Nat) (args : List Tree) (named : Prop) [Decidable named] :
    Told (if named then do
        emit .newHash
        entries expr args
        atLine line
        emit (if method then .mcallh else .fcallh)
      else do
        if 65535 < args.length then fail .tooManyArguments
        args.forM expr
        atLine line
        emitArg (if method then .mcall else .fcall) args.length) := by
  have hcall : Told (do
      args.forM expr
      atLine line
      emitArg (if method then .mcall else .fcall) args.length) :=
    (told_forM fun t _ => hexpr t).bind fun _ => (told_atLine line).bind fun _ =>
      told_emitArg (by cases method <;> rfl) _
  refine told_ite ?_ (told_ite (told_fail_bind _) hcall)
  exact (told_emit rfl).bind fun _ => (told_entries hexpr args).bind fun _ =>
    (told_atLine line).bind fun _ => told_emit (by cases method <;> rfl)

theorem told_call (line : Nat) (callee arguments : Tree) : Told (call expr line callee arguments) := by
  have hargs (method : Bool) := told_callArgs hexpr method line arguments.items
    (0 < arguments.items.countP fun a => a.kind == .colon)
  unfold call
  dsimp only
  refine told_ite (told_fail_bind _) ?_
  split
  · exact (told_symbol _).bind fun i => (hexpr _).bind fun _ => (told_emit rfl).bind fun _ =>
      (told_emitArg rfl i).bind fun _ => hargs true
  · exact (hexpr callee).bind fun _ => hargs false

theorem told_indexed (line : Nat) (owner k : Tree) : Told (indexed expr line owner k) := by
  refine (hexpr owner).bind fun _ => ?_
  split
  · exact (hexpr _).bind fun _ => (hexpr _).bind fun _ => (told_atLine line).bind fun _ => told_emit rfl
  · exact (told_value hexpr k).bind fun _ => (told_atLine line).bind fun _ => told_emit rfl

theorem told_binary (line : Nat) {op : Op} (hop : op.hasOperand = false) (a b : Tree) :
    Told (binary expr line op a b) :=
  (hexpr a).bind fun _ => (hexpr b).bind fun _ => (told_atLine line).bind fun _ => told_emit hop

theorem told_shortCircuit {jump : Op} (hjump : jump.hasOperand = true) (a b : Tree) :
    Told (shortCircuit expr jump a b) := fun js =>
  (hexpr a js).bind fun _ => (gives_emitJump hjump).bind fun done => (told_emit rfl _).bind fun _ =>
    (hexpr b _).bind fun _ => gives_patch (by simp)

include hstmt

theorem told_sequence (keep : Bool) (l : List Tree) : Told (sequence expr stmt keep l) := by
  induction l with
  | nil => exact told_pure ()
  | cons t ts ih =>
    unfold sequence
    dsimp only
    split
    · refine (hstmt t).bind fun _ => ?_
      split
      · exact (told_emit rfl).bind fun _ => ih
      · exact ih
    · refine (hexpr t).bind fun _ => ?_
      split
      · exact (told_emit rfl).bind fun _ => ih
      · exact ih

theorem told_statements (t : Tree) (keep : Bool) : Told (statements expr stmt t keep) := by
  unfold statements
  split
  · split
    · exact told_emit rfl
    · exact told_pure ()
  · exact told_sequence hexpr hstmt keep _

theorem told_block (t : Tree) : Told (block expr stmt t) := by
  unfold block
  split <;> exact told_statements hexpr hstmt _ false

/-- The body of a loop gives the jumps out of it. -/
theorem gives_loopBody (label : Option Bytes) (body : Tree) :
    Gives js Loop.jumps (loopBody expr stmt label body) := by
  have hpush : Gives js (fun _ => []) (modifyDraft fun d => { d with loops := { label } :: d.loops }) :=
    gives_loops fun loops lp hlp j hj => by
      rcases List.mem_cons.mp hlp with rfl | hlp
      · cases hj
      · exact .inr ⟨lp, hlp, hj⟩
  refine hpush.bind fun _ => (told_block hexpr hstmt body _).bind fun _ => ?_
  -- the loop is asked for, and then taken from the list
  show Gives _ _ ((do return (← get).draft.loops.headD { label }) >>= fun lp =>
    (modifyDraft fun d => { d with loops := d.loops.tail }) >>= fun _ => pure lp)
  refine Gives.bind (p := Loop.jumps) (fun s hs => ?_) fun lp => ?_
  · refine .done (.read (fun _ _ => rfl) s) ⟨hs.inscribed, fun j hj => hs.slots j ?_⟩
    rw [List.append_assoc] at hj
    rcases List.mem_append.mp hj with hj | hj
    · refine List.mem_append_right _ ?_
      cases hl : s.draft.loops with
      | nil =>
        rw [hl] at hj
        cases hj
      | cons lp loops =>
        rw [hl] at hj
        exact List.mem_append_left _ hj
    · exact hj
  · refine Gives.bind (p := fun _ => []) (gives_loops fun loops lp hlp j hj => ?_) fun _ => gives_pure lp ?_
    · exact .inr ⟨lp, List.mem_of_mem_tail hlp, hj⟩
    · exact fun j hj => List.mem_append_right _ (List.mem_append_left _ hj)

theorem told_whileLoop (head body : Tree) : Told (whileLoop expr stmt head body) := by
  refine fun js => (told_loopHeader head 1 js).bind fun header => (told_emit rfl _).bind fun _ =>
    (told_here _).bind fun top => ?_
  obtain ⟨label, parts⟩ := header
  dsimp only
  split
  · exact (gives_condition hexpr _).bind fun exit => (gives_loopBody hexpr hstmt label body).bind fun lp =>
      (gives_continueHere (by simp +contextual)).bind fun _ =>
        gives_roundEnd top (by simp +contextual) (by simp)
  · exact gives_fail _

theorem told_forLoop (head body : Tree) : Told (forLoop expr stmt head body) := by
  refine fun js => (told_loopHeader head 3 js).bind fun header => ?_
  obtain ⟨label, parts⟩ := header
  dsimp -zeta only
  split
  · rename_i start cond update
    have hround (js : List Nat) (top : Nat) (exit : Option Nat) (hexit : ∀ j ∈ exit, j ∈ js) :
        Gives js (fun _ => []) (do
          let lp ← loopBody expr stmt label body
          continueHere lp
          if !update.isEmpty then
            expr update
            emit .pop
          emitArg .jmpLoop top
          endLoop lp exit) := by
      refine (gives_loopBody hexpr hstmt label body).bind fun lp =>
        (gives_continueHere (by simp +contextual)).bind fun _ => ?_
      have hexits : ∀ j ∈ exit, j ∈ lp.jumps ++ js := fun j hj => List.mem_append_right _ (hexit j hj)
      have hback := gives_roundEnd top (fun j hj => List.mem_append_left js hj) hexits
      exact gives_ite ((hexpr update _).bind fun _ => (told_emit rfl _).bind fun _ => hback) hback
    have hloop (js : List Nat) : Gives js (fun _ => []) (do
        emit .mark
        let top ← here
        let exit ← if cond.isEmpty then pure none else some <$> condition expr cond
        let lp ← loopBody expr stmt label body
        continueHere lp
        if !update.isEmpty then
          expr update
          emit .pop
        emitArg .jmpLoop top
        endLoop lp exit) := by
      refine (told_emit rfl js).bind fun _ => (told_here _).bind fun top =>
        gives_ite ((gives_pure (p := Option.toList) none (by simp)).bind fun exit => ?_)
          (((gives_condition hexpr cond).map (q := Option.toList) (by simp)).bind fun exit => ?_)
      · exact hround _ top exit (by simp +contextual)
      · exact hround _ top exit (by simp +contextual)
    exact gives_ite ((hexpr start _).bind fun _ => (told_emit rfl _).bind fun _ => hloop _) (hloop _)
  · exact gives_fail _

theorem told_foreachLoop {step : Op} (hstep : step.hasOperand = false) (head body : Tree) :
    Told (foreachLoop expr stmt step head body) := by
  refine fun js => (told_loopHeader head 2 js).bind fun header => ?_
  obtain ⟨label, parts⟩ := header
  dsimp -zeta only
  split
  · rename_i var vec
    have hover {set : Op} (hset : set.hasOperand = true) (target : Nat) : Told (do
        expr vec
        emit .pushZero
        emit .mark
        let top ← here
        emit step
        let exit ← emitJump .jifEnd
        emitArg set target
        emit .pop
        let lp ← loopBody expr stmt label body
        continueHere lp
        emitArg .jmpLoop top
        endLoop lp (some exit)
        emit .pop
        emit .pop) := fun js =>
      (hexpr vec js).bind fun _ => (told_emit rfl _).bind fun _ => (told_emit rfl _).bind fun _ =>
        (told_here _).bind fun top => (told_emit hstep _).bind fun _ => (gives_emitJump rfl).bind fun exit =>
        (told_emitArg hset target _).bind fun _ => (told_emit rfl _).bind fun _ =>
        (gives_loopBody hexpr hstmt label body).bind fun lp =>
        (gives_continueHere (by simp +contextual)).bind fun _ => (told_emitArg rfl top _).bind fun _ =>
        (gives_endLoop (by simp +contextual) (by simp)).bind fun _ =>
        (told_emit rfl _).bind fun _ => told_emit rfl _
    split
    · exact (told_symbol _ _).bind fun target => hover rfl target _
    · exact (told_symbol _ _).bind fun target => hover rfl target _
    · exact gives_fail_bind _
  · exact gives_fail _

include hchain

theorem told_ifParts (parts : List Tree) : Told (ifParts expr chain stmt parts) := by
  unfold ifParts
  split
  · exact fun js => (gives_condition hexpr _).bind fun skip => (told_block hexpr hstmt _ _).bind fun _ =>
      gives_patch (by simp)
  · refine fun js => (gives_condition hexpr _).bind fun skip => (told_block hexpr hstmt _ _).bind fun _ =>
      (gives_emitJump rfl).bind fun done => (gives_patch (by simp)).bind fun _ => ?_
    split
    · exact (hchain _ _).bind fun _ => gives_patch (by simp)
    · exact (told_block hexpr hstmt _ _).bind fun _ => gives_patch (by simp)
  · exact told_fail _

theorem told_statementWith (t : Tree) : Told (statementWith expr chain stmt t) := by
  refine (told_atLine t.line).bind fun _ => ?_
  split
  · exact told_ifParts hexpr hchain hstmt _
  · exact told_whileLoop hexpr hstmt _ _
  · exact told_forLoop hexpr hstmt _ _
  · exact told_foreachLoop hexpr hstmt rfl _ _
  · exact told_foreachLoop hexpr hstmt rfl _ _
  · exact (hexpr _).bind fun _ => told_emit rfl
  · exact told_loopJump true _
  · exact told_loopJump false _
  · exact told_fail _

end

/-! ## units -/

theorem told_param (ps : Params) (t : Tree) : Told (param ps t) := by
  refine (told_atLine t.line).bind fun _ => told_ite (told_fail_bind _) ?_
  split
  · refine told_ite ?_ (told_fail _)
    exact (told_symbol _).bind fun i => told_pure _
  · refine (told_symbol _).bind fun i => ?_
    split
    · rename_i c hc
      exact (told_const (key?_of_literal? hc)).bind fun d => told_pure _
    · exact told_fail _
  · exact (told_symbol _).bind fun i => told_pure _
  · exact told_fail _

theorem told_paramList (ps : Params) (l : List Tree) : Told (l.foldlM param ps) := by
  induction l generalizing ps with
  | nil => exact told_pure ps
  | cons t l ih => exact (told_param ps t).bind ih

theorem told_params (list : Option Tree) : Told (params list) := by
  cases list with
  | none => exact (told_const rfl).bind fun i => told_pure _
  | some list =>
    refine (told_paramList {} list.items).bind fun ps => told_ite (told_pure ps) ?_
    exact (told_const rfl).bind fun i => told_pure _

section

variable {expr chain stmt : Tree → Gen Unit}
  (hexpr : ∀ t, Told (expr t)) (hchain : ∀ t, Told (chain t)) (hstmt : ∀ t, Told (stmt t))

include hexpr hstmt

theorem told_unitBody (list : Option Tree) (body : Tree) : Told (unitBody expr stmt list body) :=
  (told_params list).bind fun ps => (told_atLine body.line).bind fun _ =>
    (told_statements hexpr hstmt body true).bind fun _ => (told_emit rfl).bind fun _ => told_pure ps

include hchain

theorem told_exprWith (hfunction : ∀ list body, Told (function expr stmt list body)) (t : Tree) :
    Told (exprWith expr chain stmt t) := by
  have hstatement (t : Tree) (k : Tok) : Told (if isStatement t then do
      statementWith expr chain stmt t
      emit .pushNil
    else fail (.unexpected k)) :=
    told_ite ((told_statementWith hexpr hchain hstmt t).bind fun _ => told_emit rfl) (told_fail _)
  refine (told_atLine t.line).bind fun _ => ?_
  split
  · exact told_emit rfl
  · exact told_emit rfl
  · exact told_pushNumber _
  · exact (told_const rfl).bind fun i => told_emitArg rfl i
  · exact (told_symbol _).bind fun i => told_emitArg rfl i
  · exact (told_emit rfl).bind fun _ => told_elements hexpr _
  · exact (told_emit rfl).bind fun _ => told_entries hexpr _
  · exact hfunction none _
  · exact hfunction (some _) _
  · exact told_fail _
  · exact (hexpr _).bind fun _ => told_emit rfl
  · exact (hexpr _).bind fun _ => told_emit rfl
  · exact (hexpr _).bind fun _ => told_emit rfl
  · exact told_shortCircuit hexpr rfl _ _
  · exact told_shortCircuit hexpr rfl _ _
  · exact told_ternary hexpr _ _
  · exact told_assign hexpr _ _
  · exact (hexpr _).bind fun _ => (told_atLine _).bind fun _ => (told_symbol _).bind fun i =>
      told_emitArg rfl i
  · exact told_call hexpr _ _ _
  · exact told_indexed hexpr _ _ _
  · exact (told_symbol _).bind fun i => (told_emit rfl).bind fun _ => told_emitArg rfl i
  · exact told_statements hexpr hstmt _ true
  · split
    · rename_i op _ hop
      obtain ⟨base, -, hbase⟩ := Option.bind_eq_some_iff.mp hop
      exact told_compound hexpr (hasOperand_of_binaryOp? hbase) _ _
    · rename_i op _ hop
      exact told_binary hexpr _ (hasOperand_of_binaryOp? hop) _ _
    · exact hstatement _ _
  · exact hstatement _ _

end

/-- The body of a function literal is told of, and so is the literal. -/
theorem told_function {n : Nat} (hexpr : ∀ t, Told (expr n t)) (hstmt : ∀ t, Told (stmt n t))
    (list : Option Tree) (body : Tree) : Told (function (expr n) (stmt n) list body) := by
  intro js s hs
  have hempty : s.entered.Fit [] := ⟨⟨[], inscribed_nil⟩, fun j hj => absurd hj List.not_mem_nil⟩
  have hbody := told_unitBody hexpr hstmt list body [] s.entered hempty
  have hentered (hs : s.Known) : s.entered.Known :=
    List.forall_mem_cons.mpr ⟨fun c hc => absurd hc (Array.not_mem_empty _), hs⟩
  cases hr : (unitBody (expr n) (stmt n) list body).run s.entered with
  | error e u =>
    rw [hr] at hbody
    have hrun : (function (expr n) (stmt n) list body).run s = .error e u := by
      show EStateM.bind (unitBody (expr n) (stmt n) list body) _ s.entered = _
      rw [EStateM.bind, show unitBody (expr n) (stmt n) list body s.entered = _ from hr]
    rw [hrun]
    cases hbody with
    | failed h => exact .failed fun hs => h (hentered hs)
  | ok ps u =>
    rw [hr] at hbody
    cases hbody with
    | done hc _ =>
      rw [run_function hr hc.around.1 hc.around.2]
      by_cases hfew : maxConsts ≤ s.draft.consts.size
      · rw [if_pos hfew]
        exact .failed fun hs => hc.known (hentered hs)
      · rw [if_neg hfew, run_emitArg]
        split
        · refine .failed fun hs => List.forall_mem_cons.mpr ⟨fun c hmem => ?_, fun d hd => ?_⟩
          · rcases Array.mem_push.mp hmem with hmem | hmem
            · exact hs s.draft List.mem_cons_self c hmem
            · have hlogged := Code.Logged.mk rfl hc
              cases hmem
              exact ⟨_, hlogged⟩
          · exact hs d (List.mem_cons_of_mem _ hd)
        · rename_i hroom
          have hliteral := Course.literal hc (Nat.lt_of_not_le hfew) (Nat.le_of_not_lt hroom)
          exact .done hliteral (hliteral.fit hs rfl)

/-- **Every run of the generator is told of.** -/
theorem told_all (n : Nat) :
    (∀ t, Told (expr n t)) ∧ (∀ t, Told (stmt n t)) ∧ ∀ t, Told (chain n t) := by
  induction n with
  | zero => exact ⟨fun t => told_fail _, fun t => told_fail _, fun t => told_fail _⟩
  | succ n ih =>
    obtain ⟨hexpr, hstmt, hchain⟩ := ih
    exact ⟨told_exprWith hexpr hchain hstmt (told_function hexpr hstmt),
      told_statementWith hexpr hchain hstmt, fun t => told_ifParts hexpr hchain hstmt t.children⟩

end Generate

/-- The units that compiling a source text makes: the one of the text, those among the constants of
a unit, and those that were made before a fault. -/
inductive Compiled (src : Bytes) (file : String) (firstLine : Nat) : Code Const → Prop
  | text {c : Code Const} (h : compile src file firstLine = .ok c) : Compiled src file firstLine c
  | made {u : Unfinished} {consts : Array Const} {c : Code Const}
    (h : compile src file firstLine = .error u) (hu : consts ∈ u.made) (hc : .code c ∈ consts) :
    Compiled src file firstLine c
  | inside {c d : Code Const} (h : Compiled src file firstLine c) (hd : .code d ∈ c.consts) :
    Compiled src file firstLine d

/-- The unit of a tree has a log, and so have the units that were made before a fault. -/
theorem generate_logged (tree : Tree) (file : String) :
    (∀ c, generate tree file = .ok c → ∃ log, c.Logged log) ∧
      ∀ u, generate tree file = .error u → ∀ consts ∈ u.made, ∀ c, .code c ∈ consts →
        ∃ log, c.Logged log := by
  obtain ⟨hexpr, hstmt, -⟩ := Generate.told_all tree.height
  have hempty : State.Fit { file, line := tree.line } [] :=
    ⟨⟨[], inscribed_nil⟩, fun j hj => absurd hj List.not_mem_nil⟩
  have hbody := Generate.told_unitBody hexpr hstmt none tree [] _ hempty
  have hstart : State.Known { file, line := tree.line } :=
    List.forall_mem_cons.mpr ⟨fun c hc => absurd hc (Array.not_mem_empty _), fun d hd => absurd hd List.not_mem_nil⟩
  unfold generate
  dsimp only
  cases hr : (unitBody (Generate.expr tree.height) (Generate.stmt tree.height) none tree).run
      { file, line := tree.line } with
  | ok ps s =>
    rw [hr] at hbody
    cases hbody with
    | done hc _ =>
      refine ⟨?_, fun _ h => (by cases h)⟩
      rintro _ ⟨⟩
      exact ⟨_, .mk rfl hc⟩
  | error e s =>
    rw [hr] at hbody
    cases hbody with
    | failed h =>
      refine ⟨fun _ h => (by cases h), ?_⟩
      rintro _ ⟨⟩ consts hconsts c hc
      obtain ⟨d, hd, rfl⟩ := List.mem_map.mp hconsts
      exact h hstart d (List.mem_reverse.mp hd) c hc

/-- **Every unit that compiling a source text makes has a log.** -/
theorem Compiled.logged {src : Bytes} {file : String} {firstLine : Nat} {c : Code Const}
    (h : Compiled src file firstLine c) : ∃ log, c.Logged log := by
  induction h with
  | text h =>
    unfold compile at h
    split at h
    · exact (generate_logged _ file).1 _ h
    · cases h
  | made h hu hc =>
    unfold compile at h
    split at h
    · exact (generate_logged _ file).2 _ h _ hu _ hc
    · cases h
      cases hu
  | inside _ hd ih =>
    obtain ⟨_, hlogged⟩ := ih
    cases hlogged with
    | mk empty course =>
      rcases course.units hd with hc | h
      · rw [empty] at hc
        exact absurd hc (Array.not_mem_empty _)
      · exact h

end ScriptEngine
