import ScriptEngine.Proofs.Code.Balance

/-!
# The shapes of structured code

There is a shape for each instruction of balanced code, and each instruction leads to the shapes of its
successors.  A jump out of a loop cuts the operands back to a mark: to that of the loop it leaves, if
it is in the loop's body, but to that of an inner loop, which is no lower, if it is in the head or in
the update of that one.  So the shapes are bounds in general, and exact where no jump leaves such a
part.

* `Asm.listing`     the instructions of code with their shapes;
* `Asm.Tame`        no jump leaves the head or the update of a loop;
* `Turns.fits`      **each instruction fits the shapes around it**;
* `Turns.lands`     each jump of a unit leads to one of its instructions;
* `Code.Assembled.typing`   the shapes of a whole unit.
-/

namespace ScriptEngine

/-! ## shapes behind code -/

namespace Shape

/-- Behind a plain instruction. -/
def past (s : Shape) (op : Op) (arg : Nat) : Shape :=
  ⟨s.height - op.takes arg + op.gives, s.marks⟩

theorem past_up (s : Shape) (op : Op) (arg : Nat) :
    (s.up (op.takes arg)).past op arg = s.up op.gives := by
  rw [past, up_height, Nat.add_sub_cancel]
  rfl

theorem past_short {op : Op} (h : op = .jifTrue ∨ op = .jifNot) (s : Shape) :
    (s.up 1).past op 0 = s.up 1 := by
  rcases h with rfl | rfl
  · exact past_up s .jifTrue 0
  · exact past_up s .jifNot 0

def marked (s : Shape) : Shape := ⟨s.height, s.height :: s.marks⟩

/-- Behind dropping the marks of `k` loops. -/
def unwound : Nat → Shape → Shape
  | 0, s => s
  | k + 1, s => unwound k ⟨min s.height (s.marks.headD 0), s.marks.tail⟩

/-- Cut back to the last mark. -/
def cut (s : Shape) : Shape := ⟨min s.height (s.marks.headD 0), s.marks⟩

end Shape

/-- Heights that do not grow, going down from the first. -/
def Descends : Nat → List Nat → Prop
  | _, [] => True
  | h, m :: ms => m ≤ h ∧ Descends m ms

theorem Descends.mono {h h' : Nat} {ms : List Nat} (hd : Descends h ms) (hle : h ≤ h') :
    Descends h' ms := by
  cases ms with
  | nil => trivial
  | cons m ms => exact ⟨Nat.le_trans hd.1 hle, hd.2⟩

theorem Descends.under {h : Nat} {ms : List Nat} (hd : Descends h ms) : Under ms (h :: ms) := by
  induction ms generalizing h with
  | nil => trivial
  | cons m ms ih => exact ⟨hd.1, ih hd.2⟩

theorem descends_replicate (j : Nat) : Descends 0 (List.replicate j 0) := by
  induction j with
  | zero => trivial
  | succ j ih => exact ⟨Nat.le_refl 0, ih⟩

/-- Below one more height the others are one further. -/
theorem Descends.drop {h m k : Nat} {ms l : List Nat} (hd : Descends h l) (hl : l.drop k = m :: ms) :
    ∃ m', (h :: l).drop k = m' :: m :: ms ∧ m ≤ m' ∧ Descends m ms := by
  induction k generalizing h l with
  | zero =>
    obtain rfl : l = m :: ms := hl
    exact ⟨h, rfl, hd.1, hd.2⟩
  | succ k ih =>
    cases l with
    | nil => exact nomatch hl
    | cons x l => exact ih hd.2 hl

namespace Shape

/-- The marks are no higher than the operands, and each no higher than those above it. -/
def Nested (s : Shape) : Prop := Descends s.height s.marks

theorem Nested.up {s : Shape} (h : s.Nested) (n : Nat) : (s.up n).Nested :=
  Descends.mono h (Nat.le_add_right _ _)

theorem Nested.marked {s : Shape} (h : s.Nested) : s.marked.Nested := ⟨Nat.le_refl _, h⟩

/-- Where a jump out of loops cuts back to. -/
theorem Nested.cut_unwound {s : Shape} (h : s.Nested) {k m : Nat} {ms : List Nat}
    (hk : s.marks.drop k = m :: ms) : (unwound k s).cut = ⟨m, m :: ms⟩ := by
  induction k generalizing s with
  | zero =>
    obtain ⟨height, marks⟩ := s
    obtain rfl : marks = m :: ms := hk
    have hmin : min height m = m := Nat.min_eq_right h.1
    show (⟨min height m, m :: ms⟩ : Shape) = _
    rw [hmin]
  | succ k ih =>
    obtain ⟨height, marks⟩ := s
    cases marks with
    | nil => exact nomatch hk
    | cons x l =>
      have hmin : min height x = x := Nat.min_eq_right h.1
      refine ih (s := ⟨min height x, l⟩) ?_ hk
      rw [hmin]
      exact h.2

end Shape

namespace Asm

/-- The shape behind code. -/
def after : Asm → Shape → Shape
  | skip, s => s
  | instr o arg _, s => s.past o arg
  | seq x y, s => y.after (x.after s)
  | bypass j _, s => s.past j 0
  | branch x _, s => x.after (s.past .jifNotPop 0)
  | loop pre _ _ _ _ post, s => post.after (pre.after s)
  | leave _ _, s => s

def inside (exit : Option Op) (s : Shape) : Shape := exit.elim s fun o => s.past o 0

def dropsListing : Nat → Nat → Shape → List (Item × Shape)
  | _, 0, _ => []
  | a, k + 1, s => (⟨a, .cutBackPop, 0⟩, s) ::
      dropsListing (a + 1) k ⟨min s.height (s.marks.headD 0), s.marks.tail⟩

def listing : Asm → Nat → Targets → Shape → List (Item × Shape)
  | skip, _, _, _ => []
  | instr o arg _, a, _, s => [(⟨a, o, arg⟩, s)]
  | seq x y, a, T, s => x.listing a T s ++ y.listing (a + x.size) T (x.after s)
  | bypass j x, a, T, s =>
    [(⟨a, j, a + j.length + x.size⟩, s)] ++ x.listing (a + j.length) T (s.past j 0)
  | branch x y, a, T, s =>
    let t := s.past .jifNotPop 0
    [(⟨a, .jifNotPop, a + 2 + x.size + 2⟩, s)] ++ (x.listing (a + 2) T t ++
      ([(⟨a + 2 + x.size, .jmp, a + 2 + x.size + 2 + y.size⟩, x.after t)] ++
        y.listing (a + 2 + x.size + 2) T t))
  | loop pre head exit body update post, a, T, s =>
    let p := spots pre head exit body update a
    let t := pre.after s
    let h := head.after t.marked
    pre.listing a T s ++ ([(⟨p.mark, .mark, 0⟩, t)] ++ (head.listing p.top T t.marked ++
      ((exitItems exit p.test p.done).map (·, h) ++
        (body.listing p.inside (T.into p.done p.next) (inside exit h) ++
          (update.listing p.next T t.marked ++ ([(⟨p.back, .jmpLoop, p.top⟩, t.marked)] ++
            ([(⟨p.done, .unmark, 0⟩, t.marked)] ++ post.listing p.post T t)))))))
  | leave out k, a, T, s => dropsListing a k s ++ ([(⟨a + k, .cutBack, 0⟩, s.unwound k)] ++
      [(⟨a + k + 1, .jmp, T k out⟩, (s.unwound k).cut)])

theorem fst_dropsListing (a k : Nat) (s : Shape) :
    (dropsListing a k s).map Prod.fst = drops a k := by
  induction k generalizing a s with
  | zero => rfl
  | succ k ih => exact congrArg (_ :: ·) (ih _ _)

theorem fst_listing (x : Asm) (a : Nat) (T : Targets) (s : Shape) :
    (x.listing a T s).map Prod.fst = x.items a T := by
  induction x generalizing a T s with
  | skip => rfl
  | instr o arg c => rfl
  | seq x y hx hy => rw [listing, items, List.map_append, hx, hy]
  | bypass j x hx => rw [listing, items, List.map_append, hx]; rfl
  | branch x y hx hy =>
    simp only [listing, items, List.map_append, hx, hy, List.map_cons, List.map_nil]
  | loop pre head exit body update post hpre hhead hbody hupdate hpost =>
    simp only [listing, items, List.map_append, hpre, hhead, hbody, hupdate, hpost, List.map_map,
      List.map_cons, List.map_nil]
    congr 4
    exact List.map_id _
  | leave out k =>
    simp only [listing, items, List.map_append, fst_dropsListing, List.map_cons, List.map_nil]

/-- No jump leaves the head or the update of a loop. -/
def Tame : Asm → Prop
  | skip | instr _ _ _ | leave _ _ => True
  | seq x y => x.Tame ∧ y.Tame
  | bypass _ x => x.Tame
  | branch x y => x.Tame ∧ y.Tame
  | loop pre head _ body update post =>
    pre.Tame ∧ (head.Tame ∧ head.Closed 0) ∧ body.Tame ∧ (update.Tame ∧ update.Closed 0) ∧ post.Tame

/-! ## places -/

section

variable {K : Nat → Shape → Prop} {a : Nat} {T : Targets} {s : Shape}

theorem enters_drops {k : Nat} (hin : ∀ p ∈ dropsListing a k s, K p.1.place p.2)
    (hout : K (a + k) (s.unwound k)) : K a s := by
  cases k with
  | zero => exact hout
  | succ k => exact hin _ List.mem_cons_self

/-- The shape that code starts with is that of its place. -/
theorem enters {x : Asm} (hin : ∀ p ∈ x.listing a T s, K p.1.place p.2)
    (hout : K (a + x.size) (x.after s)) : K a s := by
  induction x generalizing a T s with
  | skip => exact hout
  | instr o arg c => exact hin _ List.mem_cons_self
  | seq x y hx hy =>
    refine hx (fun p hp => hin p (List.mem_append_left _ hp)) ?_
    refine hy (fun p hp => hin p (List.mem_append_right _ hp)) ?_
    rw [Nat.add_assoc]
    exact hout
  | bypass j x hx => exact hin _ List.mem_cons_self
  | branch x y hx hy => exact hin _ List.mem_cons_self
  | loop pre head exit body update post hpre _ _ _ _ =>
    refine hpre (fun p hp => hin p (List.mem_append_left _ hp)) ?_
    exact hin _ (List.mem_append_right _ List.mem_cons_self)
  | leave out k =>
    refine enters_drops (k := k) (fun p hp => hin p (List.mem_append_left _ hp)) ?_
    exact hin _ (List.mem_append_right _ List.mem_cons_self)

end

end Asm

theorem Turns.after {j m n : Nat} {x : Asm} (h : Turns j m n x) (s : Shape) :
    x.after (s.up m) = s.up n := by
  induction h generalizing s with
  | skip => rfl
  | op | const => exact Shape.past_up ..
  | ret => exact Shape.past_up s .ret 0
  | @call _ n o ho =>
    have hgives : o.gives = 1 := by rcases ho with rfl | rfl <;> rfl
    rw [← hgives]
    exact Shape.past_up ..
  | @frame _ m n _ k _ ih =>
    rw [Nat.add_comm m, Nat.add_comm n, ← Shape.up_up, ih, Shape.up_up]
  | seq _ _ hx hy => rw [Asm.after, hx, hy]
  | guard => exact Shape.past_up s .jifNotPop 0
  | short ho => exact Shape.past_short ho s
  | branch _ _ hx hy =>
    have hpast : (s.up 1).past .jifNotPop 0 = s.up 0 := Shape.past_up s .jifNotPop 0
    rw [Asm.after, hpast]
    exact hx s
  | loop _ _ _ _ _ hpre =>
    rw [Asm.after, hpre]
    rfl
  | each _ _ _ hpre =>
    have hpop (n : Nat) : (s.up (n + 1)).past .pop 0 = s.up n := rfl
    rw [Asm.after, hpre, Asm.after, Asm.op, Asm.after, Asm.after, hpop, hpop]
  | leave => rfl

/-! ## instructions that fit -/

/-- From these marks the jumps out of `j` loops lead to places whose shapes are related to what is left
then. -/
def Ground (R : Shape → Shape → Prop) (K : Nat → Shape → Prop) (T : Targets) (j : Nat)
    (marks : List Nat) : Prop :=
  ∀ k < j, ∃ m ms, marks.drop k = m :: ms ∧ ∀ out, ∃ u, K (T k out) u ∧ R u ⟨m, m :: ms⟩

/-- Relations that hold also where a jump cuts back to the mark of a loop further inside. -/
def Lax (R : Shape → Shape → Prop) : Prop :=
  ∀ {m m' : Nat} {ms : List Nat}, m ≤ m' → Descends m ms → R ⟨m, m :: ms⟩ ⟨m', m' :: m :: ms⟩

theorem lax_le : Lax (· ≤ ·) := fun h hd => ⟨h, h, hd.under⟩

section

variable {R : Shape → Shape → Prop} {K : Nat → Shape → Prop} {T : Targets} {j : Nat} {s : Shape}

theorem ground_zero {marks : List Nat} : Ground R K T 0 marks := fun _ hk => nomatch hk

theorem Ground.loop (hR : Kept R) (hg : Ground R K T j s.marks) {done next : Nat}
    (hdone : K done s.marked) (hnext : K next s.marked) :
    Ground R K (T.into done next) (j + 1) s.marked.marks := by
  intro k hk
  cases k with
  | zero =>
    refine ⟨s.height, s.marks, rfl, fun out => ⟨s.marked, ?_, hR.refl _⟩⟩
    cases out with
    | true => exact hdone
    | false => exact hnext
  | succ k => exact hg k (Nat.lt_of_succ_lt_succ hk)

/-- In the head or the update of a loop a jump drops the wrong marks. -/
theorem Ground.marked (hR : Kept R) (hlax : Lax R) (hs : s.Nested) (hg : Ground R K T j s.marks) :
    Ground R K T j s.marked.marks := by
  intro k hk
  obtain ⟨m, ms, hm, hout⟩ := hg k hk
  obtain ⟨m', hm', hle, hd⟩ := Descends.drop hs hm
  refine ⟨m', m :: ms, hm', fun out => ?_⟩
  obtain ⟨u, hu, hRu⟩ := hout out
  exact ⟨u, hu, hR.trans hRu (hlax hle hd)⟩

theorem flows_plain (hR : Kept R) {a arg : Nat} {o : Op} (hp : o.isPlain = true)
    (hK : K (a + o.length) (s.up o.gives)) : Item.Flows R K ⟨a, o, arg⟩ (s.up (o.takes arg)) where
  takes := Nat.le_add_left _ _
  marked hm := by
    rw [Op.usesMark_of_isPlain hp] at hm
    exact nomatch hm
  next t ht := by
    rw [Op.next_up_of_isPlain hp] at ht
    exact ⟨_, hK, Option.some.inj ht ▸ hR.refl _⟩
  jump t ht := by
    rw [Op.target_of_isPlain hp] at ht
    exact nomatch ht

theorem flows_jump (hR : Kept R) {a target : Nat} {o : Op} {h u : Shape} (hj : o.isJump = true)
    (htakes : o.takes 0 ≤ h.height) (hnext : o.next 0 h = some (h.past o 0))
    (htarget : o.target h = some u) (hin : K (a + o.length) (h.past o 0)) (hout : K target u) :
    Item.Flows R K ⟨a, o, target⟩ h where
  takes := by rw [Op.takes_of_isJump hj _ 0]; exact htakes
  marked hm := by
    have hno := Op.hasOperand_of_isJump hj
    rw [Op.hasOperand_of_usesMark hm] at hno
    exact nomatch hno
  next t ht := by
    rw [Op.next_of_isJump hj _ 0, hnext] at ht
    exact ⟨_, hin, Option.some.inj ht ▸ hR.refl _⟩
  jump t ht := by
    rw [htarget] at ht
    exact ⟨_, hout, Option.some.inj ht ▸ hR.refl _⟩

theorem flows_always {a target : Nat} {o : Op} (ho : o = .jmp ∨ o = .jmpLoop)
    (hout : ∃ u, K target u ∧ R u s) : Item.Flows R K ⟨a, o, target⟩ s := by
  rcases ho with rfl | rfl
  all_goals
    refine ⟨Nat.zero_le _, nofun, nofun, fun t ht => ?_⟩
    obtain rfl := Option.some.inj ht
    exact hout

theorem flows_drops (hR : Kept R) {a k : Nat} (hk : k ≤ s.marks.length)
    (hin : ∀ p ∈ Asm.dropsListing a k s, K p.1.place p.2) (hout : K (a + k) (s.unwound k)) :
    ∀ p ∈ Asm.dropsListing a k s, p.1.Flows R K p.2 := by
  induction k generalizing a s with
  | zero => exact fun _ hp => nomatch hp
  | succ k ih =>
    have hlen : k ≤ s.marks.tail.length := by
      rw [List.length_tail]
      omega
    have hrest (p) (hp : p ∈ Asm.dropsListing (a + 1) k
        ⟨min s.height (s.marks.headD 0), s.marks.tail⟩) := hin p (List.mem_cons_of_mem _ hp)
    rw [show a + (k + 1) = a + 1 + k by omega] at hout
    intro p hp
    rcases List.mem_cons.mp hp with rfl | hp
    · refine ⟨Nat.zero_le _, fun _ h0 => ?_, fun t ht => ?_, nofun⟩
      · rw [show s.marks = [] from h0] at hk
        exact nomatch hk
      · obtain rfl := Option.some.inj ht
        exact ⟨_, Asm.enters_drops hrest hout, hR.refl _⟩
    · exact ih hlen hrest hout p hp

theorem flows_pops (hR : Kept R) {a : Nat}
    (hin : ∀ p ∈ (Asm.seq (.op .pop) (.op .pop)).listing a T (s.up 2), K p.1.place p.2)
    (hout : K (a + 2) s) :
    ∀ p ∈ (Asm.seq (.op .pop) (.op .pop)).listing a T (s.up 2), p.1.Flows R K p.2 := by
  have hmid := hin _ (List.mem_append_right _ List.mem_cons_self)
  intro p hp
  rcases List.mem_append.mp hp with hp | hp
  · obtain rfl := List.mem_singleton.mp hp
    exact flows_plain hR (s := s.up 1) (o := .pop) rfl hmid
  · obtain rfl := List.mem_singleton.mp hp
    exact flows_plain hR (s := s) (o := .pop) rfl hout

theorem flows_leave (hR : Kept R) {a k : Nat} {out : Bool} (hs : s.Nested)
    (hg : Ground R K T j s.marks) (hk : k < j)
    (hin : ∀ p ∈ (Asm.leave out k).listing a T s, K p.1.place p.2) :
    ∀ p ∈ (Asm.leave out k).listing a T s, p.1.Flows R K p.2 := by
  obtain ⟨m, ms, hm, hout⟩ := hg k hk
  have hcut := hs.cut_unwound hm
  have hlen : k < s.marks.length := by
    refine Nat.lt_of_not_le fun hle => ?_
    rw [List.drop_eq_nil_of_le hle] at hm
    exact nomatch hm
  rw [Asm.listing] at hin ⊢
  have hback := hin _ (List.mem_append_right _ List.mem_cons_self)
  have hjmp := hin _ (List.mem_append_right _ (List.mem_append_right _ List.mem_cons_self))
  intro p hp
  rcases List.mem_append.mp hp with hp | hp
  · exact flows_drops hR (Nat.le_of_lt hlen) (fun p hp => hin p (List.mem_append_left _ hp)) hback p hp
  · rcases List.mem_append.mp hp with hp | hp
    · obtain rfl := List.mem_singleton.mp hp
      refine ⟨Nat.zero_le _, fun _ h0 => ?_, fun t ht => ?_, nofun⟩
      · have hmarks := congrArg Shape.marks hcut
        rw [show (s.unwound k).cut.marks = (s.unwound k).marks from rfl, h0] at hmarks
        exact nomatch hmarks
      · obtain rfl := Option.some.inj ht
        exact ⟨_, hjmp, hR.refl _⟩
    · obtain rfl := List.mem_singleton.mp hp
      obtain ⟨u, hu, hRu⟩ := hout out
      exact flows_always (.inl rfl) ⟨u, hu, hcut ▸ hRu⟩

/-- The parts of a loop at their places: `t` is the shape behind what comes before the mark, `h` that
behind the head. -/
structure Asm.Laid (K : Nat → Shape → Prop) (T : Targets) (pre head : Asm) (exit : Option Op)
    (body update post : Asm) (a : Nat) (s t h : Shape) (q : Spots) : Prop where
  inPre : ∀ p ∈ pre.listing a T s, K p.1.place p.2
  atMark : K q.mark t
  inHead : ∀ p ∈ head.listing q.top T t.marked, K p.1.place p.2
  inBody : ∀ p ∈ body.listing q.inside (T.into q.done q.next) (inside exit h), K p.1.place p.2
  inUpdate : ∀ p ∈ update.listing q.next T t.marked, K p.1.place p.2
  atBack : K q.back t.marked
  atDone : K q.done t.marked
  inPost : ∀ p ∈ post.listing q.post T t, K p.1.place p.2
  atTop : K q.top t.marked
  atTest : K q.test h
  atInside : K q.inside (inside exit h)
  atNext : K q.next t.marked
  atPost : K q.post t
  atEnd : K (q.post + post.size) (post.after t)

theorem Asm.end_loop (pre head : Asm) (exit : Option Op) (body update post : Asm) (a : Nat) :
    a + (loop pre head exit body update post).size =
      (spots pre head exit body update a).post + post.size := by
  simp only [size, spots]
  omega

section

variable {a : Nat} {pre head body update post : Asm} {exit : Option Op} {t h : Shape} {q : Asm.Spots}
  (hpre : pre.after s = t) (hhead : head.after t.marked = h)
  (hbody : body.after (Asm.inside exit h) = t.marked) (hupdate : update.after t.marked = t.marked)
  (hin : ∀ p ∈ (Asm.loop pre head exit body update post).listing a T s, K p.1.place p.2)
  (hout : K (a + (Asm.loop pre head exit body update post).size) (post.after t))
  (hq : q = Asm.spots pre head exit body update a)

include hpre hhead hq in
theorem listing_loop : (Asm.loop pre head exit body update post).listing a T s =
    pre.listing a T s ++ ([(⟨q.mark, .mark, 0⟩, t)] ++ (head.listing q.top T t.marked ++
      ((Asm.exitItems exit q.test q.done).map (·, h) ++
        (body.listing q.inside (T.into q.done q.next) (Asm.inside exit h) ++
          (update.listing q.next T t.marked ++ ([(⟨q.back, .jmpLoop, q.top⟩, t.marked)] ++
            ([(⟨q.done, .unmark, 0⟩, t.marked)] ++ post.listing q.post T t))))))) := by
  subst hq hpre hhead
  rfl

include hpre hhead hbody hupdate hin hout hq in
/-- The places of a loop whose parts are balanced. -/
theorem laid_loop : Asm.Laid K T pre head exit body update post a s t h q := by
  rw [Asm.end_loop, ← hq] at hout
  simp only [listing_loop hpre hhead hq, List.mem_append, or_imp, forall_and, List.mem_singleton,
    forall_eq] at hin
  obtain ⟨ipre, imark, ihead, iexit, ibody, iupdate, iback, idone, ipost⟩ := hin
  have kpost : K q.post t := Asm.enters ipost hout
  have knext : K q.next t.marked := by
    refine Asm.enters iupdate ?_
    rw [hupdate, hq]
    rw [hq] at iback
    exact iback
  have kinside : K q.inside (Asm.inside exit h) := by
    refine Asm.enters ibody ?_
    rw [hbody, hq]
    rw [hq] at knext
    exact knext
  have ktest : K q.test h := by
    cases exit with
    | none =>
      rw [hq] at kinside ⊢
      exact kinside
    | some o => exact iexit (_, h) List.mem_cons_self
  have ktop : K q.top t.marked := by
    refine Asm.enters ihead ?_
    rw [hhead, hq]
    rw [hq] at ktest
    exact ktest
  exact ⟨ipre, imark, ihead, ibody, iupdate, iback, idone, ipost, ktop, ktest, kinside, knext, kpost,
    hout⟩

theorem flows_loop (hR : Kept R) (hpre : pre.after s = t) (hhead : head.after t.marked = h)
    (hexit : ∀ o, exit = some o → o.isJump = true ∧ o.takes 0 ≤ h.height ∧
      o.next 0 h = some (h.past o 0) ∧ o.target h = some t.marked)
    (hq : q = Asm.spots pre head exit body update a)
    (hl : Asm.Laid K T pre head exit body update post a s t h q)
    (fpre : ∀ p ∈ pre.listing a T s, p.1.Flows R K p.2)
    (fhead : ∀ p ∈ head.listing q.top T t.marked, p.1.Flows R K p.2)
    (fbody : ∀ p ∈ body.listing q.inside (T.into q.done q.next) (Asm.inside exit h), p.1.Flows R K p.2)
    (fupdate : ∀ p ∈ update.listing q.next T t.marked, p.1.Flows R K p.2)
    (fpost : ∀ p ∈ post.listing q.post T t, p.1.Flows R K p.2) :
    ∀ p ∈ (Asm.loop pre head exit body update post).listing a T s, p.1.Flows R K p.2 := by
  have ktop := hl.atTop
  have kinside := hl.atInside
  have kpost := hl.atPost
  simp only [listing_loop hpre hhead hq, List.mem_append, or_imp, forall_and, List.mem_singleton,
    forall_eq]
  refine ⟨fpre, ?_, fhead, ?_, fbody, fupdate, flows_always (.inr rfl) ⟨_, ktop, hR.refl _⟩, ?_, fpost⟩
  · refine ⟨Nat.zero_le _, nofun, fun u hu => ?_, nofun⟩
    obtain rfl := Option.some.inj hu
    refine ⟨_, ?_, hR.refl _⟩
    rw [hq] at ktop ⊢
    exact ktop
  · intro p hp
    cases exit with
    | none => exact nomatch hp
    | some o =>
      obtain rfl := List.mem_singleton.mp hp
      obtain ⟨hj, htakes, hnext, htarget⟩ := hexit o rfl
      refine flows_jump hR hj htakes hnext htarget ?_ hl.atDone
      rw [hq] at kinside ⊢
      exact kinside
  · refine ⟨Nat.zero_le _, fun _ => List.cons_ne_nil _ _, fun u hu => ?_, nofun⟩
    obtain rfl := Option.some.inj hu
    refine ⟨_, ?_, hR.refl _⟩
    rw [hq] at kpost ⊢
    exact kpost

end

end

/-- Wherever the code stands, with `m` operands before it and `n` behind it, each of its instructions fits the
shapes around it, given the place behind the code and those that jumps out of the loops around lead to. -/
def Asm.Fits (R : Shape → Shape → Prop) (K : Nat → Shape → Prop) (m n : Nat) (x : Asm) : Prop :=
  (Lax R ∨ x.Tame) → ∀ ⦃i : Nat⦄, x.Closed i → ∀ ⦃a : Nat⦄ ⦃T : Targets⦄ ⦃s : Shape⦄, s.Nested →
    Ground R K T i s.marks → (∀ p ∈ x.listing a T (s.up m), K p.1.place p.2) → K (a + x.size) (s.up n) →
      ∀ p ∈ x.listing a T (s.up m), p.1.Flows R K p.2

section

variable {R : Shape → Shape → Prop} {K : Nat → Shape → Prop} {j l m n : Nat} {x y : Asm}

theorem Asm.Fits.frame (k : Nat) (ih : x.Fits R K m n) : x.Fits R K (m + k) (n + k) := by
  intro hmode i hc a T s hs hg hin hout
  rw [Nat.add_comm m, ← Shape.up_up] at hin ⊢
  rw [Nat.add_comm n, ← Shape.up_up] at hout
  exact ih hmode hc (hs.up k) hg hin hout

theorem Asm.Fits.seq (hx : Turns j l m x) (hy : Turns j m n y) (ihx : x.Fits R K l m) (ihy : y.Fits R K m n) :
    (Asm.seq x y).Fits R K l n := by
  intro hmode i hc a T s hs hg hin hout
  rw [Asm.listing, hx.after] at hin ⊢
  rw [Asm.size, ← Nat.add_assoc] at hout
  have hinl := fun p hp => hin p (List.mem_append_left _ hp)
  have hinr := fun p hp => hin p (List.mem_append_right _ hp)
  have hmid := Asm.enters hinr (by rw [hy.after]; exact hout)
  intro p hp
  rcases List.mem_append.mp hp with hp | hp
  · exact ihx (hmode.imp_right And.left) hc.1 hs hg hinl hmid p hp
  · exact ihy (hmode.imp_right And.right) hc.2 hs hg hinr hout p hp

/-- Code behind a jump around it, which leaves `s` on both ways. -/
theorem Asm.Fits.bypass (hR : Kept R) {o : Op} (hj : o.isJump = true)
    (htakes : ∀ s : Shape, o.takes 0 ≤ (s.up 1).height)
    (hnext : ∀ s : Shape, o.next 0 (s.up 1) = some (s.up m))
    (hpast : ∀ s : Shape, (s.up 1).past o 0 = s.up m)
    (htarget : ∀ s : Shape, o.target (s.up 1) = some (s.up n))
    (hx : Turns j m n x) (ih : x.Fits R K m n) : (Asm.bypass o x).Fits R K 1 n := by
  intro hmode i hc a T s hs hg hin hout
  rw [Asm.listing, hpast] at hin ⊢
  rw [Asm.size, ← Nat.add_assoc] at hout
  have hinx := fun p hp => hin p (List.mem_append_right _ hp)
  intro p hp
  rcases List.mem_append.mp hp with hp | hp
  · obtain rfl := List.mem_singleton.mp hp
    refine flows_jump hR hj (htakes s) (by rw [hnext, hpast]) (htarget s) ?_ hout
    rw [hpast]
    exact Asm.enters hinx (by rw [hx.after s]; exact hout)
  · exact ih hmode hc hs hg hinx hout p hp

theorem Asm.Fits.guard (hR : Kept R) (hx : Turns j 0 0 x) (ih : x.Fits R K 0 0) :
    (Asm.bypass .jifNotPop x).Fits R K 1 0 :=
  ih.bypass hR rfl (fun s => Nat.le_add_left 1 s.height) (fun s => congrArg some (Shape.past_up s .jifNotPop 0))
    (fun s => Shape.past_up s .jifNotPop 0) (fun _ => rfl) hx

theorem Asm.Fits.short (hR : Kept R) {o : Op} (ho : o = .jifTrue ∨ o = .jifNot) (hx : Turns j 1 1 x)
    (ih : x.Fits R K 1 1) : (Asm.bypass o x).Fits R K 1 1 := by
  refine ih.bypass hR ?_ (fun s => ?_) (fun s => ?_) (Shape.past_short ho) (fun s => ?_) hx
  · rcases ho with rfl | rfl <;> rfl
  · rcases ho with rfl | rfl <;> exact Nat.le_add_left _ _
  · rw [← Shape.past_short ho s]
    rcases ho with rfl | rfl <;> rfl
  · rcases ho with rfl | rfl <;> rfl

theorem Asm.Fits.branch (hR : Kept R) (hx : Turns j 0 n x) (hy : Turns j 0 n y) (ihx : x.Fits R K 0 n)
    (ihy : y.Fits R K 0 n) : (Asm.branch x y).Fits R K 1 n := by
  intro hmode i hc a T s hs hg hin hout
  have hpast : (s.up 1).past .jifNotPop 0 = s := Shape.past_up s .jifNotPop 0
  have hax := hx.after s
  have hay := hy.after s
  rw [Shape.up_zero] at hax hay
  simp only [Asm.listing, hpast, hax, List.mem_append, or_imp, forall_and, List.mem_singleton,
    forall_eq] at hin ⊢
  obtain ⟨-, inx, ijmp, iny⟩ := hin
  rw [Asm.size, show ∀ b c : Nat, a + (2 + (b + (2 + c))) = a + 2 + b + 2 + c by omega] at hout
  have kx := Asm.enters inx (by rw [hax]; exact ijmp)
  have ky := Asm.enters iny (by rw [hay]; exact hout)
  exact ⟨flows_jump hR rfl (Nat.le_add_left _ _) rfl rfl kx ky,
    ihx (hmode.imp_right And.left) hc.1 hs hg inx ijmp, flows_always (.inl rfl) ⟨_, hout, hR.refl _⟩,
    ihy (hmode.imp_right And.right) hc.2 hs hg iny hout⟩

theorem Asm.Fits.loop (hR : Kept R) {q : Nat} {pre head body update : Asm} {exit : Option Op}
    (hpre : Turns j 0 0 pre) (hhead : Turns j 0 q head)
    (hexit : exit = none ∧ q = 0 ∨ exit = some .jifNotPop ∧ q = 1) (hbody : Turns (j + 1) 0 0 body)
    (hupdate : Turns j 0 0 update) (ihpre : pre.Fits R K 0 0) (ihhead : head.Fits R K 0 q)
    (ihbody : body.Fits R K 0 0) (ihupdate : update.Fits R K 0 0) :
    (Asm.loop pre head exit body update .skip).Fits R K 0 0 := by
  intro hmode i hc a T s hs hg hin hout
  obtain ⟨cpre, chead, cbody, cupdate, -⟩ := hc
  have hmpre : Lax R ∨ _ := hmode.imp_right And.left
  have hmhead : Lax R ∨ _ := hmode.imp_right fun h => h.2.1
  have hmbody : Lax R ∨ _ := hmode.imp_right fun h => h.2.2.1
  have hmupdate : Lax R ∨ _ := hmode.imp_right fun h => h.2.2.2.1
  have hsm := hs.marked
  have hinside : Asm.inside exit (s.marked.up q) = s.marked := by
    rcases hexit with ⟨rfl, rfl⟩ | ⟨rfl, rfl⟩
    · rfl
    · exact Shape.past_up s.marked .jifNotPop 0
  -- in the head and in the update jumps out are rough, or there are none
  have hrough {y : Asm} (hy : y.Closed i) (h : Lax R ∨ y.Tame ∧ y.Closed 0) :
      ∃ i', y.Closed i' ∧ Ground R K T i' s.marked.marks := by
    rcases h with hlax | h
    · exact ⟨i, hy, hg.marked hR hlax hs⟩
    · exact ⟨0, h.2, ground_zero⟩
  obtain ⟨i₁, c₁, g₁⟩ := hrough chead hmhead
  obtain ⟨i₂, c₂, g₂⟩ := hrough cupdate hmupdate
  have hl := laid_loop (h := s.marked.up q) (hpre.after s) (hhead.after s.marked)
    (by rw [hinside]; exact hbody.after s.marked) (hupdate.after s.marked) hin hout rfl
  refine flows_loop hR (hpre.after s) (hhead.after s.marked) ?_ rfl hl ?_ ?_ ?_ ?_
    (fun _ hp => by cases hp)
  · rintro o ho
    rcases hexit with ⟨rfl, -⟩ | ⟨rfl, rfl⟩
    · cases ho
    · obtain rfl := Option.some.inj ho
      exact ⟨rfl, Nat.le_add_left _ _, rfl, rfl⟩
  · exact ihpre hmpre cpre hs hg hl.inPre hl.atMark
  · exact ihhead (hmhead.imp_right And.left) c₁ hsm g₁ hl.inHead hl.atTest
  · have ibody := hl.inBody
    rw [hinside] at ibody ⊢
    exact ihbody hmbody cbody hsm (hg.loop hR hl.atDone hl.atNext) ibody hl.atNext
  · exact ihupdate (hmupdate.imp_right And.left) c₂ hsm g₂ hl.inUpdate hl.atBack

theorem Asm.Fits.each (hR : Kept R) {pre body : Asm} {step : Op} (hpre : Turns j 0 2 pre)
    (hstep : step = .each ∨ step = .index) (hbody : Turns (j + 1) 1 0 body) (ihpre : pre.Fits R K 0 2)
    (ihbody : body.Fits R K 1 0) :
    (Asm.loop pre (.op step) (some .jifEnd) body .skip (.seq (.op .pop) (.op .pop))).Fits R K 0 0 := by
  intro hmode i hc a T s hs hg hin hout
  obtain ⟨cpre, -, cbody, -⟩ := hc
  have hg₂ : Ground R K T i (s.up 2).marks := hg
  have hhead : (Asm.op step).after (s.up 2).marked = (s.up 2).marked.up 1 := by
    rcases hstep with rfl | rfl <;> rfl
  have hl := laid_loop (hpre.after s) hhead (hbody.after (s.up 2).marked) rfl hin hout rfl
  refine flows_loop hR (hpre.after s) hhead ?_ rfl hl ?_ ?_ ?_ (fun _ hp => by cases hp) ?_
  · rintro o ho
    obtain rfl := Option.some.inj ho
    exact ⟨rfl, Nat.le_add_left _ _, rfl, rfl⟩
  · exact ihpre (hmode.imp_right And.left) cpre hs hg hl.inPre hl.atMark
  · intro p hp
    have hk := hl.atTest
    obtain rfl := List.mem_singleton.mp hp
    rcases hstep with rfl | rfl
    · exact flows_plain hR (s := ⟨s.height, (s.up 2).marked.marks⟩) (o := .each) rfl hk
    · exact flows_plain hR (s := ⟨s.height, (s.up 2).marked.marks⟩) (o := .index) rfl hk
  · exact ihbody (hmode.imp_right fun h => h.2.2.1) cbody (hs.up 2).marked
      (hg₂.loop hR hl.atDone hl.atNext) hl.inBody hl.atNext
  · exact flows_pops hR hl.inPost hl.atEnd

/-- **Each instruction of balanced code fits the shapes around it.** -/
theorem Turns.fits (hR : Kept R) (hx : Turns j m n x) : x.Fits R K m n := by
  induction hx with
  | skip => exact fun _ _ _ _ _ _ _ _ _ _ p hp => by cases hp
  | op hp | const hp =>
    intro _ _ _ a T s _ _ _ hout p hm
    obtain rfl := List.mem_singleton.mp hm
    exact flows_plain hR hp hout
  | call ho =>
    intro _ _ _ a T s _ _ _ hout p hm
    obtain rfl := List.mem_singleton.mp hm
    rcases ho with rfl | rfl <;> exact flows_plain hR rfl hout
  | ret =>
    intro _ _ _ a T s _ _ _ _ p hm
    obtain rfl := List.mem_singleton.mp hm
    exact ⟨Nat.le_add_left _ _, by rintro ⟨⟩, by rintro _ ⟨⟩, by rintro _ ⟨⟩⟩
  | frame k _ ih => exact ih.frame k
  | seq hx hy ihx ihy => exact .seq hx hy ihx ihy
  | guard hx ih => exact .guard hR hx ih
  | short ho hx ih => exact .short hR ho hx ih
  | branch hx hy ihx ihy => exact .branch hR hx hy ihx ihy
  | loop hpre hhead hexit hbody hupdate ihpre ihhead ihbody ihupdate =>
    exact .loop hR hpre hhead hexit hbody hupdate ihpre ihhead ihbody ihupdate
  | each hpre hstep hbody ihpre ihbody => exact .each hR hpre hstep hbody ihpre ihbody
  | leave _ => exact fun _ _ hc _ _ _ hs hg hin _ => flows_leave hR hs hg hc hin

end

/-! ## units -/

/-- The instruction of a row is in words that the row is part of. -/
theorem Item.Row.in_middle {l : List Item} {a b : Nat} (h : Row a l b) {words : Array UInt16}
    {before after : List UInt16} (ha : before.length = a)
    (hw : words.toList = before ++ (l.flatMap Item.words ++ after)) {i : Item} (hi : i ∈ l)
    (harg : i.arg < 65536) (hnone : i.op.hasOperand = false → i.arg = 0) : i.In words := by
  obtain ⟨x, y, hxy, hx⟩ := h.words_at hi before after ha
  rw [← hw] at hxy
  have hget (k : Nat) : words[i.place + k]? = (i.words ++ y)[k]? := by
    rw [← Array.getElem?_toList, hxy, ← hx, List.getElem?_append_right (Nat.le_add_right _ _),
      Nat.add_sub_cancel_left]
  refine ⟨?_, ?_, ?_⟩
  · rw [← Nat.add_zero i.place, hget, Item.words]
    split <;> rfl
  · rw [← Array.length_toList, hxy, List.length_append, List.length_append, hx, length_words]
    omega
  · unfold Op.argAt
    split
    · rename_i ho
      rw [hget, Item.words, if_pos ho]
      exact Nat.mod_eq_of_lt harg
    · rename_i ho
      exact (hnone (eq_false_of_ne_true ho)).symm

/-- The instruction of a row is in its words. -/
theorem Item.Row.in_words {l : List Item} {b : Nat} (h : Row 0 l b) {words : Array UInt16}
    (hw : words.toList = l.flatMap Item.words) {i : Item} (hi : i ∈ l) (harg : i.arg < 65536)
    (hnone : i.op.hasOperand = false → i.arg = 0) : i.In words :=
  h.in_middle rfl (by rw [List.nil_append, List.append_nil, hw]) hi harg hnone

theorem Op.exists_target {op : Op} (h : op.isJump = true) (s : Shape) :
    ∃ t, op.target s = some t := by
  cases op <;> first | exact ⟨_, rfl⟩ | exact nomatch h

def Asm.Shaped (x : Asm) (ip : Nat) (s : Shape) : Prop :=
  ∃ i, (i, s) ∈ (Asm.seq x (.op .ret)).listing 0 unaimed .none ∧ i.place = ip

section

variable {R : Shape → Shape → Prop} {x : Asm}

theorem Turns.flows_unit (hR : Kept R) (hx : Turns 0 0 1 x) (hmode : Lax R ∨ x.Tame) :
    x.Shaped 0 .none ∧ ∀ p ∈ (Asm.seq x (.op .ret)).listing 0 unaimed .none,
      p.1.Flows R x.Shaped p.2 := by
  have hafter : x.after .none = Shape.up .none 1 := hx.after .none
  have hin (p) (hp : p ∈ (Asm.seq x (.op .ret)).listing 0 unaimed .none) :
      x.Shaped p.1.place p.2 := ⟨p.1, hp, rfl⟩
  have hret : x.Shaped (0 + x.size) (Shape.up .none 1) :=
    ⟨⟨0 + x.size, .ret, 0⟩, List.mem_append_right _ (by rw [hafter]; exact List.mem_cons_self), rfl⟩
  have hinx := fun p hp => hin p (List.mem_append_left _ hp)
  refine ⟨Asm.enters hinx (by rw [hafter]; exact hret), fun p hp => ?_⟩
  rcases List.mem_append.mp hp with hp | hp
  · exact hx.fits hR hmode hx.closed (s := .none) trivial ground_zero hinx hret p hp
  · rw [hafter] at hp
    obtain rfl := List.mem_singleton.mp hp
    exact ⟨Nat.le_refl _, nofun, nofun, nofun⟩

theorem Asm.mem_items {y : Asm} {a : Nat} {T : Targets} {s t : Shape} {i : Item}
    (hi : (i, t) ∈ y.listing a T s) : i ∈ y.items a T := by
  rw [← Asm.fst_listing _ _ _ s]
  exact List.mem_map_of_mem hi

/-- Each jump of a unit leads to one of its instructions. -/
theorem Turns.lands (hx : Turns 0 0 1 x) {i : Item}
    (hi : i ∈ (Asm.seq x (.op .ret)).items 0 unaimed) (hj : i.op.isJump = true) :
    ∃ k ∈ (Asm.seq x (.op .ret)).items 0 unaimed, k.place = i.arg := by
  rw [← Asm.fst_listing _ _ _ .none] at hi
  obtain ⟨⟨i, s⟩, hmem, rfl⟩ := List.mem_map.mp hi
  obtain ⟨t, ht⟩ := Op.exists_target hj s
  obtain ⟨u, ⟨k, hk, hplace⟩, -⟩ := ((hx.flows_unit kept_le (.inl lax_le)).2 _ hmem).jump t ht
  exact ⟨k, Asm.mem_items hk, hplace⟩

/-- The operands of code inside loops fit into words. -/
theorem Turns.arg_fits {j m n : Nat} (hx : Turns j m n x) {a : Nat} (hsmall : a + x.size ≤ 65535)
    {consts : Array Const} (hfew : consts.size ≤ 65535) {i : Item} (hi : i ∈ x.items a unaimed)
    (hv : i.Valid consts) : i.arg < 65536 := by
  cases ho : i.op.hasOperand with
  | false => exact hv.none ho ▸ Nat.zero_lt_succ _
  | true =>
    cases hj : i.op.isJump with
    | true =>
      let s : Shape := ⟨0, List.replicate j 0⟩
      have hs : s.Nested := descends_replicate j
      have hground : Ground (· ≤ ·) (fun ip _ => ip ≤ 65535) unaimed j s.marks := by
        intro k hk
        refine ⟨0, List.replicate (j - k - 1) 0, ?_, fun out => ⟨_, Nat.le_refl _, kept_le.refl _⟩⟩
        rw [List.drop_replicate, ← List.replicate_succ, Nat.sub_one_add_one (Nat.sub_ne_zero_of_lt hk)]
      have hflows := hx.fits (K := fun ip _ => ip ≤ 65535) kept_le (.inl lax_le) hx.closed hs hground
        (fun p hp => by
          have := (x.row_items a unaimed).bounds (Asm.mem_items hp)
          omega) hsmall
      rw [← Asm.fst_listing _ _ _ (s.up m)] at hi
      obtain ⟨⟨i, t⟩, hmem, rfl⟩ := List.mem_map.mp hi
      obtain ⟨u, hu⟩ := Op.exists_target hj t
      obtain ⟨-, hle, -⟩ := (hflows _ hmem).jump u hu
      exact Nat.lt_succ_of_le hle
    | false =>
      cases ht : i.op.takesConst with
      | true =>
        have := hv.const_lt ht
        omega
      | false => exact Nat.lt_succ_of_le (hv.count ho hj ht)

theorem Turns.arg_lt (hx : Turns 0 0 1 x) {consts : Array Const}
    (hsmall : (Asm.seq x (.op .ret)).size ≤ 65534) (hfew : consts.size ≤ 65535) {i : Item}
    (hi : i ∈ (Asm.seq x (.op .ret)).items 0 unaimed) (hv : i.Valid consts) : i.arg < 65536 :=
  (hx.seq .ret).arg_fits (by omega) hfew hi hv

/-- The operands of a unit are of the right kinds. -/
theorem Turns.valid_unit (hx : Turns 0 0 1 x) {consts : Array Const} (huses : x.Uses consts) :
    ∀ i ∈ (Asm.seq x (.op .ret)).items 0 unaimed, i.Valid consts :=
  Turns.valid (n := 0) (hx.seq .ret) ⟨huses, fun _ hd => nomatch hd⟩ 0 unaimed

theorem size_of_words {words : Array UInt16}
    (hwords : words.toList = (Asm.seq x (.op .ret)).words 0 unaimed) :
    (Asm.seq x (.op .ret)).size = words.size := by
  rw [← Asm.length_words _ 0 unaimed, ← hwords, Array.length_toList]

/-- A unit that is assembled from balanced code is typed by its shapes. -/
theorem Turns.typing (hR : Kept R) (hx : Turns 0 0 1 x) (hmode : Lax R ∨ x.Tame) {c : Code Const}
    (hwords : c.words.toList = (Asm.seq x (.op .ret)).words 0 unaimed)
    (hsmall : c.words.size ≤ 65534) (hfew : c.consts.size ≤ 65535) (huses : x.Uses c.consts) :
    Typing R c.words c.consts.size x.Shaped := by
  obtain ⟨hstart, hflows⟩ := hx.flows_unit hR hmode
  have hrow := (Asm.seq x (.op .ret)).row_items 0 unaimed
  rw [← size_of_words hwords] at hsmall
  refine ⟨hstart, fun ip s ⟨i, hi, hp⟩ => ?_⟩
  have hitem := Asm.mem_items hi
  have hv := hx.valid_unit huses i hitem
  have hin := hrow.in_words hwords hitem (hx.arg_lt hsmall hfew hitem hv) hv.none
  exact ⟨i, hp, hin, hv.const_lt, hflows _ hi⟩

end

/-- **The shapes of a compiled unit are lower bounds** for what there is at its places. -/
theorem Code.Assembled.typing {c : Code Const} (h : c.Assembled) :
    ∃ K, Typing (· ≤ ·) c.words c.consts.size K := by
  cases h with
  | mk lowered words small few uses =>
    obtain ⟨hE, hS, -⟩ := Lowering.turns_all ‹_›
    exact ⟨_, (Lowering.turns_statements hE hS lowered).typing kept_le (.inl lax_le) words small few uses⟩

/-- Where a compiled unit can come to, an instruction that takes a constant has one of its kind. -/
theorem Code.Assembled.operands {c : Code Const} (h : c.Assembled) :
    ∃ K, Typing (· ≤ ·) c.words c.consts.size K ∧ ∀ ip s, K ip s → ∀ i : Item, i.place = ip →
      i.In c.words → i.op.takesConst = true → ∃ d, c.consts[i.arg]? = some d ∧ i.op.accepts d := by
  cases h with
  | @mk _ n _ x lowered words small few uses =>
    obtain ⟨hE, hS, -⟩ := Lowering.turns_all n
    have hx : Turns 0 0 1 x := Lowering.turns_statements hE hS lowered
    have hK := hx.typing kept_le (.inl lax_le) words small few uses
    refine ⟨_, hK, fun ip s ⟨k, hk, hkp⟩ i hp hi ht => ?_⟩
    have hitem := Asm.mem_items hk
    have hv := hx.valid_unit uses k hitem
    rw [← size_of_words words] at small
    have hin := ((Asm.seq x (.op .ret)).row_items 0 unaimed).in_words words hitem
      (hx.arg_lt small few hitem hv) hv.none
    -- there is one instruction at the place, that of the row
    obtain rfl := hin.unique hi (hkp.trans hp.symm)
    exact hv.const ht

end ScriptEngine
