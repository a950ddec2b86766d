import ScriptEngine.Proofs.Code.Flow

/-!
# Loops are level

Behind a loop there are as many operands and marks as before it, and at the start of its first round as
many as where its next rounds are prepared.  The places of all loops of structured code are read off it,
and their shapes are those of the listing.

* `Asm.Span`, `Asm.loops`   the places of the loops of code;
* `Turns.level`             the loops of balanced code are level;
* `Asm.Shaped.unique`       a place of a unit has one shape;
* `Code.Spells`             a unit that is written from structured code;
* `Code.Assembled.spells`   every compiled unit is.
-/

namespace ScriptEngine

namespace Asm

/-- Where a loop is entered and left, where its rounds start and where jumps to the next one lead. -/
structure Span where
  entry : Nat
  top : Nat
  next : Nat
  exit : Nat

/-- The loops of code at a place. -/
def loops : Asm → Nat → List Span
  | skip, _ | instr _ _ _, _ | leave _ _, _ => []
  | seq x y, a => x.loops a ++ y.loops (a + x.size)
  | bypass j x, a => x.loops (a + j.length)
  | branch x y, a => x.loops (a + 2) ++ y.loops (a + 2 + x.size + 2)
  | loop pre head exit body update post, a =>
    let p := spots pre head exit body update a
    ⟨a, p.top, p.next, p.post + post.size⟩ :: (pre.loops a ++ (head.loops p.top ++
      (body.loops p.inside ++ (update.loops p.next ++ post.loops p.post))))

/-- Nothing is left behind, neither by the whole loop nor by one of its rounds. -/
structure Span.Level (K : Nat → Shape → Prop) (l : Span) : Prop where
  whole : ∃ u, K l.entry u ∧ K l.exit u
  round : ∃ u, K l.top u ∧ K l.next u

end Asm

section

variable {K : Nat → Shape → Prop} {T : Targets} {a : Nat} {s t h : Shape}
  {pre head body update post : Asm} {exit : Option Op} {q : Asm.Spots}

theorem Asm.Laid.level (hl : Asm.Laid K T pre head exit body update post a s t h q)
    (hpre : pre.after s = t) (hpost : post.after t = s)
    (hq : q = Asm.spots pre head exit body update a) (lpre : ∀ l ∈ pre.loops a, l.Level K)
    (lhead : ∀ l ∈ head.loops q.top, l.Level K) (lbody : ∀ l ∈ body.loops q.inside, l.Level K)
    (lupdate : ∀ l ∈ update.loops q.next, l.Level K) (lpost : ∀ l ∈ post.loops q.post, l.Level K) :
    ∀ l ∈ (Asm.loop pre head exit body update post).loops a, l.Level K := by
  have hentry : K a s := by
    refine Asm.enters hl.inPre ?_
    have hmark := hl.atMark
    rw [hq] at hmark
    rw [hpre]
    exact hmark
  have hexit := hl.atEnd
  have hround : ∃ u, K q.top u ∧ K q.next u := ⟨_, hl.atTop, hl.atNext⟩
  rw [hpost] at hexit
  subst hq
  simp only [Asm.loops, List.mem_cons, List.mem_append, or_imp, forall_and, forall_eq]
  exact ⟨⟨⟨s, hentry, hexit⟩, hround⟩, lpre, lhead, lbody, lupdate, lpost⟩

end

/-- **The loops of balanced code are level**, whichever jumps leave them. -/
theorem Turns.level {K : Nat → Shape → Prop} {j m n : Nat} {x : Asm} (hx : Turns j m n x) {a : Nat}
    {T : Targets} {s : Shape} (hin : ∀ p ∈ x.listing a T (s.up m), K p.1.place p.2)
    (hout : K (a + x.size) (s.up n)) : ∀ l ∈ x.loops a, l.Level K := by
  induction hx generalizing a T s with
  | skip | op | const | call | ret | leave => exact fun _ hl => by cases hl
  | @frame _ m n _ k _ ih =>
    rw [Nat.add_comm m, ← Shape.up_up] at hin
    rw [Nat.add_comm n, ← Shape.up_up] at hout
    exact ih hin hout
  | seq hx hy ihx ihy =>
    rw [Asm.listing, hx.after] at hin
    rw [Asm.size, ← Nat.add_assoc] at hout
    have hinr := fun p hp => hin p (List.mem_append_right _ hp)
    have hmid := Asm.enters hinr (by rw [hy.after]; exact hout)
    simp only [Asm.loops, List.mem_append, or_imp, forall_and]
    exact ⟨ihx (fun p hp => hin p (List.mem_append_left _ hp)) hmid, ihy hinr hout⟩
  | guard _ ih =>
    have hpast : (s.up 1).past .jifNotPop 0 = s := Shape.past_up s .jifNotPop 0
    rw [Asm.listing, hpast] at hin
    rw [Asm.size, ← Nat.add_assoc] at hout
    exact ih (fun p hp => hin p (List.mem_append_right _ hp)) hout
  | short ho _ ih =>
    rw [Asm.listing, Shape.past_short ho] at hin
    rw [Asm.size, ← Nat.add_assoc] at hout
    exact ih (fun p hp => hin p (List.mem_append_right _ hp)) hout
  | branch hx _ ihx ihy =>
    have hpast : (s.up 1).past .jifNotPop 0 = s := Shape.past_up s .jifNotPop 0
    have hax := hx.after s
    rw [Shape.up_zero] at hax
    simp only [Asm.listing, hpast, hax, List.mem_append, or_imp, forall_and, List.mem_singleton,
      forall_eq] at hin
    obtain ⟨-, inx, ijmp, iny⟩ := hin
    rw [Asm.size, show ∀ b c : Nat, a + (2 + (b + (2 + c))) = a + 2 + b + 2 + c by omega] at hout
    simp only [Asm.loops, List.mem_append, or_imp, forall_and]
    exact ⟨ihx inx ijmp, ihy iny hout⟩
  | @loop _ q _ _ _ _ exit hpre hhead hexit hbody hupdate ihpre ihhead ihbody ihupdate =>
    have hinside : Asm.inside exit (s.marked.up q) = s.marked := by
      rcases hexit with ⟨rfl, rfl⟩ | ⟨rfl, rfl⟩
      · rfl
      · exact Shape.past_up s.marked .jifNotPop 0
    have hl := laid_loop (h := s.marked.up q) (hpre.after s) (hhead.after s.marked)
      (by rw [hinside]; exact hbody.after s.marked) (hupdate.after s.marked) hin hout rfl
    have ibody := hl.inBody
    rw [hinside] at ibody
    exact hl.level (hpre.after s) rfl rfl (ihpre hl.inPre hl.atMark)
      (ihhead (s := s.marked) hl.inHead hl.atTest) (ihbody (s := s.marked) ibody hl.atNext)
      (ihupdate (s := s.marked) hl.inUpdate hl.atBack) fun _ hl => by cases hl
  | @each _ _ _ step hpre hstep hbody ihpre ihbody =>
    have hhead : (Asm.op step).after (s.up 2).marked = (s.up 2).marked.up 1 := by
      rcases hstep with rfl | rfl <;> rfl
    have hl := laid_loop (hpre.after s) hhead (hbody.after (s.up 2).marked) rfl hin hout rfl
    exact hl.level (hpre.after s) rfl rfl (ihpre hl.inPre hl.atMark) (fun _ hl => by cases hl)
      (ihbody (s := (s.up 2).marked) hl.inBody hl.atNext) (fun _ hl => by cases hl) fun _ hl => by cases hl

/-! ## units -/

theorem Asm.Shaped.unique {x : Asm} {ip : Nat} {s t : Shape} (hs : x.Shaped ip s)
    (ht : x.Shaped ip t) : s = t := by
  obtain ⟨i, hi, hip⟩ := hs
  obtain ⟨k, hk, hkp⟩ := ht
  have hrow := (Asm.seq x (.op .ret)).row_items 0 unaimed
  rw [← Asm.fst_listing _ _ _ .none] at hrow
  exact congrArg Prod.snd (hrow.unique hi hk (hip.trans hkp.symm))

theorem Turns.level_unit {x : Asm} (hx : Turns 0 0 1 x) : ∀ l ∈ x.loops 0, l.Level x.Shaped := by
  have hafter : x.after .none = Shape.up .none 1 := hx.after .none
  refine hx.level (T := unaimed) (s := .none)
    (fun p hp => ⟨p.1, List.mem_append_left _ hp, rfl⟩) ?_
  refine ⟨⟨0 + x.size, .ret, 0⟩, List.mem_append_right _ ?_, rfl⟩
  rw [hafter]
  exact List.mem_cons_self

/-- The unit is written from the structured code `x` of statements. -/
structure Code.Spells (c : Code Const) (x : Asm) : Prop where
  lowered : ∃ n body, Lowering.Statements (Lowering.expr n) (Lowering.stmt n) [] body true x
  words : c.words.toList = (Asm.seq x (.op .ret)).words 0 unaimed
  small : c.words.size ≤ 65534
  few : c.consts.size ≤ 65535
  uses : x.Uses c.consts

namespace Code.Spells

variable {c : Code Const} {x : Asm}

theorem turns (h : c.Spells x) : Turns 0 0 1 x := by
  obtain ⟨n, body, hx⟩ := h.lowered
  obtain ⟨hE, hS, -⟩ := Lowering.turns_all n
  exact Lowering.turns_statements hE hS hx

/-- **The shapes of tame code are exact.** -/
theorem typing (h : c.Spells x) (ht : x.Tame) : Typing (· = ·) c.words c.consts.size x.Shaped :=
  h.turns.typing kept_eq (.inr ht) h.words h.small h.few h.uses

end Code.Spells

/-- Every unit of a compiled text is written from structured code. -/
theorem Code.Assembled.spells {c : Code Const} (h : c.Assembled) : ∃ x, c.Spells x := by
  cases h with
  | mk lowered words small few uses => exact ⟨_, ⟨_, _, lowered⟩, words, small, few, uses⟩

end ScriptEngine
