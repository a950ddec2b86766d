import ScriptEngine.Machine.World

/-!
# Passing the gate

One thread enters and leaves, polls, refills its cells, retires storage and asks for collections, in
any order in which it leaves only where it has entered.  Leaving and entering again while a native
waits is one of these orders, and so is entering from within a native.

* `Gate.Coherent`        what holds of the gate between two passages;
* `World.Owed`           a collection has been asked for, and has run or is still to be served;
* `World.Passed`         what a passage keeps, with a lemma for each passage;
* `World.Passage.nest`   how deep inside some passages end, if they can be made in their order;
* `World.gate_of_passages`  the gate after any passages.
-/

namespace ScriptEngine

/-- The flag as it is polled is the flag that was raised, a thread is counted while it is inside, and
nothing is asked of a thread that is outside. -/
structure Gate.Coherent (g : Gate) : Prop where
  pending : g.pending = g.raised
  threads : g.threads = if 0 < g.depth then 1 else 0
  lowered : g.depth = 0 → g.raised = false

namespace Gate.Coherent

variable {g : Gate}

theorem threads_of_pos (h : g.Coherent) (hd : 0 < g.depth) : g.threads = 1 := by
  rw [h.threads, if_pos hd]

/-- Inside, the flag may be up or down. -/
theorem flag (h : g.Coherent) (hd : 0 < g.depth) (gc up : Bool) :
    Coherent { g with needGc := gc, raised := up, pending := up } where
  pending := rfl
  threads := h.threads
  lowered h0 := absurd h0 (Nat.ne_of_gt hd)

end Gate.Coherent

namespace World

variable {w w' w'' : World} {n d : Nat}

/-! ## serving -/

/-- What serving makes of the gate, whether it collects or not. -/
theorem gate_serve (w : World) : w.serve.gate =
    { w.gate with needGc := false, raised := false, pending := false } := by
  unfold serve
  dsimp only
  split
  · rfl
  · rename_i hgc
    have hgc : w.gate.needGc = false := (Bool.not_eq_true _).mp hgc
    show ({ w.gate with raised := false, pending := false } : Gate) = _
    rw [← hgc]

theorem collections_serve (w : World) : w.serve.stats.collections =
    w.stats.collections + if w.gate.needGc then 1 else 0 := by
  unfold serve
  dsimp only
  by_cases hgc : w.gate.needGc
  · rw [if_pos hgc, if_pos (show w.freeDead.gate.needGc = true from hgc)]
    rfl
  · rw [if_neg hgc, if_neg (show ¬w.freeDead.gate.needGc = true from hgc)]
    rfl

/-- A collection was asked for after the first `n` ones, and has run since or is still to be served. -/
def Owed (n : Nat) (w : World) : Prop :=
  n < w.stats.collections ∨
    n ≤ w.stats.collections ∧ w.gate.needGc = true ∧ w.gate.raised = true

theorem Owed.served (h : w.Owed n) : n < w.serve.stats.collections := by
  rw [collections_serve]
  rcases h with h | ⟨h, hgc, -⟩
  · omega
  · rw [if_pos hgc]
    omega

/-- Serving what is asked for, if anything is. -/
def answer (w : World) : World := if w.gate.raised then w.serve else w

theorem gate_answer (h : w.gate.pending = w.gate.raised) :
    w.answer.gate.depth = w.gate.depth ∧ w.answer.gate.threads = w.gate.threads ∧
      w.answer.gate.raised = false ∧ w.answer.gate.pending = false := by
  unfold answer
  split
  · rw [gate_serve]
    exact ⟨rfl, rfl, rfl, rfl⟩
  · rename_i hr
    rw [Bool.not_eq_true] at hr
    exact ⟨rfl, rfl, hr, h.trans hr⟩

theorem Owed.answered (h : w.Owed n) : n < w.answer.stats.collections := by
  unfold answer
  split
  · exact h.served
  · rename_i hr
    exact h.resolve_right fun ⟨_, _, hup⟩ => hr hup

/-! ## one passage -/

/-- What a passage from `w` to `w'` keeps, which ends at depth `d`: the gate stays coherent, nothing
is collected where the thread has entered twice, and what is owed stays owed. -/
structure Passed (w : World) (d : Nat) (w' : World) : Prop where
  depth : w'.gate.depth = d
  coherent : w'.gate.Coherent
  nested : 2 ≤ w.gate.depth ∨ 2 ≤ d → w'.stats.collections = w.stats.collections
  owed : ∀ n, w.Owed n → w'.Owed n

namespace Passed

theorem trans (h : w.Passed w.gate.depth w') (h' : w'.Passed w'.gate.depth w'') :
    w.Passed w.gate.depth w'' where
  depth := h'.depth.trans h.depth
  coherent := h'.coherent
  nested hn := by rw [h'.nested (by rwa [h.depth]), h.nested hn]
  owed n ho := h'.owed n (h.owed n ho)

theorem congr {u u' : World} (h : w.Passed d w') (hg : u.gate = w.gate) (hs : u.stats = w.stats)
    (hg' : u'.gate = w'.gate) (hs' : u'.stats = w'.stats) : u.Passed d u' where
  depth := hg' ▸ h.depth
  coherent := hg' ▸ h.coherent
  nested := by rw [hg, hs, hs']; exact h.nested
  owed n := by rw [Owed, Owed, hg, hs, hg', hs']; exact h.owed n

/-- A passage that does not collect and leaves what is wanted. -/
theorem still (hd : w'.gate.depth = d) (hc : w'.gate.Coherent) (hs : w'.stats = w.stats)
    (hgc : w.gate.needGc = true → w'.gate.needGc = true)
    (hr : w.gate.raised = true → w'.gate.raised = true) : w.Passed d w' where
  depth := hd
  coherent := hc
  nested _ := by rw [hs]
  owed n ho := by
    rw [Owed, hs]
    exact ho.imp_right fun ⟨h, h1, h2⟩ => ⟨h, hgc h1, hr h2⟩

theorem refl (h : w.gate.Coherent) : w.Passed w.gate.depth w := still rfl h rfl id id

end Passed

theorem mayServe_iff (h : 0 < w.gate.depth) : w.mayServe = true ↔ w.gate.depth = 1 := by
  rw [mayServe, decide_eq_true_iff]
  omega

theorem passed_serve (h : w.gate.Coherent) (hd : w.gate.depth = 1) :
    w.Passed w.gate.depth w.serve where
  depth := by rw [gate_serve]
  coherent := by
    rw [gate_serve]
    exact h.flag (by omega) false false
  nested hn := by omega
  owed _ ho := .inl ho.served

theorem passed_request (h : w.gate.Coherent) (hd : 0 < w.gate.depth) (gc : Bool) :
    w.Passed w.gate.depth (w.request gc) :=
  .still rfl (h.flag hd _ true) rfl (fun h => by simp [request, h]) fun _ => rfl

theorem enter_eq (h : w.gate.Coherent) :
    w.enter = { w with gate := { w.gate with depth := w.gate.depth + 1, threads := 1 } } := by
  unfold enter
  dsimp only
  split
  · rename_i hd
    rw [h.threads_of_pos (by omega)]
  · rename_i hd
    have h0 : w.gate.depth = 0 := by omega
    rw [if_neg (by rw [h.lowered h0]; exact Bool.false_ne_true)]
    have ht : w.gate.threads = 0 := by rw [h.threads, h0]; rfl
    rw [ht]

theorem passed_enter (h : w.gate.Coherent) : w.Passed (w.gate.depth + 1) w.enter := by
  rw [enter_eq h]
  refine .still rfl ⟨h.pending, ?_, ?_⟩ rfl id id
  · rw [if_pos (Nat.succ_pos _)]
  · intro h0
    exact absurd h0 (Nat.succ_ne_zero _)

/-- The last way out serves what is asked for. -/
theorem leave_eq_answer (hd : w.gate.depth = 1) : w.leave =
    let u := answer { w with gate := { w.gate with depth := 0 } }
    { u with gate := { u.gate with threads := u.gate.threads - 1 } } := by
  unfold leave answer
  rw [hd]
  rfl

theorem leave_eq_of_nested (hd : 1 < w.gate.depth) :
    w.leave = { w with gate := { w.gate with depth := w.gate.depth - 1 } } := by
  rw [leave, if_pos (show 0 < w.gate.depth - 1 by omega)]

theorem passed_leave (h : w.gate.Coherent) (hd : 0 < w.gate.depth) :
    w.Passed (w.gate.depth - 1) w.leave := by
  have ht := h.threads_of_pos hd
  by_cases h1 : w.gate.depth = 1
  · obtain ⟨hdepth, hthreads, hraised, hpending⟩ :=
      gate_answer (w := { w with gate := { w.gate with depth := 0 } }) h.pending
    rw [leave_eq_answer h1]
    dsimp only at hdepth hthreads ⊢
    refine ⟨by rw [hdepth, h1], ⟨hpending.trans hraised.symm, ?_, fun _ => hraised⟩,
      fun hn => by omega, fun n ho => .inl ?_⟩
    · dsimp only
      rw [hthreads, hdepth, ht]
      rfl
    · have ho' : Owed n { w with gate := { w.gate with depth := 0 } } := ho
      exact ho'.answered
  · have hd' : 0 < w.gate.depth - 1 := by omega
    rw [leave_eq_of_nested (by omega)]
    refine .still rfl ⟨h.pending, ht.trans (if_pos hd').symm, fun h0 => ?_⟩ rfl id id
    exact absurd h0 (Nat.ne_of_gt hd')

theorem passed_poll (h : w.gate.Coherent) (hd : 0 < w.gate.depth) :
    w.Passed w.gate.depth w.poll := by
  unfold poll
  split
  · rename_i hc
    simp only [Bool.and_eq_true] at hc
    exact passed_serve h ((mayServe_iff hd).mp hc.1.2)
  · exact .refl h

/-- Wanting a collection without asking for the gate to be served. -/
theorem passed_wanted (h : w.gate.Coherent) (hd : 0 < w.gate.depth) :
    w.Passed w.gate.depth { w with gate := { w.gate with needGc := true } } :=
  .still rfl ⟨h.pending, h.threads, fun h0 => absurd h0 (Nat.ne_of_gt hd)⟩ rfl (fun _ => rfl) id

theorem passed_wanted_serve (h : w.gate.Coherent) (hd : w.gate.depth = 1) :
    w.Passed w.gate.depth { w with gate := { w.gate with needGc := true } }.serve := by
  have h1 := passed_wanted h (by omega)
  exact h1.trans (passed_serve h1.coherent hd)

theorem passed_collectNow (h : w.gate.Coherent) (hd : 0 < w.gate.depth) :
    w.Passed w.gate.depth w.collectNow := by
  unfold collectNow
  split
  · rename_i hm
    exact passed_wanted_serve h ((mayServe_iff hd).mp hm)
  · exact passed_request h hd true

theorem passed_retire (h : w.gate.Coherent) (hd : 0 < w.gate.depth) :
    w.Passed w.gate.depth w.retire := by
  unfold retire
  dsimp only
  split
  · split
    · rename_i hm
      have hm : w.gate.depth = 1 := (mayServe_iff hd).mp hm
      exact (passed_serve (w := { w with dead := w.dead + 1 }) h hm).congr rfl rfl rfl rfl
    · exact (passed_request h hd false).congr rfl rfl rfl rfl
  · exact (Passed.refl h).congr rfl rfl rfl rfl

theorem passed_cellsOf (h : w.gate.Coherent) (hd : 0 < w.gate.depth) (k : Kind) (n : Nat) :
    w.Passed w.gate.depth (w.cellsOf k n).2 := by
  unfold cellsOf
  extract_lets serves u
  -- what was asked for before
  have hu : w.Passed w.gate.depth u := by
    unfold u
    split
    · rename_i hc
      rw [Bool.and_eq_true] at hc
      exact passed_serve h ((mayServe_iff hd).mp hc.2)
    · exact .refl h
  have hdu : 0 < u.gate.depth := hu.depth.symm ▸ hd
  dsimp only
  split
  · exact hu.congr rfl rfl rfl rfl
  · -- the pool is dry
    split
    · rename_i hm
      have hm : u.gate.depth = 1 := hu.depth.trans ((mayServe_iff hd).mp hm)
      have hs := hu.trans (passed_wanted_serve hu.coherent hm)
      split
      · exact hs.congr rfl rfl rfl rfl
      · exact hs.congr rfl rfl rfl rfl
    · exact (hu.trans (passed_wanted hu.coherent hdu)).congr rfl rfl rfl rfl

theorem passed_refill (h : w.gate.Coherent) (hd : 0 < w.gate.depth) (cx : CtxId) (k : Kind)
    (b : Body) : w.Passed w.gate.depth (w.refill cx k b).2 := by
  unfold refill
  extract_lets base u
  exact (passed_cellsOf (w := u) h hd k u.options.allocBatch).congr rfl rfl rfl rfl

/-! ## asking for a collection -/

theorem owed_request (w : World) : (w.request true).Owed w.stats.collections :=
  .inr ⟨Nat.le_refl _, Bool.or_true _, rfl⟩

theorem owed_collectNow (w : World) : w.collectNow.Owed w.stats.collections := by
  unfold collectNow
  split
  · left
    rw [collections_serve]
    exact Nat.lt_succ_self _
  · exact owed_request w

/-- From outside, asking for a collection is entering, collecting and leaving. -/
theorem passed_collect (h : w.gate.Coherent) :
    w.Passed w.gate.depth w.collect ∧ w.collect.Owed w.stats.collections := by
  unfold collect
  split
  · rename_i hd
    exact ⟨passed_request h hd true, owed_request w⟩
  · rename_i hd
    have h1 := passed_enter h
    have hd1 : 0 < w.enter.gate.depth := by rw [h1.depth]; exact Nat.succ_pos _
    have h2 := passed_collectNow h1.coherent hd1
    have h3 := passed_leave h2.coherent (h2.depth.symm ▸ hd1)
    have hstats : w.enter.stats = w.stats := by rw [enter_eq h]
    refine ⟨⟨?_, h3.coherent, fun hn => by omega, fun n ho => ?_⟩, ?_⟩
    · rw [h3.depth, h2.depth, h1.depth, Nat.add_sub_cancel]
    · exact h3.owed n (h2.owed n (h1.owed n ho))
    · exact h3.owed _ (hstats ▸ owed_collectNow w.enter)

/-! ## any passages -/

/-- What one thread can do at the gate. -/
inductive Passage where
  | enter
  | leave
  | poll
  | refill (cx : CtxId) (k : Kind) (pending : Body)
  | retire
  | collectNow
  | collect
  /-- Work between two passages, which ends in `next` except for the gate and the counters. -/
  | work (next : World)

namespace Passage

def act : Passage → World → World
  | enter, w => w.enter
  | leave, w => w.leave
  | poll, w => w.poll
  | refill cx k b, w => (w.refill cx k b).2
  | retire, w => w.retire
  | collectNow, w => w.collectNow
  | collect, w => w.collect
  | work next, w => { next with gate := w.gate, stats := w.stats }

/-- How deep inside a passage ends that starts at depth `d`; `none` for what is only done inside. -/
def depth? : Passage → Nat → Option Nat
  | enter, d => some (d + 1)
  | leave, d => if 0 < d then some (d - 1) else none
  | collect, d => some d
  | work _, d => some d
  | _, d => if 0 < d then some d else none

/-- How deep inside some passages end, if they can be made in their order. -/
def nest : List Passage → Nat → Option Nat
  | [], d => some d
  | p :: ps, d => (p.depth? d).bind (nest ps)

def Asks (p : Passage) : Prop := p = collectNow ∨ p = collect

theorem nest_append (ps qs : List Passage) (d : Nat) :
    nest (ps ++ qs) d = (nest ps d).bind (nest qs) := by
  induction ps generalizing d with
  | nil => rfl
  | cons p ps ih =>
    rw [List.cons_append, nest, nest, Option.bind_assoc]
    congr 1
    funext e
    exact ih e

theorem passed {p : Passage} (h : w.gate.Coherent) (hp : p.depth? w.gate.depth = some d) :
    w.Passed d (p.act w) := by
  cases p with
  | enter => exact Option.some.inj hp ▸ passed_enter h
  | collect => exact Option.some.inj hp ▸ (passed_collect h).1
  | work next => exact Option.some.inj hp ▸ (Passed.refl h).congr rfl rfl rfl rfl
  | _ =>
    -- the others are only done inside
    obtain ⟨hd, hp⟩ := Option.ite_none_right_eq_some.mp hp
    cases hp
    first
      | exact passed_leave h hd
      | exact passed_poll h hd
      | exact passed_refill h hd _ _ _
      | exact passed_retire h hd
      | exact passed_collectNow h hd

theorem owed {p : Passage} (h : w.gate.Coherent) (hp : p.Asks) :
    (p.act w).Owed w.stats.collections := by
  rcases hp with rfl | rfl
  · exact owed_collectNow w
  · exact (passed_collect h).2

end Passage

def pass (w : World) (ps : List Passage) : World := ps.foldl (fun w p => p.act w) w

theorem pass_append (w : World) (ps qs : List Passage) : w.pass (ps ++ qs) = (w.pass ps).pass qs :=
  List.foldl_append

theorem passes {ps : List Passage} (h : w.gate.Coherent)
    (hps : Passage.nest ps w.gate.depth = some d) :
    (w.pass ps).gate.depth = d ∧ (w.pass ps).gate.Coherent ∧ ∀ n, w.Owed n → (w.pass ps).Owed n := by
  induction ps generalizing w with
  | nil => exact ⟨Option.some.inj hps, h, fun _ ho => ho⟩
  | cons p ps ih =>
    obtain ⟨e, hp, hps⟩ := Option.bind_eq_some_iff.mp hps
    have h1 := Passage.passed h hp
    obtain ⟨hd, hc, ho⟩ := ih h1.coherent (h1.depth.symm ▸ hps)
    exact ⟨hd, hc, fun n hn => ho n (h1.owed n hn)⟩

/-- **The gate after any passages from outside.**  The polled flag is the raised one, and the thread
is counted once while it is inside.  Nothing is collected in a passage that starts or ends where the
thread has entered twice.  Outside again nothing is pending, and each collection that was asked for
has run since. -/
theorem gate_of_passages {ps : List Passage} (h : w.gate.Coherent) (hw : w.gate.depth = 0)
    (hps : Passage.nest ps 0 = some d) :
    (w.pass ps).gate.depth = d ∧ (w.pass ps).gate.pending = (w.pass ps).gate.raised ∧
    (w.pass ps).gate.threads = (if 0 < d then 1 else 0) ∧
    (∀ before p after, ps = before ++ p :: after →
      2 ≤ (w.pass before).gate.depth ∨ 2 ≤ (p.act (w.pass before)).gate.depth →
      (p.act (w.pass before)).stats.collections = (w.pass before).stats.collections) ∧
    (d = 0 → (w.pass ps).gate.raised = false ∧ (w.pass ps).gate.pending = false ∧
      ∀ before p after, ps = before ++ p :: after → p.Asks →
        (w.pass before).stats.collections < (w.pass ps).stats.collections) := by
  rw [← hw] at hps
  obtain ⟨hd, hc, -⟩ := passes h hps
  -- a passage, the state it starts from and the passages after it
  have at_passage {before p after} (e : ps = before ++ p :: after) :
      (w.pass before).gate.Coherent ∧ ∃ d₁ d₂, (w.pass before).Passed d₁ (p.act (w.pass before)) ∧
        Passage.nest after d₁ = some d₂ ∧ (w.pass ps) = (p.act (w.pass before)).pass after := by
    rw [e, Passage.nest_append] at hps
    obtain ⟨d₀, h0, hps⟩ := Option.bind_eq_some_iff.mp hps
    obtain ⟨hd₀, hc₀, -⟩ := passes h h0
    obtain ⟨d₁, h1, hps⟩ := Option.bind_eq_some_iff.mp hps
    exact ⟨hc₀, d₁, d, Passage.passed hc₀ (hd₀ ▸ h1), hps, by rw [e, pass_append]; rfl⟩
  refine ⟨hd, hc.pending, hd ▸ hc.threads, fun before p after e hn => ?_, fun h0 => ?_⟩
  · obtain ⟨-, d₁, -, h1, -⟩ := at_passage e
    exact h1.nested (h1.depth ▸ hn)
  · have hr := hc.lowered (hd.trans h0)
    refine ⟨hr, hc.pending.trans hr, fun before p after e hp => ?_⟩
    obtain ⟨hc₀, d₁, d₂, h1, h2, hps⟩ := at_passage e
    have ho := (passes h1.coherent (h1.depth ▸ h2)).2.2 _ (Passage.owed hc₀ hp)
    rw [← hps] at ho
    exact ho.resolve_right fun ⟨_, _, hup⟩ => Bool.false_ne_true (hr.symm.trans hup)

theorem coherent_new (options : Options) : (World.new options).gate.Coherent :=
  ⟨rfl, rfl, fun _ => rfl⟩

/-- From within a native of a native, a collection is asked for and runs on the way out. -/
theorem gate_of_passages_nested :
    let ps : List Passage := [.enter, .enter, .collect, .leave, .leave]
    (World.new {}).gate.Coherent ∧ (World.new {}).gate.depth = 0 ∧
    Passage.nest ps 0 = some 0 ∧
    ((World.new {}).pass [.enter, .enter]).stats.collections
      < ((World.new {}).pass ps).stats.collections :=
  ⟨coherent_new {}, rfl, rfl,
    (gate_of_passages (coherent_new {}) rfl
      (show Passage.nest [.enter, .enter, .collect, .leave, .leave] 0 = some 0 from rfl)).2.2.2.2
      rfl |>.2.2 [.enter, .enter] .collect [.leave, .leave] rfl (.inr rfl)⟩

end World
end ScriptEngine
