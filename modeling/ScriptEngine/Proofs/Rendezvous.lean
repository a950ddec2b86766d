import Mathlib.Data.Fintype.Basic
import Mathlib.Data.Finset.Card
import Mathlib.Logic.Relation
import ScriptEngine.Rendezvous

/-!
# Threads at the rendezvous

A thread counts as waiting from when it starts to wait for a permit until it has the lock again, with
or without a permit in hand.  While the flag is up somebody inside is not counted so, which is why the
last to come finds nobody at work; and while it is down there is a permit for each thread that sleeps.

* `Phase.registered`, `Phase.waits`, `Phase.asleep`   how a thread counts;
* `Comes`          what an action of a thread comes to: at most one round;
* `Fits`           what holds of the shared state and of one thread, given how the others count;
* `Fits.round`     one round keeps that, and `Fits.comes` any action;
* `Orderly`        the invariant, and `Reachable.orderly` that it holds at all times;
* `Owed`           a collection that was asked for, and what the thread that asked can rely on;
* `Reachable.collects_alone`, `Reachable.never_stuck`   the main results.
-/

namespace ScriptEngine.Rendezvous

/-! ## how threads count -/

namespace Phase

/-- The thread counts as inside. -/
def registered : Phase → Bool
  | outside => false
  | _ => true

/-- The thread counts as waiting. -/
def waits : Phase → Bool
  | waiting _ | woken _ => true
  | _ => false

/-- The thread has no permit yet. -/
def asleep : Phase → Bool
  | waiting _ => true
  | _ => false

/-- Inside the wait of a collection asked for when there had been `m`. -/
def awaits (m : Nat) : Phase → Bool
  | waiting e | woken e => e = .collect m
  | _ => false

theorem registered_of_waits {p : Phase} (h : p.waits = true) : p.registered = true := by
  cases p <;> first | rfl | exact nomatch h

theorem inside_of_registered {p : Phase} (h : p.registered = true) (hw : p.waits = false) :
    p = .inside := by
  cases p with
  | inside => rfl
  | outside => exact nomatch h
  | waiting _ | woken _ => exact nomatch hw

theorem waits_of_asleep {p : Phase} (h : p.asleep = true) : p.waits = true := by
  cases p <;> first | rfl | exact nomatch h

theorem waits_of_awaits {m : Nat} {p : Phase} (h : p.awaits m = true) : p.waits = true := by
  cases p <;> first | rfl | exact nomatch h

end Phase

section

variable {n : Nat}

/-- The threads that count in some way. -/
def State.those (s : State n) (p : Phase → Bool) : Finset (Fin n) :=
  Finset.univ.filter fun j => p (s.threads j).phase

/-- How many of the others do. -/
def State.others (s : State n) (i : Fin n) (p : Phase → Bool) : Nat := ((s.those p).erase i).card

theorem State.mem_those {s : State n} {p : Phase → Bool} {j : Fin n} :
    j ∈ s.those p ↔ p (s.threads j).phase = true := by
  simp [State.those]

/-- A thread counts for itself, and the others count besides. -/
theorem State.card_those (s : State n) (i : Fin n) (p : Phase → Bool) :
    (s.those p).card = s.others i p + (p (s.threads i).phase).toNat := by
  unfold State.others
  cases hp : p (s.threads i).phase with
  | false =>
    have hi : i ∉ s.those p := by rw [State.mem_those, hp]; exact Bool.false_ne_true
    rw [Finset.erase_eq_of_notMem hi]
    rfl
  | true => exact (Finset.card_erase_add_one (State.mem_those.mpr hp)).symm

theorem State.others_mono (s : State n) (i : Fin n) {p q : Phase → Bool} (h : ∀ x, p x = true → q x = true) :
    s.others i p ≤ s.others i q := by
  refine Finset.card_le_card (Finset.erase_subset_erase i fun j hj => ?_)
  exact State.mem_those.mpr (h _ (State.mem_those.mp hj))

/-- An action of a thread is no matter to how the others count. -/
theorem State.others_congr {s t : State n} {i : Fin n} (h : ∀ j, j ≠ i → t.threads j = s.threads j)
    (p : Phase → Bool) : t.others i p = s.others i p := by
  refine congrArg Finset.card (Finset.ext fun j => ?_)
  rw [Finset.mem_erase, Finset.mem_erase, State.mem_those, State.mem_those]
  exact and_congr_right fun hj => by rw [h j hj]

end

/-! ## what an action comes to -/

/-- A thread wants a collection, or raises the flag, or neither. -/
inductive Asks (s : Shared) : Shared → Prop
  | same : Asks s s
  | wants {gc : Bool} (h : s.needGc = true → gc = true) : Asks s { s with needGc := gc }
  | raises {gc : Bool} (h : s.needGc = true → gc = true) :
    Asks s { s with raised := true, pending := true, needGc := gc }

/-- What an action makes of the shared state and of the phase of the thread. -/
inductive Comes (s : Shared) : Phase → Shared → Phase → Prop
  | stay {s' : Shared} (h : Asks s s') : Comes s .inside s' .inside
  | round {s' : Shared} (h : Asks s s') (e : Errand) : Comes s .inside (round s' e).1 (round s' e).2
  | enter {s' : Shared} (h : Asks { s with threads := s.threads + 1 } s') :
    Comes s .outside (Rendezvous.round s' .enter).1 (Rendezvous.round s' .enter).2
  | take {e : Errand} {m : Nat} (h : s.permits = m + 1) :
    Comes s (.waiting e) { s with permits := m } (.woken e)
  | proceed (e : Errand) : Comes s (.woken e) (Rendezvous.round { s with waiting := s.waiting - 1 } e).1
    (Rendezvous.round { s with waiting := s.waiting - 1 } e).2

section

variable {s s' : Shared} {e : Errand} {t t' : Thread} {x : Action}

/-- With the flag down nobody waits and nobody works. -/
theorem round_of_lowered (h : s.raised = false) (e : Errand) : round s e = conclude s e := by
  simp [round, h]

theorem comes_of_step (h : step s t x = some (s', t')) : Comes s t.phase s' t'.phase := by
  obtain ⟨phase, depth⟩ := t
  cases x with
  | enter =>
    simp only [step] at h
    split at h
    · cases h
      show Comes s .outside (ite _ _ (conclude _ .enter)).1 (ite _ _ (conclude _ .enter)).2
      split
      · exact .enter (.raises id)
      · rename_i hr
        rw [← round_of_lowered (s := { s with threads := s.threads + 1 }) (Bool.eq_false_iff.mpr hr)]
        exact .enter .same
    · cases h
      exact .stay .same
    · exact nomatch h
  | leave =>
    simp only [step] at h
    split at h
    · cases h
      dsimp only
      split
      · exact .round (.raises id) _
      · rename_i hr
        rw [← round_of_lowered (Bool.eq_false_iff.mpr hr)]
        exact .round .same _
    · cases h
      exact .stay .same
    · exact nomatch h
  | poll =>
    simp only [step] at h
    split at h
    · rename_i hp
      obtain rfl : phase = .inside := hp
      cases h
      dsimp only
      split
      · exact .round (.raises id) .poll
      · exact .stay .same
    · exact nomatch h
  | collect =>
    obtain ⟨rfl, h⟩ := Option.ite_none_right_eq_some.mp h
    dsimp only at h
    split at h
    · cases h
      exact .round (.raises fun _ => rfl) _
    · cases h
      exact .stay (.raises fun hgc => by simp [hgc])
  | request =>
    obtain ⟨rfl, h⟩ := Option.ite_none_right_eq_some.mp h
    cases h
    exact .stay (.raises fun hgc => by simp [hgc])
  | drain =>
    obtain ⟨rfl, h⟩ := Option.ite_none_right_eq_some.mp h
    dsimp only at h
    split at h
    · cases h
      exact .round (.raises id) .drain
    · cases h
      exact .stay (.raises fun hgc => by simp [hgc])
  | refill dry =>
    obtain ⟨rfl, h⟩ := Option.ite_none_right_eq_some.mp h
    dsimp only at h
    split at h
    · cases h
      exact .stay (.wants fun hgc => by simp [hgc])
    · split at h
      · cases h
        exact .round (.raises id) .refill
      · split at h
        · cases h
          exact .round (.raises fun _ => rfl) .refill
        · cases h
          exact .stay .same
  | take =>
    simp only [step] at h
    split at h
    · rename_i e m hm
      cases h
      exact .take hm
    · exact nomatch h
  | proceed =>
    simp only [step] at h
    split at h
    · rename_i e
      cases h
      exact .proceed e
    · exact nomatch h

end

/-! ## one thread among others -/

/-- The shared state fits a thread in the phase `p`, where of the others `r` are inside, `k` count as
waiting and `a` have no permit. -/
structure Fits (r k a : Nat) (s : Shared) (p : Phase) : Prop where
  threads : s.threads = r + p.registered.toNat
  waiting : s.waiting = k + p.waits.toNat
  /-- Somebody inside does not wait. -/
  raised : s.raised = true → s.waiting < s.threads
  /-- Nobody lacks a permit. -/
  lowered : s.raised = false → a + p.asleep.toNat ≤ s.permits

section

variable {r k a : Nat} {s s' : Shared} {p p' : Phase}

theorem Fits.asks (hk : k ≤ r) (h : Fits r k a s .inside) (ha : Asks s s') : Fits r k a s' .inside := by
  cases ha with
  | same => exact h
  | wants _ => exact ⟨h.threads, h.waiting, h.raised, h.lowered⟩
  | raises _ =>
    refine ⟨h.threads, h.waiting, fun _ => ?_, nofun⟩
    have ht : s.threads = r + 1 := h.threads
    have hw : s.waiting = k := h.waiting
    show s.waiting < s.threads
    omega

theorem Fits.conclude (h : Fits r k a s .inside) (hr : s.raised = false) (e : Errand) :
    Fits r k a (conclude s e).1 (conclude s e).2 := by
  cases e with
  | leave =>
    have hd : s.depart = { s with threads := s.threads - 1 } := by simp [Shared.depart, hr]
    show Fits r k a s.depart .outside
    rw [hd]
    refine ⟨?_, h.waiting, fun h' => (nomatch h'.symm.trans hr), h.lowered⟩
    show s.threads - 1 = r
    rw [h.threads]
    rfl
  | _ => exact h

/-- The last to come hands out a permit to everybody who may lack one. -/
theorem Fits.work (ha : a ≤ k) (h : Fits r k a s .inside) : Fits r k a s.work .inside := by
  refine ⟨h.threads, h.waiting, nofun, fun _ => ?_⟩
  have hw : s.waiting = k := h.waiting
  show a ≤ s.permits + s.waiting
  omega

/-- **One round** of a thread that is inside and does not count as waiting. -/
theorem Fits.round (ha : a ≤ k) (h : Fits r k a s .inside) (e : Errand) :
    Fits r k a (round s e).1 (round s e).2 := by
  unfold Rendezvous.round
  split
  · rename_i hc
    simp only [Bool.and_eq_true, Bool.not_eq_true', Shared.isLast, decide_eq_false_iff_not] at hc
    have ht : s.threads = r + 1 := h.threads
    have hw : s.waiting = k := h.waiting
    refine ⟨h.threads, congrArg (· + 1) hw, fun _ => ?_, fun hr => nomatch hr.symm.trans hc.1⟩
    show s.waiting + 1 < s.threads
    omega
  · split
    · exact (h.work ha).conclude rfl e
    · rename_i hr
      exact h.conclude (Bool.eq_false_iff.mpr hr) e

theorem Fits.comes (hk : k ≤ r) (ha : a ≤ k) (h : Fits r k a s p) (hs : Comes s p s' p') :
    Fits r k a s' p' := by
  cases hs with
  | stay hq => exact h.asks hk hq
  | round hq e => exact (h.asks hk hq).round ha e
  | enter hq =>
    have ht : s.threads = r := h.threads
    have hw : s.waiting = k := h.waiting
    have hin : Fits r k a { s with threads := s.threads + 1 } .inside :=
      ⟨congrArg (· + 1) ht, hw, fun _ => show s.waiting < s.threads + 1 by omega, h.lowered⟩
    exact (hin.asks hk hq).round ha .enter
  | @take e m hm =>
    refine ⟨h.threads, h.waiting, h.raised, fun hr => ?_⟩
    have hl : a + 1 ≤ s.permits := h.lowered hr
    show a ≤ m
    omega
  | proceed e =>
    have ht : s.threads = r + 1 := h.threads
    have hw : s.waiting = k + 1 := h.waiting
    have hin : Fits r k a { s with waiting := s.waiting - 1 } .inside :=
      ⟨ht, show s.waiting - 1 = k by omega, fun _ => show s.waiting - 1 < s.threads by omega, h.lowered⟩
    exact hin.round ha e

/-- A round in which some work is done is made by the last to come. -/
theorem last_of_round {e : Errand} (hw : (Rendezvous.round s e).1.collections ≠ s.collections ∨
    (Rendezvous.round s e).1.drains ≠ s.drains) : s.threads - 1 ≤ s.waiting := by
  have hconclude (s : Shared) : (Rendezvous.conclude s e).1.collections = s.collections ∧
      (Rendezvous.conclude s e).1.drains = s.drains := by
    cases e with
    | leave =>
      show s.depart.collections = _ ∧ s.depart.drains = _
      unfold Shared.depart
      dsimp only
      split <;> exact ⟨rfl, rfl⟩
    | _ => exact ⟨rfl, rfl⟩
  unfold Rendezvous.round at hw
  split at hw
  · exact absurd hw (by simp)
  · rename_i hc
    split at hw
    · rename_i hr
      rw [Bool.and_eq_true, not_and, Bool.not_eq_true', Shared.isLast, decide_eq_false_iff_not, not_not] at hc
      exact hc hr
    · rw [(hconclude s).1, (hconclude s).2] at hw
      exact absurd hw (by simp)

theorem Asks.counts (h : Asks s s') : s'.threads = s.threads ∧ s'.waiting = s.waiting ∧
    s'.collections = s.collections ∧ s'.drains = s.drains := by
  cases h <;> exact ⟨rfl, rfl, rfl, rfl⟩

/-- **Who does the work** finds as many waiting as there are others inside. -/
theorem Fits.alone (h : Fits r k a s p) (hs : Comes s p s' p')
    (hw : s'.collections ≠ s.collections ∨ s'.drains ≠ s.drains) : r ≤ k := by
  have ht := h.threads
  have hk := h.waiting
  cases hs with
  | stay hq =>
    obtain ⟨-, -, hc, hd⟩ := hq.counts
    exact absurd hw (by simp [hc, hd])
  | round hq e =>
    obtain ⟨htq, hkq, hc, hd⟩ := hq.counts
    rw [← hc, ← hd] at hw
    have hlast := last_of_round hw
    simp only [Phase.registered, Phase.waits, Bool.toNat_true, Bool.toNat_false] at ht hk
    omega
  | enter hq =>
    obtain ⟨htq, hkq, hc, hd⟩ := hq.counts
    dsimp only at htq hkq hc hd
    rw [← hc, ← hd] at hw
    have hlast := last_of_round hw
    simp only [Phase.registered, Phase.waits, Bool.toNat_false] at ht hk
    omega
  | take hm => exact absurd hw (by simp)
  | proceed e =>
    have hlast := last_of_round (s := { s with waiting := s.waiting - 1 }) hw
    dsimp only at hlast
    simp only [Phase.registered, Phase.waits, Bool.toNat_true] at ht hk
    omega

end

/-! ## collections that were asked for -/

/-- A collection was asked for after the first `m` ones, and has run since or is still to be run. -/
def Owed (m : Nat) (s : Shared) : Prop :=
  m < s.collections ∨ m ≤ s.collections ∧ s.needGc = true ∧ s.raised = true

section

variable {m : Nat} {s s' : Shared} {p p' : Phase}

theorem Owed.asks (h : Owed m s) (ha : Asks s s') : Owed m s' := by
  cases ha with
  | same => exact h
  | wants hgc => exact h.imp_right fun ⟨hm, hw, hr⟩ => ⟨hm, hgc hw, hr⟩
  | raises hgc => exact h.imp_right fun ⟨hm, hw, _⟩ => ⟨hm, hgc hw, rfl⟩

theorem collections_conclude (s : Shared) (e : Errand) : (conclude s e).1.collections = s.collections := by
  cases e with
  | leave =>
    show s.depart.collections = _
    unfold Shared.depart
    dsimp only
    split <;> rfl
  | _ => rfl

theorem collections_le_round (s : Shared) (e : Errand) : s.collections ≤ (round s e).1.collections := by
  unfold Rendezvous.round
  split
  · exact le_rfl
  · split
    · rw [collections_conclude]
      show s.collections ≤ if s.needGc = true then s.collections + 1 else s.collections
      split <;> omega
    · rw [collections_conclude]

/-- **A round** ends in the wait, or what was owed has been done. -/
theorem Owed.round (h : Owed m s) (e : Errand) :
    (round s e).2 = .waiting e ∧ Owed m (round s e).1 ∨ m < (round s e).1.collections := by
  unfold Rendezvous.round
  split
  · exact .inl ⟨rfl, h⟩
  · right
    split
    · rename_i hr
      rw [collections_conclude]
      show m < if s.needGc = true then s.collections + 1 else s.collections
      rcases h with h | ⟨hm, hgc, -⟩
      · split <;> omega
      · rw [if_pos hgc]
        omega
    · rename_i hr
      rw [collections_conclude]
      exact h.resolve_right fun h => hr h.2.2

theorem Owed.comes (h : Owed m s) (hs : Comes s p s' p') : Owed m s' := by
  cases hs with
  | stay hq => exact h.asks hq
  | round hq e => exact ((h.asks hq).round e).elim And.right .inl
  | enter hq =>
    have h' : Owed m { s with threads := s.threads + 1 } := h
    exact ((h'.asks hq).round .enter).elim And.right .inl
  | take _ => exact h
  | proceed e =>
    have h' : Owed m { s with waiting := s.waiting - 1 } := h
    exact (h'.round e).elim And.right .inl

theorem Comes.collections_le (h : Comes s p s' p') : s.collections ≤ s'.collections := by
  cases h with
  | stay hq => exact hq.counts.2.2.1.ge
  | round hq e => exact hq.counts.2.2.1.ge.trans (collections_le_round _ e)
  | enter hq => exact hq.counts.2.2.1.ge.trans (collections_le_round _ .enter)
  | take _ => exact le_rfl
  | proceed e => exact collections_le_round { s with waiting := s.waiting - 1 } e

/-- **A thread that waits for a collection** goes on only after one. -/
theorem Owed.awaited (h : Owed m s) (hp : p.awaits m = true) (hs : Comes s p s' p') :
    p'.awaits m = true ∨ m < s'.collections := by
  cases hs with
  | stay _ | round _ _ | enter _ => exact nomatch hp
  | take _ => exact .inl hp
  | proceed e =>
    have h' : Owed m { s with waiting := s.waiting - 1 } := h
    refine (h'.round e).imp_left fun ⟨he, _⟩ => ?_
    rw [he]
    exact hp

end

/-! ## all threads -/

section

variable {n : Nat} {s t u : State n} {i : Fin n} {a : Action}

/-- An action changes what is shared, and the thread that makes it. -/
theorem comes_of_act (h : act s i a = some t) :
    Comes s.shared (s.threads i).phase t.shared (t.threads i).phase ∧
      ∀ j, j ≠ i → t.threads j = s.threads j := by
  obtain ⟨⟨shared, thread⟩, hs, rfl⟩ := Option.map_eq_some_iff.mp h
  refine ⟨?_, fun j hj => if_neg hj⟩
  dsimp only
  rw [if_pos rfl]
  exact comes_of_step hs

/-- Everybody is counted, somebody inside does not wait while the flag is up, and nobody lacks a permit
while it is down. -/
structure Orderly (s : State n) : Prop where
  threads : s.shared.threads = (s.those Phase.registered).card
  waiting : s.shared.waiting = (s.those Phase.waits).card
  raised : s.shared.raised = true → s.shared.waiting < s.shared.threads
  lowered : s.shared.raised = false → (s.those Phase.asleep).card ≤ s.shared.permits

theorem orderly_iff (s : State n) (i : Fin n) : Orderly s ↔ Fits (s.others i Phase.registered)
    (s.others i Phase.waits) (s.others i Phase.asleep) s.shared (s.threads i).phase := by
  constructor
  · rintro ⟨ht, hw, hr, hl⟩
    rw [s.card_those i] at ht hw hl
    exact ⟨ht, hw, hr, hl⟩
  · rintro ⟨ht, hw, hr, hl⟩
    rw [← s.card_those i] at ht hw hl
    exact ⟨ht, hw, hr, hl⟩

theorem Orderly.act (h : Orderly s) (ha : act s i a = some t) : Orderly t := by
  obtain ⟨hs, hothers⟩ := comes_of_act ha
  rw [orderly_iff s i] at h
  rw [orderly_iff t i, State.others_congr hothers, State.others_congr hothers, State.others_congr hothers]
  exact h.comes (s.others_mono i fun _ => Phase.registered_of_waits)
    (s.others_mono i fun _ => Phase.waits_of_asleep) hs

theorem Reachable.orderly (h : Reachable s) : Orderly s := by
  induction h with
  | start =>
    have hnone {p : Phase → Bool} (hp : p .outside = false) : (State.those ({} : State n) p).card = 0 := by
      refine Finset.card_eq_zero.mpr (Finset.eq_empty_of_forall_notMem fun j hj => ?_)
      exact nomatch hp.symm.trans (State.mem_those.mp hj)
    exact ⟨(hnone rfl).symm, (hnone rfl).symm, nofun, fun _ => Nat.le_of_eq (hnone rfl)⟩
  | next _ ha ih => exact ih.act ha

/-- One state after another, with any actions in between. -/
def Later : State n → State n → Prop := Relation.ReflTransGen fun s t => ∃ i a, act s i a = some t

/-- The state after some actions, where what cannot be done is left out. -/
def State.after (s : State n) (xs : List (Fin n × Action)) : State n :=
  xs.foldl (fun s (i, a) => (Rendezvous.act s i a).getD s) s

theorem later_after (s : State n) (xs : List (Fin n × Action)) : Later s (s.after xs) := by
  induction xs generalizing s with
  | nil => exact .refl
  | cons x xs ih =>
    obtain ⟨i, a⟩ := x
    show Later s (State.after ((act s i a).getD s) xs)
    cases h : act s i a with
    | none => exact ih s
    | some t => exact .head ⟨i, a, h⟩ (ih t)

theorem Reachable.later (h : Reachable s) (hl : Later s t) : Reachable t := by
  induction hl with
  | refl => exact h
  | tail _ hstep ih =>
    obtain ⟨i, a, ha⟩ := hstep
    exact .next ih ha

theorem Reachable.after (h : Reachable s) (xs : List (Fin n × Action)) : Reachable (s.after xs) :=
  h.later (later_after s xs)

/-- A thread asked for a collection when there had been `m`: it still waits for it, or it has been. -/
def Settled (m : Nat) (i : Fin n) (s : State n) : Prop :=
  (s.threads i).phase.awaits m = true ∧ Owed m s.shared ∨ m < s.shared.collections

theorem Settled.act {m : Nat} {j : Fin n} (h : Settled m i s) (ha : act s j a = some t) : Settled m i t := by
  obtain ⟨hs, hothers⟩ := comes_of_act ha
  rcases h with ⟨hp, ho⟩ | h
  · have ho' := ho.comes hs
    by_cases hij : i = j
    · subst hij
      exact (ho.awaited hp hs).imp_left fun hp' => ⟨hp', ho'⟩
    · refine .inl ⟨?_, ho'⟩
      rw [hothers i hij]
      exact hp
  · exact .inr (h.trans_le hs.collections_le)

theorem Settled.later {m : Nat} (h : Settled m i s) (hl : Later s t) : Settled m i t := by
  induction hl with
  | refl => exact h
  | tail _ hstep ih =>
    obtain ⟨j, a, ha⟩ := hstep
    exact ih.act ha

/-- A thread that collects, and has entered once, waits for the collection or has made it. -/
theorem settled_of_collect (hd : (s.threads i).depth ≤ 1) (h : act s i .collect = some t) :
    Settled s.shared.collections i t := by
  obtain ⟨⟨shared, thread⟩, hs, rfl⟩ := Option.map_eq_some_iff.mp h
  obtain ⟨-, hs⟩ := Option.ite_none_right_eq_some.mp hs
  rw [if_pos hd] at hs
  cases hs
  have howed : Owed s.shared.collections { s.shared with needGc := true }.raise := .inr ⟨le_rfl, rfl, rfl⟩
  refine (howed.round (.collect s.shared.collections)).imp_left fun ⟨hp, ho⟩ => ⟨?_, ho⟩
  dsimp only
  rw [if_pos rfl]
  show Phase.awaits _ (arrive _ _).2 = true
  rw [arrive, hp]
  exact decide_eq_true rfl

/-- Where somebody else is inside and does not wait, no work is done. -/
theorem Orderly.alone (h : Orderly s) (ha : Rendezvous.act s i a = some t)
    (hw : t.shared.collections ≠ s.shared.collections ∨ t.shared.drains ≠ s.shared.drains) {j : Fin n}
    (hj : j ≠ i) (hr : (s.threads j).phase.registered = true) : (s.threads j).phase.waits = true := by
  have hle : s.others i Phase.registered ≤ s.others i Phase.waits :=
    ((orderly_iff s i).mp h).alone (comes_of_act ha).1 hw
  have hsub : (s.those Phase.waits).erase i ⊆ (s.those Phase.registered).erase i :=
    Finset.erase_subset_erase i fun k hk =>
      State.mem_those.mpr (Phase.registered_of_waits (State.mem_those.mp hk))
  have heq := Finset.eq_of_subset_of_card_le hsub hle
  have hmem : j ∈ (s.those Phase.registered).erase i := Finset.mem_erase.mpr ⟨hj, State.mem_those.mpr hr⟩
  rw [← heq] at hmem
  exact State.mem_those.mp (Finset.mem_of_mem_erase hmem)

/-- **Exclusion.**  Exactly the threads in the wait are counted as waiting, and each of them is counted
as inside; a collection, or a release of what is dead, is made by one thread while all others inside
wait; and when a thread that has entered once is past its collection, there has been one since. -/
theorem Reachable.collects_alone (h : Reachable s) :
    (s.shared.waiting = (s.those Phase.waits).card ∧ s.shared.threads = (s.those Phase.registered).card ∧
      s.those Phase.waits ⊆ s.those Phase.registered) ∧
    (∀ i a t, act s i a = some t →
      t.shared.collections ≠ s.shared.collections ∨ t.shared.drains ≠ s.shared.drains →
      ∀ j, j ≠ i → (s.threads j).phase.registered = true → (s.threads j).phase.waits = true) ∧
    (∀ i t, (s.threads i).depth ≤ 1 → act s i .collect = some t → ∀ u, Later t u →
      (u.threads i).phase.waits = false → s.shared.collections < u.shared.collections) := by
  refine ⟨⟨h.orderly.waiting, h.orderly.threads, fun j hj => ?_⟩, ?_, ?_⟩
  · exact State.mem_those.mpr (Phase.registered_of_waits (State.mem_those.mp hj))
  · intro i a t ha hw j hj hr
    exact h.orderly.alone ha hw hj hr
  · intro i t hd ha u hl hu
    rcases (settled_of_collect hd ha).later hl with ⟨hp, -⟩ | hc
    · exact nomatch hu.symm.trans (Phase.waits_of_awaits hp)
    · exact hc

/-- Of two threads the first wants a collection and waits; the second comes and makes it; the first
goes on. -/
theorem collects_alone_of_two :
    let s := State.after (n := 2) {} [(0, .enter), (1, .enter)]
    let t := s.after [(0, .collect)]
    let u := t.after [(1, .poll)]
    let v := u.after [(0, .take), (0, .proceed)]
    Reachable s ∧ Reachable t ∧ (t.threads 0).phase.waits = true ∧ u.shared.collections = 1 ∧
      (v.threads 0).phase.waits = false ∧ s.shared.collections < v.shared.collections := by
  intro s t u v
  have hs : Reachable s := Reachable.start.after _
  have ht : Reachable t := hs.after _
  refine ⟨hs, ht, ?_, rfl, rfl, ?_⟩
  · exact ht.collects_alone.2.1 1 .poll u rfl (.inl nofun) 0 nofun rfl
  · exact hs.collects_alone.2.2 0 t le_rfl rfl v ((later_after t _).trans (later_after u _)) rfl

/-- While the flag is up somebody inside does not wait. -/
theorem Orderly.somebody_inside (h : Orderly s) (hr : s.shared.raised = true) :
    ∃ i, (s.threads i).phase = .inside := by
  have hlt := h.raised hr
  rw [h.waiting, h.threads] at hlt
  obtain ⟨i, hi, hw⟩ := Finset.exists_mem_notMem_of_card_lt_card hlt
  rw [State.mem_those] at hi hw
  exact ⟨i, Phase.inside_of_registered hi (Bool.eq_false_iff.mpr hw)⟩

theorem Orderly.permit (h : Orderly s) (hne : (s.those Phase.registered).Nonempty)
    (hall : s.those Phase.registered ⊆ s.those Phase.asleep) : 0 < s.shared.permits := by
  cases hr : s.shared.raised with
  | true =>
    obtain ⟨i, hi⟩ := h.somebody_inside hr
    have hasleep := State.mem_those.mp (hall (State.mem_those.mpr (by rw [hi]; rfl)))
    rw [hi] at hasleep
    exact nomatch hasleep
  | false => exact (Finset.card_pos.mpr (hne.mono hall)).trans_le (h.lowered hr)

theorem Orderly.goes_on (h : Orderly s) (hne : (s.those Phase.registered).Nonempty) :
    ∃ i, (s.threads i).phase = .inside ∨ (Rendezvous.act s i .take).isSome ∨
      (Rendezvous.act s i .proceed).isSome := by
  by_cases hall : s.those Phase.registered ⊆ s.those Phase.asleep
  · obtain ⟨m, hm⟩ := Nat.exists_eq_add_of_lt (h.permit hne hall)
    obtain ⟨i, hi⟩ := hne
    have hasleep := State.mem_those.mp (hall hi)
    refine ⟨i, .inr (.inl ?_)⟩
    rw [Rendezvous.act, Option.isSome_map, step]
    cases hp : (s.threads i).phase with
    | waiting e => rw [hm]; rfl
    | _ => rw [hp] at hasleep; exact nomatch hasleep
  · obtain ⟨i, hi, hasleep⟩ := Finset.not_subset.mp hall
    rw [State.mem_those] at hi hasleep
    refine ⟨i, ?_⟩
    rw [Rendezvous.act, Rendezvous.act, Option.isSome_map, Option.isSome_map, step, step]
    cases hp : (s.threads i).phase with
    | inside => exact .inl rfl
    | woken e => exact .inr (.inr rfl)
    | waiting e => rw [hp] at hasleep; exact absurd rfl hasleep
    | outside => rw [hp] at hi; exact nomatch hi

/-- **No thread is stuck.**  While the flag is up somebody inside does not wait; while it is down there
is a permit for each thread without one; so it never is that all inside wait and there is no permit, and
whenever anybody is inside somebody is at work or can go on. -/
theorem Reachable.never_stuck (h : Reachable s) :
    (s.shared.raised = true → ∃ i, (s.threads i).phase = .inside) ∧
    (s.shared.raised = false → (s.those Phase.asleep).card ≤ s.shared.permits) ∧
    ((s.those Phase.registered).Nonempty → s.those Phase.registered ⊆ s.those Phase.asleep →
      0 < s.shared.permits) ∧
    ((s.those Phase.registered).Nonempty → ∃ i, (s.threads i).phase = .inside ∨
      (act s i .take).isSome ∨ (act s i .proceed).isSome) :=
  ⟨h.orderly.somebody_inside, h.orderly.lowered, h.orderly.permit, h.orderly.goes_on⟩

/-- Of two threads the first waits for a collection, with the flag up and then down. -/
theorem never_stuck_of_two :
    let s := State.after (n := 2) {} [(0, .enter), (1, .enter), (0, .collect)]
    let t := s.after [(1, .poll), (1, .leave)]
    (∃ i, (s.threads i).phase = .inside) ∧ (t.those Phase.asleep).card ≤ t.shared.permits ∧
      0 < t.shared.permits := by
  intro s t
  have hs : Reachable s := Reachable.start.after _
  have ht : Reachable t := hs.after _
  have hwaits : (0 : Fin 2) ∈ t.those Phase.registered := State.mem_those.mpr rfl
  refine ⟨hs.never_stuck.1 rfl, ht.never_stuck.2.1 rfl, ht.never_stuck.2.2.1 ⟨0, hwaits⟩ fun i hi => ?_⟩
  rw [State.mem_those] at hi ⊢
  match i with
  | 0 => rfl
  | 1 => exact nomatch hi

end

end ScriptEngine.Rendezvous
