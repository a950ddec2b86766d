import ScriptEngine.Proofs.Machine.Sessions

/-!
# Programs that are stopped

`caller` counts the frames down to the one it is asked for with a machine word.  For the largest level there is
no such count, and the program stops: no failure comes up that a handler could be told of, and no run is over.

* `Natives.halts_iff`       what a core native stops on;
* `Machine.run_halted`      a program that is stopped has no outcome;
* `Host.Next.stopped`       no move leads on from there.
-/

namespace ScriptEngine

open Relation (ReflTransGen)

theorem Numeral.next?_eq_none {n : Nat} : next? n = none ↔ 0xffffffffffffffff ≤ n := by
  rw [next?]
  split
  · rename_i hn
    exact ⟨fun h => (Option.some_ne_none _ h).elim, fun h => absurd hn (Nat.not_lt.mpr h)⟩
  · rename_i hn
    exact ⟨fun _ => Nat.le_of_not_lt hn, fun _ => rfl⟩

/-- The argument is a number that stands for the largest level of all. -/
def Heap.Topmost (h : Heap) (v : Value) : Prop :=
  v ≠ .nil ∧ ∃ x, h.numOf v = .ok x ∧ 0xffffffffffffffff ≤ Numeral.toCount x

namespace Natives

variable {w w' : World} {cx : CtxId}

section

variable (n : Native) (me : Value) (args : Array Value)

theorem callerAt_halts_iff {level : Nat} :
    (callerAt cx level).run w = .ok .halt w' ↔ w' = w ∧ 0xffffffffffffffff ≤ level := by
  have hnone : (w.ctx cx).frameAt level = none ↔ 0xffffffffffffffff ≤ level :=
    Option.map_eq_none_iff.trans Numeral.next?_eq_none
  rw [callerAt, Act.run_ctx_bind, ← hnone]
  cases (w.ctx cx).frameAt level with
  | none => exact ⟨fun h => ⟨by cases h; rfl, rfl⟩, fun h => h.1 ▸ rfl⟩
  | some found =>
    refine ⟨fun h => ?_, fun h => by cases h.2⟩
    cases found with
    | none => cases h
    | some f =>
      obtain ⟨_, _, -, h⟩ := run_bind_ok h
      obtain ⟨_, _, -, h⟩ := run_bind_ok h
      cases h

theorem callerStart_halts_iff : (callerStart cx n me args).run w = .ok .halt w' ↔
    w' = w ∧ w.heap.Topmost (argument args 0) := by
  rw [callerStart_eq]
  split
  · rename_i hnil
    refine ⟨fun h => ?_, fun h => ?_⟩
    · obtain ⟨-, hlevel⟩ := callerAt_halts_iff.mp (show (callerAt cx 1).run w = .ok .halt w' from h)
      exact absurd hlevel (by decide)
    · cases harg : argument args 0 with
      | nil => exact absurd harg h.2.1
      | _ =>
        rw [harg] at hnil
        cases hnil
  · rename_i hnil
    have hne : argument args 0 ≠ .nil := fun h => hnil (by rw [h]; rfl)
    have hread : (Numeral.toCount <$> Act.read fun h => h.numOf (argument args 0)).run w =
        EStateM.map Numeral.toCount (Act.ofExcept (w.heap.numOf (argument args 0))) w := rfl
    cases hnum : w.heap.numOf (argument args 0) with
    | ok x =>
      rw [hnum] at hread
      rw [run_bind_of_ok hread, callerAt_halts_iff, Heap.Topmost]
      refine and_congr_right fun _ => ⟨fun h => ⟨hne, x, hnum, h⟩, fun h => ?_⟩
      obtain ⟨-, y, hy, h⟩ := h
      cases hnum.symm.trans hy
      exact h
    | error c =>
      rw [hnum] at hread
      rw [run_bind_of_error hread]
      refine ⟨fun h => ?_, fun h => ?_⟩
      · cases h
      · obtain ⟨-, -, y, hy, -⟩ := h
        cases hnum.symm.trans hy

theorem callStart_ne_halt (h : (callStart cx n me args).run w = .ok .halt w') : False := by
  obtain ⟨_, _, -, h⟩ := run_bind_ok h
  obtain ⟨_, _, -, h⟩ := run_bind_ok h
  dsimp only at h
  split at h
  · obtain ⟨_, _, h, -⟩ := run_bind_ok h
    cases h
  · obtain ⟨_, _, -, h⟩ := run_bind_ok h
    cases h

/-- **What a core native stops on**: it is `caller`, asked for the largest level of all. -/
theorem halts_iff {name : String} {b : Behaviour} (hb : Library.core.native name = some b) :
    (b.start cx n me args).run w = .ok .halt w' ↔
      name = "caller" ∧ w' = w ∧ w.heap.Topmost (argument args 0) := by
  by_cases hname : name = "caller"
  · subst hname
    obtain rfl : ⟨callerStart, Behaviour.handOn⟩ = b := Option.some.inj hb
    exact (callerStart_halts_iff n me args).trans (and_iff_right rfl).symm
  · refine ⟨fun h => ?_, fun h => absurd h.1 hname⟩
    rcases native_cases hb with ⟨f, rfl⟩ | ⟨rfl, -⟩ | ⟨-, rfl⟩
    · obtain ⟨_, _, -, h⟩ := run_bind_ok h
      cases h
    · exact absurd rfl hname
    · exact (callStart_ne_halt n me args h).elim

end

/-- No core native stops the program when it goes on. -/
theorem resume_ne_halt {name : String} {b : Behaviour} {n : Native} (hb : Library.core.native name = some b) {wait : Wait}
    {r : Except Failure Value} (h : (b.resume cx n wait r).run w = .ok .halt w') : False := by
  rcases resume_cases hb with hhands | rfl
  · rw [hhands] at h
    cases r with
    | ok v => cases h
    | error e => cases h
  · obtain ⟨_, _, -, h⟩ := run_bind_ok h
    cases r with
    | ok v => cases h
    | error e =>
      obtain ⟨_, _, -, h⟩ := run_bind_ok h
      split at h
      · obtain ⟨_, _, -, h⟩ := run_bind_ok h
        cases h
      · obtain ⟨_, _, -, h⟩ := run_bind_ok h
        cases h

end Natives

/-- Quotients by zero are the largest level. -/
example : 0xffffffffffffffff ≤ Numeral.toCount (Float.ofBits 0x7FF0000000000000) := by decide +kernel

/-- The native that has stopped the program. -/
def Mode.stopper? : Mode → Option Native
  | .replied _ n _ (.ok .halt) => some n
  | _ => none

theorem Mode.eq_of_stopper? {mode : Mode} {n : Native} (h : mode.stopper? = some n) :
    ∃ cx site, mode = .replied cx n site (.ok .halt) := by
  unfold Mode.stopper? at h
  split at h
  · cases h
    exact ⟨_, _, rfl⟩
  · cases h

namespace Machine

variable {m : Machine} {n : Native}

theorem step_halted (hm : m.mode.stopper? = some n) (lib : Library) : m.step lib = m := by
  obtain ⟨w, waiting, mode⟩ := m
  obtain ⟨cx, site, rfl⟩ := Mode.eq_of_stopper? hm
  rfl

/-- **A program that is stopped has no outcome**, however long it is given. -/
theorem run_halted (hm : m.mode.stopper? = some n) (lib : Library) (fuel : Nat) : m.run lib fuel = none := by
  obtain ⟨w, waiting, mode⟩ := m
  obtain ⟨cx, site, rfl⟩ := Mode.eq_of_stopper? hm
  cases fuel with
  | zero => rfl
  | succ fuel => cases waiting <;> rfl

end Machine

namespace Host

/-- A core native has stopped the program. -/
def Stopped (m : Machine) : Prop := ∃ n, m.mode.stopper? = some n ∧ ¬Foreign n

theorem stopped_of_caller {m : Machine} (h : (m.mode.stopper?.map Native.name) = some "caller") : Stopped m := by
  obtain ⟨n, hn, hname⟩ := Option.map_eq_some_iff.mp h
  refine ⟨n, hn, ?_⟩
  rw [Foreign, hname]
  exact Option.some_ne_none _

/-- **No move leads on where the program has been stopped.** -/
theorem Next.stopped {m : Machine} {s : State} (h : Next (.busy m) s) (hm : Stopped m) : s = .busy m := by
  obtain ⟨w, waiting, mode⟩ := m
  obtain ⟨n, hstop, hn⟩ := hm
  obtain ⟨cx, site, rfl⟩ := Mode.eq_of_stopper? hstop
  obtain ⟨_, h⟩ := h
  cases h with
  | tend hat _ =>
    cases hat with
    | native foreign => exact absurd foreign hn
  | step => rfl
  | work foreign _ | visit foreign _ _ _ | answer foreign _ => exact absurd foreign hn

end Host

end ScriptEngine
