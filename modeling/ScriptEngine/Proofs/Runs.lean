import Mathlib
import ScriptEngine.Machine.Act

/-!
# Runs and their parts

An activity with a state that gives a result has gone through each of its parts.

* `run_bind_ok`                               the parts of a run that succeeds.
* `run_bind_of_ok`, `run_bind_of_error`       a run whose first part is known.
* `Act.run_get_bind`, `Act.run_heap_bind`, `Act.run_ctx_bind`   a run that first reads the engine.
* `Act.run_attempt_ok`, `Act.run_attempt_error`   a run whose failure is handed on as a result.
* `Act.outcome`   what an activity gives, without the state it ends in; `World.after` is that state.
-/

namespace ScriptEngine

section

variable {ε σ α β : Type} {x : EStateM ε σ α} {f : α → EStateM ε σ β} {s s' : σ}

theorem run_bind_of_ok {a : α} (h : x.run s = .ok a s') : (x >>= f).run s = (f a).run s' := by
  show EStateM.bind x f s = f a s'
  rw [EStateM.bind, show x s = .ok a s' from h]

theorem run_bind_of_error {e : ε} (h : x.run s = .error e s') :
    (x >>= f).run s = .error e s' := by
  show EStateM.bind x f s = _
  rw [EStateM.bind, show x s = .error e s' from h]

theorem run_bind_ok {b : β} (h : (x >>= f).run s = .ok b s') :
    ∃ a s₁, x.run s = .ok a s₁ ∧ (f a).run s₁ = .ok b s' := by
  cases hx : x.run s with
  | ok a s₁ =>
    rw [run_bind_of_ok hx] at h
    exact ⟨a, s₁, rfl, h⟩
  | error e s₁ =>
    rw [run_bind_of_error hx] at h
    exact nomatch h

end

/-- The state after an activity, whether it fails or not. -/
def World.after {α : Type} : EStateM.Result Failure World α → World
  | .ok _ w => w
  | .error _ w => w

namespace Act

variable {β : Type} {w w' : World}

theorem run_get_bind {f : World → Act β} : ((get : Act World) >>= f).run w = (f w).run w := rfl

theorem run_heap_bind {f : Heap → Act β} : (heap >>= f).run w = (f w.heap).run w := rfl

theorem run_ctx_bind {cx : CtxId} {f : Context → Act β} : (ctx cx >>= f).run w = (f (w.ctx cx)).run w := rfl

theorem run_attempt_ok {x : Act β} {a : β} (h : x.run w = .ok a w') :
    EStateM.run (tryCatch (do return .ok (← x)) fun e => pure (.error e) : Act (Except Failure β)) w =
      .ok (.ok a) w' := by
  show EStateM.tryCatch (EStateM.bind x fun a => pure (Except.ok a)) _ w = _
  rw [EStateM.tryCatch, EStateM.bind, show x w = .ok a w' from h]
  rfl

theorem run_attempt_error {x : Act β} {e : Failure} (h : x.run w = .error e w') :
    EStateM.run (tryCatch (do return .ok (← x)) fun e => pure (.error e) : Act (Except Failure β)) w =
      .ok (.error e) w' := by
  show EStateM.tryCatch (EStateM.bind x fun a => pure (Except.ok a)) _ w = _
  rw [EStateM.tryCatch, EStateM.bind, show x w = .error e w' from h]
  rfl

/-- What an activity gives: a result, or a failure. -/
def outcome {α : Type} (x : Act α) (w : World) : Except Failure α :=
  match x.run w with
  | .ok r _ => .ok r
  | .error e _ => .error e

theorem run_of_outcome {α : Type} {x : Act α} {a : α} (h : outcome x w = .ok a) : ∃ w', x.run w = .ok a w' := by
  unfold outcome at h
  split at h
  · cases h
    exact ⟨_, ‹_›⟩
  · cases h

end Act

end ScriptEngine
