/-!
# The rendezvous of threads

Any number of threads may be inside an engine, and a collection runs only when all but one of them
wait for it.  A thread that wants one raises a flag; each thread comes to the rendezvous at its next
safe place and waits for a permit, and the last to come does the work, lowers the flag and hands
out a permit to every thread that waits.

The steps are the sections a thread executes under the engine's lock.  A thread waiting for a
permit does not hold that lock, so taking a permit and going on under the lock are steps of their
own.

* `Action`, `act`  what a thread can do, and the state after it;
* `Reachable`      the states that come about from threads outside an idle engine.
-/

namespace ScriptEngine.Rendezvous

/-- What a thread came to the rendezvous for. -/
inductive Errand where
  | enter
  | leave
  | poll
  /-- A collection; `since` is how many there had been when it was asked for. -/
  | collect (since : Nat)
  | drain
  | refill
  deriving DecidableEq, Repr

/-- Where a thread is. -/
inductive Phase where
  | outside
  | inside
  /-- Waits for a permit. -/
  | waiting (e : Errand)
  /-- Has a permit and is about to go on. -/
  | woken (e : Errand)
  deriving DecidableEq, Repr

/-- A thread: where it is, and how many times it has entered. -/
structure Thread where
  phase : Phase := .outside
  depth : Nat := 0
  deriving DecidableEq, Repr

structure Shared where
  /-- How many threads are inside. -/
  threads : Nat := 0
  /-- How many threads count themselves as waiting. -/
  waiting : Nat := 0
  /-- Whether a rendezvous is wanted. -/
  raised : Bool := false
  /-- The same flag as it is polled without the lock. -/
  pending : Bool := false
  /-- Whether a collection is wanted. -/
  needGc : Bool := false
  /-- Permits nobody has taken. -/
  permits : Nat := 0
  /-- How often the retired storage has been released. -/
  drains : Nat := 0
  collections : Nat := 0
  deriving DecidableEq, Repr

namespace Shared

def raise (s : Shared) : Shared := { s with raised := true, pending := true }

/-- Raises the flag without waiting, for a collection if `gc`. -/
def request (s : Shared) (gc : Bool) : Shared := { s.raise with needGc := s.needGc || gc }

/-- Whether all other threads inside are waiting. -/
def isLast (s : Shared) : Bool := s.threads - 1 ≤ s.waiting

/-- The work of the last thread to come: it releases what is dead, collects if that is wanted,
lowers the flag and hands out the permits. -/
def work (s : Shared) : Shared :=
  { s with
    drains := s.drains + 1
    collections := if s.needGc then s.collections + 1 else s.collections
    needGc := false
    raised := false
    pending := false
    permits := s.permits + s.waiting }

/-- Leaves the engine; if only waiting threads are left one of them is woken. -/
def depart (s : Shared) : Shared :=
  let s := { s with threads := s.threads - 1 }
  if s.raised && 0 < s.waiting && s.waiting = s.threads then { s with permits := s.permits + 1 }
  else s

end Shared

/-- What is left to do after the rendezvous. -/
def conclude (s : Shared) : Errand → Shared × Phase
  | .leave => (s.depart, .outside)
  | _ => (s, .inside)

/-- One round at the rendezvous: waits while the flag is up and others are missing, works when it
is the last, and goes on when the flag is down. -/
def round (s : Shared) (e : Errand) : Shared × Phase :=
  if s.raised && !s.isLast then ({ s with waiting := s.waiting + 1 }, .waiting e)
  else if s.raised then conclude s.work e
  else conclude s e

def arrive (s : Shared) (e : Errand) : Shared × Phase := round s.raise e

/-- What a thread can do. -/
inductive Action where
  | enter
  | leave
  | poll
  /-- Collects, waiting for it unless the thread has entered more than once. -/
  | collect
  /-- Asks for a collection without waiting. -/
  | request
  /-- Releases retired storage. -/
  | drain
  /-- Takes cells from a pool, which may be dry. -/
  | refill (dry : Bool)
  /-- Takes a permit. -/
  | take
  /-- Goes on after a permit was taken. -/
  | proceed
  deriving DecidableEq, Repr

/-- What an action of a thread does, if it can do it now. -/
def step (s : Shared) (t : Thread) : Action → Option (Shared × Thread)
  | .enter =>
    match t.phase, t.depth with
    | .outside, _ =>
      let s := { s with threads := s.threads + 1 }
      let (s, p) := if s.raised then arrive s .enter else (s, .inside)
      some (s, ⟨p, 1⟩)
    | .inside, d => some (s, ⟨.inside, d + 1⟩)
    | _, _ => none
  | .leave =>
    match t.phase, t.depth with
    | .inside, 1 =>
      let (s, p) := if s.raised then arrive s .leave else conclude s .leave
      some (s, ⟨p, 0⟩)
    | .inside, d + 2 => some (s, ⟨.inside, d + 1⟩)
    | _, _ => none
  | .poll =>
    if t.phase = .inside then
      let (s, p) :=
        if s.pending && t.depth ≤ 1 && s.raised then arrive s .poll else (s, .inside)
      some (s, { t with phase := p })
    else none
  | .collect =>
    if t.phase = .inside then
      if t.depth ≤ 1 then
        let (s, p) := arrive { s with needGc := true } (.collect s.collections)
        some (s, { t with phase := p })
      else some (s.request true, t)
    else none
  | .request => if t.phase = .inside then some (s.request true, t) else none
  | .drain =>
    if t.phase = .inside then
      if t.depth ≤ 1 then
        let (s, p) := arrive s .drain
        some (s, { t with phase := p })
      else some (s.request false, t)
    else none
  | .refill dry =>
    if t.phase = .inside then
      if 1 < t.depth then some ({ s with needGc := s.needGc || dry }, t)
      else if s.raised then
        let (s, p) := arrive s .refill
        some (s, { t with phase := p })
      else if dry then
        let (s, p) := arrive { s with needGc := true } .refill
        some (s, { t with phase := p })
      else some (s, t)
    else none
  | .take =>
    match t.phase, s.permits with
    | .waiting e, n + 1 => some ({ s with permits := n }, { t with phase := .woken e })
    | _, _ => none
  | .proceed =>
    match t.phase with
    | .woken e =>
      let (s, p) := round { s with waiting := s.waiting - 1 } e
      some (s, { t with phase := p })
    | _ => none

/-- An engine with `n` threads. -/
structure State (n : Nat) where
  shared : Shared := {}
  threads : Fin n → Thread := fun _ => {}

/-- The state after an action of one thread, if it can do it now. -/
def act {n : Nat} (s : State n) (i : Fin n) (a : Action) : Option (State n) :=
  (step s.shared (s.threads i) a).map fun (shared, t) =>
    { shared, threads := fun j => if j = i then t else s.threads j }

/-- The states that come about from threads outside an idle engine. -/
inductive Reachable {n : Nat} : State n → Prop
  | start : Reachable {}
  | next {s t : State n} {i : Fin n} {a : Action} :
      Reachable s → act s i a = some t → Reachable t

end ScriptEngine.Rendezvous
