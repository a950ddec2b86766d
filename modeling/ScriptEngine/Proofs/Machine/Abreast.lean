import ScriptEngine.Proofs.Machine.Guarding
import ScriptEngine.Proofs.Machine.Twins

/-!
# Machines that go abreast

Two machines whose engines differ in no more than the error and the child of a context do the same until
the run on that context is over, whoever waits for its outcome, as long as no collection finds them to
differ.

* `Machine.Abreast`        two machines that have done the same so far;
* `Machine.Abreast.step`   they do the same in a step;
* `Machine.Abreast.run`    and in a run.
-/

namespace ScriptEngine

open World (Near Twin Mirror Rel Lasts)

/-- The context alone is at work and asks for no run on a child. -/
def Mode.Alone (c : CtxId) : Mode → Prop
  | .begin _ _ => False
  | .running cx | .ended cx _ => cx = c
  | .replied cx _ _ r => cx = c ∧ ∀ sub q wait, r ≠ .ok (.run sub q wait)
  | .outcome _ => True

namespace Machine

/-- Two machines with a run on the context, which is to be told to `L` and to `L'`.  They do the same, in
engines that differ in its error at most, or in its child as long as it is alone. -/
inductive Abreast (c : CtxId) (L L' : List Waiting) : Machine → Machine → Prop
  | near {w w' : World} {l : List Waiting} {mode : Mode} (h : Near c w w') :
    Abreast c L L' ⟨w, l ++ L, mode⟩ ⟨w', l ++ L', mode⟩
  | twin {w w' : World} {mode : Mode} (h : Twin c w w') (alone : mode.Alone c) :
    Abreast c L L' ⟨w, L, mode⟩ ⟨w', L', mode⟩

def Over (L : List Waiting) (m : Machine) : Prop := m.waiting = L ∧ ∃ r, m.mode = .outcome r

/-- A step collects nothing, or finds the same engine as that of another machine. -/
def Tidy (lib : Library) (m m' : Machine) : Prop :=
  m.world = m'.world ∨ (m.step lib).world.stats.collections ≤ m.world.stats.collections

section

variable {lib : Library} {c cx : CtxId} {L L' : List Waiting} {w w' : World} {l : List Waiting}

theorem same_of_near {α : Type} {x : Act α} (hx : Act.Mirrors (Near c) x) (h : Near c w w')
    (ht : w = w' ∨ (World.after (x.run w)).stats.collections ≤ w.stats.collections) :
    Act.Same (Near c) (fun _ => Near c) (x.run w) (x.run w') := by
  rcases ht with rfl | ht
  · cases x.run w with
    | ok a w₁ => exact .ok (.refl c w₁)
    | error e w₁ => exact .error (.refl c w₁)
  · exact hx.run h (.inr ht)

/-! ### the engine after a step -/

theorem world_exec (lib : Library) (w : World) (waiting : List Waiting) (cx : CtxId) :
    (step lib ⟨w, waiting, .running cx⟩).world = World.after ((Act.exec lib cx).run w) := by
  unfold step
  dsimp only
  cases (Act.exec lib cx).run w with
  | ok o w₁ => cases o <;> rfl
  | error e w₁ => rfl

theorem world_finish (lib : Library) (w : World) (waiting : List Waiting) (cx : CtxId)
    (r : Except Failure Value) :
    (step lib ⟨w, waiting, .ended cx r⟩).world = World.after ((Act.finish cx r).run w) := by
  unfold step
  dsimp only
  cases (Act.finish cx r).run w <;> rfl

theorem world_wake {b : Behaviour} {who : Waiting} (hb : lib.native who.native.name = some b) (w : World)
    (waiting : List Waiting) (r : Except Failure Value) :
    (wake lib w waiting who r).world = World.after ((b.resume who.cx who.native who.wait r).run w) := by
  unfold wake
  rw [hb]
  dsimp only
  cases (b.resume who.cx who.native who.wait r).run w <;> rfl

theorem stats_settle (w : World) (cx : CtxId) (base : Nat) (v : Value) :
    (World.after ((do Act.cut cx base; Act.push cx v : Act Unit).run w)).stats = w.stats := by
  show (World.after ((Act.push cx v).run (w.modifyCtx cx _))).stats = _
  rw [Act.run_push_eq]
  split <;> rfl

theorem run_prepareResume (w : World) (cx : CtxId) (height : Nat) (v : Value) :
    (Act.prepareResume cx height v).run w = (do Act.cut cx height; Act.push cx v : Act Unit).run
      ((w.childless cx).modifyCtx cx ({ · with error := none })) := by
  rw [Act.prepareResume, run_bind_of_ok (World.run_freeChild w cx)]
  rfl

theorem stats_prepareResume (w : World) (cx : CtxId) (height : Nat) (v : Value) :
    (World.after ((Act.prepareResume cx height v).run w)).stats = w.stats := by
  rw [run_prepareResume, stats_settle]
  exact World.stats_childless w cx

/-! ### another error -/

section

variable (h : Near c w w')
include h

theorem abreast_call (hlib : lib.Blind c) (func : Value) (args : Array Value) (me locals : Value)
    (ht : Tidy lib ⟨w, l ++ L, .begin cx (.call func args me locals)⟩
      ⟨w', l ++ L', .begin cx (.call func args me locals)⟩) :
    Abreast c L L' (start lib w (l ++ L) cx (.call func args me locals))
      (start lib w' (l ++ L') cx (.call func args me locals)) := by
  have hR := World.mirror_near c cx
  have hx : Act.Mirrors (Near c) (do Act.prepareCall cx; Act.beginCall lib cx func args me locals) :=
    (Act.mirrors_prepareCall hR).bind fun _ => Act.mirrors_beginCall hR (hlib.near cx) ..
  have hsame := same_of_near hx h (ht.imp_right (world_start_call lib w _ cx ▸ ·))
  unfold start
  dsimp only
  generalize (do Act.prepareCall cx; Act.beginCall lib cx func args me locals).run w = r,
    (do Act.prepareCall cx; Act.beginCall lib cx func args me locals).run w' = r' at hsame ⊢
  cases hsame with
  | @ok b _ _ h =>
    cases b with
    | frame => exact .near h
    | native n r => exact .near h
  | error h => exact .near h

theorem abreast_resume (lib : Library) (v : Value) :
    Abreast c L L' (start lib w (l ++ L) cx (.resume v)) (start lib w' (l ++ L') cx (.resume v)) := by
  have hR := World.mirror_near c cx
  obtain ⟨error, hctx⟩ := h.ctx cx
  have hnear : Near c (w.modifyCtx cx ({ · with resumeAt := none })) (w'.modifyCtx cx ({ · with resumeAt := none })) :=
    h.modifyCtx fun _ error => ⟨error, rfl⟩
  unfold start
  dsimp only
  rw [show (w'.ctx cx).frames = (w.ctx cx).frames by rw [hctx],
    show (w'.ctx cx).resumeAt = (w.ctx cx).resumeAt by rw [hctx]]
  split
  · rename_i height _
    have hsame := same_of_near (Act.mirrors_prepareResume hR height v) hnear
      (.inr (Nat.le_of_eq (congrArg Stats.collections (stats_prepareResume _ cx height v))))
    generalize (Act.prepareResume cx height v).run (w.modifyCtx cx _) = r,
      (Act.prepareResume cx height v).run (w'.modifyCtx cx _) = r' at hsame ⊢
    cases hsame with
    | ok h => exact .near h
    | error h => exact .near h
  · exact .near hnear

theorem abreast_exec (hlib : lib.Blind c)
    (ht : Tidy lib ⟨w, l ++ L, .running cx⟩ ⟨w', l ++ L', .running cx⟩) :
    Abreast c L L' (step lib ⟨w, l ++ L, .running cx⟩) (step lib ⟨w', l ++ L', .running cx⟩) := by
  have hx : Act.Mirrors (Near c) (Act.exec lib cx) := by
    have h := Act.mirrors_exec (World.mirror_near c cx) (hlib.near cx)
    rwa [Act.Outcome.leaves_self] at h
  have hsame := same_of_near hx h (ht.imp_right (world_exec lib w _ cx ▸ ·))
  unfold step
  dsimp only
  generalize (Act.exec lib cx).run w = r, (Act.exec lib cx).run w' = r' at hsame ⊢
  cases hsame with
  | @ok o _ _ h => cases o <;> exact .near h
  | error h => exact .near h

theorem abreast_reply (lib : Library) (n : Native) (site : Site) (r : Except Failure Reply) :
    Abreast c L L' (step lib ⟨w, l ++ L, .replied cx n site r⟩)
      (step lib ⟨w', l ++ L', .replied cx n site r⟩) := by
  have hR := World.mirror_near c cx
  cases r with
  | error e =>
    cases site with
    | request => exact .near h
    | instruction base => exact .near (h.modifyCtx fun _ error => ⟨error, rfl⟩)
  | ok r =>
    cases r with
    | done v =>
      cases site with
      | request => exact .near (h.modifyCtx fun _ error => ⟨error, rfl⟩)
      | instruction base =>
        have hsame := same_of_near (Act.mirrors_settle hR base v) h
          (.inr (Nat.le_of_eq (congrArg Stats.collections (stats_settle w cx base v))))
        show Abreast c L L' (settle w _ cx (.instruction base) v) (settle w' _ cx (.instruction base) v)
        unfold settle
        dsimp only
        generalize (do Act.cut cx base; Act.push cx v : Act Unit).run w = r,
          (do Act.cut cx base; Act.push cx v : Act Unit).run w' = r' at hsame ⊢
        cases hsame with
        | ok h => exact .near h
        | error h => exact .near h
    | halt => exact .near h
    | run sub q wait =>
      obtain ⟨error, hctx⟩ := h.ctx cx
      show Abreast c L L' (delegate w _ cx n site sub q wait) (delegate w' _ cx n site sub q wait)
      unfold delegate
      dsimp only
      rw [show (w'.ctx cx).child = (w.ctx cx).child by rw [hctx]]
      split
      · exact .near (l := ⟨cx, n, site, wait⟩ :: l) h
      · exact .near (l := ⟨cx, n, site, wait⟩ :: l) h

theorem abreast_finish (r : Except Failure Value)
    (ht : Tidy lib ⟨w, l ++ L, .ended cx r⟩ ⟨w', l ++ L', .ended cx r⟩) :
    Abreast c L L' (step lib ⟨w, l ++ L, .ended cx r⟩) (step lib ⟨w', l ++ L', .ended cx r⟩) := by
  have hsame := same_of_near (Act.mirrors_finish (World.mirror_near c cx) r) h
    (ht.imp_right (world_finish lib w _ cx r ▸ ·))
  unfold step
  dsimp only
  generalize (Act.finish cx r).run w = x, (Act.finish cx r).run w' = x' at hsame ⊢
  cases hsame with
  | ok h => exact .near h
  | error h => exact .near h

theorem abreast_wake (hlib : lib.Blind c) (who : Waiting) (r : Except Failure Value)
    (ht : Tidy lib ⟨w, who :: (l ++ L), .outcome r⟩ ⟨w', who :: (l ++ L'), .outcome r⟩) :
    Abreast c L L' (wake lib w (l ++ L) who r) (wake lib w' (l ++ L') who r) := by
  cases hb : lib.native who.native.name with
  | some b =>
    have hsame := same_of_near (hlib.resume hb who.cx who.native who.wait r) h
      (ht.imp_right (world_wake hb w (l ++ L) r ▸ ·))
    unfold wake
    rw [hb]
    dsimp only
    generalize (b.resume who.cx who.native who.wait r).run w = x,
      (b.resume who.cx who.native who.wait r).run w' = x' at hsame ⊢
    cases hsame with
    | ok h => exact .near h
    | error h => exact .near h
  | none =>
    unfold wake
    rw [hb]
    exact .near h

end

/-- Engines that differ in the error of the context. -/
theorem abreast_near (hlib : lib.Blind c) (h : Near c w w') {mode : Mode}
    (hover : ¬ Over L ⟨w, l ++ L, mode⟩)
    (ht : Tidy lib ⟨w, l ++ L, mode⟩ ⟨w', l ++ L', mode⟩) :
    Abreast c L L' (step lib ⟨w, l ++ L, mode⟩) (step lib ⟨w', l ++ L', mode⟩) := by
  cases mode with
  | begin cx q =>
    cases q with
    | call func args me locals => exact abreast_call h hlib func args me locals ht
    | resume v => exact abreast_resume h lib v
  | running cx => exact abreast_exec h hlib ht
  | replied cx n site r => exact abreast_reply h lib n site r
  | ended cx r => exact abreast_finish h r ht
  | outcome r =>
    cases l with
    | nil => exact absurd ⟨rfl, r, rfl⟩ hover
    | cons who l => exact abreast_wake h hlib who r ht

/-! ### another child -/

/-- A native may ask for a run only on a child that it has made. -/
theorem twin_exec (hlib : lib.Blind c) (h : Twin c w w')
    (ht : (step lib ⟨w, L, .running c⟩).world.stats.collections ≤ w.stats.collections) :
    Abreast c L L' (step lib ⟨w, L, .running c⟩) (step lib ⟨w', L', .running c⟩) := by
  rw [world_exec] at ht
  have hsame := (Act.mirrors_exec (World.mirror_twin c) hlib.twin).run h (.inr ht)
  unfold step
  dsimp only
  generalize (Act.exec lib c).run w = r, (Act.exec lib c).run w' = r' at hsame ⊢
  cases hsame with
  | @ok o _ _ h =>
    cases o with
    | next => exact .twin h rfl
    | returned v => exact .twin h rfl
    | native base n r =>
      cases r with
      | error e => exact .twin h ⟨rfl, nofun⟩
      | ok r =>
        cases r with
        | done v => exact .twin h ⟨rfl, nofun⟩
        | halt => exact .twin h ⟨rfl, nofun⟩
        | run sub q wait => exact .near (l := []) h
  | error h => exact .twin h rfl

theorem twin_reply (lib : Library) (h : Twin c w w') (n : Native) (site : Site) {r : Except Failure Reply}
    (hr : ∀ sub q wait, r ≠ .ok (.run sub q wait)) :
    Abreast c L L' (step lib ⟨w, L, .replied c n site r⟩) (step lib ⟨w', L', .replied c n site r⟩) := by
  cases r with
  | error e =>
    cases site with
    | request => exact .twin h rfl
    | instruction base => exact .twin (h.edit fun _ _ _ => rfl) rfl
  | ok r =>
    cases r with
    | done v =>
      cases site with
      | request => exact .twin (h.edit fun _ _ _ => rfl) rfl
      | instruction base =>
        have hsame := (Act.mirrors_settle (World.mirror_twin c) base v).run h
          (.inr (Nat.le_of_eq (congrArg Stats.collections (stats_settle w c base v))))
        show Abreast c L L' (settle w L c (.instruction base) v) (settle w' L' c (.instruction base) v)
        unfold settle
        dsimp only
        generalize (do Act.cut c base; Act.push c v : Act Unit).run w = r,
          (do Act.cut c base; Act.push c v : Act Unit).run w' = r' at hsame ⊢
        cases hsame with
        | ok h => exact .twin h rfl
        | error h => exact .twin h rfl
    | halt => exact .twin h ⟨rfl, hr⟩
    | run sub q wait => exact absurd rfl (hr sub q wait)

theorem twin_finish (lib : Library) (h : Twin c w w') (r : Except Failure Value)
    (ht : (step lib ⟨w, L, .ended c r⟩).world.stats.collections ≤ w.stats.collections) :
    Abreast c L L' (step lib ⟨w, L, .ended c r⟩) (step lib ⟨w', L', .ended c r⟩) := by
  rw [world_finish] at ht
  have hsame := (Act.mirrors_finish (World.mirror_twin c) r).run h (.inr ht)
  unfold step
  dsimp only
  generalize (Act.finish c r).run w = x, (Act.finish c r).run w' = x' at hsame ⊢
  cases hsame with
  | ok h => exact .twin h trivial
  | error h => exact .twin h trivial

variable {m m' : Machine}

theorem Abreast.mode_eq (h : Abreast c L L' m m') : m'.mode = m.mode := by
  cases h <;> rfl

theorem Abreast.step (hlib : lib.Blind c) (h : Abreast c L L' m m') (hover : ¬ Over L m) (ht : Tidy lib m m') :
    Abreast c L L' (m.step lib) (m'.step lib) := by
  cases h with
  | near h => exact abreast_near hlib h hover ht
  | @twin w w' mode h alone =>
    rcases ht with hw | ht
    · obtain rfl : w = w' := hw
      exact abreast_near (l := []) hlib (.refl c w) hover (.inl rfl)
    · cases mode with
      | begin _ _ => exact alone.elim
      | running cx =>
        obtain rfl : cx = c := alone
        exact twin_exec hlib h ht
      | replied cx n site r =>
        obtain ⟨rfl, hr⟩ := alone
        exact twin_reply lib h n site hr
      | ended cx r =>
        obtain rfl : cx = c := alone
        exact twin_finish lib h r ht
      | outcome r => exact absurd ⟨rfl, r, rfl⟩ hover

theorem Abreast.run (hlib : lib.Blind c) (h : Abreast c L L' m m') (n : Nat)
    (hsteps : ∀ k < n, ¬ Over L ((Machine.step lib)^[k] m) ∧
      Tidy lib ((Machine.step lib)^[k] m) ((Machine.step lib)^[k] m')) :
    Abreast c L L' ((Machine.step lib)^[n] m) ((Machine.step lib)^[n] m') := by
  induction n with
  | zero => exact h
  | succ n ih =>
    obtain ⟨hover, ht⟩ := hsteps n (Nat.lt_succ_self n)
    rw [Function.iterate_succ_apply', Function.iterate_succ_apply']
    exact (ih fun k hk => hsteps k (Nat.lt_succ_of_lt hk)).step hlib hover ht

end

end Machine

end ScriptEngine
