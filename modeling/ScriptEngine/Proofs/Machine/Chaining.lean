import ScriptEngine.Proofs.Heap.Chains
import ScriptEngine.Proofs.Machine.Fresh
import ScriptEngine.Proofs.Machine.Sessions

/-!
# No closure leads back to itself

A closure is made of a namespace and of what it leads on to, once and for all, and what it leads on to is
live when the closure is put into its cell.  So a free cell that is used again closes no circle, and a
collection leaves all of a chain or nothing.

* `World.Link.ended`, `World.Along.ended`   a stroke, and any number of them;
* `Host.chains_end`    in every state a host and its scripts come to, all chains end.
-/

namespace ScriptEngine

namespace World

variable {w w' : World}

/-- A stroke is a collection, or it leaves all objects where they are. -/
theorem Stroke.holds_or (h : Stroke w w') (hc : w.Consistent) :
    w.heap.Holds w'.heap ∨ w' = w.collectGarbage := by
  cases h with
  | still bodies => exact .inl (.of_same bodies)
  | collect => exact .inr rfl
  | make dealt =>
    obtain ⟨ha, hfree, -⟩ := dealt.unlisted
    exact .inl (Heap.holds_install ha hfree _)
  | intern name => exact .inl (hc.heap.intern hc.placed.stocked name).2
  | freeze key => exact .inl (Heap.holds_freeze _ key)
  | store box frozen v => exact .inl (hc.heap.store box frozen v).2
  | remove box key => exact .inl (hc.heap.remove box key).2
  | items a f => exact .inl (hc.heap.items a f).2
  | byte old new => exact .inl (hc.heap.byte old new).2

theorem Link.ended (h : Link w w') (hc : w.Consistent) (he : w.heap.Ended) : w'.heap.Ended := by
  rcases h.stroke.holds_or hc with hh | rfl
  · refine he.holds hh fun a ns next hfree hb => ?_
    exact Act.live_ne (h.live hc.placed a ns next hfree hb)
  · exact he.thins hc.placed.thins

theorem Along.ended (h : w.Along w') (hc : w.Consistent) (he : w.heap.Ended) : w'.heap.Ended := by
  induction h with
  | refl => exact he
  | tail h hl ih => exact hl.ended (Along.consistent h hc) ih

theorem ended_new (options : Options) : (World.new options).heap.Ended := by
  have hfree (ns next : Value) : Body.free ≠ .closure ns next := Body.noConfusion
  have hname {h : Heap} (name : String) (ha : h.All fun b => ∀ ns next, b ≠ .closure ns next) :
      (h.intern (Bytes.ofString name)).2.All fun b => ∀ ns next, b ≠ .closure ns next :=
    Heap.All.intern hfree ha fun _ _ => Body.noConfusion
  exact Heap.ended_of_all (hname _ (hname _ (hname _ (Heap.all_new hfree options.poolBlock))))

end World

namespace Host

variable {s : State}

theorem Reached.ended (h : Reached s) : s.world.heap.Ended := by
  obtain ⟨options, h⟩ := h
  exact (along_moves h (good_new options)).1.ended (good_new options).consistent (World.ended_new options)

theorem State.Good.sound (hs : s.Good) : ∃ used, s.world.Sound used := by
  obtain ⟨hc, hready⟩ := hs
  cases s with
  | idle w => exact ⟨_, hready.2⟩
  | busy m =>
    cases hready.2 with
    | sound h => exact ⟨_, h.world⟩
    | resume h _ | asks h _ => exact ⟨_, h⟩

theorem Reached.sound {w : World} (h : Reached (.idle w)) : ∃ used, w.Sound used := h.good.sound

/-- **All chains of closures end**, after fewer links than there are cells and without a free cell on the
way.  So the walks from the frames that run, and from all functions that are live, end for each name and
each level. -/
theorem chains_end (h : Reached s) :
    (∀ a ns next, s.world.heap.body a = .closure ns next →
      ∃ n last, n ≤ s.world.heap.cells.size ∧ s.world.heap.Leads (.obj a) n last) ∧
    (∀ cx, ∀ f ∈ (s.world.ctx cx).frames, s.world.heap.Settles f.closure) ∧
    ∀ f target scope, s.world.heap.Live f → s.world.heap.func? f = some (target, scope) →
      s.world.heap.Settles scope := by
  have hsettles {v : Value} (hv : s.world.heap.Live v) : s.world.heap.Settles v := by
    obtain ⟨n, last, hl⟩ := h.ended.leads (Act.live_ne hv)
    exact hl.settles
  obtain ⟨used, hsound⟩ := h.good.sound
  refine ⟨fun a ns next hb => ?_, fun cx f hf => ?_, fun f target scope hf hfunc => ?_⟩
  · obtain ⟨n, last, hl⟩ := h.ended a ns next hb
    have hchain := Heap.Leads.link (Heap.closure?_obj.mpr hb) hl
    exact ⟨n + 1, last, hchain.le_size, hchain⟩
  · exact hsettles (hsound.live_kept (World.kept_of_frame hf).2.2)
  · exact hsettles (hf.of_bodyOf (Heap.bodyOf_of_func? hfunc) (List.mem_cons_of_mem _ List.mem_cons_self))

/-! A program that makes a function, called as a function that is bound to a namespace. -/

theorem reached_blank : Reached (.idle Sample.blank) := by
  have hnew : Reached (.idle (.new { poolBlock := 4 })) := ⟨_, .refl⟩
  rw [World.new_eq_fresh] at hnew
  exact hnew.next (.newContext _)

namespace Bound

def loaded : Value × World := Sample.loaded Sample.blank 2

def scope : Value × World := loaded.2.alloc 0 .hash (.hash .empty)

def bound : World := World.after (((Deed.bindFunction loaded.1 scope.1).act 0).run scope.2)

def run (n : Nat) : Machine :=
  (Machine.step .core)^[n] ⟨bound, [], .begin 0 (.call (.obj 23) #[] .nil .nil)⟩

/-- What is computed of the engines on the way. -/
theorem computed : (∀ w ∈ [Sample.blank, loaded.2, scope.2, bound], 0 < w.contexts.size ∧ 0 ∉ w.freeContexts) ∧
    loaded.1 ∈ (scope.2.ctx 0).temps ∧ scope.1 ∈ (scope.2.ctx 0).temps ∧ .obj 23 ∈ (bound.ctx 0).temps := by
  decide +kernel

theorem inUse {w : World} (hw : w ∈ [Sample.blank, loaded.2, scope.2, bound]) : w.InUse 0 :=
  ⟨(computed.1 w hw).1, (computed.1 w hw).2⟩

theorem reached_loaded : Reached (.idle loaded.2) :=
  reached_blank.compile (inUse (by simp)) (Sample.run_compile Sample.symbols_blank)

theorem reached_scope : Reached (.idle scope.2) := by
  have hnew (w : World) : World.after ((Deed.newHash.act 0).run w) = (w.alloc 0 .hash (.hash .empty)).2 := rfl
  have h := reached_loaded.deed (inUse (by simp)) (d := .newHash) trivial
  rwa [hnew] at h

theorem reached_bound : Reached (.idle bound) := by
  obtain ⟨-, hcode, hscope, -⟩ := computed
  exact reached_scope.deed (inUse (by simp)) (d := .bindFunction loaded.1 scope.1)
    ⟨World.kept_of_temps hcode, reached_scope.live_temp hscope⟩

theorem reached_run (n : Nat) : Reached (.busy (run n)) :=
  reached_bound.request (inUse (by simp)) computed.2.2.2 (fun _ hv => absurd hv List.not_mem_nil) n

end Bound

/-- The function that the program makes leads to the closure of the program, and that one to `nil`. -/
theorem chains_end_bound : (Bound.run 3).world.heap.Leads (.obj 18) 2 .nil ∧
    2 ≤ (Bound.run 3).world.heap.cells.size ∧ (Bound.run 3).world.heap.Settles (.obj 19) := by
  obtain ⟨hchains, hframes, -⟩ := chains_end (Bound.reached_run 3)
  have hmade : (Bound.run 3).world.heap.closure? (.obj 18) = some (.obj 10, .obj 19) := by decide +kernel
  have hscope : (Bound.run 3).world.heap.closure? (.obj 19) = some (.obj 11, .nil) := by decide +kernel
  have hframe : ((Bound.run 3).world.ctx 0).frames.back?.map (·.closure) = some (.obj 19) := by decide +kernel
  generalize Bound.run 3 = m at *
  obtain ⟨f, hf, hclosure⟩ := Option.map_eq_some_iff.mp hframe
  obtain ⟨n, last, hn, hl⟩ := hchains 18 _ _ (Heap.closure?_obj.mp hmade)
  obtain ⟨rfl, rfl⟩ := hl.unique (.link hmade (.link hscope .nil))
  exact ⟨hl, hn, hclosure ▸ hframes 0 f (Array.mem_of_back? hf)⟩

end Host

end ScriptEngine
