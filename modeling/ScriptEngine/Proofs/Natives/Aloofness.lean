import ScriptEngine.Proofs.Machine.Aloofness
import ScriptEngine.Proofs.Natives.Habits

/-!
# The core natives do not look at operands

What a core native reads besides the objects it is given is the frames of its context (`caller`,
`compile`), and `call` works on a child: no operand and no mark of any context matters to it.

* `Act.neat_load`, `Act.neat_compile`   making code objects;
* `Library.aloof_core`                  the core library.
-/

namespace ScriptEngine

open Act (Neat Aloof neat_heap neat_pure neat_fail neat_throw neat_modify neat_newStr neat_newVec
  neat_newHash neat_newClosure neat_newFunc neat_modifyVec neat_hashKey neat_ite neat_retire aloof_ctx
  aloof_pure)

variable {cx : CtxId}

namespace Act

/-! ## objects -/

theorem neat_intern (name : Bytes) : Neat (intern name) :=
  neat_modifyGet (World.parallelGet_heap fun h => (Value.obj (h.intern name).1, (h.intern name).2))

theorem neat_hashGet (box key : Value) : Neat (hashGet box key) := by
  unfold hashGet
  refine neat_heap.bind fun h => ?_
  split
  · exact (neat_hashKey key).bind fun _ => neat_heap.bind fun _ => neat_pure _
  · exact neat_pure _

theorem neat_hashDelete (box key : Value) : Neat (hashDelete box key) := by
  unfold hashDelete
  refine neat_heap.bind fun h => ?_
  apply neat_ite
  · refine (neat_hashKey key).bind fun k => ?_
    refine (neat_modifyGet (World.parallelGet_heap fun h => h.remove box key k.1 k.2)).bind fun r => ?_
    exact neat_ite (neat_retire.bind fun _ => neat_pure _) (neat_pure _)
  · exact neat_fail _

theorem neat_rethrow {α : Type} (e : Failure) : Neat (rethrow cx e : Act α) := by
  have hkeep : World.Parallel fun w => w.modifyCtx cx fun c => { c with error := some e } :=
    World.parallel_modifyCtx cx (fun _ _ => rfl) fun _ => ⟨rfl, rfl, rfl, rfl⟩
  exact (neat_modify hkeep).bind fun _ => neat_throw e

/-! ### code -/

mutual
theorem neat_loadConst : ∀ c : Const, Neat (loadConst cx c)
  | .nil | .number _ => neat_pure _
  | .text s => (neat_newStr s).bind fun _ => (neat_hashKey _).bind fun _ => neat_pure _
  | .name s => (neat_intern s).bind fun _ => (neat_hashKey _).bind fun _ => neat_pure _
  | .code c => (neat_load c).bind fun _ => neat_pure _
theorem neat_load : ∀ c : Code Const, Neat (load cx c)
  | ⟨_, consts, _, _, _, _, _, _⟩ => (neat_loadConsts consts).bind fun _ => neat_alloc ..
theorem neat_loadConsts : ∀ cs : Array Const, Neat (loadConsts cx cs)
  | ⟨cs⟩ => neat_loadList cs _ _
theorem neat_loadList : ∀ (cs : List Const) (vs : Array Value) (hs : Array UInt32),
    Neat (loadList cx cs vs hs)
  | [], _, _ => neat_pure _
  | c :: cs, _, _ => (neat_loadConst c).bind fun _ => neat_loadList cs _ _
end

theorem neat_compile (src : Bytes) (file : String) (firstLine : Nat) :
    Neat (compile cx src file firstLine) := by
  unfold compile
  split
  · exact (neat_load _).bind fun _ => neat_pure _
  · exact (neat_forM (fun consts => (neat_loadConsts consts).discard) _).bind fun _ => neat_pure _

end Act

/-! ## natives are aloof -/

theorem World.parallel_printed (text : Bytes) :
    World.Parallel fun w => { w.leave with printed := text :: w.printed } := by
  refine ⟨fun w => ?_, fun {w cx s} hs => ?_⟩
  · have hleave := World.parallel_leave.firm w
    exact ⟨hleave.size, hleave.kept, hleave.roots, hleave.options⟩
  · rw [World.parallel_leave.put hs]
    rfl

/-- None of a native's means looks at operands or marks. -/
theorem habit_aloof (c cx : CtxId) : Habit cx (fun _ => True) fun _ x => Aloof c x where
  allows _ _ := trivial
  done := aloof_pure
  throws _ := (neat_throw _).aloof
  next := Act.Aloof.bind
  heap := neat_heap.aloof
  context hf hframes := aloof_ctx hf fun _ d s hs => hframes d (d.put s) hs
  printed text := (neat_modify (World.parallel_printed text)).aloof
  entered := (neat_modify World.parallel_enter).aloof
  newStr _ := (neat_newStr _).aloof
  newVec _ := (neat_newVec _).aloof
  newHash := neat_newHash.aloof
  newClosure _ _ := (neat_newClosure _ _).aloof
  newFunc _ _ := (neat_newFunc _ _).aloof
  modifyVec _ _ := (neat_modifyVec _ _).aloof
  hashGet _ _ := (Act.neat_hashGet _ _).aloof
  hashDelete _ _ := (Act.neat_hashDelete _ _).aloof
  compile _ _ _ := (Act.neat_compile _ _ _).aloof
  subContext := Act.aloof_subContext
  freeChild := Act.aloof_freeChild
  rethrow _ := (Act.neat_rethrow _).aloof

/-- **The core library is aloof.** -/
theorem Library.aloof_core : Library.core.Aloof where
  start hb c cx n me args := (habit_aloof c cx).start me args hb n
  resume hb c cx n wait _ := (habit_aloof c cx).resume hb n wait fun _ _ => trivial
  get h := nomatch h
  set h := nomatch h

end ScriptEngine
