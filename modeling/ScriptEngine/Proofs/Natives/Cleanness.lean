import ScriptEngine.Proofs.Machine.Cleanly
import ScriptEngine.Proofs.Natives.Core

/-!
# The core natives never meet the end of an iteration

Given clean values in a clean engine, a core native stores clean values only, and what it answers, hands over
or fails with is clean.

* `Natives.cleanly_print`, `Natives.cleanly_append`, ...   the natives, one by one;
* `Natives.cleanly_callStart`, `Natives.cleanly_callEnd`   the one that waits;
* `Library.clean_core`                                     the core library.
-/

namespace ScriptEngine

open Act (Cleanly Any cleanly_heap cleanly_ctx cleanly_pure cleanly_fail cleanly_throw cleanly_modify
  cleanly_ofExcept cleanly_readAny cleanly_newStr cleanly_newText cleanly_newVec cleanly_newHash
  cleanly_modifyVec)

variable {cx : CtxId}

/-! ## binding code -/

namespace Act

theorem cleanly_bindTo {code ns next : Value} (hcode : code.Clean) (hns : ns.Clean) (hnext : next.Clean) :
    Cleanly Value.Clean (bindTo cx code ns next) :=
  (cleanly_newClosure hns hnext).bind fun _ hscope => cleanly_newFunc hcode hscope

theorem cleanly_bindToCaller {code : Value} (hcode : code.Clean) :
    Cleanly Value.Clean (bindToCaller cx code) := by
  unfold bindToCaller
  refine cleanly_heap.bind fun h _ => Cleanly.check ((cleanly_ctx cx).bind fun c hc => ?_)
  split
  · rename_i f hf
    have hclean := hc.frames f (Array.mem_of_back? hf)
    exact cleanly_bindTo hcode hclean.locals hclean.closure
  · exact cleanly_newHash.bind fun ns hns => cleanly_bindTo hcode hns Value.clean_nil

end Act

namespace Natives

variable {args : Array Value} (me : Value)

theorem clean_argument (hargs : ∀ v ∈ args, v.Clean) (i : Nat) : (argument args i).Clean :=
  Value.clean_item hargs i

/-! ## natives that answer at once -/

theorem cleanly_print : Cleanly Value.Clean (print cx me args) := by
  unfold print
  refine cleanly_heap.bind fun h _ => (cleanly_modify fun w hw => ?_).bind fun _ _ => ?_
  · have hleave := hw.leave
    exact ⟨hleave.heap, hleave.contexts, hleave.roots, hleave.saved⟩
  · exact (cleanly_modify fun w hw => hw.enter).bind fun _ _ => cleanly_newStr _

theorem cleanly_size : Cleanly Value.Clean (size cx me args) := by
  unfold size
  refine cleanly_heap.bind fun h _ => ?_
  split
  · exact cleanly_pure (Value.clean_num _)
  · exact cleanly_pure (Value.clean_num _)
  · exact cleanly_pure (Value.clean_num _)
  · exact Cleanly.ite (cleanly_pure (Value.clean_num _)) (cleanly_fail _)

theorem cleanly_subvec : Cleanly Value.Clean (subvec cx me args) := by
  unfold subvec
  refine cleanly_heap.bind fun h hh => ?_
  split
  · exact cleanly_fail _
  · rename_i items hitems
    refine Cleanly.bind (P := Any) (cleanly_ofExcept fun _ _ => trivial) fun start _ => ?_
    refine Cleanly.bind (P := Any) (cleanly_ofExcept fun _ _ => trivial) fun n _ => ?_
    exact cleanly_newVec fun v hv => hh.items hitems v (mem_of_mem_extract hv)

theorem cleanly_keys : Cleanly Value.Clean (keys cx me args) := by
  unfold keys
  refine cleanly_heap.bind fun h hh => ?_
  split
  · rename_i t ht
    refine cleanly_newVec fun v hv => ?_
    obtain ⟨e, he, rfl⟩ := List.mem_map.mp (List.mem_toArray.mp hv)
    exact (hh.entries ht e he).1
  · exact cleanly_fail _

theorem cleanly_contains : Cleanly Value.Clean (contains cx me args) := by
  unfold contains
  refine cleanly_heap.bind fun h _ => Cleanly.ite ?_ (cleanly_fail _)
  exact (Act.cleanly_hashGet _ _).bind fun _ _ => cleanly_pure (Value.clean_num _)

theorem cleanly_typeOf : Cleanly Value.Clean (typeOf cx me args) := by
  unfold typeOf
  refine cleanly_heap.bind fun h _ => ?_
  split
  · exact cleanly_newText _
  · exact cleanly_newText _

theorem cleanly_compile : Cleanly Value.Clean (compile cx me args) := by
  unfold compile
  refine cleanly_heap.bind fun h _ => ?_
  split
  · exact cleanly_fail _
  · refine (Act.cleanly_compile _ _ _).bind fun r hr => ?_
    split
    · exact Act.cleanly_bindToCaller (hr _ rfl)
    · exact cleanly_fail _

theorem cleanly_closure : Cleanly Value.Clean (closure cx me args) := by
  unfold closure
  refine cleanly_heap.bind fun h hh => ?_
  split
  · exact cleanly_fail _
  · rename_i _ scope hfunc
    have hscope : scope.Clean := by
      have hb := hh.bodyOf (argument args 0)
      rw [Heap.bodyOf_of_func? hfunc] at hb
      exact hb.2
    have hanswer (level : Nat) : Cleanly Value.Clean (do
        return (h.scopes (← Act.chainBound) scope)[level]?.getD .nil) := by
      refine Cleanly.bind (P := Any) (cleanly_heap.bind fun _ _ => cleanly_pure trivial) fun n _ => ?_
      refine cleanly_pure (Value.clean_getD fun v hv => ?_)
      exact hh.inherited.scopes hscope _ v (List.mem_of_getElem? hv)
    refine Cleanly.ite ((cleanly_pure (P := Any) trivial).bind fun _ _ => hanswer _) ?_
    refine Cleanly.bind (P := Any) ?_ fun level _ => hanswer level
    exact Cleanly.bind (P := Any) (cleanly_ofExcept fun _ _ => trivial) fun _ _ => cleanly_pure trivial

theorem cleanly_callerStart (n : Native) : Cleanly Reply.Clean (callerStart cx n me args) := by
  have hanswer (level : Nat) : Cleanly Reply.Clean (callerAt cx level) := by
    refine (cleanly_ctx cx).bind fun c hc => ?_
    split
    · exact cleanly_pure trivial
    · exact cleanly_pure Value.clean_nil
    · rename_i f hf
      have hframe : f.Clean := hc.frames f (mem_of_frameAt hf)
      refine (cleanly_newText _).bind fun file hfile => ?_
      refine (cleanly_newVec fun v hv => ?_).bind fun v hv => cleanly_pure hv
      simp only [List.mem_toArray, List.mem_cons, List.not_mem_nil, or_false] at hv
      rcases hv with rfl | rfl | rfl | rfl
      · exact hframe.locals
      · exact hframe.func
      · exact hfile
      · exact Value.clean_num _
  rw [callerStart_eq]
  refine Cleanly.ite ((cleanly_pure (P := Any) trivial).bind fun _ _ => hanswer _) ?_
  refine Cleanly.bind (P := Any) ?_ fun level _ => hanswer level
  exact Cleanly.bind (P := Any) (cleanly_readAny _) fun _ _ => cleanly_pure trivial

theorem cleanly_int : Cleanly Value.Clean (int cx me args) := by
  unfold int
  refine cleanly_heap.bind fun h _ => ?_
  split
  · exact cleanly_pure (Value.clean_num _)
  · exact cleanly_pure Value.clean_nil

theorem cleanly_num : Cleanly Value.Clean (num cx me args) := by
  unfold num
  refine cleanly_heap.bind fun h _ => ?_
  split
  · exact cleanly_pure (Value.clean_num _)
  · exact cleanly_pure Value.clean_nil

theorem cleanly_streq : Cleanly Value.Clean (streq cx me args) := by
  unfold streq
  refine cleanly_heap.bind fun h _ => ?_
  split
  · exact cleanly_pure (Value.clean_num _)
  · exact cleanly_pure (Value.clean_num _)

theorem cleanly_substr : Cleanly Value.Clean (substr cx me args) := by
  unfold substr
  refine cleanly_heap.bind fun h _ => ?_
  split
  · exact cleanly_fail _
  · refine Cleanly.bind (P := Any) (cleanly_ofExcept fun _ _ => trivial) fun start _ => ?_
    exact Cleanly.bind (P := Any) (cleanly_ofExcept fun _ _ => trivial) fun n _ => cleanly_newStr _

theorem cleanly_chr : Cleanly Value.Clean (chr cx me args) :=
  (cleanly_readAny _).bind fun _ _ => Cleanly.ite (cleanly_newStr _) (cleanly_fail _)

theorem cleanly_id : Cleanly Value.Clean (Natives.id cx me args) := by
  unfold Natives.id
  refine cleanly_heap.bind fun h _ => ?_
  split
  · exact cleanly_newText _
  · exact cleanly_fail _

section

variable (hargs : ∀ v ∈ args, v.Clean)
include hargs

theorem cleanly_append : Cleanly Value.Clean (append cx me args) := by
  unfold append
  refine (cleanly_modifyVec _ fun items hi v hv => ?_).bind fun found _ => ?_
  · rcases Array.mem_append.mp hv with hv | hv
    · exact hi v hv
    · exact hargs v (mem_of_mem_extract hv)
  · exact Cleanly.ite (cleanly_pure (clean_argument hargs 0)) (cleanly_fail _)

theorem cleanly_setsize : Cleanly Value.Clean (setsize cx me args) := by
  unfold setsize
  refine (cleanly_readAny _).bind fun x _ => Cleanly.check (Cleanly.check ?_)
  refine (cleanly_modifyVec _ fun items hi v hv => ?_).bind fun found _ => ?_
  · rcases Array.mem_append.mp hv with hv | hv
    · exact hi v (mem_of_mem_shrink hv)
    · exact (Array.mem_replicate.mp hv).2 ▸ Value.clean_nil
  · exact Cleanly.ite (cleanly_pure (clean_argument hargs 0)) (cleanly_fail _)

theorem cleanly_delete : Cleanly Value.Clean (delete cx me args) :=
  (Act.cleanly_hashDelete _ _).discard.bind fun _ _ => cleanly_pure (clean_argument hargs 0)

theorem cleanly_die : Cleanly Value.Clean (die cx me args) := by
  unfold die
  refine cleanly_heap.bind fun h _ => ?_
  split
  · exact cleanly_throw (clean_argument hargs 0)
  · exact cleanly_throw (clean_argument hargs 0)

theorem cleanly_bind : Cleanly Value.Clean (bind cx me args) := by
  have hbound {h : Heap} (hh : h.Clean) {v code scope : Value} (hf : h.func? v = some (code, scope)) :
      code.Clean ∧ scope.Clean := by
    have hb := hh.bodyOf v
    rwa [Heap.bodyOf_of_func? hf] at hb
  unfold bind
  refine cleanly_heap.bind fun h hh => ?_
  split
  · exact cleanly_fail _
  · rename_i hfunc
    have hcode := (hbound hh hfunc).1
    have hns := clean_argument hargs 1
    refine Cleanly.check (Cleanly.ite (Act.cleanly_bindTo hcode hns Value.clean_nil) ?_)
    split
    · rename_i houter
      exact Act.cleanly_bindTo hcode hns (hbound hh houter).2
    · exact cleanly_fail _

/-! ## the native that waits -/

theorem cleanly_callStart (n : Native) : Cleanly Reply.Clean (callStart cx n me args) := by
  unfold callStart
  refine cleanly_heap.bind fun h hh => ?_
  refine Cleanly.bind (P := fun list : Array Value => ∀ v ∈ list, v.Clean)
    (cleanly_ofExcept fun list hlist => ?_) fun list hlist => Cleanly.check ?_
  · unfold argumentList at hlist
    split at hlist
    · cases hlist
      exact Array.forall_mem_empty _
    · split at hlist
      · rename_i items hitems
        cases hlist
        exact hh.items hitems
      · exact nomatch hlist
  · refine Act.cleanly_subContext.bind fun sub _ => cleanly_pure ⟨?_, fun v hv => ?_⟩
    · exact ⟨clean_argument hargs 0, hlist, clean_argument hargs 2, clean_argument hargs 3⟩
    · exact List.mem_singleton.mp (List.mem_toArray.mp hv) ▸ clean_argument hargs 4

end

theorem cleanly_report (errors : Value) (e : Failure) : Cleanly Any (report cx errors e) := by
  unfold report
  refine (cleanly_newText _).bind fun message hm => ?_
  refine (Act.cleanly_vecPush errors hm).discard.bind fun _ _ => Act.cleanly_forM fun p _ => ?_
  refine (cleanly_newText _).bind fun file hfile => ?_
  refine (Act.cleanly_vecPush errors hfile).discard.bind fun _ _ => ?_
  exact (Act.cleanly_vecPush errors (Value.clean_num _)).discard

theorem cleanly_callEnd (n : Native) (wait : Wait) {r : Except Failure Value} (hr : OutcomeClean r) :
    Cleanly Reply.Clean (callEnd cx n wait r) := by
  unfold callEnd
  refine Act.cleanly_freeChild.bind fun _ _ => ?_
  cases r with
  | ok v => exact cleanly_pure hr
  | error e =>
    refine cleanly_heap.bind fun h _ => Cleanly.ite ?_ (Act.cleanly_rethrow hr)
    exact (cleanly_report _ e).bind fun _ _ => cleanly_pure Value.clean_nil

/-! ## all of them -/

theorem cleanly_plain {f : CtxId → Value → Array Value → Act Value} {me : Value}
    (hf : Cleanly Value.Clean (f cx me args)) (n : Native) :
    Cleanly Reply.Clean ((Behaviour.plain f).start cx n me args) :=
  hf.bind fun _ hv => cleanly_pure hv

theorem cleanly_start {name : String} {b : Behaviour} (hb : Library.core.native name = some b) (n : Native)
    (me : Value) (hargs : ∀ v ∈ args, v.Clean) : Cleanly Reply.Clean (b.start cx n me args) := by
  have hmem : (name, b) ∈ core := by
    obtain ⟨pre, post, h, -⟩ := List.lookup_eq_some_iff.mp hb
    exact h ▸ List.mem_append_right _ List.mem_cons_self
  simp only [core, List.mem_cons, Prod.mk.injEq, List.not_mem_nil, or_false] at hmem
  rcases hmem with ⟨-, rfl⟩ | ⟨-, rfl⟩ | ⟨-, rfl⟩ | ⟨-, rfl⟩ | ⟨-, rfl⟩ | ⟨-, rfl⟩ | ⟨-, rfl⟩ |
    ⟨-, rfl⟩ | ⟨-, rfl⟩ | ⟨-, rfl⟩ | ⟨-, rfl⟩ | ⟨-, rfl⟩ | ⟨-, rfl⟩ | ⟨-, rfl⟩ | ⟨-, rfl⟩ |
    ⟨-, rfl⟩ | ⟨-, rfl⟩ | ⟨-, rfl⟩ | ⟨-, rfl⟩ | ⟨-, rfl⟩ | ⟨-, rfl⟩
  · exact cleanly_plain (cleanly_print me) n
  · exact cleanly_plain (cleanly_size me) n
  · exact cleanly_plain (cleanly_append me hargs) n
  · exact cleanly_plain (cleanly_setsize me hargs) n
  · exact cleanly_plain (cleanly_subvec me) n
  · exact cleanly_plain (cleanly_keys me) n
  · exact cleanly_plain (cleanly_delete me hargs) n
  · exact cleanly_plain (cleanly_contains me) n
  · exact cleanly_plain (cleanly_typeOf me) n
  · exact cleanly_plain (cleanly_die me hargs) n
  · exact cleanly_callStart me hargs n
  · exact cleanly_plain (cleanly_compile me) n
  · exact cleanly_plain (cleanly_bind me hargs) n
  · exact cleanly_plain (cleanly_closure me) n
  · exact cleanly_callerStart me n
  · exact cleanly_plain (cleanly_int me) n
  · exact cleanly_plain (cleanly_num me) n
  · exact cleanly_plain (cleanly_streq me) n
  · exact cleanly_plain (cleanly_substr me) n
  · exact cleanly_plain (cleanly_chr me) n
  · exact cleanly_plain (cleanly_id me) n

theorem cleanly_handOn (n : Native) (wait : Wait) {r : Except Failure Value} (hr : OutcomeClean r) :
    Cleanly Reply.Clean (Behaviour.handOn cx n wait r) := by
  cases r with
  | ok v => exact cleanly_pure hr
  | error e => exact cleanly_throw hr

end Natives

/-- **The core library is clean.** -/
theorem Library.clean_core : Library.core.Clean where
  start hb _ n me _ _ hargs := Natives.cleanly_start hb n me hargs
  resume hb cx n wait r _ hr := by
    rcases Natives.resume_cases hb with h | rfl
    · rw [h]
      exact Natives.cleanly_handOn n wait hr
    · exact Natives.cleanly_callEnd n wait hr
  get h := nomatch h
  set h := nomatch h

end ScriptEngine
