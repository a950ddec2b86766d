import ScriptEngine.Proofs.Machine.Elements
import ScriptEngine.Proofs.Machine.Twins
import ScriptEngine.Proofs.Natives.Core

/-!
# How `call` starts and ends

`call` runs a function on a child.  When the run is over it frees the child; a failure goes into a vector,
if it has been given one, and nothing else changes.

* `Failure.notes`, `Heap.Shows`   what is said of a failure, and the values that say it;
* `World.Noted`                   a vector to which notes have been appended;
* `Natives.run_report`            **a failure is reported in full**;
* `Natives.run_callStart`         `call` asks for a run on a new child;
* `Natives.run_callEnd`           what it does with the outcome.
-/

namespace ScriptEngine

/-- What a report says: a text, or the number of a line. -/
inductive Note
  | text (s : String)
  | line (n : Nat)

/-- What is said of a failure: its message, and then the file and the line of each place. -/
def Failure.notes (e : Failure) : List Note :=
  .text e.message :: e.trace.flatMap fun p => [.text p.file, .line p.line]

/-- A value says what a note says. -/
def Heap.Shows (h : Heap) : Note → Value → Prop
  | .text s, v => h.bodyOf v = .str (Str.ofBytes (Bytes.ofString s))
  | .line n, v => v = .ofNat n

/-- What a value says depends on the string that it is. -/
theorem Heap.Shows.same {h h' : Heap} {note : Note} {v : Value} (hv : h.Shows note v)
    (hbody : ∀ b s, v = .obj b → h.body b = .str s → h'.body b = .str s) : h'.Shows note v := by
  cases note with
  | line n => exact hv
  | text s =>
    cases v with
    | obj b => exact hbody b _ rfl hv
    | _ => exact nomatch hv

namespace World

variable {used : CtxId → Prop} {w w₁ w₂ : World} {cx : CtxId} {a : Addr} {items : Array Value} {notes : List Note}
  {note : Note} {v : Value}

/-- Notes have been appended to the vector in a cell, and what was kept is otherwise as it was.  The notes are
kept as well. -/
structure Noted (used : CtxId → Prop) (w : World) (a : Addr) (items : Array Value) (notes : List Note) (w₁ : World) :
    Prop where
  sound : w₁.Sound used
  later : w.Extends w₁
  others : ∀ b ≠ a, w.Kept (.obj b) → w₁.heap.body b = w.heap.body b
  shown : ∃ vs, w₁.heap.body a = .vec (items ++ vs) ∧
    List.Forall₂ (fun note v => w₁.heap.Shows note v ∧ w₁.Kept v) notes vs.toList

theorem noted_refl (hs : w.Sound used) (hb : w.heap.body a = .vec items) : w.Noted used a items [] w :=
  ⟨hs, .refl w, fun _ _ _ => rfl, #[], by rw [Array.append_empty]; exact hb, .nil⟩

theorem Noted.alloc (h : w.Noted used a items notes w₁) (hcx : used cx) (ha : w.Kept (.obj a)) (s : String) :
    ∃ v w₂, (Act.newText cx s).run w₁ = .ok v w₂ ∧ w.Noted used a items notes w₂ ∧ w₂.heap.Live v ∧
      w₂.heap.Shows (.text s) v ∧ w₂.Kept v := by
  obtain ⟨b, hb, hmade⟩ := h.sound.alloc (h.sound.known cx hcx) .str
    (b := .str (Str.ofBytes (Bytes.ofString s))) Body.noConfusion fun c hc => absurd hc List.not_mem_nil
  have hkept : (w₁.alloc cx .str (.str (Str.ofBytes (Bytes.ofString s)))).2.Kept (.obj b) := kept_of_temps hmade.temps
  refine ⟨.obj b, _, congrArg (EStateM.Result.ok · _) hb, ?_, hmade.sound.live_kept hkept, hmade.body, hkept⟩
  obtain ⟨vs, hvec, hshown⟩ := h.shown
  refine ⟨hmade.sound, h.later.trans hmade.later, fun c hne hc => ?_, vs, ?_, ?_⟩
  · exact (hmade.intact.body c (h.later.kept hc)).trans (h.others c hne hc)
  · exact (hmade.intact.body a (h.later.kept ha)).trans hvec
  · refine hshown.imp fun note v ⟨hv, hk⟩ => ⟨hv.same ?_, hmade.later.kept hk⟩
    rintro c s rfl hc
    exact (hmade.intact.body c hk).trans hc

theorem Noted.push (h : w.Noted used a items notes w₁) (hlive : w₁.heap.Live v) (hv : w₁.heap.Shows note v)
    (hk : w₁.Kept v) : ∃ w₂, (discard (Act.vecPush (.obj a) v) : Act Unit).run w₁ = .ok () w₂ ∧
      w.Noted used a items (notes ++ [note]) w₂ := by
  obtain ⟨vs, hvec, hshown⟩ := h.shown
  have hkind : w₁.heap.isKind (.obj a) .vec = true := by
    rw [Heap.isKind, Heap.kindOf?, Heap.bodyOf, hvec]
    rfl
  have hrun : (Act.vecPush (.obj a) v).run w₁ = .ok true { w₁ with
      heap := w₁.heap.modify a (Heap.onItems (·.push v)) } := Act.run_modifyVec hkind _
  have hsafe := Act.safe_vecPush h.sound (.obj a) hlive
  rw [hrun] at hsafe
  refine ⟨_, Act.run_discard hrun, ?_⟩
  cases hsafe with
  | done hs hext =>
    obtain ⟨hext, -⟩ := hext
    have hlt : a < w₁.heap.cells.size := Heap.lt_size_of_body fun hf => by cases hvec.symm.trans hf
    refine ⟨hs, h.later.trans hext, fun b hne hb => ?_, vs.push v, ?_, ?_⟩
    · exact (Heap.body_modify_of_ne _ hne.symm _).trans (h.others b hne hb)
    · refine (Heap.body_modify_self hlt _).trans ?_
      rw [hvec]
      exact congrArg Body.vec (Array.append_push ..).symm
    · rw [Array.toList_push]
      have hkeep {note : Note} {u : Value} (hu : w₁.heap.Shows note u ∧ w₁.Kept u) :
          (w₁.heap.modify a (Heap.onItems (·.push v))).Shows note u ∧
            World.Kept { w₁ with heap := w₁.heap.modify a (Heap.onItems (·.push v)) } u := by
        refine ⟨hu.1.same fun b s _ hb => ?_, hext.kept hu.2⟩
        have hne : b ≠ a := by
          rintro rfl
          cases hvec.symm.trans hb
        exact (Heap.body_modify_of_ne _ hne.symm _).trans hb
      exact List.rel_append (hshown.imp fun _ _ => hkeep) (.cons (hkeep ⟨hv, hk⟩) .nil)

theorem Noted.text (h : w.Noted used a items notes w₁) (hcx : used cx) (ha : w.Kept (.obj a)) (s : String) :
    ∃ v w₂ w₃, (Act.newText cx s).run w₁ = .ok v w₂ ∧
      (discard (Act.vecPush (.obj a) v) : Act Unit).run w₂ = .ok () w₃ ∧
      w.Noted used a items (notes ++ [.text s]) w₃ := by
  obtain ⟨v, w₂, hnew, h₂, hlive, hshows, hk⟩ := h.alloc hcx ha s
  obtain ⟨w₃, hpush, h₃⟩ := h₂.push hlive hshows hk
  exact ⟨v, w₂, w₃, hnew, hpush, h₃⟩

end World

namespace Natives

open World (Noted)

variable {used : CtxId → Prop} {w w₁ : World} {cx : CtxId} {a : Addr} {items : Array Value} {notes : List Note}
  {args : Array Value}

theorem run_reportPlaces (h : w.Noted used a items notes w₁) (hcx : used cx) (ha : w.Kept (.obj a))
    (l : List Place) : ∃ w₂, (l.forM fun p => do
        let file ← Act.newText cx p.file
        discard <| Act.vecPush (.obj a) file
        discard <| Act.vecPush (.obj a) (.ofNat p.line) : Act Unit).run w₁ = .ok () w₂ ∧
      w.Noted used a items (notes ++ l.flatMap fun p => [.text p.file, .line p.line]) w₂ := by
  induction l generalizing notes w₁ with
  | nil => exact ⟨w₁, rfl, by rw [List.flatMap_nil, List.append_nil]; exact h⟩
  | cons p l ih =>
    obtain ⟨file, w₂, w₃, hnew, hpush, h₃⟩ := h.text hcx ha p.file
    obtain ⟨w₄, hline, h₄⟩ := h₃.push (Heap.live_num _)
      (show w₃.heap.Shows (.line p.line) (.ofNat p.line) from rfl) (.plain nofun)
    obtain ⟨w₅, hrest, h₅⟩ := ih h₄
    refine ⟨w₅, ?_, ?_⟩
    · show EStateM.run (_ >>= fun _ => List.forM l _) w₁ = _
      refine (run_bind_of_ok (a := ()) ?_).trans hrest
      show EStateM.run (Act.newText cx p.file >>= _) w₁ = _
      rw [run_bind_of_ok hnew, run_bind_of_ok hpush]
      exact hline
    · rw [List.append_assoc, List.append_assoc] at h₅
      exact h₅

/-- **A failure is reported in full**: its message, and then the file and the line of each place. -/
theorem run_report (hs : w.Sound used) (hcx : used cx) (hb : w.heap.body a = .vec items) (ha : w.Kept (.obj a))
    (e : Failure) : ∃ w₁, (report cx (.obj a) e).run w = .ok () w₁ ∧ w.Noted used a items e.notes w₁ := by
  obtain ⟨message, w₂, w₃, hnew, hpush, h₃⟩ := (World.noted_refl hs hb).text hcx ha e.message
  obtain ⟨w₄, hplaces, h₄⟩ := run_reportPlaces h₃ hcx ha e.trace
  refine ⟨w₄, ?_, h₄⟩
  rw [report, run_bind_of_ok hnew, run_bind_of_ok hpush]
  exact hplaces

/-- `call` asks for a run of the function on a new child. -/
theorem run_callStart {list : Array Value} (n : Native) (me : Value)
    (hlist : argumentList w.heap (argument args 1) = .ok list)
    (hlocals : argument args 3 = .nil ∨ w.heap.isKind (argument args 3) .hash = true)
    (hnesting : (w.ctx cx).nesting < w.options.maxNesting) :
    (callStart cx n me args).run w = .ok
      (.run (w.childless cx).newContext.1 (.call (argument args 0) list (argument args 2) (argument args 3))
        { sub := (w.childless cx).newContext.1, values := #[argument args 4] })
      ((w.childless cx).newContext.2.adopt cx (w.childless cx).newContext.1 ((w.ctx cx).nesting + 1)) := by
  have hcheck : (!(argument args 3).isNil && !w.heap.isKind (argument args 3) .hash) = false := by
    rcases hlocals with h | h
    · rw [h]
      rfl
    · rw [h]
      exact Bool.and_false _
  unfold callStart
  rw [run_bind_of_ok (show Act.heap.run w = .ok w.heap w from rfl)]
  rw [run_bind_of_ok (show (Act.ofExcept (argumentList w.heap (argument args 1))).run w = .ok list w by rw [hlist]; rfl)]
  show EStateM.run (ite _ _ _) w = _
  rw [hcheck]
  show EStateM.run (Act.subContext cx >>= _) w = _
  rw [run_bind_of_ok ((World.run_subContext w cx).trans (if_neg (Nat.not_le.mpr hnesting)))]
  rfl

theorem run_callEnd_ok (n : Native) (wait : Wait) (v : Value) :
    (callEnd cx n wait (.ok v)).run w = .ok (.done v) (w.childless cx) := by
  unfold callEnd
  rw [run_bind_of_ok (World.run_freeChild w cx)]
  rfl

/-- With a vector for it a failure is reported there, and `call` does not fail. -/
theorem run_callEnd_error (n : Native) (wait : Wait) (hs : (w.childless cx).Sound used) (hcx : used cx)
    (herrors : argument wait.values 0 = .obj a) (hb : (w.childless cx).heap.body a = .vec items)
    (ha : (w.childless cx).Kept (.obj a)) (e : Failure) :
    ∃ w₁, (callEnd cx n wait (.error e)).run w = .ok (.done .nil) w₁ ∧
      (w.childless cx).Noted used a items e.notes w₁ := by
  obtain ⟨w₁, hreport, h₁⟩ := run_report hs hcx hb ha e
  refine ⟨w₁, ?_, h₁⟩
  have hkind : (w.childless cx).heap.isKind (.obj a) .vec = true := by
    rw [Heap.isKind, Heap.kindOf?, Heap.bodyOf, hb]
    rfl
  unfold callEnd
  rw [run_bind_of_ok (World.run_freeChild w cx)]
  dsimp only
  rw [herrors]
  show EStateM.run (ite _ _ _) (w.childless cx) = _
  rw [hkind]
  show EStateM.run (report cx (.obj a) e >>= _) (w.childless cx) = _
  rw [run_bind_of_ok hreport]
  rfl

end Natives

end ScriptEngine
