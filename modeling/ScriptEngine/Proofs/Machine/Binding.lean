import ScriptEngine.Natives.Core
import ScriptEngine.Proofs.Heap.Reading
import ScriptEngine.Proofs.Machine.Safety

/-!
# Names, members and arguments of live values

What is read off live values is live: names through scopes, members through parents, elements.
Binding arguments stores one value after the other, and each store may collect; the arguments stay
on the operand stack meanwhile, and named ones in their hash, which is not the one written to.

* `Heap.Live.scopes`, `Heap.Live.member`, `Heap.Live.element`   what is read;
* `Act.safe_lookupSym`, `Act.safe_setSym`, `Act.safe_member`    names and members;
* `Act.safe_extract`, `Act.safe_insert`, `Act.safe_slice`, `Act.safe_concat`   elements;
* `Act.safe_bindArgs`, `Act.safe_bindNamed`                     arguments.
-/

namespace ScriptEngine

namespace Heap

variable {h : Heap} {v : Value}

theorem Live.named {ns sym : Value} {hash : UInt32} (hns : h.Live ns)
    (hv : h.named? ns sym hash = some v) : h.Live v := h.inherited_live.named hns hv

/-- The namespaces of a live chain of closures are live. -/
theorem Live.scopes (hv : h.Live v) (n : Nat) : ∀ ns ∈ h.scopes n v, h.Live ns :=
  h.inherited_live.scopes hv n

/-- A member of a live object is live, wherever among the parents it is found. -/
theorem Live.member {parents sym obj : Value} {hash : UInt32} {interned : Bool} {depth n m : Nat}
    (hobj : h.Live obj)
    (hv : h.findMember parents sym hash interned depth obj n = .ok (some v, m)) : h.Live v :=
  h.inherited_live.member hobj hv

theorem Live.element {box key : Value} (hbox : h.Live box) (hv : h.element box key = .ok v) :
    h.Live v := h.inherited_live.element live_nil live_num hbox hv

end Heap

namespace Act

open World (Sound Extends Kept kept_of_ctx kept_of_stack kept_of_temps kept_of_frame)

section

variable {used : CtxId → Prop} {w : World} {cx : CtxId}

/-! ## names and members -/

theorem safe_lookupSym (hs : w.Sound used) (sym : Value) (hash : UInt32) :
    Safe used (fun v w' => w' = w ∧ w.heap.Live v) ((lookupSym cx sym hash).run w) := by
  refine (safe_frame hs).bind fun f w₁ hs₁ ⟨he, hf⟩ => ?_
  subst he
  have hlocals := hs.live_kept (kept_of_frame hf).2.1
  have hscope := hs.live_kept (kept_of_frame hf).2.2
  rw [run_bind_of_ok (show chainBound.run w₁ = .ok (w₁.heap.cells.size + 1) w₁ from rfl), run_heap_bind]
  split
  · rename_i v hv
    exact safe_pure hs ⟨rfl, hlocals.named hv⟩
  · split
    · rename_i v hv
      obtain ⟨ns, hns, hv⟩ := List.exists_of_findSome?_eq_some hv
      exact safe_pure hs ⟨rfl, (hscope.scopes _ ns hns).named hv⟩
    · exact safe_fail hs _

theorem safe_setSym (hs : w.Sound used) {sym v : Value} (hash : UInt32) (hsym : w.heap.Live sym)
    (hv : w.heap.Live v) :
    Safe used (fun _ w' => w.Extends w') ((setSym cx sym hash v).run w) := by
  refine (safe_frame hs).bind fun f w₁ hs₁ ⟨he, hf⟩ => ?_
  subst he
  have hset (ns : Value) :=
    (safe_setHashed hs ns hash true hsym hv).mono fun _ _ h => h.1
  show Safe used _ ((ite _ _ _ : Act Unit).run w₁)
  split
  · exact hset _
  · exact hset _

theorem safe_member (hs : w.Sound used) {obj : Value} (hobj : w.heap.Live obj) (sym : Value)
    (hash : UInt32) (interned : Bool) :
    Safe used (fun r w' => w' = w ∧ ∀ v, r = some v → w.heap.Live v)
      ((member .core cx obj sym hash interned).run w) := by
  unfold member
  rw [run_heap_bind]
  split
  · rw [hashMember, run_get_bind]
    dsimp only
    split
    · rename_i r _ hr
      refine safe_pure hs ⟨rfl, ?_⟩
      rintro v rfl
      exact hobj.member hr
    · exact safe_fail hs _
  · exact safe_fail hs _
  · exact safe_fail hs _

theorem safe_setMember (hs : w.Sound used) (obj : Value) {sym v : Value} (hash : UInt32)
    (interned : Bool) (hsym : w.heap.Live sym) (hv : w.heap.Live v) :
    Safe used (fun _ w' => w.Extends w')
      ((setMember .core cx obj sym hash interned v).run w) := by
  unfold setMember
  rw [run_heap_bind]
  split
  · exact (safe_setHashed hs obj hash interned hsym hv).mono fun _ _ h => h.1
  · exact safe_fail hs _
  · exact safe_fail hs _

/-! ## elements -/

theorem safe_extract (hs : w.Sound used) {box : Value} (hbox : w.heap.Live box) (key : Value) :
    Safe used (fun v w' => w.Extends w' ∧ w'.heap.Live v) ((extract box key).run w) := by
  have hread {w' : World} (hs' : w'.Sound used) (he : w.Extends w') (hbox' : w'.heap.Live box) :
      Safe used (fun v w'' => w.Extends w'' ∧ w''.heap.Live v)
        ((read fun h => h.element box key).run w') :=
    (safe_read hs').mono fun v _ ⟨e, hv⟩ => e ▸ ⟨he, hbox'.element hv⟩
  unfold extract
  show Safe used _ ((ite _ _ _ : Act Value).run w)
  split
  · refine Safe.bind (safe_hashKey hs key).discard fun _ w₁ hs₁ h => ?_
    exact hread hs₁ h.1 (h.2.1 box hbox)
  · exact hread hs (.refl w) hbox

theorem safe_insert (hs : w.Sound used) (box : Value) {key v : Value} (hkey : w.heap.Live key)
    (hv : w.heap.Live v) :
    Safe used (fun _ w' => w.Extends w') ((insert box key v).run w) := by
  unfold insert
  rw [run_heap_bind]
  split
  · split
    · exact (safe_hashSet hs _ hkey hv).mono fun _ _ h => h.1
    · exact safe_fail hs _
  · refine safe_check hs fun i _ => ?_
    exact ((safe_vecSet hs _ i hv).mono fun _ _ h => h.1).discard
  · rename_i a s hb
    refine safe_check hs fun b _ => ?_
    refine safe_check hs fun i _ => ?_
    split
    · rename_i s' _
      have hb' : w.heap.body a = .str s := hb
      obtain ⟨h1, h2, -⟩ := safe_modify hs (a := a) (f := fun _ => .str s')
        (by rw [hb']; exact Body.noConfusion) (by rw [hb']; exact fun h => h)
        ⟨Body.noConfusion, fun _ hc => by cases hc⟩
      exact .done h1 h2
    · exact safe_fail hs _
  · exact safe_fail hs _

theorem safe_slice (hs : w.Sound used) (hcx : used cx) {box : Value} (hbox : w.heap.Live box)
    (start stop : Value) :
    Safe used (fun v w' => w.Extends w' ∧ v ∈ (w'.ctx cx).temps)
      ((slice cx box start stop).run w) := by
  unfold slice
  rw [run_heap_bind]
  split
  · rename_i items hb
    refine safe_check hs fun r _ => ?_
    split
    · exact safe_newVec hs hcx fun v hv => hbox.item hb (mem_of_mem_extract hv)
    · exact safe_newVec hs hcx fun _ hv => absurd hv (Array.not_mem_empty _)
  · refine safe_check hs fun r _ => ?_
    split
    · exact safe_newStr hs hcx _
    · exact safe_newStr hs hcx _
  · exact safe_fail hs _

theorem safe_concat (hs : w.Sound used) (hcx : used cx) {a b : Value} (ha : w.heap.Live a)
    (hb : w.heap.Live b) :
    Safe used (fun v w' => w.Extends w' ∧ v ∈ (w'.ctx cx).temps) ((concat cx a b).run w) := by
  unfold concat
  rw [run_heap_bind]
  split
  · rename_i xs ys hxs hys
    refine safe_newVec hs hcx fun v hv => ?_
    rcases Array.mem_append.mp hv with hv | hv
    · exact ha.item (Heap.bodyOf_of_vec? hxs) hv
    · exact hb.item (Heap.bodyOf_of_vec? hys) hv
  · refine safe_check hs fun s _ => ?_
    refine safe_check hs fun t _ => ?_
    exact safe_newStr hs hcx _

/-! ## arguments -/

/-- A walk over a list whose steps keep `I`. -/
theorem safe_forM {α : Type} {I : World → Prop} (hs : w.Sound used) (hI : I w) {l : List α}
    {f : α → Act Unit}
    (hf : ∀ a ∈ l, ∀ w', w'.Sound used → I w' → Safe used (fun _ w'' => I w'') ((f a).run w')) :
    Safe used (fun _ w' => I w') ((l.forM f).run w) := by
  induction l generalizing w with
  | nil => exact safe_pure hs hI
  | cons a l ih =>
    show Safe used _ ((f a >>= fun _ => l.forM f).run w)
    refine (hf a List.mem_cons_self w hs hI).bind fun _ w₁ hs₁ hI₁ => ?_
    exact ih hs₁ hI₁ fun b hb => hf b (List.mem_cons_of_mem a hb)

theorem safe_bindConst (hs : w.Sound used) {code : Loaded} (hcode : KeepsCode w code)
    (locals : Value) (i : Nat) {v : Value} (hv : w.heap.Live v) :
    Safe used (fun _ w' => w.Extends w' ∧ Aside locals w w')
      ((bindConst code locals i v).run w) :=
  safe_setHashed hs locals _ _ (hcode.live_const hs i) hv

theorem safe_bindMe (hs : w.Sound used) (locals : Value) {me : Value} (hme : w.heap.Live me) :
    Safe used (fun _ w' => w.Extends w' ∧ Aside locals w w') ((bindMe locals me).run w) := by
  unfold bindMe
  split
  · have hsym : .obj w.symMe ∈ w.pinned := List.mem_append_right _ List.mem_cons_self
    have hset := safe_hashSet hs locals (hs.live _ (World.mem_liveRoots.mpr (.inr hsym))) hme
    refine Safe.bind (P := fun a w' => a = w ∧ w' = w) (.done hs ⟨rfl, rfl⟩) ?_
    rintro _ _ - ⟨rfl, rfl⟩
    exact hset
  · exact safe_pure hs ⟨.refl w, fun _ _ _ h _ => h⟩

theorem safe_bindArgs (hs : w.Sound used) (hcx : used cx) {code : Loaded}
    (hcode : KeepsCode w code) (locals : Value) {args : Array Value} {me : Value}
    (hargs : ∀ v ∈ args, w.Kept v) (hme : w.Kept me) :
    Safe used (fun _ w' => w.Extends w') ((bindArgs cx code locals args me).run w) := by
  have hbind {w' : World} (hs' : w'.Sound used) (he : w.Extends w') (i : Nat) {v : Value}
      (hv : w'.heap.Live v) :
      Safe used (fun _ w'' => w.Extends w'') ((bindConst code locals i v).run w') :=
    (safe_bindConst hs' (hcode.mono he) locals i hv).mono fun _ _ h => he.trans h.1
  unfold bindArgs
  refine (safe_bindMe hs locals (hs.live_kept hme)).bind fun _ w₁ hs₁ ⟨he₁, _⟩ => ?_
  show Safe used _ ((ite _ _ _ : Act Unit).run w₁)
  split
  · exact safe_fail_bind hs₁ _
  refine (safe_forM hs₁ he₁ fun p hp w' hs' he => ?_).bind fun _ w₂ hs₂ he₂ => ?_
  · have hmem := (List.of_mem_zip hp).2
    exact hbind hs' he p.1 (hs'.live_kept (he.kept (hargs _ (Array.mem_toList_iff.mp hmem))))
  refine (safe_forM hs₂ he₂ fun p _ w' hs' he => ?_).bind fun _ w₃ hs₃ he₃ => ?_
  · refine hbind hs' he p.1.1 ?_
    cases hx : args[code.params.size + p.2]? with
    | none => exact (hcode.mono he).live_const hs' _
    | some v => exact hs'.live_kept (he.kept (hargs v (Array.mem_of_getElem? hx)))
  split
  · dsimp only
    split
    · refine (safe_newVec hs₃ hcx fun v hv => ?_).bind fun v w₄ hs₄ ⟨he₄, hv⟩ => ?_
      · exact hs₃.live_kept (he₃.kept (hargs v (mem_of_mem_extract hv)))
      · exact hbind hs₄ (he₃.trans he₄) _ (hs₄.live_kept (kept_of_temps hv))
    · exact safe_pure hs₃ he₃
  · exact safe_pure hs₃ he₃

/-- The entries of a kept hash are live as long as nothing but another one is written to. -/
theorem live_entry {w' : World} (hs' : w'.Sound used) (he : w.Extends w') {locals named : Value}
    (hlocals : w.heap.bodyOf locals = .hash .empty) (hnamed : w.Kept named) (ha : Aside locals w w')
    {e : Entry Value Value} (hmem : e ∈ ((w.heap.table? named).map (·.entries)).getD []) :
    w'.heap.Live e.key ∧ w'.heap.Live e.val := by
  cases ht : w.heap.table? named with
  | none =>
    rw [ht] at hmem
    exact nomatch hmem
  | some t =>
    rw [ht] at hmem
    have hb := Heap.bodyOf_of_table? ht
    cases named with
    | obj b =>
      have hne : .obj b ≠ locals := by
        rintro rfl
        rw [hlocals] at hb
        cases hb
        exact nomatch hmem
      have hb' : w'.heap.bodyOf (.obj b) = .hash t := ha b t hnamed hb hne
      exact (hs'.live_kept (he.kept hnamed)).entry hb' hmem
    | _ => exact nomatch hb

theorem safe_bindEntry {w' : World} (hs' : w'.Sound used) {locals named : Value}
    (hlocals : w.heap.bodyOf locals = .hash .empty) (hnamed : w.Kept named)
    (h : w.Extends w' ∧ Aside locals w w') {e : Entry Value Value}
    (hmem : e ∈ ((w.heap.table? named).map (·.entries)).getD []) :
    Safe used (fun _ w'' => w.Extends w'' ∧ Aside locals w w'')
      ((hashSet locals e.key e.val).run w') := by
  obtain ⟨hk, hv⟩ := live_entry hs' h.1 hlocals hnamed h.2 hmem
  exact (safe_hashSet hs' locals hk hv).mono fun _ _ h' => ⟨h.1.trans h'.1, h.2.trans h.1 h'.2⟩

/-- Binding named arguments.  Their hash is read before anything is stored, and is not changed by
the stores: the locals are another hash, or the one that has just been made and is empty. -/
theorem safe_bindNamed (hs : w.Sound used) (hcx : used cx) {code : Loaded}
    (hcode : KeepsCode w code) {locals named me : Value}
    (hlocals : w.heap.bodyOf locals = .hash .empty) (hnamed : w.Kept named) (hme : w.Kept me) :
    Safe used (fun _ w' => w.Extends w') ((bindNamed cx code locals named me).run w) := by
  have hbind {w' : World} (hs' : w'.Sound used) (he : w.Extends w') (i : Nat) {v : Value}
      (hv : w'.heap.Live v) :
      Safe used (fun _ w'' => w.Extends w'') ((bindConst code locals i v).run w') :=
    (safe_bindConst hs' (hcode.mono he) locals i hv).mono fun _ _ h => he.trans h.1
  unfold bindNamed
  refine (safe_bindMe hs locals (hs.live_kept hme)).bind fun _ w₁ hs₁ h₁ => ?_
  refine (safe_forM (I := fun w' => w.Extends w' ∧ Aside locals w w') hs₁ h₁
    fun e hmem w' hs' h => safe_bindEntry hs' hlocals hnamed h hmem).bind fun _ w₂ hs₂ ⟨he₂, _⟩ => ?_
  refine (safe_forM hs₂ he₂ fun i _ w' hs' he => ?_).bind fun _ w₃ hs₃ he₃ => ?_
  · show Safe used _ ((ite _ _ _ : Act Unit).run w')
    split
    · exact safe_fail hs' _
    · exact safe_pure hs' he
  refine (safe_forM hs₃ he₃ fun p _ w' hs' he => ?_).bind fun _ w₄ hs₄ he₄ => ?_
  · show Safe used _ ((ite _ _ _ : Act Unit).run w')
    split
    · exact hbind hs' he p.1 ((hcode.mono he).live_const hs' _)
    · exact safe_pure hs' he
  split
  · split
    · refine (safe_newVec hs₄ hcx fun v hv => absurd hv (Array.not_mem_empty v)).bind fun v w₅ hs₅ ⟨he₅, hv⟩ => ?_
      exact hbind hs₅ (he₄.trans he₅) _ (hs₅.live_kept (kept_of_temps hv))
    · exact safe_pure hs₄ he₄
  · exact safe_pure hs₄ he₄

end

end Act

end ScriptEngine
