import ScriptEngine.Proofs.Code.Flow
import ScriptEngine.Proofs.Machine.Evaluating
import ScriptEngine.Proofs.Machine.Loading

/-!
# Executing the code of an expression

The words that are written for an expression, wherever they stand in a unit, push the value that
evaluating its tree directly gives, and leave the objects, the other contexts and the other stacks as the
evaluation does; or they end with the same error.

* `Loaded.Holds`         words in the place that they were written for;
* `Code.LoadedAs.loads`  the objects that stand for the constants of a unit that has been loaded;
* `Machine.runs_expr`    **the code of an expression does what evaluating it does.**
-/

namespace ScriptEngine

open Gen (At Wrote State)

/-! ## written words in loaded code -/

/-- The words that were written between two states stand in the code, in the place they were written for. -/
def Loaded.Holds (code : Loaded) (g g' : State) : Prop :=
  ∃ before after, before.length = g.draft.words.size ∧
    code.words.toList = before ++ (g'.draft.words.toList.drop g.draft.words.size ++ after)

/-- Structured code that was written stands in code that holds its words. -/
theorem Gen.Wrote.stored {x : Asm} {g g' : State} (hw : Wrote x g g') {j m n : Nat} (hx : Turns j m n x)
    {code : Loaded} (hcode : code.Holds g g') : x.Stored code g'.draft.consts g.draft.words.size := by
  obtain ⟨before, after, hbefore, hwords⟩ := hcode
  have hnew : g'.draft.words.toList.drop g.draft.words.size = x.words g.draft.words.size unaimed := by
    rw [hw.grew.words, List.drop_left' Array.length_toList]
  rw [hnew] at hwords
  have htidy := hw.grew.tidy.draft
  have hsmall : g.draft.words.size + x.size ≤ 65535 := by
    have := hw.size
    have := htidy.small
    omega
  refine ⟨fun i hi => ?_, hw.uses⟩
  have hvalid := hx.valid hw.uses _ unaimed i hi
  exact (x.row_items _ unaimed).in_middle hbefore hwords hi
    (hx.arg_fits hsmall htidy.few hi hvalid) hvalid.none

/-! ## loaded constants -/

def Loaded.lexicon (code : Loaded) (consts : Array Const) : Lexicon where
  text s := code.const (consts.findIdx fun c => c.key? == some (.text s))
  name s := code.const (consts.findIdx fun c => c.key? == some (.name s))

theorem findIdx_key {consts : Array Const} (once : ∀ {i j : Nat} {d d' : Const}, consts[i]? = some d →
    consts[j]? = some d' → d.key?.isSome → d.key? = d'.key? → i = j) {i : Nat} {c : Const}
    {k : Const.Key} (hc : consts[i]? = some c) (hk : c.key? = some k) :
    consts.findIdx (fun c => c.key? == some k) = i := by
  have hlt : consts.findIdx (fun c => c.key? == some k) < consts.size :=
    Array.findIdx_lt_size_of_exists ⟨c, Array.mem_of_getElem? hc, beq_iff_eq.mpr hk⟩
  have hkey : consts[consts.findIdx fun c => c.key? == some k].key? = some k :=
    beq_iff_eq.mp (Array.findIdx_getElem (w := hlt))
  exact once (Array.getElem?_eq_getElem hlt) hc (by rw [hkey]; rfl) (hkey.trans hk.symm)

/-- **A unit that has been loaded has a lexicon**, also for the constants there were while an expression of it
was written. -/
theorem Code.LoadedAs.loads {h : Heap} {c : Code Const} {consts : Array Value} {hashes : Array UInt32}
    (hl : c.LoadedAs h consts hashes) (hc : c.Assembled) {earlier : Array Const}
    (hle : ∀ {i : Nat} {d : Const}, earlier[i]? = some d → c.consts[i]? = some d) :
    (Loaded.lexicon { c with consts, hashes } c.consts).Loads earlier { c with consts, hashes } := by
  cases hc with
  | mk _ _ _ _ _ _ once =>
    refine ⟨fun {i d} hd hkey => ?_, fun {i s} hd => ?_⟩
    · obtain ⟨v, x, hv, -, hs⟩ := hl.value (hle hd)
      have hval : Loaded.const { c with consts, hashes } i = v := by
        rw [Loaded.const, hv]
        rfl
      cases hs with
      | nil | number => exact hval
      | text | name =>
        show Loaded.const _ _ = Loaded.const _ _
        rw [findIdx_key once (hle hd) rfl]
      | code => cases hkey
    · obtain ⟨v, x, -, hx, hs⟩ := hl.value (hle hd)
      cases hs with
      | name =>
        rw [Loaded.constHash, hx]
        rfl

/-! ## whole expressions -/

theorem Library.placeless_ofList (l : List (String × Behaviour)) : (Library.ofList l).Placeless where
  get h := nomatch h
  set h := nomatch h

namespace World

/-- From `w` to `u` a value has been pushed and the innermost frame has gone on to a word; otherwise the
engine is as in `w'`. -/
structure Pushed (cx : CtxId) (v : Value) (ip : Nat) (w w' u : World) : Prop where
  stack : (u.ctx cx).stack = (w.ctx cx).stack.push v
  marks : (u.ctx cx).marks = (w.ctx cx).marks
  frames : (u.ctx cx).frames = Act.movedTo (w.ctx cx).frames ip
  heap : u.heap = w'.heap
  agrees : u.Agrees cx ((w'.topped cx #[v]).moved cx ip)

variable {cx : CtxId} {v : Value} {ip : Nat} {w w' u : World}

theorem Firm.pushed (hfirm : w.Firm w') (hcx : cx < w.contexts.size)
    (h : u.Agrees cx ((w'.topped cx #[v]).moved cx ip)) : Pushed cx v ip w w' u := by
  have hcx' : cx < w'.contexts.size := Nat.lt_of_lt_of_eq hcx hfirm.size.symm
  have htopped : cx < (w'.topped cx #[v]).contexts.size := by
    rw [topped, size_modifyCtx]
    exact hcx'
  have hkept := hfirm.kept cx
  refine ⟨?_, ?_, ?_, h.heap, h⟩
  · rw [h.stack, stack_moved, stack_topped hcx', hkept.stack, Array.push_eq_append]
  · rw [h.marks, ← hkept.marks, moved, ctx_modifyCtx_self htopped, topped, ctx_modifyCtx_self hcx']
  · rw [h.frames, ← hkept.frames, moved, ctx_modifyCtx_self htopped, topped, ctx_modifyCtx_self hcx']

end World

namespace Machine

section

variable (lib : Library) (waiting : List Waiting) (cx : CtxId)

/-- What executing the code of an expression from `w` on leads to, given what evaluating it has led to: its
value is pushed, with control at the word `ip`, or the call ends with its error. -/
inductive Follows (ip : Nat) (w : World) : EStateM.Result Failure World Value → Prop
  | value {v : Value} {w' u : World} (leads : Leads lib ⟨w, waiting, .running cx⟩ ⟨u, waiting, .running cx⟩)
    (pushed : w.Pushed cx v ip w' u) : Follows ip w (.ok v w')
  | error {e : Failure} {w' u : World}
    (leads : Leads lib ⟨w, waiting, .running cx⟩ ⟨u, waiting, .ended cx (.error e)⟩) (heap : u.heap = w'.heap)
    (strays : w'.Strays cx u) : Follows ip w (.error e w')

end

/-- **The code of an expression does what evaluating it does.**  Take any expression without calls and
functions for which code was written, and any engine in which a call is where that code begins, with room
for its operands.  Executing it either comes to the word behind it, with one value pushed and nothing else
changed on the stacks, or ends with an error; and this value or error, and the objects then, are those of
evaluating the tree from left to right. -/
theorem runs_expr {lib : Library} (hlib : lib.Placeless) (waiting : List Waiting) {n : Nat} {t : Tree}
    (ht : t.Plain) {g g' : State} (hg : g.Tidy) (hwrites : (Generate.expr n t).run g = .ok () g')
    {w : World} {cx : CtxId} {f : Frame} (hf : (w.ctx cx).frames.back? = some f)
    (hip : f.ip = g.draft.words.size) (hcode : f.code.Holds g g') {lex : Lexicon}
    (hlex : lex.Loads g'.draft.consts f.code)
    (hroom : (w.ctx cx).stack.size + Evaluate.room n t ≤ w.options.maxStack) :
    Follows lib waiting cx g'.draft.words.size w ((Evaluate.expr lib cx lex n t).run w) := by
  have hwritten := ((Generate.writes_all n).1 t).holds ⟨hg, rfl⟩
  rw [hwrites] at hwritten
  cases hwritten with
  | done hx =>
    obtain ⟨x, hx, hw⟩ := hx
    have hstored := hw.stored ((Lowering.turns_all n).1 hx) hcode
    -- the frame is where the code begins already
    have hstart : w.moved cx g.draft.words.size = w := World.moved_of_back? hf hip
    have hruns : Computed lib waiting cx (g.draft.words.size + x.size) (fun v => #[v]) w w
        ((Evaluate.expr lib cx lex n t).run w) := by
      refine computes_expr hlib hlex n hx ht hstored (World.stands_of_back? hf) hroom ?_
      rw [World.topped_empty, hstart]
      exact .refl w
    rw [hw.size]
    generalize (Evaluate.expr lib cx lex n t).run w = r at hruns
    cases hruns with
    | value leads firm agrees => exact .value leads (firm.pushed (World.stands_of_back? hf).lt agrees)
    | failure leads strays => exact .error leads strays.heap strays

end Machine

namespace Sample

/-- The tree of `[nil or 0][0]`. -/
def item : Tree :=
  .mk .index 1 [.mk .lbra 1 [.mk .list 1 [.mk .or 1 [.mk .nil 1 [], .mk (.number 0) 1 []]]],
    .mk (.number 0) 1 []]

def itemState : State :=
  match (Generate.expr 4 item).run { file := "", line := 1 } with
  | .ok _ g | .error _ g => g

def itemCall : Frame where
  func := .nil
  code := {
    words := itemState.draft.words
    consts := #[]
    lines := #[]
    file := ""
    params := #[]
    optional := #[]
    rest := none
    needsRest := false
    hashes := #[] }
  ip := 0
  locals := .nil
  closure := .nil
  bp := 0
  markBase := 0

def noNames : Lexicon := ⟨fun _ => .nil, fun _ => .nil⟩

def itemEngine : World where
  options := {}
  heap := .new 8
  contexts := #[{ frames := #[itemCall] }]
  symMe := 0
  symArg := 0
  symParents := 0

end Sample

namespace Machine

/-- The code of `[nil or 0][0]` pushes zero. -/
theorem runs_expr_first : ∃ u, Leads .core ⟨Sample.itemEngine, [], .running 0⟩ ⟨u, [], .running 0⟩ ∧
    (u.ctx 0).stack = #[.ofNat 0] := by
  have hitems : (Tree.mk .list 1 [.mk .or 1 [.mk .nil 1 [], .mk (.number 0) 1 []]]).items =
      [.mk .or 1 [.mk .nil 1 [], .mk (.number 0) 1 []]] := rfl
  have hplain : Sample.item.Plain := by
    refine .element (.vector fun t ht => ?_) .number
    rw [hitems] at ht
    obtain rfl := List.mem_singleton.mp ht
    exact .or .nil .number
  have hwrites : (Generate.expr 4 Sample.item).run { file := "", line := 1 } = .ok () Sample.itemState := rfl
  have htidy : State.Tidy { file := "", line := 1 } := ⟨Draft.tidy_empty, fun _ hd => nomatch hd⟩
  have hcode : Sample.itemCall.code.Holds { file := "", line := 1 } Sample.itemState :=
    ⟨[], [], rfl, (List.append_nil Sample.itemState.draft.words.toList).symm⟩
  have hlex : Sample.noNames.Loads Sample.itemState.draft.consts Sample.itemCall.code :=
    ⟨fun h => (nomatch h), fun h => nomatch h⟩
  have hframe : (Sample.itemEngine.ctx 0).frames.back? = some Sample.itemCall := rfl
  have hroom : (Sample.itemEngine.ctx 0).stack.size + Evaluate.room 4 Sample.item ≤
      Sample.itemEngine.options.maxStack := by decide +kernel
  have hruns : Follows .core [] 0 Sample.itemState.draft.words.size Sample.itemEngine
      ((Evaluate.expr .core 0 Sample.noNames 4 Sample.item).run Sample.itemEngine) :=
    runs_expr (Library.placeless_ofList _) [] hplain htidy hwrites hframe rfl hcode hlex hroom
  have hvalue : (match (Evaluate.expr .core 0 Sample.noNames 4 Sample.item).run Sample.itemEngine with
      | .ok v _ => decide (v = .ofNat 0)
      | .error _ _ => false) = true := by decide +kernel
  generalize (Evaluate.expr .core 0 Sample.noNames 4 Sample.item).run Sample.itemEngine = r at hruns hvalue
  cases hruns with
  | value leads pushed =>
    obtain rfl := of_decide_eq_true hvalue
    exact ⟨_, leads, pushed.stack⟩
  | error => exact nomatch hvalue

end Machine

end ScriptEngine
