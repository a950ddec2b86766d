import Mathlib.Tactic
import ScriptEngine.Grammar.Blocks
import ScriptEngine.Grammar.Tree

/-!
# Grouping keeps what was written

The values of a text are its names, numbers, strings and `nil`s.  Every stage of parsing is read
through the same view, the list of the values in it with their lines.  Before blocks are completed
only brackets hold other pieces, afterwards function literals and control statements as well.

* `Piece.values`       the values of a piece;
* `yields_bracket`     grouping by brackets keeps the values;
* `Blocks.keeps_fix`   so does completing blocks.
-/

namespace ScriptEngine

/-- What holds of the result, if there is one. -/
def Yields {ε α : Type} (p : α → Prop) (r : Except ε α) : Prop := ∀ a, r = .ok a → p a

section

variable {ε α β : Type} {p : α → Prop} {q : β → Prop}

theorem yields_ok {a : α} (h : p a) : Yields p (.ok a : Except ε α) := by
  rintro _ ⟨⟩
  exact h

theorem yields_error (e : ε) : Yields p (.error e : Except ε α) := nofun

theorem yields_faultAt (line : Nat) (fault : Fault) : Yields p (faultAt line fault) :=
  yields_error _

theorem Yields.bind {r : Except ε α} {f : α → Except ε β} (hr : Yields p r)
    (hf : ∀ a, p a → Yields q (f a)) : Yields q (r >>= f) := by
  cases r with
  | ok a => exact hf a (hr a rfl)
  | error e => exact yields_error e

theorem Yields.mono {p' : α → Prop} {r : Except ε α} (hr : Yields p r) (h : ∀ a, p a → p' a) :
    Yields p' r := fun a ha => h a (hr a ha)

end

namespace Token

/-- The values among tokens, with their lines. -/
def values (ts : List Token) : List (Tok × Nat) :=
  (ts.filter fun t => Tree.isValue t.kind).map fun t => (t.kind, t.line)

theorem values_cons (t : Token) (ts : List Token) :
    values (t :: ts) = (if Tree.isValue t.kind then [(t.kind, t.line)] else []) ++ values ts := by
  unfold values
  rw [List.filter_cons]
  split <;> rfl

end Token

namespace Piece

mutual
/-- The values of a piece; in a complete row function literals and control statements show those of
their parts. -/
def values (complete : Bool) : Piece → List (Tok × Nat)
  | mk k l ps =>
    if Tree.isValue k then [(k, l)]
    else if k.isOpen then valuesAll complete ps
    else if complete && (k == .kFunc || k.isControl) then parts complete ps
    else []
def valuesAll (complete : Bool) : List Piece → List (Tok × Nat)
  | [] => []
  | p :: ps => values complete p ++ valuesAll complete ps
/-- The values of the parts of a function literal or a control statement: of what is inside the
brackets there, and an `if` as the other branch shows its own parts. -/
def parts (complete : Bool) : List Piece → List (Tok × Nat)
  | [mk _ _ a] => valuesAll complete a
  | [mk _ _ a, mk _ _ b] => valuesAll complete a ++ valuesAll complete b
  | [mk _ _ a, mk _ _ b, mk k _ c] =>
    valuesAll complete a ++ (valuesAll complete b ++
      (if k == .kIf then parts complete c else valuesAll complete c))
  | _ => []
end

variable (complete : Bool)

@[simp] theorem valuesAll_nil : valuesAll complete [] = [] := rfl

@[simp] theorem valuesAll_cons (p : Piece) (ps : List Piece) :
    valuesAll complete (p :: ps) = values complete p ++ valuesAll complete ps := rfl

@[simp] theorem valuesAll_append (ps qs : List Piece) :
    valuesAll complete (ps ++ qs) = valuesAll complete ps ++ valuesAll complete qs := by
  induction ps with
  | nil => rfl
  | cons p ps ih => rw [List.cons_append, valuesAll_cons, valuesAll_cons, ih, List.append_assoc]

theorem values_of_isOpen {k : Tok} (hk : k.isOpen = true) (l : Nat) (ps : List Piece) :
    values complete (mk k l ps) = valuesAll complete ps := by
  cases k <;> first | rfl | exact nomatch hk

/-- A control statement shows its parts, once they are there. -/
theorem values_of_isControl {k : Tok} (hk : k.isControl = true) (l : Nat) (ps : List Piece) :
    values complete (mk k l ps) = if complete then parts complete ps else [] := by
  cases k <;> first | (cases complete <;> rfl) | exact nomatch hk

/-- A piece with nothing of its own below it. -/
theorem values_of_plain {k : Tok} (hfunc : k = .kFunc → False) (hcontrol : ¬ k.isControl = true)
    (hopen : ¬ k.isOpen = true) (l : Nat) (ps : List Piece) :
    values complete (mk k l ps) = if Tree.isValue k then [(k, l)] else [] := by
  cases k <;> first
    | rfl
    | exact (hfunc rfl).elim
    | exact absurd rfl hcontrol
    | exact absurd rfl hopen
    | (cases complete <;> rfl)

end Piece

open Piece

/-! ## brackets -/

namespace Bracket

/-- The values before the current level, outermost first. -/
def openValues : List Open → List (Tok × Nat)
  | [] => []
  | o :: opened => openValues opened ++ valuesAll false o.before.reverse

/-- Grouping loses no value and keeps their order. -/
theorem yields_group (ts : List Token) (opened : List Open) (level : List Piece) :
    Yields (fun ps => valuesAll false ps =
        openValues opened ++ (valuesAll false level.reverse ++ Token.values ts))
      (group ts opened level) := by
  fun_induction group ts opened level with
  | case1 level => exact yields_ok (by simp [openValues, Token.values])
  | case2 => exact yields_faultAt _ _
  | case3 => exact yields_faultAt _ _
  | case4 t ts opened level hopen hdeep ih =>
    refine ih.mono fun ps hps => ?_
    have hvalue : Tree.isValue t.kind = false := by
      cases hk : t.kind <;> first | rfl | (rw [hk] at hopen; exact nomatch hopen)
    rw [hps, Token.values_cons, hvalue]
    simp [openValues]
  | case5 => exact yields_faultAt _ _
  | case6 t ts level hopen hclose o opened hmatch ih =>
    refine ih.mono fun ps hps => ?_
    have hkind : o.token.kind.isOpen = true := by
      rw [Tok.isOpen_iff_closer, eq_of_beq hmatch]
      rfl
    have hvalue : Tree.isValue t.kind = false := by
      cases hk : t.kind <;> first | rfl | (rw [hk] at hclose; exact nomatch hclose)
    rw [hps, Token.values_cons, hvalue, List.reverse_cons, valuesAll_append, valuesAll_cons,
      values_of_isOpen _ hkind]
    simp [openValues]
  | case7 => exact yields_faultAt _ _
  | case8 t ts opened level hopen hclose ih =>
    refine ih.mono fun ps hps => ?_
    have hleaf : values false (leaf t) = if Tree.isValue t.kind then [(t.kind, t.line)] else [] := by
      unfold leaf
      cases t.kind <;> rfl
    rw [hps, Token.values_cons, List.reverse_cons, valuesAll_append, valuesAll_cons, hleaf]
    simp

end Bracket

theorem yields_bracket (ts : List Token) :
    Yields (fun ps => valuesAll false ps = Token.values ts) (bracket ts) :=
  Bracket.yields_group ts [] []

/-! ## blocks -/

namespace Blocks

/-- What a function that completes pieces gives: it keeps the values. -/
def Keeps (ps : List Piece) (r : Except CompileError (List Piece)) : Prop :=
  Yields (fun qs => valuesAll true qs = valuesAll false ps) r

/-- What a function gives that takes something from the front of a row: what it took shows values
that are, with those of what is left, the values of the row, which does not get longer. -/
def Takes {α : Type} (shows : α → List (Tok × Nat) → Prop) (rest : List Piece)
    (r : Except CompileError (α × List Piece)) : Prop :=
  Yields (fun (took, left) => ∃ vs, shows took vs ∧
    vs ++ valuesAll false left = valuesAll false rest ∧ left.length ≤ rest.length) r

/-- A function literal or a control statement, and the values of its parts. -/
def Statement (kind : Tok) (p : Piece) (vs : List (Tok × Nat)) : Prop :=
  p.kind = kind ∧ parts true p.inner = vs

/-- A bracket, and the values inside it. -/
def Group (p : Piece) (vs : List (Tok × Nat)) : Prop := valuesAll true p.inner = vs

/-- The other branch of an `if`, if there is one, and its values. -/
def Branch : List Piece → List (Tok × Nat) → Prop
  | [p], vs => Statement .kIf p vs ∨ p.kind ≠ .kIf ∧ Group p vs
  | [], vs => vs = []
  | _, _ => False

/-- Some parts of a function literal or a control statement, and their values. -/
theorem parts_two {p q : Piece} {vs us : List (Tok × Nat)} (hp : Group p vs) (hq : Group q us) :
    parts true [p, q] = vs ++ us := by
  obtain ⟨k, l, a⟩ := p
  obtain ⟨j, m, b⟩ := q
  exact congrArg₂ _ hp hq

theorem parts_branch {p q : Piece} {other : List Piece} {vs us ws : List (Tok × Nat)}
    (hp : Group p vs) (hq : Group q us) (hother : Branch other ws) :
    parts true (p :: q :: other) = vs ++ (us ++ ws) := by
  match other with
  | [] =>
    rw [show ws = [] from hother, List.append_nil]
    exact parts_two hp hq
  | [o] =>
    obtain ⟨k, l, a⟩ := p
    obtain ⟨j, m, b⟩ := q
    obtain ⟨i, n, c⟩ := o
    refine congrArg₂ _ hp (congrArg₂ _ hq ?_)
    rcases hother with ⟨hi, hc⟩ | ⟨hi, hc⟩
    · exact (if_pos (beq_iff_eq.mpr hi)).trans hc
    · exact (if_neg fun h => hi (beq_iff_eq.mp h)).trans hc

theorem Statement.values {kind : Tok} {p : Piece} {vs : List (Tok × Nat)}
    (h : Statement kind p vs) (hk : kind = .kFunc ∨ kind.isControl = true) :
    Piece.values true p = vs := by
  obtain ⟨k, l, ps⟩ := p
  obtain ⟨rfl, hvs⟩ := h
  rcases hk with hk | hk
  · obtain rfl : k = .kFunc := hk
    exact hvs
  · exact (values_of_isControl true hk l ps).trans hvs

theorem values_separator (line : Nat) (keep : Tok → Bool) (rest : List Piece) :
    valuesAll true (separator line keep rest).reverse = [] := by
  unfold separator
  split
  · rfl
  · split
    · rfl
    · rfl

section

variable {block : Nat → List Piece → Except CompileError (List Piece)}
  {control : Tok → Nat → List Piece → Except CompileError (Piece × List Piece)}
  (hblock : ∀ line ps, Keeps ps (block line ps))
  (hcontrol : ∀ kind line rest, kind.isControl = true →
    Takes (Statement kind) rest (control kind line rest))

include hblock in
theorem yields_fixGroup (k : Tok) (line : Nat) (ps : List Piece) :
    Yields (fun q => q.kind = k ∧ Group q (valuesAll false ps)) (fixGroup block (.mk k line ps)) :=
  (hblock line ps).bind fun _ hqs => yields_ok ⟨rfl, hqs⟩

include hblock in
theorem takes_fixFunc (line : Nat) (rest : List Piece) :
    Takes (Statement .kFunc) rest (fixFunc block line rest) := by
  unfold fixFunc
  extract_lets body
  have hbody (params left : List Piece) (vs : List (Tok × Nat))
      (hparams : ∀ q us, Group q us → parts true (params ++ [q]) = vs ++ us)
      (hvalues : vs ++ valuesAll false left = valuesAll false rest)
      (hlength : left.length ≤ rest.length) :
      Takes (Statement .kFunc) rest (body (params, left)) := by
    unfold body
    dsimp only
    split
    · rename_i l ps left
      refine (yields_fixGroup hblock .lcurl l ps).bind fun q hq =>
        yields_ok ⟨_, ⟨rfl, hparams q _ hq.2⟩, ?_, Nat.le_trans (Nat.le_succ _) hlength⟩
      rw [← hvalues, valuesAll_cons, values_of_isOpen _ rfl, List.append_assoc]
    · exact yields_faultAt _ _
  split
  · rename_i l ps left
    refine (yields_fixGroup hblock .lpar l ps).bind fun p hp => ?_
    exact hbody [p] left _ (fun q us hq => parts_two hp.2 hq) rfl (Nat.le_succ _)
  · exact hbody [] rest [] (fun ⟨_, _, _⟩ _ hq => hq) rfl (Nat.le_refl _)

include hblock hcontrol in
theorem takes_takeBody (owner : Nat) (rest : List Piece) :
    Takes (fun p vs => p.kind ≠ .kIf ∧ Group p vs) rest (takeBody block control owner rest) := by
  unfold takeBody
  split
  · exact yields_faultAt _ _
  · refine (yields_fixGroup hblock .lcurl _ _).bind fun p hp => ?_
    exact yields_ok ⟨_, ⟨by rw [hp.1]; exact Tok.noConfusion, hp.2⟩, rfl, Nat.le_succ _⟩
  · rename_i k l ps rest _
    split
    · rename_i hk
      refine (hcontrol k l rest hk).bind fun (stmt, left) ⟨vs, hstmt, hvalues, hlength⟩ => ?_
      refine yields_ok ⟨vs, ⟨Tok.noConfusion, ?_⟩, ?_, Nat.le_succ_of_le hlength⟩
      · show valuesAll true [stmt] = vs
        rw [valuesAll_cons, hstmt.values (.inr hk), valuesAll_nil, List.append_nil]
      · rw [hvalues, valuesAll_cons, values_of_isControl _ hk]
        rfl
    · rw [List.span_eq_takeWhile_dropWhile]
      refine (hblock l _).bind fun own hown => ?_
      refine yields_ok ⟨_, ⟨Tok.noConfusion, hown⟩, ?_, (List.dropWhile_suffix _).length_le⟩
      rw [← valuesAll_append, List.takeWhile_append_dropWhile]

theorem values_atElse (rest : List Piece) :
    valuesAll false (atElse rest) = valuesAll false rest ∧
      (atElse rest).length ≤ rest.length := by
  unfold atElse
  split
  · exact ⟨rfl, Nat.le_succ _⟩
  · exact ⟨rfl, Nat.le_succ _⟩
  · exact ⟨rfl, Nat.le_refl _⟩

include hblock hcontrol in
theorem takes_fixElse (rest : List Piece) : Takes Branch rest (fixElse block control rest) := by
  obtain ⟨hvalues, hlength⟩ := values_atElse rest
  -- what is taken behind the keyword is all there is
  have hstep {shows : Piece → List (Tok × Nat) → Prop} {more : List Piece}
      {r : Except CompileError (Piece × List Piece)} (hr : Takes shows more r)
      (hshows : ∀ p vs, shows p vs → Branch [p] vs)
      (hv : valuesAll false more = valuesAll false (atElse rest))
      (hl : more.length ≤ (atElse rest).length) :
      Takes Branch rest (r >>= fun one => .ok ([one.1], one.2)) := by
    refine hr.bind fun one htakes => ?_
    obtain ⟨vs, hone, h1, h2⟩ := htakes
    exact yields_ok ⟨vs, hshows one.1 vs hone, by rw [h1, hv, hvalues], by omega⟩
  unfold fixElse
  split
  · rename_i heq
    exact hstep (hcontrol .kIf _ _ rfl) (fun _ _ h => .inl h) (by rw [heq]; rfl)
      (by rw [heq]; exact Nat.le_succ _)
  · rename_i heq
    exact hstep (hcontrol .kIf _ _ rfl) (fun _ _ h => .inl h) (by rw [heq]; rfl)
      (by rw [heq]; exact Nat.le_succ_of_le (Nat.le_succ _))
  · rename_i heq
    exact hstep (takes_takeBody hblock hcontrol _ _) (fun _ _ h => .inr h) (by rw [heq]; rfl)
      (by rw [heq]; exact Nat.le_succ _)
  · exact yields_ok ⟨[], rfl, rfl, Nat.le_refl _⟩

include hblock hcontrol in
theorem takes_controlParts (kind : Tok) (line : Nat) (rest : List Piece) :
    Takes (Statement kind) rest (controlParts block control kind line rest) := by
  unfold controlParts
  split
  · rename_i l ps rest
    refine (yields_fixGroup hblock .lpar l ps).bind fun head hhead => ?_
    refine (takes_takeBody hblock hcontrol line rest).bind
      fun (body, rest₁) ⟨us, hbody, hvalues₁, hlen₁⟩ => ?_
    have hmade (other left : List Piece) {ws : List (Tok × Nat)} (hother : Branch other ws)
        (hvalues : ws ++ valuesAll false left = valuesAll false rest₁)
        (hlen : left.length ≤ rest₁.length) : Takes (Statement kind) (.mk .lpar l ps :: rest)
          (.ok (.mk kind line (head :: body :: other), left)) := by
      refine yields_ok ⟨_, ⟨rfl, parts_branch hhead.2 hbody.2 hother⟩, ?_,
        Nat.le_succ_of_le (Nat.le_trans hlen hlen₁)⟩
      rw [valuesAll_cons, values_of_isOpen _ rfl, ← hvalues₁, ← hvalues, List.append_assoc,
        List.append_assoc]
    dsimp only
    split
    · exact (takes_fixElse hblock hcontrol rest₁).bind
        fun (other, left) ⟨_, hother, hvalues, hlen⟩ => hmade other left hother hvalues hlen
    · exact hmade [] rest₁ rfl rfl (Nat.le_refl _)
  · exact yields_faultAt _ _

include hblock hcontrol in
/-- Completing the rest of a row behind what has been made: the bound on the steps is never met, since
each takes a piece at least. -/
theorem yields_fixSiblings (n : Nat) (made rest : List Piece) (hn : rest.length ≤ n) :
    Yields (fun qs => valuesAll true qs = valuesAll true made.reverse ++ valuesAll false rest)
      (fixSiblings block control n made rest) := by
  induction n generalizing made rest with
  | zero =>
    rw [List.eq_nil_of_length_eq_zero (Nat.le_zero.mp hn)]
    unfold fixSiblings
    exact yields_ok (List.append_nil _).symm
  | succ n ih =>
    cases rest with
    | nil =>
      unfold fixSiblings
      exact yields_ok (List.append_nil _).symm
    | cons p rest =>
      obtain ⟨kind, line, inner⟩ := p
      have hn : rest.length ≤ n := Nat.le_of_succ_le_succ hn
      -- a piece is made of the next one and of some that follow it
      have hstep (more : List Piece) {q : Piece} {left : List Piece}
          (hq : values true q ++ valuesAll false left =
            valuesAll false (.mk kind line inner :: rest)) (hl : left.length ≤ rest.length)
          (hmore : valuesAll true more.reverse = []) :
          Yields (fun qs => valuesAll true qs = valuesAll true made.reverse ++
              valuesAll false (.mk kind line inner :: rest))
            (fixSiblings block control n (more ++ q :: made) left) := by
        refine (ih _ left (Nat.le_trans hl hn)).mono fun qs hqs => ?_
        rw [hqs, ← hq, List.reverse_append, List.reverse_cons, valuesAll_append, valuesAll_append,
          valuesAll_cons, hmore]
        simp
      unfold fixSiblings
      split
      · have hfunc := takes_fixFunc hblock line rest
        generalize fixFunc block line rest = r at hfunc
        cases r with
        | error e => exact yields_error e
        | ok r =>
          obtain ⟨vs, hstmt, hvalues, hlength⟩ := hfunc _ rfl
          refine hstep _ (by rw [hstmt.values (.inl rfl)]; exact hvalues) hlength ?_
          split
          · exact values_separator _ _ _
          · rfl
      · exact yields_faultAt _ _
      · exact yields_faultAt _ _
      · rename_i hfunc _ _
        split
        · rename_i hk
          have hcontrol := hcontrol kind line rest hk
          generalize control kind line rest = r at hcontrol
          cases r with
          | error e => exact yields_error e
          | ok r =>
            obtain ⟨vs, hstmt, hvalues, hlength⟩ := hcontrol _ rfl
            refine hstep _ ?_ hlength (values_separator _ _ _)
            rw [valuesAll_cons, values_of_isControl _ hk, hstmt.values (.inr hk)]
            exact hvalues
        · split
          · rename_i ho
            have hgroup := yields_fixGroup hblock kind line inner
            generalize fixGroup block (.mk kind line inner) = r at hgroup
            cases r with
            | error e => exact yields_error e
            | ok q =>
              obtain ⟨k, l, qs⟩ := q
              obtain ⟨hkind, hqs⟩ := hgroup _ rfl
              have hk : k.isOpen = true := by
                rw [show k = kind from hkind]
                exact ho
              refine hstep [] ?_ (Nat.le_refl _) rfl
              rw [valuesAll_cons, values_of_isOpen _ ho, values_of_isOpen _ hk]
              exact congrArg (· ++ _) hqs
          · rename_i hk ho
            refine hstep [] ?_ (Nat.le_refl _) rfl
            rw [valuesAll_cons, values_of_plain _ hfunc hk ho, values_of_plain _ hfunc hk ho]

end

theorem keeps_fixBlock_takes_fixControl (d : Nat) :
    (∀ line ps, Keeps ps (fixBlock d line ps)) ∧ ∀ kind line rest, kind.isControl = true →
      Takes (Statement kind) rest (fixControl d kind line rest) := by
  induction d with
  | zero => exact ⟨fun _ _ => yields_faultAt _ _, fun _ _ _ _ => yields_faultAt _ _⟩
  | succ d ih =>
    refine ⟨fun line ps => ?_, fun kind line rest _ => ?_⟩
    · exact yields_fixSiblings ih.1 ih.2 ps.length [] ps (Nat.le_refl _)
    · exact takes_controlParts ih.1 ih.2 kind line rest

theorem keeps_fix (line : Nat) (ps : List Piece) : Keeps ps (fix line ps) :=
  (keeps_fixBlock_takes_fixControl maxNesting).1 line ps

end Blocks

end ScriptEngine
