import ScriptEngine.Proofs.Grammar.Grouping
import ScriptEngine.Proofs.Grammar.Lines

/-!
# Branches with and without braces

A body without braces reaches up to the next separator, or to the end of the control statement it is.  An
`else` belongs to the nearest `if` before it that has none, and the separator in front of it is no part of
the statement.  So a statement is read alike whether its bodies are wrapped in braces or each expression in
it ends with a separator of its own.

* `Stmt`, `Other`    statements of expressions and control statements;
* `Stmt.bare`, `Stmt.core`   how they are written, without braces and with them;
* `Stmt.Formed`      every `else` belongs to the `if` it is written for;
* `Stmt.swaps`       completing a body without braces and with them.
-/

namespace ScriptEngine

/-! ## statements -/

mutual
/-- A statement of expressions and control statements. -/
inductive Stmt where
  | simple (ps : List Piece)
  /-- A keyword, what stands in the parentheses behind it, the body and the other branch. -/
  | control (k : Tok) (head : List Piece) (body : Stmt) (other : Other)
/-- What follows the body of an `if`: nothing, an `else` with a branch that is no `if`, or `else if` or
`elsif`. -/
inductive Other where
  | none
  | branch (s : Stmt)
  | again (elsif : Bool) (head : List Piece) (body : Stmt) (other : Other)
end

/-- The keywords of an `if` that follows the body of another one. -/
def againWords (elsif : Bool) : List Piece :=
  if elsif then [.mk .kElsif 0 []] else [.mk .kElse 0 [], .mk .kIf 0 []]

mutual
/-- The statement without braces, a separator behind each expression. -/
def Stmt.bare : Stmt → List Piece
  | .simple ps => ps ++ [.mk .semi 0 []]
  | .control k head body other => .mk k 0 [] :: .mk .lpar 0 head :: (body.bare ++ other.bare)
def Other.bare : Other → List Piece
  | .none => []
  | .branch s => .mk .kElse 0 [] :: s.bare
  | .again elsif head body other => againWords elsif ++ .mk .lpar 0 head :: (body.bare ++ other.bare)
end

mutual
/-- The statement with braces around every body and branch, and no separator. -/
def Stmt.core : Stmt → List Piece
  | .simple ps => ps
  | .control k head body other => .mk k 0 [] :: .mk .lpar 0 head :: .mk .lcurl 0 body.core :: other.core
def Other.core : Other → List Piece
  | .none => []
  | .branch s => [.mk .kElse 0 [], .mk .lcurl 0 s.core]
  | .again elsif head body other => againWords elsif ++ .mk .lpar 0 head :: .mk .lcurl 0 body.core :: other.core
end

/-- The statement with braces, and a separator behind it. -/
def Stmt.braced (s : Stmt) : List Piece := s.core ++ [.mk .semi 0 []]

mutual
/-- Whether an `else` behind the statement would belong to an `if` in it. -/
def Stmt.endsOpen : Stmt → Bool
  | .simple _ => false
  | .control k _ body other => other.endsOpen (k == .kIf || body.endsOpen)
/-- The same behind the other branch, given whether the statement before it ends open. -/
def Other.endsOpen (before : Bool) : Other → Bool
  | .none => before
  | .branch s => s.endsOpen
  | .again _ _ _ other => other.endsOpen true
end

def Stmt.isIf : Stmt → Bool
  | .simple _ => false
  | .control k _ _ _ => k == .kIf

/-- Pieces of an expression that is a statement: no separator and no keyword of a control statement stands
among them, and no brace in front.  An expression with a brace in front has no text without braces around it, since
as a body it would end where that brace is closed. -/
structure Piece.Expression (ps : List Piece) : Prop where
  grouped : ∀ p ∈ ps, p.Grouped
  plain : ∀ p ∈ ps, p.kind ≠ .semi ∧ p.kind.isControl = false ∧ p.kind ≠ .kElse ∧ p.kind ≠ .kElsif
  front : ∀ p, ps.head? = some p → p.kind ≠ .lcurl

mutual
/-- Every `else` belongs to the nearest `if` before it that has none. -/
def Stmt.Formed : Stmt → Prop
  | .simple ps => Piece.Expression ps
  | .control k head body other => k.isControl = true ∧ (∀ p ∈ head, p.Grouped) ∧ body.Formed ∧ other.Formed ∧
    (other = .none ∨ k = .kIf ∧ body.endsOpen = false)
def Other.Formed : Other → Prop
  | .none => True
  | .branch s => s.Formed ∧ s.isIf = false
  | .again _ head body other => (∀ p ∈ head, p.Grouped) ∧ body.Formed ∧ other.Formed ∧
    (other = .none ∨ body.endsOpen = false)
end

def startsElse : List Piece → Bool
  | [] => false
  | p :: _ => p.kind == .kElse || p.kind == .kElsif

namespace Blocks

open Precedence (kind_eq_of_unlined)

/-! ## single steps -/

section

variable {block : Nat → List Piece → Except CompileError (List Piece)}
  {control : Tok → Nat → List Piece → Except CompileError (Piece × List Piece)}

theorem startsElse_atElse_semi (line : Nat) (inner rest : List Piece) :
    startsElse (atElse (.mk .semi line inner :: rest)) = startsElse rest := by
  match rest with
  | [] => rfl
  | .mk k l ps :: rest => cases k <;> rfl

theorem fixElse_eq_nil {rest : List Piece} (h : startsElse (atElse rest) = false) :
    fixElse block control rest = .ok ([], rest) := by
  unfold fixElse
  generalize atElse rest = ps at h
  match ps with
  | [] => rfl
  | .mk k l inner :: ps => cases k <;> first | rfl | exact nomatch h

/-- An `else` that stands before no `if` has a branch. -/
theorem fixElse_else {line : Nat} {inner more : List Piece} (h : ∀ p, more.head? = some p → p.kind ≠ .kIf) :
    fixElse block control (.mk .kElse line inner :: more) =
      takeBody block control line more >>= fun (body, rest) => .ok ([body], rest) := by
  match more with
  | [] => rfl
  | .mk k l ps :: more => cases k <;> first | rfl | exact absurd rfl (h _ rfl)

theorem fixElse_semi {line : Nat} {inner rest : List Piece} (h : startsElse rest = true) :
    fixElse block control (.mk .semi line inner :: rest) = fixElse block control rest := by
  match rest with
  | [] => exact nomatch h
  | .mk k l ps :: [] => cases k <;> first | rfl | simp [startsElse, Piece.kind] at h
  | .mk k l ps :: .mk k' l' ps' :: rest =>
    cases k <;> first | rfl | (cases k' <;> rfl) | simp [startsElse, Piece.kind] at h

/-- The body of an expression without braces reaches up to the separator. -/
theorem takeBody_simple {ps : List Piece} (hsemi : ∀ p ∈ ps, p.kind ≠ .semi)
    (hfront : ∀ p, ps.head? = some p → p.kind ≠ .lcurl ∧ p.kind.isControl = false) (owner line : Nat)
    (rest : List Piece) : ∃ l, takeBody block control owner (ps ++ .mk .semi line [] :: rest) =
      block l ps >>= fun own => .ok (.mk .lcurl l own, .mk .semi line [] :: rest) := by
  cases ps with
  | nil => exact ⟨line, rfl⟩
  | cons p ps =>
    obtain ⟨k, l, inner⟩ := p
    obtain ⟨hcurl, hcontrol⟩ := hfront _ rfl
    refine ⟨l, ?_⟩
    have hspan : (Piece.mk k l inner :: (ps ++ .mk .semi line [] :: rest)).span (fun p => p.kind != .semi) =
        (.mk k l inner :: ps, .mk .semi line [] :: rest) := by
      have hall : ∀ p ∈ Piece.mk k l inner :: ps, (fun p : Piece => p.kind != .semi) p = true := by
        intro p hp
        simpa using hsemi p hp
      rw [List.span_eq_takeWhile_dropWhile, ← List.cons_append, List.takeWhile_append_of_pos hall,
        List.dropWhile_append_of_pos hall]
      simp [Piece.kind]
    rw [List.cons_append]
    have hk : k ≠ .lcurl := hcurl
    have hc : k.isControl = false := hcontrol
    unfold takeBody
    split
    · rename_i heq
      exact nomatch heq
    · rename_i heq
      exact absurd (Piece.mk.inj (List.cons.inj heq).1).1 hk
    · rename_i heq
      obtain ⟨⟨rfl, rfl, rfl⟩, rfl⟩ := (List.cons.inj heq).imp Piece.mk.inj id
      rw [hc, hspan]
      rfl

end

/-! ## bodies without braces and with them -/

section

variable {p : Piece} {ps qs inner : List Piece} {k : Tok} {line : Nat}

theorem eq_mk_of_unlined (h : p.unlined = (Piece.mk k line inner).unlined) :
    ∃ l ps, p = .mk k l ps ∧ ps.map Piece.unlined = inner.map Piece.unlined := by
  obtain ⟨k', l, ps⟩ := p
  rw [Piece.unlined_mk, Piece.unlined_mk, Piece.mk.injEq] at h
  obtain ⟨rfl, -, hps⟩ := h
  exact ⟨l, ps, rfl, hps⟩

theorem eq_leaf_of_unlined (h : p.unlined = (Piece.mk k line []).unlined) : ∃ l, p = .mk k l [] := by
  obtain ⟨l, ps, rfl, hps⟩ := eq_mk_of_unlined h
  rw [List.map_nil, List.map_eq_nil_iff] at hps
  exact ⟨l, by rw [hps]⟩

theorem eq_cons_of_unlined (h : ps.map Piece.unlined = (Piece.mk k line inner :: qs).map Piece.unlined) :
    ∃ l us ps', ps = .mk k l us :: ps' ∧ us.map Piece.unlined = inner.map Piece.unlined ∧
      ps'.map Piece.unlined = qs.map Piece.unlined := by
  obtain ⟨p, ps', rfl, hp, hps⟩ := List.map_eq_cons_iff.mp h
  obtain ⟨l, us, rfl, hus⟩ := eq_mk_of_unlined hp
  exact ⟨l, us, ps', rfl, hus, hps⟩

theorem eq_leaf_cons_of_unlined (h : ps.map Piece.unlined = (Piece.mk k line [] :: qs).map Piece.unlined) :
    ∃ l ps', ps = .mk k l [] :: ps' ∧ ps'.map Piece.unlined = qs.map Piece.unlined := by
  obtain ⟨p, ps', rfl, hp, hps⟩ := List.map_eq_cons_iff.mp h
  obtain ⟨l, rfl⟩ := eq_leaf_of_unlined hp
  exact ⟨l, ps', rfl, hps⟩

theorem eq_append_of_unlined (h : ps.map Piece.unlined = (qs ++ inner).map Piece.unlined) :
    ∃ ps₁ ps₂, ps = ps₁ ++ ps₂ ∧ ps₁.map Piece.unlined = qs.map Piece.unlined ∧
      ps₂.map Piece.unlined = inner.map Piece.unlined := by
  rw [List.map_append, List.map_eq_append_iff] at h
  exact h

end

/-- Up to the budget `d`, forests that differ in their lines only are completed alike. -/
def Below (d : Nat) : Prop := ∀ (c e l l' : Nat) {ps qs : List Piece}, c ≤ d →
  ps.map Piece.unlined = qs.map Piece.unlined →
    Agree (fun ps qs => ps.map Piece.unlined = qs.map Piece.unlined) (fixBlock c l ps) (fixBlock e l' qs)

theorem Below.mono {c d : Nat} (h : Below d) (hcd : c ≤ d) : Below c :=
  fun b e l l' _ _ hb hps => h b e l l' (Nat.le_trans hb hcd) hps

theorem agree_fixGroup {block block' : Nat → List Piece → Except CompileError (List Piece)} {k : Tok}
    {l l' : Nat} {ps qs : List Piece}
    (h : Agree (fun ps qs => ps.map Piece.unlined = qs.map Piece.unlined) (block l ps) (block' l' qs)) :
    Agree (fun p q => p.unlined = q.unlined) (fixGroup block (.mk k l ps)) (fixGroup block' (.mk k l' qs)) :=
  h.bind fun _ _ hqs => .ok (by rw [Piece.unlined_mk, Piece.unlined_mk, hqs])

/-- What was made differs in its lines only; what is left begins with a separator where there are no
braces. -/
def Leaves {α : Type} (same : α → α → Prop) (rest rest' : List Piece) (x y : α × List Piece) : Prop :=
  same x.1 y.1 ∧ (∃ line, x.2 = .mk .semi line [] :: rest) ∧ y.2 = rest'

/-- A body is completed alike without braces and with them. -/
def BodySwaps (s : Stmt) : Prop := ∀ {d e : Nat} (owner owner' : Nat) {ps : List Piece} {p : Piece}
  {rest rest' : List Piece}, Below d → ps.map Piece.unlined = s.bare.map Piece.unlined →
  p.unlined = (Piece.mk .lcurl 0 s.core).unlined → (s.endsOpen = true → startsElse rest = false) →
    Agree (Leaves (fun p q => p.unlined = q.unlined) rest rest')
      (takeBody (fixBlock d) (fixControl d) owner (ps ++ rest))
      (takeBody (fixBlock e) (fixControl e) owner' (p :: rest'))

/-- The other branch is completed alike without braces and with them. -/
def OtherSwaps (o : Other) : Prop := ∀ {d e line : Nat} {ps qs rest rest' : List Piece}, Below d →
  ps.map Piece.unlined = o.bare.map Piece.unlined → qs.map Piece.unlined = o.core.map Piece.unlined →
  (o.endsOpen true = true → startsElse rest = false) → startsElse (atElse rest') = false →
    Agree (Leaves (fun ps qs => ps.map Piece.unlined = qs.map Piece.unlined) rest rest')
      (fixElse (fixBlock d) (fixControl d) (.mk .semi line [] :: (ps ++ rest)))
      (fixElse (fixBlock e) (fixControl e) (qs ++ rest'))

/-- A control statement is completed alike without braces and with them. -/
theorem agree_fixControl {k : Tok} {head : List Piece} {body : Stmt} {other : Other}
    (hother : other = .none ∨ k = .kIf ∧ body.endsOpen = false) (hbody : BodySwaps body)
    (helse : OtherSwaps other) {d e : Nat} (l l' : Nat) {ps qs rest rest' : List Piece} (hd : Below d)
    (hps : ps.map Piece.unlined = (Piece.mk .lpar 0 head :: (body.bare ++ other.bare)).map Piece.unlined)
    (hqs : qs.map Piece.unlined = (Piece.mk .lpar 0 head :: .mk .lcurl 0 body.core :: other.core).map Piece.unlined)
    (hopen : other.endsOpen (k == .kIf || body.endsOpen) = true → startsElse rest = false)
    (hrest' : startsElse (atElse rest') = false) :
    Agree (Leaves (fun p q => p.unlined = q.unlined) rest rest') (fixControl d k l (ps ++ rest))
      (fixControl e k l' (qs ++ rest')) := by
  cases d with
  | zero => exact .left rfl
  | succ d =>
    cases e with
    | zero => exact .right rfl
    | succ e =>
      obtain ⟨lp, heads, _, rfl, hheads, hps⟩ := eq_cons_of_unlined hps
      obtain ⟨bodies, others, rfl, hbodies, hothers⟩ := eq_append_of_unlined hps
      obtain ⟨lq, heads', _, rfl, hheads', hqs⟩ := eq_cons_of_unlined hqs
      obtain ⟨b, others', rfl, hb, hothers'⟩ := List.map_eq_cons_iff.mp hqs
      have hbelow : Below d := hd.mono (Nat.le_succ d)
      have hhead := hbelow d e lp lq (Nat.le_refl d) (hheads.trans hheads'.symm)
      have hclosed : body.endsOpen = true → startsElse (others ++ rest) = false := by
        intro hopenBody
        rcases hother with rfl | ⟨-, hclosed⟩
        · rw [Other.bare, List.map_nil, List.map_eq_nil_iff] at hothers
          rw [hothers]
          exact hopen (by simp [Other.endsOpen, hopenBody])
        · rw [hclosed] at hopenBody
          exact nomatch hopenBody
      rw [fixControl, fixControl]
      simp only [List.cons_append, List.append_assoc]
      unfold controlParts
      refine (agree_fixGroup hhead).bind fun p q hpq => ?_
      refine (hbody l l' hbelow hbodies hb hclosed).bind fun (x, left) (y, left') ⟨hxy, ⟨line, hleft⟩, hleft'⟩ => ?_
      obtain rfl : left = _ := hleft
      obtain rfl : left' = _ := hleft'
      dsimp only
      split
      · rename_i hk
        refine (helse hbelow hothers hothers' (fun h => hopen (by rw [hk]; exact h)) hrest').bind
          fun (x', left) (y', left') ⟨hxy', hleft, hleft'⟩ => ?_
        exact .ok ⟨by simp [hpq, hxy, hxy'], hleft, hleft'⟩
      · rename_i hk
        rcases hother with rfl | ⟨rfl, -⟩
        · rw [Other.bare, List.map_nil, List.map_eq_nil_iff] at hothers
          rw [Other.core, List.map_nil, List.map_eq_nil_iff] at hothers'
          subst hothers hothers'
          exact .ok ⟨by simp [hpq, hxy], ⟨line, rfl⟩, rfl⟩
        · exact absurd rfl hk

/-- A block with nothing but a control statement in it. -/
theorem fixBlock_control {k : Tok} (hk : k.isControl = true) (e line l : Nat) (rest : List Piece) :
    fixBlock (e + 1) line (.mk k l [] :: rest) =
      fixControl e k l rest >>= fun (stmt, left) =>
        fixSiblings (fixBlock e) (fixControl e) rest.length (separator l (· == .semi) left ++ [stmt]) left := by
  cases hr : fixControl e k l rest <;> cases k <;>
    first | exact absurd hk Bool.false_ne_true | (simp only [fixBlock, List.length_cons, fixSiblings, hr]; rfl)

theorem takeBody_braces (e owner line : Nat) (ps rest : List Piece) :
    takeBody (fixBlock e) (fixControl e) owner (.mk .lcurl line ps :: rest) =
      fixBlock e line ps >>= fun own => .ok (.mk .lcurl line own, rest) := by
  rw [takeBody, fixGroup]
  cases fixBlock e line ps <;> rfl

theorem bodySwaps_simple {xs : List Piece} (hxs : Piece.Expression xs) : BodySwaps (.simple xs) := by
  intro d e owner owner' ps p rest rest' hd hps hp _
  obtain ⟨ys, _, rfl, hys, hsemi⟩ := eq_append_of_unlined hps
  obtain ⟨line, _, rfl, hnil⟩ := eq_leaf_cons_of_unlined hsemi
  rw [List.map_nil, List.map_eq_nil_iff] at hnil
  subst hnil
  obtain ⟨l', zs, rfl, hzs⟩ := eq_mk_of_unlined hp
  have hplain : ∀ y ∈ ys, ∃ x ∈ xs, y.kind = x.kind := by
    intro y hy
    obtain ⟨x, hx, hxy⟩ := List.mem_map.mp (hys ▸ List.mem_map_of_mem hy)
    exact ⟨x, hx, kind_eq_of_unlined hxy.symm⟩
  have hfront : ∀ y, ys.head? = some y → y.kind ≠ .lcurl ∧ y.kind.isControl = false := by
    intro y hy
    obtain ⟨x, hx, hkind⟩ := hplain y (List.mem_of_mem_head? hy)
    refine ⟨?_, hkind ▸ (hxs.plain x hx).2.1⟩
    have hhead := congrArg List.head? hys
    rw [List.head?_map, List.head?_map, hy, Option.map_some, eq_comm, Option.map_eq_some_iff] at hhead
    obtain ⟨x', hx', hxy⟩ := hhead
    exact kind_eq_of_unlined hxy ▸ hxs.front x' hx'
  have hsemi : ∀ y ∈ ys, y.kind ≠ .semi := by
    intro y hy
    obtain ⟨x, hx, hkind⟩ := hplain y hy
    exact hkind ▸ (hxs.plain x hx).1
  rw [List.append_assoc, List.cons_append, List.nil_append]
  obtain ⟨l, heq⟩ := @takeBody_simple (fixBlock d) (fixControl d) _ hsemi hfront owner line rest
  have hown := hd d e l l' (Nat.le_refl d) (hys.trans hzs.symm)
  rw [heq, takeBody_braces]
  exact hown.bind fun us vs huv => .ok ⟨by simp [huv], ⟨line, rfl⟩, rfl⟩

theorem bodySwaps_control {k : Tok} {head : List Piece} {body : Stmt} {other : Other} (hk : k.isControl = true)
    (hother : other = .none ∨ k = .kIf ∧ body.endsOpen = false) (hbody : BodySwaps body)
    (helse : OtherSwaps other) : BodySwaps (.control k head body other) := by
  intro d e owner owner' ps p rest rest' hd hps hp hopen
  obtain ⟨l, tail, rfl, htail⟩ := eq_leaf_cons_of_unlined hps
  obtain ⟨l', inner, rfl, hinner⟩ := eq_mk_of_unlined hp
  obtain ⟨l'', tail', rfl, htail'⟩ := eq_leaf_cons_of_unlined hinner
  cases e with
  | zero => exact .right rfl
  | succ e =>
    have hstmt := agree_fixControl (e := e) hother hbody helse l l'' hd htail htail' hopen
      (show startsElse (atElse []) = false from rfl)
    have hbare : takeBody (fixBlock d) (fixControl d) owner (.mk k l [] :: tail ++ rest) =
        fixControl d k l (tail ++ rest) >>= fun (stmt, left) => .ok (.mk .lcurl l [stmt], left) := by
      cases k <;> first | rfl | exact absurd hk Bool.false_ne_true
    rw [hbare, takeBody_braces, fixBlock_control hk, bind_assoc]
    rw [List.append_nil] at hstmt
    refine hstmt.bind fun (x, left) (y, left') ⟨hxy, hleft, hleft'⟩ => ?_
    obtain rfl : left' = [] := hleft'
    cases tail' <;> exact .ok ⟨by simp [separator, hxy], hleft, rfl⟩

theorem otherSwaps_none : OtherSwaps .none := by
  intro d e line ps qs rest rest' hd hps hqs hopen hrest'
  rw [Other.bare, List.map_nil, List.map_eq_nil_iff] at hps
  rw [Other.core, List.map_nil, List.map_eq_nil_iff] at hqs
  subst hps hqs
  have hrest : startsElse (atElse (.mk .semi line [] :: rest)) = false := by
    rw [startsElse_atElse_semi]
    exact hopen rfl
  rw [List.nil_append, List.nil_append, fixElse_eq_nil hrest, fixElse_eq_nil hrest']
  exact .ok ⟨rfl, ⟨line, rfl⟩, rfl⟩

/-- A statement that is no `if` does not begin like one. -/
theorem head_bare_ne {s : Stmt} (hs : s.Formed) (hif : s.isIf = false) {p : Piece} (hp : s.bare.head? = some p) :
    p.kind ≠ .kIf := by
  cases s with
  | simple xs =>
    cases xs with
    | nil =>
      obtain rfl : Piece.mk .semi 0 [] = p := Option.some.inj hp
      nofun
    | cons x xs =>
      obtain rfl : x = p := Option.some.inj hp
      intro hkind
      have hplain := (hs.plain x List.mem_cons_self).2.1
      rw [hkind] at hplain
      exact nomatch hplain
  | control k head body other =>
    obtain rfl : Piece.mk k 0 [] = p := Option.some.inj hp
    simpa [Stmt.isIf, Piece.kind] using hif

theorem bare_ne_nil (s : Stmt) : s.bare ≠ [] := by
  cases s <;> simp [Stmt.bare]

theorem otherSwaps_branch {s : Stmt} (hs : s.Formed) (hif : s.isIf = false) (hbody : BodySwaps s) :
    OtherSwaps (.branch s) := by
  intro d e line ps qs rest rest' hd hps hqs hopen hrest'
  obtain ⟨l, tail, rfl, htail⟩ := eq_leaf_cons_of_unlined hps
  obtain ⟨l', tail', rfl, htail'⟩ := eq_leaf_cons_of_unlined hqs
  obtain ⟨b, rfl, hb⟩ := List.map_eq_singleton_iff.mp htail'
  have hfront : ∀ p, (tail ++ rest).head? = some p → p.kind ≠ .kIf := by
    intro p hp
    have hhead := congrArg List.head? htail
    rw [List.head?_map, List.head?_map] at hhead
    cases tail with
    | nil => exact absurd (List.map_eq_nil_iff.mp htail.symm) (bare_ne_nil s)
    | cons q tail =>
      obtain rfl : q = p := Option.some.inj hp
      obtain ⟨x, hx, hxq⟩ := Option.map_eq_some_iff.mp hhead.symm
      exact kind_eq_of_unlined hxq ▸ head_bare_ne hs hif hx
  have hbraces : ∀ p, ([b] ++ rest').head? = some p → p.kind ≠ .kIf := by
    intro p hp
    obtain rfl : b = p := Option.some.inj hp
    rw [kind_eq_of_unlined hb]
    nofun
  rw [fixElse_semi rfl, List.cons_append, fixElse_else hfront, List.cons_append, fixElse_else hbraces]
  refine (hbody l l' hd htail hb hopen).bind fun (x, left) (y, left') ⟨hxy, hleft, hleft'⟩ => ?_
  exact .ok ⟨by simp [hxy], hleft, hleft'⟩

/-- The keywords behind a body are passed over, and an `if` follows. -/
theorem fixElse_againWords (block : Nat → List Piece → Except CompileError (List Piece))
    (control : Tok → Nat → List Piece → Except CompileError (Piece × List Piece)) {elsif : Bool} {us tail : List Piece}
    (h : us.map Piece.unlined = (againWords elsif ++ tail).map Piece.unlined) : startsElse us = true ∧
      ∃ l vs, vs.map Piece.unlined = tail.map Piece.unlined ∧ ∀ rest, fixElse block control (us ++ rest) =
        control .kIf l (vs ++ rest) >>= fun (stmt, left) => .ok ([stmt], left) := by
  cases elsif with
  | true =>
    obtain ⟨l, vs, rfl, hvs⟩ := eq_leaf_cons_of_unlined h
    exact ⟨rfl, l, vs, hvs, fun _ => rfl⟩
  | false =>
    obtain ⟨_, ws, rfl, hws⟩ := eq_leaf_cons_of_unlined h
    obtain ⟨l, vs, rfl, hvs⟩ := eq_leaf_cons_of_unlined hws
    exact ⟨rfl, l, vs, hvs, fun _ => rfl⟩

theorem otherSwaps_again {elsif : Bool} {head : List Piece} {body : Stmt} {other : Other}
    (hother : other = .none ∨ body.endsOpen = false) (hbody : BodySwaps body) (helse : OtherSwaps other) :
    OtherSwaps (.again elsif head body other) := by
  intro d e line ps qs rest rest' hd hps hqs hopen hrest'
  obtain ⟨hstarts, l, tail, htail, hbare⟩ := fixElse_againWords (fixBlock d) (fixControl d) hps
  obtain ⟨-, l', tail', htail', hbraced⟩ := fixElse_againWords (fixBlock e) (fixControl e) hqs
  have hstarts' : startsElse (ps ++ rest) = true := by
    cases ps with
    | nil => exact nomatch hstarts
    | cons p ps => exact hstarts
  rw [fixElse_semi hstarts', hbare, hbraced]
  refine (agree_fixControl (hother.imp_right fun h => ⟨rfl, h⟩) hbody helse l l' hd htail htail' hopen hrest').bind
    fun (x, left) (y, left') ⟨hxy, hleft, hleft'⟩ => ?_
  exact .ok ⟨by simp [hxy], hleft, hleft'⟩

mutual
theorem bodySwaps : (s : Stmt) → s.Formed → BodySwaps s
  | .simple _, h => bodySwaps_simple h
  | .control _ _ body other, ⟨hk, _, hbody, hother, hends⟩ =>
    bodySwaps_control hk hends (bodySwaps body hbody) (otherSwaps other hother)
theorem otherSwaps : (o : Other) → o.Formed → OtherSwaps o
  | .none, _ => otherSwaps_none
  | .branch s, ⟨hs, hif⟩ => otherSwaps_branch hs hif (bodySwaps s hs)
  | .again _ _ body other, ⟨_, hbody, hother, hends⟩ =>
    otherSwaps_again hends (bodySwaps body hbody) (otherSwaps other hother)
end

end Blocks

end ScriptEngine
