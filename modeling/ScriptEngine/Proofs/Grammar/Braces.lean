import ScriptEngine.Proofs.Grammar.Swapping

/-!
# Braces around bodies

A statement is read as the same tree whether its bodies and branches stand in braces or not, alone and as an
item of a list of statements, at whatever depth that list is nested.

* `Spelled`            a text that is read as the tokens of a forest;
* `Listed`               forests with a statement as an item, without braces and with them;
* `Stmt.Read`          statements whose headers and expressions are read;
* `parse_braces`       **braces around bodies do not matter.**
-/

namespace ScriptEngine

/-! ## texts -/

/-- The text is read as the tokens of the forest, on whatever lines. -/
def Spelled (src : Bytes) (line : Nat) (ps : List Piece) : Prop :=
  ∃ ts, lex src line = .ok ts ∧ ts.map Token.kind = Piece.flatAll ps

/-- What may stand behind the pieces. -/
def Awaited.afterAll (σ : Awaited) : List Piece → Awaited
  | [] => σ
  | p :: ps => (σ.after p.kind).afterAll ps

/-- Forests with the statement as an item of a list of statements, without braces in the first and with them
in the second one. -/
inductive Listed (s : Stmt) : List Piece → List Piece → Prop
  | here {front back : List Piece} (hgrouped : ∀ p ∈ front ++ back, p.Grouped)
    (hfront : Awaited.item.afterAll front = .item) (hback : startsElse back = false) :
    Listed s (front ++ (s.bare ++ back)) (front ++ (s.braced ++ back))
  | inside {k : Tok} {front inner inner' back : List Piece} (hgrouped : ∀ p ∈ front ++ back, p.Grouped)
    (hk : k.isOpen = true) (h : Listed s inner inner') :
    Listed s (front ++ .mk k 0 inner :: back) (front ++ .mk k 0 inner' :: back)

namespace Swapped

open Blocks (eq_cons_of_unlined eq_append_of_unlined)

theorem prepend {σ : Awaited} (front : List Piece) {ps qs : List Piece} (h : Swapped (σ.afterAll front) ps qs) :
    Swapped σ (front ++ ps) (front ++ qs) := by
  induction front generalizing σ with
  | nil => exact h
  | cons p front ih =>
    obtain ⟨k, l, us⟩ := p
    exact .piece (fun _ => rfl) (.of_unlined us .item rfl) (ih h)

theorem congr {σ : Awaited} {ps qs us vs : List Piece} (h : Swapped σ ps qs)
    (hus : us.map Piece.unlined = ps.map Piece.unlined) (hvs : vs.map Piece.unlined = qs.map Piece.unlined) :
    Swapped σ us vs := by
  induction h generalizing us vs with
  | nil =>
    rw [List.map_nil, List.map_eq_nil_iff] at hus hvs
    rw [hus, hvs]
    exact .nil
  | piece hleaf hinner hrest ihInner ihRest =>
    obtain ⟨l, inner, us, rfl, hl, hus⟩ := eq_cons_of_unlined hus
    obtain ⟨l', inner', vs, rfl, hl', hvs⟩ := eq_cons_of_unlined hvs
    exact .piece (fun hk => by rw [hl, hleaf hk, hl']) (ihInner hl hl') (ihRest hus hvs)
  | @stmt k head body other ps ps' rest rest' hs hps hps' helse hrest ih =>
    obtain ⟨us, more, rfl, hus, hmore⟩ := eq_append_of_unlined hus
    obtain ⟨vs, more', rfl, hvs, hmore'⟩ := eq_append_of_unlined hvs
    refine .stmt hs (hus.trans hps) (hvs.trans hps') ?_ (ih hmore hmore')
    rw [Blocks.startsElse_of_swapped (of_unlined more .item hmore), helse]

end Swapped

theorem grouped_againWords (elsif : Bool) : ∀ p ∈ againWords elsif, p.Grouped := by
  cases elsif with
  | true =>
    rw [againWords, if_pos rfl, List.forall_mem_singleton]
    exact .leaf rfl rfl
  | false =>
    rw [againWords, if_neg Bool.false_ne_true, List.forall_mem_cons, List.forall_mem_singleton]
    exact ⟨.leaf rfl rfl, .leaf rfl rfl⟩

mutual
theorem Stmt.grouped_bare : (s : Stmt) → s.Formed → ∀ p ∈ s.bare, p.Grouped
  | .simple ps, h => by
    rw [Stmt.bare, List.forall_mem_append, List.forall_mem_singleton]
    exact ⟨h.grouped, .leaf rfl rfl⟩
  | .control k head body other, ⟨hk, hhead, hbody, hother, _⟩ => by
    rw [Stmt.bare, List.forall_mem_cons, List.forall_mem_cons, List.forall_mem_append]
    refine ⟨?_, .group rfl hhead, body.grouped_bare hbody, other.grouped_bare hother⟩
    cases k <;> first | exact .leaf rfl rfl | exact nomatch hk
theorem Other.grouped_bare : (o : Other) → o.Formed → ∀ p ∈ o.bare, p.Grouped
  | .none, _ => nofun
  | .branch s, ⟨hs, _⟩ => by
    rw [Other.bare, List.forall_mem_cons]
    exact ⟨.leaf rfl rfl, s.grouped_bare hs⟩
  | .again elsif head body other, ⟨hhead, hbody, hother, _⟩ => by
    rw [Other.bare, List.forall_mem_append, List.forall_mem_cons, List.forall_mem_append]
    exact ⟨grouped_againWords elsif, .group rfl hhead, body.grouped_bare hbody, other.grouped_bare hother⟩
end

mutual
theorem Stmt.grouped_core : (s : Stmt) → s.Formed → ∀ p ∈ s.core, p.Grouped
  | .simple ps, h => h.grouped
  | .control k head body other, ⟨hk, hhead, hbody, hother, _⟩ => by
    rw [Stmt.core, List.forall_mem_cons, List.forall_mem_cons, List.forall_mem_cons]
    refine ⟨?_, .group rfl hhead, .group rfl (body.grouped_core hbody), other.grouped_core hother⟩
    cases k <;> first | exact .leaf rfl rfl | exact nomatch hk
theorem Other.grouped_core : (o : Other) → o.Formed → ∀ p ∈ o.core, p.Grouped
  | .none, _ => nofun
  | .branch s, ⟨hs, _⟩ => by
    rw [Other.core, List.forall_mem_cons, List.forall_mem_singleton]
    exact ⟨.leaf rfl rfl, .group rfl (s.grouped_core hs)⟩
  | .again elsif head body other, ⟨hhead, hbody, hother, _⟩ => by
    rw [Other.core, List.forall_mem_append, List.forall_mem_cons, List.forall_mem_cons]
    exact ⟨grouped_againWords elsif, .group rfl hhead, .group rfl (body.grouped_core hbody), other.grouped_core hother⟩
end

theorem Stmt.grouped_braced {s : Stmt} (hs : s.Formed) : ∀ p ∈ s.braced, p.Grouped := by
  rw [Stmt.braced, List.forall_mem_append, List.forall_mem_singleton]
  exact ⟨s.grouped_core hs, .leaf rfl rfl⟩

namespace Listed

variable {s : Stmt} {ps qs : List Piece}

theorem swapped (hs : s.Formed) (h : Listed s ps qs) : Swapped .item ps qs := by
  induction h with
  | @here front back _ hfront hback =>
    refine .prepend front ?_
    rw [hfront]
    cases s with
    | simple xs => exact .of_unlined _ .item rfl
    | control k head body other => exact .stmt hs rfl rfl hback (.of_unlined back .item rfl)
  | @inside k front inner inner' back _ hk _ ih =>
    exact .prepend front (.piece (fun hclosed => absurd hk (by simp [hclosed])) ih (.of_unlined back _ rfl))

theorem grouped (hs : s.Formed) (h : Listed s ps qs) : (∀ p ∈ ps, p.Grouped) ∧ ∀ p ∈ qs, p.Grouped := by
  induction h with
  | here hgrouped =>
    rw [List.forall_mem_append] at hgrouped
    simp only [List.forall_mem_append]
    exact ⟨⟨hgrouped.1, s.grouped_bare hs, hgrouped.2⟩, hgrouped.1, Stmt.grouped_braced hs, hgrouped.2⟩
  | inside hgrouped hk _ ih =>
    rw [List.forall_mem_append] at hgrouped
    simp only [List.forall_mem_append, List.forall_mem_cons]
    exact ⟨⟨hgrouped.1, .group hk ih.1, hgrouped.2⟩, hgrouped.1, .group hk ih.2, hgrouped.2⟩

end Listed

/-! ## reading the texts -/

section

variable {ps qs : List Piece} {src src' : Bytes} {line line' : Nat}

theorem agree_parse (hsrc : Spelled src line ps) (hsrc' : Spelled src' line' qs) (hps : ∀ p ∈ ps, p.Grouped)
    (hqs : ∀ p ∈ qs, p.Grouped) (h : Swapped .item ps qs) :
    Agree (fun t u => t.unlined = u.unlined) (parse src line) (parse src' line') := by
  obtain ⟨ts, hlex, hkinds⟩ := hsrc
  obtain ⟨ts', hlex', hkinds'⟩ := hsrc'
  unfold parse
  rw [hlex, hlex']
  refine ((comes_bracket hps hkinds).agree (comes_bracket hqs hkinds')).bind fun us vs ⟨hus, hvs⟩ => ?_
  refine (Blocks.agree_fixBlock maxNesting maxNesting line line' (h.congr hus hvs)).bind fun us vs huv => ?_
  exact Precedence.alike_row maxNesting maxNesting 0 line line' huv

end

/-! ## statements whose expressions are read -/

/-- The pieces are read on their own, within some budget. -/
def Piece.Read (ps : List Piece) : Prop :=
  ∃ d line t, (Blocks.fixBlock d line ps >>= fun qs => Precedence.row d qs 0 line) = .ok t

mutual
/-- The headers and the expressions of the statement are read on their own. -/
def Stmt.Read : Stmt → Prop
  | .simple ps => Piece.Read ps
  | .control _ head body other => Piece.Read head ∧ body.Read ∧ other.Read
def Other.Read : Other → Prop
  | .none => True
  | .branch s => s.Read
  | .again _ head body other => Piece.Read head ∧ body.Read ∧ other.Read
end

namespace Blocks

open Precedence (row elseIf atom)

/-- A row that is read unless it is nested too deeply. -/
def Readable (ps : List Piece) : Prop := ∀ d line, Comes (fun _ => True) (row d ps 0 line)

/-- A value that is read unless it is nested too deeply. -/
def Valued (p : Piece) : Prop := ∀ d, Comes (fun _ => True) (atom (row d) (elseIf d) p)

theorem comes_fixBlock_of_read {ps qs : List Piece} (h : Piece.Read ps) (d line : Nat)
    (hqs : qs.map Piece.unlined = ps.map Piece.unlined) : Comes Readable (fixBlock d line qs) := by
  obtain ⟨e, line', t, h⟩ := h
  have hagree := agree_fixBlock d e line line' (.of_unlined qs .item hqs)
  cases hfix : fixBlock e line' ps with
  | error err => simp [hfix, Bind.bind, Except.bind] at h
  | ok us =>
    rw [hfix] at hagree h
    have hread : row e us 0 line' = .ok t := h
    refine hagree.comes.mono fun vs hvs c l => ?_
    have hrow := Precedence.alike_row c e 0 l line' hvs
    rw [hread] at hrow
    exact (Agree.comes hrow).mono fun _ _ => trivial

/-- A body in braces is read, and what is behind it is left. -/
def BodyReads (s : Stmt) : Prop := ∀ (e owner : Nat) {p : Piece} {rest : List Piece},
  p.unlined = (Piece.mk .lcurl 0 s.core).unlined →
    Comes (fun x => x.2 = rest ∧ x.1.kind = .lcurl ∧ Readable x.1.inner)
      (takeBody (fixBlock e) (fixControl e) owner (p :: rest))

/-- The other branch, if there is one, is read, and what is behind it is left. -/
def OtherReads (o : Other) : Prop := ∀ (e : Nat) {qs rest : List Piece},
  qs.map Piece.unlined = o.core.map Piece.unlined → startsElse (atElse rest) = false →
    Comes (fun x => x.2 = rest ∧ (x.1 = [] ∨ ∃ q, x.1 = [q] ∧
        (q.kind = .kIf ∧ Valued q ∨ q.kind = .lcurl ∧ Readable q.inner)))
      (fixElse (fixBlock e) (fixControl e) (qs ++ rest))

theorem valued_control {k : Tok} (hk : k.isControl = true) (line : Nat) {head body : Piece} {others : List Piece}
    (hhead : Readable head.inner) (hbody : Readable body.inner)
    (hothers : others = [] ∨ ∃ q, others = [q] ∧
      (q.kind = .kIf ∧ Valued q ∨ q.kind = .lcurl ∧ Readable q.inner)) :
    Valued (.mk k line (head :: body :: others)) := by
  intro d
  have hblock {p : Piece} (hp : Readable p.inner) : Comes (fun _ => True) (Precedence.blockTree (row d) p) :=
    (hp d p.line).bind fun _ _ => trivial
  rcases hothers with rfl | ⟨q, rfl, hq⟩
  · have hatom : atom (row d) (elseIf d) (.mk k line [head, body]) =
        Precedence.inside (row d) head >>= fun head => Precedence.blockTree (row d) body >>= fun body =>
          .ok (.mk k line [head, body]) := by
      cases k <;> first | rfl | exact absurd hk Bool.false_ne_true
    rw [hatom]
    exact (hhead d head.line).bind fun _ _ => (hblock hbody).bind fun _ _ => trivial
  · have hatom (r : Except CompileError Tree) (hr : ∀ f : Tree → Except CompileError Tree,
          (if q.kind == .kIf then elseIf d q >>= f else Precedence.blockTree (row d) q >>= f) = r >>= f) :
        atom (row d) (elseIf d) (.mk k line [head, body, q]) =
          Precedence.inside (row d) head >>= fun head => Precedence.blockTree (row d) body >>= fun body =>
            r >>= fun other => .ok (Tree.mk k line [head, body, other]) := by
      simp only [← hr]
      cases k <;> first | rfl | exact absurd hk Bool.false_ne_true
    have hdone {r : Except CompileError Tree} (hr : Comes (fun _ => True) r) : Comes (fun _ => True)
        (Precedence.inside (row d) head >>= fun head => Precedence.blockTree (row d) body >>= fun body =>
          r >>= fun other => .ok (Tree.mk k line [head, body, other])) :=
      (hhead d head.line).bind fun _ _ => (hblock hbody).bind fun _ _ => hr.bind fun _ _ => trivial
    rcases hq with ⟨hkind, hq⟩ | ⟨hkind, hq⟩
    · rw [hatom (elseIf d q) fun f => by simp [hkind]]
      refine hdone ?_
      cases d with
      | zero => exact rfl
      | succ d => exact hq d
    · rw [hatom (Precedence.blockTree (row d) q) fun f => by simp [hkind]]
      exact hdone (hblock hq)

theorem comes_fixControl {k : Tok} {head : List Piece} {body : Stmt} {other : Other} (hk : k.isControl = true)
    (hother : other = .none ∨ k = .kIf) (hhead : Piece.Read head) (hbody : BodyReads body)
    (helse : OtherReads other) (e line : Nat) {qs rest : List Piece}
    (hqs : qs.map Piece.unlined = (Piece.mk .lpar 0 head :: .mk .lcurl 0 body.core :: other.core).map Piece.unlined)
    (hrest : startsElse (atElse rest) = false) :
    Comes (fun x => x.2 = rest ∧ x.1.kind = k ∧ Valued x.1) (fixControl e k line (qs ++ rest)) := by
  cases e with
  | zero => exact rfl
  | succ e =>
    obtain ⟨lq, heads, _, rfl, hheads, hqs⟩ := eq_cons_of_unlined hqs
    obtain ⟨b, others, rfl, hb, hothers⟩ := List.map_eq_cons_iff.mp hqs
    rw [fixControl]
    simp only [List.cons_append]
    unfold controlParts fixGroup
    refine Comes.bind (P := fun p => Readable p.inner) ?_ fun p hp => ?_
    · exact (comes_fixBlock_of_read hhead e lq hheads).bind fun us hus => hus
    refine (hbody e line hb).bind fun made hmade => ?_
    obtain ⟨x, left⟩ := made
    obtain ⟨hleft, hcurl, hx⟩ := hmade
    obtain rfl : left = _ := hleft
    dsimp only
    split
    · refine (helse e hothers hrest).bind fun more hmore => ?_
      exact ⟨hmore.1, rfl, valued_control hk line hp hx hmore.2⟩
    · rename_i hif
      rcases hother with rfl | rfl
      · rw [Other.core, List.map_nil, List.map_eq_nil_iff] at hothers
        subst hothers
        exact ⟨rfl, rfl, valued_control hk line hp hx (.inl rfl)⟩
      · exact absurd rfl hif

/-- A value is read as a row of its own. -/
theorem readable_control {p : Piece} (hk : p.kind.isControl = true) (hp : Valued p) (d level line : Nat) :
    Comes (fun _ => True) (row d [p] level line) := by
  cases d with
  | zero => exact rfl
  | succ d =>
    have hatom : p.kind.isAtom = true := by
      generalize p.kind = k at hk
      cases k <;> first | rfl | exact nomatch hk
    rw [row, Precedence.climb, if_pos hatom]
    exact hp d

theorem bodyReads_simple {xs : List Piece} (hxs : Piece.Read xs) : BodyReads (.simple xs) := by
  intro e owner p rest hp
  obtain ⟨l, us, rfl, hus⟩ := eq_mk_of_unlined hp
  rw [takeBody_braces]
  exact (comes_fixBlock_of_read hxs e l hus).bind fun vs hvs => ⟨rfl, rfl, hvs⟩

theorem bodyReads_control {k : Tok} {head : List Piece} {body : Stmt} {other : Other} (hk : k.isControl = true)
    (hother : other = .none ∨ k = .kIf) (hhead : Piece.Read head) (hbody : BodyReads body)
    (helse : OtherReads other) : BodyReads (.control k head body other) := by
  intro e owner p rest hp
  obtain ⟨l, inner, rfl, hinner⟩ := eq_mk_of_unlined hp
  obtain ⟨l', tail, rfl, htail⟩ := eq_leaf_cons_of_unlined hinner
  rw [takeBody_braces]
  cases e with
  | zero => exact rfl
  | succ e =>
    have hstmt := comes_fixControl hk hother hhead hbody helse e l' htail (show startsElse (atElse []) = false from rfl)
    rw [List.append_nil] at hstmt
    rw [fixBlock_control hk, bind_assoc]
    refine hstmt.bind fun ⟨x, left⟩ ⟨hleft, hkind, hx⟩ => ?_
    obtain rfl : left = [] := hleft
    have hblock : Readable [x] := fun d line => readable_control (hkind ▸ hk) hx d 0 line
    cases tail <;> exact ⟨rfl, rfl, hblock⟩

theorem otherReads_none : OtherReads .none := by
  intro e qs rest hqs hrest
  rw [Other.core, List.map_nil, List.map_eq_nil_iff] at hqs
  subst hqs
  rw [List.nil_append, fixElse_eq_nil hrest]
  exact ⟨rfl, .inl rfl⟩

theorem otherReads_branch {s : Stmt} (hbody : BodyReads s) : OtherReads (.branch s) := by
  intro e qs rest hqs hrest
  obtain ⟨l, tail, rfl, htail⟩ := eq_leaf_cons_of_unlined hqs
  obtain ⟨b, rfl, hb⟩ := List.map_eq_singleton_iff.mp htail
  have hbraces : ∀ p, ([b] ++ rest).head? = some p → p.kind ≠ .kIf := by
    intro p hp
    obtain rfl : b = p := Option.some.inj hp
    rw [Precedence.kind_eq_of_unlined hb]
    nofun
  rw [List.cons_append, fixElse_else hbraces]
  refine (hbody e l hb).bind fun ⟨x, left⟩ ⟨hleft, hcurl, hx⟩ => ?_
  exact ⟨hleft, .inr ⟨x, rfl, .inr ⟨hcurl, hx⟩⟩⟩

theorem otherReads_again {elsif : Bool} {head : List Piece} {body : Stmt} {other : Other} (hhead : Piece.Read head)
    (hbody : BodyReads body) (helse : OtherReads other) : OtherReads (.again elsif head body other) := by
  intro e qs rest hqs hrest
  obtain ⟨-, l, tail, htail, heq⟩ := fixElse_againWords (fixBlock e) (fixControl e) hqs
  rw [heq]
  refine (comes_fixControl rfl (.inr rfl) hhead hbody helse e l htail hrest).bind fun ⟨x, left⟩ ⟨hleft, hkind, hx⟩ => ?_
  exact ⟨hleft, .inr ⟨x, rfl, .inl ⟨hkind, hx⟩⟩⟩

mutual
theorem bodyReads : (s : Stmt) → s.Formed → s.Read → BodyReads s
  | .simple _, _, h => bodyReads_simple h
  | .control _ _ body other, ⟨hk, _, hbody, hother, hends⟩, ⟨hhead, hbody', hother'⟩ =>
    bodyReads_control hk (hends.imp_right And.left) hhead (bodyReads body hbody hbody')
      (otherReads other hother hother')
theorem otherReads : (o : Other) → o.Formed → o.Read → OtherReads o
  | .none, _, _ => otherReads_none
  | .branch s, ⟨hs, _⟩, h => otherReads_branch (bodyReads s hs h)
  | .again _ _ body other, ⟨_, hbody, hother, _⟩, ⟨hhead, hbody', hother'⟩ =>
    otherReads_again hhead (bodyReads body hbody hbody') (otherReads other hother hother')
end

theorem comes_row_separated {p : Piece} (hk : p.kind.isControl = true) (hp : Valued p) (d m line : Nat) :
    Comes (fun _ => True) (row d [p, .mk .semi m []] 0 line) := by
  cases d with
  | zero => exact rfl
  | succ d =>
    have hrow : row (d + 1) [p, .mk .semi m []] 0 line =
        row d [p] 1 m >>= fun t => row d [] 1 m >>= fun u => .ok (Tree.mk .list m [t, u]) := by
      obtain ⟨k, l, inner⟩ := p
      have hcut : Precedence.cut (fun p => Precedence.Level.has ⟨[.semi, .comma], .list⟩ p.kind)
          [.mk k l inner, .mk .semi m []] = ([([.mk k l inner], .mk .semi m [])], []) := by
        cases k <;> first | rfl | exact nomatch hk
      rw [row]
      simp only [Precedence.climb, Precedence.levels, List.drop_zero, Precedence.fromLevel, Precedence.atLevel,
        Precedence.listTree, hcut, Precedence.listItems, List.mapM_cons, List.mapM_nil, Piece.line]
      cases row d [.mk k l inner] 1 m <;> rfl
    rw [hrow]
    refine (readable_control hk hp d 1 m).bind fun _ _ => Comes.bind (P := fun _ => True) ?_ fun _ _ => trivial
    cases d with
    | zero => exact rfl
    | succ d => exact trivial

theorem comes_braced {k : Tok} {head : List Piece} {body : Stmt} {other : Other}
    (hs : (Stmt.control k head body other).Formed) (hread : (Stmt.control k head body other).Read) (line : Nat)
    {ps : List Piece} (hps : ps.map Piece.unlined = (Stmt.control k head body other).braced.map Piece.unlined) :
    Comes (fun _ => True) (fix line ps >>= fun qs => row maxNesting qs 0 line) := by
  obtain ⟨hk, -, hbody, hother, hends⟩ := hs
  obtain ⟨hhead, hbody', hother'⟩ := hread
  obtain ⟨l, tail, rfl, htail⟩ := eq_leaf_cons_of_unlined hps
  obtain ⟨cores, semi, rfl, hcores, hsemi⟩ := eq_append_of_unlined htail
  obtain ⟨m, ends, rfl, hends'⟩ := eq_leaf_cons_of_unlined hsemi
  rw [List.map_nil, List.map_eq_nil_iff] at hends'
  subst hends'
  have hstmt := comes_fixControl hk (hends.imp_right And.left) hhead (bodyReads body hbody hbody')
    (otherReads other hother hother') (maxNesting - 1) l hcores
    (show startsElse (atElse [.mk .semi m []]) = false from rfl)
  rw [fix, show maxNesting = (maxNesting - 1) + 1 from rfl, fixBlock_control hk, bind_assoc]
  refine hstmt.bind fun ⟨x, left⟩ ⟨hleft, hkind, hx⟩ => ?_
  obtain rfl : left = _ := hleft
  have hsiblings : fixSiblings (fixBlock (maxNesting - 1)) (fixControl (maxNesting - 1))
      (cores ++ [Piece.mk .semi m []]).length
      (separator l (fun k => k == .semi) [Piece.mk .semi m []] ++ [x]) [Piece.mk .semi m []] =
        .ok [x, .mk .semi m []] := by
    rw [List.length_append, List.length_singleton]
    cases cores <;> rfl
  dsimp only
  rw [hsiblings]
  exact comes_row_separated (hkind ▸ hk) hx _ m line

end Blocks

/-- A result that something is nested too deeply. -/
def TooDeep {α : Type} (r : Except CompileError α) : Prop :=
  ∃ e, r = .error e ∧ e.fault.message = "expression too deeply nested"

theorem Comes.exists_or_tooDeep {α : Type} {P : α → Prop} {r : Except CompileError α} (h : Comes P r) :
    (∃ a, r = .ok a) ∨ TooDeep r := by
  cases r with
  | ok a => exact .inl ⟨a, rfl⟩
  | error e =>
    have hfault : e.fault = .tooDeep := h
    exact .inr ⟨e, rfl, by rw [hfault]; rfl⟩

theorem Agree.tooDeep_or {α β : Type} {R : α → β → Prop} {r : Except CompileError α} {r' : Except CompileError β}
    (h : Agree R r r') : TooDeep r ∨ TooDeep r' ∨ (∃ a b, r = .ok a ∧ r' = .ok b ∧ R a b) ∨
      ∃ e e', r = .error e ∧ r' = .error e' ∧ e.fault = e'.fault := by
  cases h with
  | ok h => exact .inr (.inr (.inl ⟨_, _, rfl, rfl, h⟩))
  | error h => exact .inr (.inr (.inr ⟨_, _, rfl, rfl, h⟩))
  | left h => exact .inl ⟨_, rfl, by rw [h]; rfl⟩
  | right h => exact .inr (.inl ⟨_, rfl, by rw [h]; rfl⟩)

/-- **Braces around bodies do not matter.**  The texts with and without them are read as the same tree up to
lines, or refused for the same reason, unless one of them is nested too deeply; and a statement that stands
alone is read if its headers and expressions are. -/
theorem parse_braces {s : Stmt} (hs : s.Formed) :
    (∀ ps qs src src' line line', Listed s ps qs → Spelled src line ps → Spelled src' line' qs →
      TooDeep (parse src line) ∨ TooDeep (parse src' line') ∨
      (∃ t u, parse src line = .ok t ∧ parse src' line' = .ok u ∧ t.unlined = u.unlined) ∨
      ∃ e e', parse src line = .error e ∧ parse src' line' = .error e' ∧ e.fault = e'.fault) ∧
    ((∀ ps, s ≠ .simple ps) → s.Read → ∀ src src' line line', Spelled src line s.bare → Spelled src' line' s.braced →
      TooDeep (parse src line) ∨ TooDeep (parse src' line') ∨
      ∃ t u, parse src line = .ok t ∧ parse src' line' = .ok u ∧ t.unlined = u.unlined) := by
  have hagree (ps qs : List Piece) (src src' : Bytes) (line line' : Nat) (hitem : Listed s ps qs)
      (hsrc : Spelled src line ps) (hsrc' : Spelled src' line' qs) := by
    obtain ⟨hps, hqs⟩ := hitem.grouped hs
    exact (agree_parse hsrc hsrc' hps hqs (hitem.swapped hs)).tooDeep_or
  refine ⟨hagree, fun hcontrol hread src src' line line' hsrc hsrc' => ?_⟩
  have halone : Listed s s.bare s.braced := by
    have h : Listed s ([] ++ (s.bare ++ [])) ([] ++ (s.braced ++ [])) := .here nofun rfl rfl
    simpa using h
  have hcomes : Comes (fun _ => True) (parse src' line') := by
    cases s with
    | simple ps => exact absurd rfl (hcontrol ps)
    | control k head body other =>
      obtain ⟨ts, hlex, hkinds⟩ := hsrc'
      unfold parse
      rw [hlex]
      exact (comes_bracket (Stmt.grouped_braced hs) hkinds).bind fun ps hps => Blocks.comes_braced hs hread line' hps
  rcases hagree _ _ src src' line line' halone hsrc hsrc' with h | h | h | ⟨e, e', -, h, -⟩
  · exact .inl h
  · exact .inr (.inl h)
  · exact .inr (.inr h)
  · rcases hcomes.exists_or_tooDeep with ⟨t, ht⟩ | hdeep
    · rw [h] at ht
      exact nomatch ht
    · exact .inr (.inl hdeep)

theorem Spelled.of_kinds {src : Bytes} {line : Nat} {ps : List Piece}
    (h : ((lex src line).toOption.map fun ts => ts.map Token.kind) = some (Piece.flatAll ps)) :
    Spelled src line ps := by
  cases hlex : lex src line with
  | ok ts =>
    rw [hlex] at h
    exact ⟨ts, hlex, Option.some.inj h⟩
  | error e =>
    rw [hlex] at h
    exact nomatch h

/-- The `else` of `if (a) if (b) c; else d;` belongs to the second `if`, and the text is read like the one with
braces. -/
theorem parse_braces_else :
    let bare := Bytes.ofString "if (a) if (b) c; else d;"
    let braced := Bytes.ofString "if (a) \x7bif (b) \x7bc\x7d else \x7bd\x7d\x7d;"
    TooDeep (parse bare 1) ∨ TooDeep (parse braced 1) ∨
      ∃ t u, parse bare 1 = .ok t ∧ parse braced 1 = .ok u ∧ t.unlined = u.unlined := by
  intro bare braced
  let name (s : String) : List Piece := [.mk (.symbol (Bytes.ofString s)) 0 []]
  have hname (s : String) : Piece.Expression (name s) := by
    refine ⟨?_, ?_, ?_⟩ <;> simp [name, Piece.kind, Tok.isControl]
    exact .leaf rfl rfl
  have hread (s : String) : Piece.Read (name s) := ⟨1, 0, .mk (.symbol (Bytes.ofString s)) 0 [], rfl⟩
  let s : Stmt :=
    .control .kIf (name "a") (.control .kIf (name "b") (.simple (name "c")) (.branch (.simple (name "d")))) .none
  have hs : s.Formed :=
    ⟨rfl, (hname "a").grouped, ⟨rfl, (hname "b").grouped, hname "c", ⟨hname "d", rfl⟩, .inr ⟨rfl, rfl⟩⟩, trivial, .inl rfl⟩
  exact (parse_braces hs).2 nofun ⟨hread "a", ⟨hread "b", hread "c", hread "d"⟩, trivial⟩ bare braced 1 1
    (.of_kinds (by decide +kernel)) (.of_kinds (by decide +kernel))

/-- In `if (a) {x: 1}.x;` the hash is taken for the body, so the text is refused; in braces the expression is read. -/
theorem parse_brace_in_front :
    (parse (Bytes.ofString "if (a) \x7bx: 1\x7d.x;") 1).toOption.isNone = true ∧
      (parse (Bytes.ofString "if (a) \x7b\x7bx: 1\x7d.x\x7d;") 1).toOption.isSome = true := by
  decide +kernel

end ScriptEngine
