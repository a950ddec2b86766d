import ScriptEngine.Proofs.Grammar.Branches

/-!
# Statements with braces in longer texts

Completing blocks goes from piece to piece.  Where it comes to the next piece of a list of statements, a
statement may stand there without braces or with them: the other pieces are completed alike, and a header,
a body or an expression that is a body reaches equally far.

* `Awaited`, `Awaited.after`   what completing blocks expects next, and how a piece changes that;
* `Swapped`         forests in which statements stand without braces here and with them there;
* `Blocks.swapped_fixSiblings`   one list of siblings in such forests;
* `Blocks.agree_fixBlock`   **such forests are completed alike.**
-/

namespace ScriptEngine

/-- What may stand at a place of a forest. -/
inductive Awaited where
  /-- The next piece of a list of statements. -/
  | item
  /-- The header of a control statement, behind its keyword. -/
  | header
  /-- A body or a branch. -/
  | body
  /-- The parameters or the body of a function literal. -/
  | func
  | funcBody
  /-- More of an expression that is a body, up to the next separator. -/
  | within

/-- What may stand behind a piece of kind `k`. -/
def Awaited.after : Awaited → Tok → Awaited
  | _, .semi => item
  | item, k =>
    if k.isControl || k == .kElsif then header else if k == .kElse then body else if k == .kFunc then func else item
  | header, .lpar => body
  | body, .lcurl => item
  | body, k => if k.isControl then header else within
  | func, .lpar => funcBody
  | func, .lcurl => item
  | funcBody, .lcurl => item
  | _, _ => within

/-- Forests that differ in their lines, and in that statements stand without braces in the first and with
them in the second one. -/
inductive Swapped : Awaited → List Piece → List Piece → Prop
  | nil {σ : Awaited} : Swapped σ [] []
  | piece {σ : Awaited} {k : Tok} {l l' : Nat} {inner inner' rest rest' : List Piece}
    (hleaf : k.isOpen = false → inner.map Piece.unlined = inner'.map Piece.unlined)
    (hinner : Swapped .item inner inner') (hrest : Swapped (σ.after k) rest rest') :
    Swapped σ (.mk k l inner :: rest) (.mk k l' inner' :: rest')
  | stmt {k : Tok} {head : List Piece} {body : Stmt} {other : Other} {ps ps' rest rest' : List Piece}
    (hs : (Stmt.control k head body other).Formed)
    (hps : ps.map Piece.unlined = (Stmt.control k head body other).bare.map Piece.unlined)
    (hps' : ps'.map Piece.unlined = (Stmt.control k head body other).braced.map Piece.unlined)
    (helse : startsElse rest = false) (hrest : Swapped .item rest rest') :
    Swapped .item (ps ++ rest) (ps' ++ rest')

namespace Awaited

@[simp] theorem after_semi (σ : Awaited) : σ.after .semi = .item := by cases σ <;> rfl

theorem item_after {k : Tok} (hcontrol : ¬ k.isControl = true) (hfunc : k ≠ .kFunc) (helse : k ≠ .kElse)
    (helsif : k ≠ .kElsif) : item.after k = .item := by
  cases k <;> first | rfl | exact absurd rfl hcontrol | exact absurd rfl hfunc | exact absurd rfl helse |
    exact absurd rfl helsif

theorem item_after_control {k : Tok} (h : k.isControl = true) : item.after k = .header := by
  cases k <;> first | rfl | exact nomatch h

theorem body_after_control {k : Tok} (h : k.isControl = true) : body.after k = .header := by
  cases k <;> first | rfl | exact nomatch h

theorem body_after {k : Tok} (hcontrol : ¬ k.isControl = true) (hcurl : k ≠ .lcurl) (hsemi : k ≠ .semi) :
    body.after k = .within := by
  cases k <;> first | rfl | exact absurd rfl hcontrol | exact absurd rfl hcurl | exact absurd rfl hsemi

theorem within_after {k : Tok} (h : k ≠ .semi) : within.after k = .within := by
  cases k <;> first | rfl | exact absurd rfl h

end Awaited

namespace Swapped

open Blocks (eq_cons_of_unlined)

theorem of_unlined (ps : List Piece) {qs : List Piece} (σ : Awaited)
    (h : ps.map Piece.unlined = qs.map Piece.unlined) : Swapped σ ps qs := by
  match ps with
  | [] =>
    rw [List.map_nil, eq_comm, List.map_eq_nil_iff] at h
    subst h
    exact .nil
  | .mk k l us :: ps =>
    obtain ⟨l', us', qs, rfl, hus, hqs⟩ := eq_cons_of_unlined h.symm
    exact .piece (fun _ => hus.symm) (of_unlined us .item hus.symm) (of_unlined ps _ hqs.symm)

/-- Wherever more of an expression may stand, anything else may. -/
theorem of_within {ps qs : List Piece} (σ : Awaited) (h : Swapped .within ps qs) : Swapped σ ps qs := by
  induction ps generalizing qs σ with
  | nil =>
    cases h
    exact .nil
  | cons p ps ih =>
    cases h with
    | @piece _ k _ _ _ _ _ _ hleaf hinner hrest =>
      refine .piece hleaf hinner ?_
      by_cases hsemi : k = .semi
      · subst hsemi
        simpa using hrest
      · rw [Awaited.within_after hsemi] at hrest
        exact ih _ hrest

theorem startsElse_control {k : Tok} (hk : k.isControl = true) {more ps : List Piece} (rest : List Piece)
    (h : ps.map Piece.unlined = (Piece.mk k 0 [] :: more).map Piece.unlined) : startsElse (ps ++ rest) = false := by
  obtain ⟨l, us, tail, rfl, -⟩ := eq_cons_of_unlined h
  cases k <;> first | rfl | exact absurd hk Bool.false_ne_true

/-- Both forests begin with the same kind, or both are empty. -/
theorem head_kind {σ : Awaited} {ps qs : List Piece} (h : Swapped σ ps qs) :
    ps.head?.map Piece.kind = qs.head?.map Piece.kind := by
  cases h with
  | nil => rfl
  | piece => rfl
  | stmt hs hps hps' =>
    obtain ⟨l, us, tail, rfl, -⟩ := eq_cons_of_unlined hps
    obtain ⟨l', us', tail', rfl, -⟩ := eq_cons_of_unlined hps'
    rfl

theorem eq_nil {σ : Awaited} {qs : List Piece} (h : Swapped σ [] qs) : qs = [] := by
  have hkind := h.head_kind
  rw [List.head?_nil, Option.map_none, eq_comm, Option.map_eq_none_iff, List.head?_eq_none_iff] at hkind
  exact hkind

end Swapped

namespace Blocks

section

variable {block block' : Nat → List Piece → Except CompileError (List Piece)}
  {control control' : Tok → Nat → List Piece → Except CompileError (Piece × List Piece)}
  {rest rest' : List Piece} {σ : Awaited}
  (hblock : ∀ (l l' : Nat) {ps qs : List Piece}, Swapped .item ps qs →
    Agree (fun ps qs => ps.map Piece.unlined = qs.map Piece.unlined) (block l ps) (block' l' qs))
  (hcontrol : ∀ (k : Tok) (l l' : Nat) {rest rest' : List Piece}, k.isControl = true → Swapped .header rest rest' →
    Agree (fun x y => x.1.unlined = y.1.unlined ∧ Swapped .item x.2 y.2) (control k l rest) (control' k l' rest'))

theorem swapped_span (h : Swapped .within rest rest') :
    Swapped .item (rest.span fun p => p.kind != .semi).1 (rest'.span fun p => p.kind != .semi).1 ∧
      Swapped .item (rest.span fun p => p.kind != .semi).2 (rest'.span fun p => p.kind != .semi).2 := by
  rw [List.span_eq_takeWhile_dropWhile, List.span_eq_takeWhile_dropWhile]
  have hall : Swapped .within (rest.takeWhile fun p => p.kind != .semi) (rest'.takeWhile fun p => p.kind != .semi) ∧
      Swapped .within (rest.dropWhile fun p => p.kind != .semi) (rest'.dropWhile fun p => p.kind != .semi) := by
    induction rest generalizing rest' with
    | nil =>
      cases h
      exact ⟨.nil, .nil⟩
    | cons p rest ih =>
      cases h with
      | @piece _ k l l' inner inner' _ rest' hleaf hinner hrest =>
        by_cases hk : k = .semi
        · subst hk
          exact ⟨.nil, .piece hleaf hinner hrest⟩
        · have hne : (k == Tok.semi) = false := by simpa using hk
          obtain ⟨htake, hdrop⟩ := ih (Awaited.within_after hk ▸ hrest)
          simp only [List.takeWhile_cons, List.dropWhile_cons, Piece.kind, bne, hne, Bool.not_false, if_true]
          exact ⟨.piece hleaf hinner (by rwa [Awaited.within_after hk]), hdrop⟩
  exact ⟨hall.1.of_within _, hall.2.of_within _⟩

include hblock in
theorem swapped_fixGroup {k : Tok} {l l' : Nat} {ps qs : List Piece} (h : Swapped .item ps qs) :
    Agree (fun p q => p.unlined = q.unlined) (fixGroup block (.mk k l ps)) (fixGroup block' (.mk k l' qs)) :=
  agree_fixGroup (hblock l l' h)

include hblock hcontrol in
theorem swapped_takeBody (owner owner' : Nat) (h : Swapped .body rest rest') :
    Agree (fun x y => x.1.unlined = y.1.unlined ∧ Swapped .item x.2 y.2) (takeBody block control owner rest)
      (takeBody block' control' owner' rest') := by
  cases h with
  | nil => exact agree_faultAt _ _ _
  | @piece _ k l l' inner inner' rest rest' hleaf hinner hrest =>
    by_cases hcurl : k = .lcurl
    · subst hcurl
      exact (swapped_fixGroup hblock hinner).bind fun p q hpq => .ok ⟨hpq, hrest⟩
    · have hbody (block : Nat → List Piece → Except CompileError (List Piece))
          (control : Tok → Nat → List Piece → Except CompileError (Piece × List Piece))
          (owner l : Nat) (inner rest : List Piece) :
          takeBody block control owner (.mk k l inner :: rest) =
          if k.isControl then
            control k l rest >>= fun stmt => .ok (.mk .lcurl l [stmt.1], stmt.2)
          else
            block l ((Piece.mk k l inner :: rest).span fun p => p.kind != .semi).1 >>= fun own =>
              .ok (.mk .lcurl l own, ((Piece.mk k l inner :: rest).span fun p => p.kind != .semi).2) := by
        cases k <;> first | rfl | exact absurd rfl hcurl
      rw [hbody, hbody]
      split
      · rename_i hk
        refine (hcontrol k l l' hk (Awaited.body_after_control hk ▸ hrest)).bind fun x y hxy => ?_
        exact .ok ⟨by simp [hxy.1], hxy.2⟩
      · rename_i hk
        have hwithin : Swapped .within (.mk k l inner :: rest) (.mk k l' inner' :: rest') := by
          refine .piece hleaf hinner ?_
          by_cases hsemi : k = .semi
          · subst hsemi
            exact hrest
          · rwa [Awaited.within_after hsemi, ← Awaited.body_after hk hcurl hsemi]
        obtain ⟨hown, hleft⟩ := swapped_span hwithin
        exact (hblock l l' hown).bind fun us vs huv => .ok ⟨by simp [huv], hleft⟩

include hblock in
theorem swapped_fixFunc (l l' : Nat) (h : Swapped .func rest rest') :
    Agree (fun x y => x.1.unlined = y.1.unlined ∧ Swapped .item x.2 y.2) (fixFunc block l rest)
      (fixFunc block' l' rest') := by
  unfold fixFunc
  extract_lets body body'
  have hbody {σ : Awaited} (hσ : σ.after .lcurl = .item) {params params' rest rest' : List Piece}
      (hparams : params.map Piece.unlined = params'.map Piece.unlined)
      (h : Swapped σ rest rest') (hitem : σ ≠ .item) :
      Agree (fun x y => x.1.unlined = y.1.unlined ∧ Swapped .item x.2 y.2)
        (body (params, rest)) (body' (params', rest')) := by
    unfold body body'
    cases h with
    | nil => exact agree_faultAt _ _ _
    | @piece _ k l l' inner inner' rest rest' hleaf hinner hrest =>
      by_cases hcurl : k = .lcurl
      · subst hcurl
        exact (swapped_fixGroup hblock hinner).bind fun p q hpq => .ok ⟨by simp [hparams, hpq], hσ ▸ hrest⟩
      · cases k <;> first | exact agree_faultAt _ _ _ | exact absurd rfl hcurl
    | stmt => exact absurd rfl hitem
  have hnone : ([] : List Piece).map Piece.unlined = ([] : List Piece).map Piece.unlined := rfl
  cases h with
  | nil => exact hbody rfl hnone (.nil : Swapped .func [] []) nofun
  | @piece _ k l l' inner inner' rest rest' hleaf hinner hrest =>
    by_cases hpar : k = .lpar
    · subst hpar
      refine (swapped_fixGroup hblock hinner).bind fun p q hpq => ?_
      exact hbody rfl (by simp [hpq]) hrest nofun
    · have hsame := hbody rfl hnone
        (.piece hleaf hinner hrest : Swapped .func (.mk k l inner :: rest) (.mk k l' inner' :: rest')) nofun
      cases k <;> first | exact hsame | exact absurd rfl hpar

theorem atElse_semi (line : Nat) (inner rest : List Piece) : atElse (.mk .semi line inner :: rest) =
    if startsElse rest then rest else .mk .semi line inner :: rest := by
  match rest with
  | [] => rfl
  | .mk k l ps :: rest => cases k <;> rfl

theorem startsElse_eq (ps : List Piece) :
    startsElse ps = ((ps.head?.map Piece.kind).any fun k => k == .kElse || k == .kElsif) := by
  cases ps <;> rfl

theorem startsElse_of_swapped (h : Swapped σ rest rest') : startsElse rest = startsElse rest' := by
  rw [startsElse_eq, startsElse_eq, h.head_kind]

/-- Only behind a separator an `else` is looked for. -/
theorem atElse_eq_self {ps : List Piece} (h : ∀ p, ps.head? = some p → p.kind ≠ .semi) : atElse ps = ps := by
  match ps with
  | [] => rfl
  | .mk k l us :: ps => cases k <;> first | rfl | exact absurd rfl (h _ rfl)

theorem swapped_atElse (h : Swapped .item rest rest') : Swapped .item (atElse rest) (atElse rest') := by
  by_cases hsemi : rest.head?.map Piece.kind = some .semi
  · cases h with
    | nil => exact .nil
    | @piece _ k l l' inner inner' rest rest' hleaf hinner hrest =>
      obtain rfl : k = .semi := Option.some.inj hsemi
      rw [atElse_semi, atElse_semi, ← startsElse_of_swapped hrest]
      split
      · exact hrest
      · exact .piece hleaf hinner hrest
    | @stmt k _ _ _ _ _ _ _ hs hps =>
      obtain ⟨l, us, tail, rfl, -⟩ := eq_cons_of_unlined hps
      obtain rfl : k = .semi := Option.some.inj hsemi
      exact nomatch hs.1
  · have hself {ps : List Piece} (hps : ps.head?.map Piece.kind = rest.head?.map Piece.kind) : atElse ps = ps := by
      refine atElse_eq_self fun p hp hkind => hsemi ?_
      rw [← hps, hp, Option.map_some, hkind]
    rw [hself rfl, hself h.head_kind.symm]
    exact h

include hblock hcontrol in
theorem swapped_fixElse (h : Swapped .item rest rest') :
    Agree (fun x y => x.1.map Piece.unlined = y.1.map Piece.unlined ∧ Swapped .item x.2 y.2)
      (fixElse block control rest) (fixElse block' control' rest') := by
  have hat := swapped_atElse h
  have hdone {r : Except CompileError (Piece × List Piece)} {r' : Except CompileError (Piece × List Piece)}
      (hr : Agree (fun x y => x.1.unlined = y.1.unlined ∧ Swapped .item x.2 y.2) r r') :
      Agree (fun x y => x.1.map Piece.unlined = y.1.map Piece.unlined ∧ Swapped .item x.2 y.2)
        (r >>= fun one => .ok ([one.1], one.2)) (r' >>= fun one => .ok ([one.1], one.2)) :=
    hr.bind fun x y h => .ok ⟨by simp [h.1], h.2⟩
  by_cases helse : startsElse (atElse rest) = true
  · unfold fixElse
    generalize atElse rest = us at hat helse
    generalize atElse rest' = us' at hat
    cases hat with
    | nil => cases helse
    | stmt hs hps =>
      rw [Swapped.startsElse_control hs.1 _ hps] at helse
      cases helse
    | @piece _ k l l' inner inner' more more' hleaf hinner hmore =>
      by_cases helsif : k = .kElsif
      · subst helsif
        exact hdone (hcontrol .kIf l l' rfl hmore)
      obtain rfl : k = .kElse := by simpa [startsElse, Piece.kind, helsif] using helse
      cases hmore with
      | nil => exact hdone (swapped_takeBody hblock hcontrol l l' .nil)
      | @piece _ k m m' inner inner' more more' hleaf hinner hmore =>
        by_cases hif : k = .kIf
        · subst hif
          exact hdone (hcontrol .kIf m m' rfl hmore)
        · have hbody := hdone (swapped_takeBody hblock hcontrol l l'
            (.piece hleaf hinner hmore : Swapped .body (.mk k m inner :: more) (.mk k m' inner' :: more')))
          cases k <;> first | exact hbody | exact absurd rfl hif
  · have hnone := Bool.eq_false_iff.mpr helse
    rw [fixElse_eq_nil hnone, fixElse_eq_nil (startsElse_of_swapped hat ▸ hnone)]
    exact .ok ⟨rfl, h⟩

include hblock hcontrol in
theorem swapped_controlParts (k : Tok) (l l' : Nat) (h : Swapped .header rest rest') :
    Agree (fun x y => x.1.unlined = y.1.unlined ∧ Swapped .item x.2 y.2) (controlParts block control k l rest)
      (controlParts block' control' k l' rest') := by
  cases h with
  | nil => exact agree_faultAt _ _ _
  | @piece _ k' m m' inner inner' rest rest' hleaf hinner hrest =>
    by_cases hpar : k' = .lpar
    · subst hpar
      unfold controlParts
      refine (swapped_fixGroup hblock hinner).bind fun p q hpq => ?_
      refine (swapped_takeBody hblock hcontrol l l' hrest).bind fun (x, left) (y, left') ⟨hxy, hleft⟩ => ?_
      dsimp only
      split
      · refine (swapped_fixElse hblock hcontrol hleft).bind fun (o, left) (o', left') ⟨ho, hleft⟩ => ?_
        exact .ok ⟨by simp [hpq, show x.unlined = _ from hxy, show o.map Piece.unlined = _ from ho], hleft⟩
      · exact .ok ⟨by simp [hpq, show x.unlined = _ from hxy], hleft⟩
    · cases k' <;> first | exact agree_faultAt _ _ _ | exact absurd rfl hpar

theorem separator_eq (h : Swapped σ rest rest') (l l' : Nat) (keep : Tok → Bool) :
    (separator l keep rest).map Piece.unlined = (separator l' keep rest').map Piece.unlined := by
  have hkind := h.head_kind
  match rest, rest' with
  | [], [] => rfl
  | [], _ :: _ => exact nomatch hkind
  | _ :: _, [] => exact nomatch hkind
  | p :: _, q :: _ =>
    rw [separator, separator, Option.some.inj hkind]
    split <;> simp

/-! ## siblings -/

/-- The separator behind a function literal that is assigned. -/
theorem assigned_separator_eq {made made' : List Piece} (hmade : made.map Piece.unlined = made'.map Piece.unlined)
    (h : Swapped σ rest rest') (l l' : Nat) :
    (match made with | .mk .assign _ _ :: _ => separator l followsFunc rest | _ => []).map Piece.unlined =
      (match made' with | .mk .assign _ _ :: _ => separator l' followsFunc rest' | _ => []).map Piece.unlined := by
  cases made with
  | nil =>
    rw [List.map_nil, eq_comm, List.map_eq_nil_iff] at hmade
    rw [hmade]
  | cons p made =>
    obtain ⟨k, _, _⟩ := p
    obtain ⟨_, _, _, rfl, -, -⟩ := eq_cons_of_unlined hmade.symm
    by_cases hk : k = .assign
    · subst hk
      exact separator_eq h l l' followsFunc
    · cases k <;> first | rfl | exact absurd rfl hk

variable {n l : Nat} {made inner : List Piece}

theorem fixSiblings_func : fixSiblings block control (n + 1) made (.mk .kFunc l inner :: rest) =
    fixFunc block l rest >>= fun (func, rest) => fixSiblings block control n
      ((match made with | .mk .assign _ _ :: _ => separator l followsFunc rest | _ => []) ++ func :: made) rest := by
  rw [fixSiblings]
  cases fixFunc block l rest <;> rfl

theorem fixSiblings_control {k : Tok} (hk : k.isControl = true) :
    fixSiblings block control (n + 1) made (.mk k l inner :: rest) =
      control k l rest >>= fun (stmt, rest) =>
        fixSiblings block control n (separator l (· == .semi) rest ++ stmt :: made) rest := by
  cases hr : control k l rest <;> cases k <;>
    first | exact absurd hk Bool.false_ne_true | (simp only [fixSiblings, hr]; rfl)

theorem fixSiblings_group {k : Tok} (hk : k.isOpen = true) :
    fixSiblings block control (n + 1) made (.mk k l inner :: rest) =
      fixGroup block (.mk k l inner) >>= fun p => fixSiblings block control n (p :: made) rest := by
  cases hr : fixGroup block (.mk k l inner) <;> cases k <;>
    first | exact absurd hk Bool.false_ne_true | (simp only [fixSiblings, hr]; rfl)

theorem fixSiblings_other {k : Tok} (hfunc : k ≠ .kFunc) (hcontrol : ¬ k.isControl = true) (helse : k ≠ .kElse)
    (helsif : k ≠ .kElsif) (hopen : ¬ k.isOpen = true) :
    fixSiblings block control (n + 1) made (.mk k l inner :: rest) =
      fixSiblings block control n (.mk k l inner :: made) rest := by
  cases k <;> first
    | rfl
    | exact absurd rfl hfunc
    | exact absurd rfl hcontrol
    | exact absurd rfl helse
    | exact absurd rfl helsif
    | exact absurd rfl hopen

end

/-- Up to `m` siblings of such forests are completed alike, behind pieces that differ in their lines only. -/
def SwapsSiblings (d e m : Nat) : Prop := ∀ {n : Nat} {made made' rest rest' : List Piece},
  rest.length ≤ m → rest'.length ≤ n → made.map Piece.unlined = made'.map Piece.unlined → Swapped .item rest rest' →
    Agree (fun ps qs => ps.map Piece.unlined = qs.map Piece.unlined)
      (fixSiblings (fixBlock d) (fixControl d) m made rest)
      (fixSiblings (fixBlock e) (fixControl e) n made' rest')

section

variable {d e m n : Nat} {made made' rest rest' : List Piece}
  (hblock : ∀ (l l' : Nat) {ps qs : List Piece}, Swapped .item ps qs →
    Agree (fun ps qs => ps.map Piece.unlined = qs.map Piece.unlined) (fixBlock d l ps) (fixBlock e l' qs))
  (hcontrol : ∀ (k : Tok) (l l' : Nat) {rest rest' : List Piece}, k.isControl = true → Swapped .header rest rest' →
    Agree (fun x y => x.1.unlined = y.1.unlined ∧ Swapped .item x.2 y.2) (fixControl d k l rest)
      (fixControl e k l' rest'))

include hblock hcontrol in
/-- The same piece comes next in both forests. -/
theorem SwapsSiblings.piece (ih : SwapsSiblings d e m) {k : Tok} {l l' : Nat} {inner inner' : List Piece}
    (hm : rest.length ≤ m) (hn : rest'.length ≤ n) (hmade : made.map Piece.unlined = made'.map Piece.unlined)
    (hleaf : k.isOpen = false → inner.map Piece.unlined = inner'.map Piece.unlined)
    (hinner : Swapped .item inner inner') (hrest : Swapped (Awaited.item.after k) rest rest') :
    Agree (fun ps qs => ps.map Piece.unlined = qs.map Piece.unlined)
      (fixSiblings (fixBlock d) (fixControl d) (m + 1) made (.mk k l inner :: rest))
      (fixSiblings (fixBlock e) (fixControl e) (n + 1) made' (.mk k l' inner' :: rest')) := by
  obtain ⟨keepsD, takesD⟩ := keeps_fixBlock_takes_fixControl d
  obtain ⟨keepsE, takesE⟩ := keeps_fixBlock_takes_fixControl e
  by_cases hfunc : k = .kFunc
  · subst hfunc
    rw [fixSiblings_func, fixSiblings_func]
    refine ((swapped_fixFunc hblock l l' hrest).and_of_yields (takes_fixFunc keepsD l rest)
      (takes_fixFunc keepsE l' rest')).bind ?_
    rintro ⟨p, left⟩ ⟨q, left'⟩ ⟨⟨hpq, hleft⟩, ⟨_, -, -, hlen⟩, ⟨_, -, -, hlen'⟩⟩
    refine ih (Nat.le_trans hlen hm) (Nat.le_trans hlen' hn) ?_ hleft
    rw [List.map_append, List.map_append, List.map_cons, List.map_cons,
      assigned_separator_eq hmade hleft l l', hmade, show p.unlined = q.unlined from hpq]
  by_cases hcontrolled : k.isControl = true
  · rw [fixSiblings_control hcontrolled, fixSiblings_control hcontrolled]
    rw [Awaited.item_after_control hcontrolled] at hrest
    refine ((hcontrol k l l' hcontrolled hrest).and_of_yields (takesD k l rest hcontrolled)
      (takesE k l' rest' hcontrolled)).bind ?_
    rintro ⟨p, left⟩ ⟨q, left'⟩ ⟨⟨hpq, hleft⟩, ⟨_, -, -, hlen⟩, ⟨_, -, -, hlen'⟩⟩
    refine ih (Nat.le_trans hlen hm) (Nat.le_trans hlen' hn) ?_ hleft
    rw [List.map_append, List.map_append, List.map_cons, List.map_cons, separator_eq hleft l l', hmade,
      show p.unlined = q.unlined from hpq]
  by_cases helse : k = .kElse
  · subst helse
    exact agree_faultAt _ _ _
  by_cases helsif : k = .kElsif
  · subst helsif
    exact agree_faultAt _ _ _
  rw [Awaited.item_after hcontrolled hfunc helse helsif] at hrest
  by_cases hopen : k.isOpen = true
  · rw [fixSiblings_group hopen, fixSiblings_group hopen]
    refine (swapped_fixGroup hblock hinner).bind fun p q hpq => ?_
    exact ih hm hn (by rw [List.map_cons, List.map_cons, hpq, hmade]) hrest
  · rw [fixSiblings_other hfunc hcontrolled helse helsif hopen, fixSiblings_other hfunc hcontrolled helse helsif hopen]
    exact ih hm hn (by simp [hleaf (Bool.eq_false_iff.mpr hopen), hmade]) hrest

/-- A statement comes next, without braces in the first forest and with them in the second one. -/
theorem SwapsSiblings.stmt (ih : SwapsSiblings d e m) (hd : Below d) {k : Tok} {head : List Piece} {body : Stmt}
    {other : Other} {ps ps' : List Piece} (hm : (ps ++ rest).length ≤ m + 1) (hn : (ps' ++ rest').length ≤ n)
    (hmade : made.map Piece.unlined = made'.map Piece.unlined) (hs : (Stmt.control k head body other).Formed)
    (hps : ps.map Piece.unlined = (Stmt.control k head body other).bare.map Piece.unlined)
    (hps' : ps'.map Piece.unlined = (Stmt.control k head body other).braced.map Piece.unlined)
    (helse : startsElse rest = false) (hrest : Swapped .item rest rest') :
    Agree (fun ps qs => ps.map Piece.unlined = qs.map Piece.unlined)
      (fixSiblings (fixBlock d) (fixControl d) (m + 1) made (ps ++ rest))
      (fixSiblings (fixBlock e) (fixControl e) n made' (ps' ++ rest')) := by
  obtain ⟨-, takesD⟩ := keeps_fixBlock_takes_fixControl d
  obtain ⟨-, takesE⟩ := keeps_fixBlock_takes_fixControl e
  obtain ⟨hk, -, hbody, hother, hends⟩ := hs
  obtain ⟨l, tail, rfl, htail⟩ := eq_leaf_cons_of_unlined hps
  obtain ⟨l', tail', rfl, htail'⟩ := eq_leaf_cons_of_unlined hps'
  -- the second one ends with a separator
  obtain ⟨cores, semi, rfl, hcores, hsemi⟩ := eq_append_of_unlined htail'
  obtain ⟨m', ends, rfl, hends'⟩ := eq_leaf_cons_of_unlined hsemi
  rw [List.map_nil, List.map_eq_nil_iff] at hends'
  subst hends'
  rw [List.length_append, List.length_cons] at hm hn
  obtain ⟨n, rfl⟩ := Nat.exists_eq_succ_of_ne_zero (show n ≠ 0 by omega)
  have hrest' : startsElse (atElse (.mk .semi m' [] :: rest')) = false := by
    rw [startsElse_atElse_semi, ← startsElse_of_swapped hrest, helse]
  have hstmt := agree_fixControl hends (bodySwaps body hbody) (otherSwaps other hother) (e := e) l l' hd htail hcores
    (fun _ => helse) hrest'
  have htook := hstmt.and_of_yields (takesD k l (tail ++ rest) hk) (takesE k l' _ hk)
  rw [List.cons_append, fixSiblings_control hk, List.cons_append, fixSiblings_control hk, List.append_assoc]
  refine htook.bind ?_
  rintro ⟨p, left⟩ ⟨q, left'⟩ ⟨⟨hpq, ⟨line, rfl⟩, rfl⟩, ⟨_, -, -, hlen⟩, ⟨_, -, -, hlen'⟩⟩
  simp only [List.length_append, List.length_cons, List.length_nil] at hlen hlen' hm hn
  refine ih ?_ ?_ ?_ (.piece (fun _ => rfl) .nil hrest)
  · simp only [List.length_cons]
    omega
  · simp only [List.length_cons]
    omega
  · show (p :: made).map Piece.unlined = (q :: made').map Piece.unlined
    rw [List.map_cons, List.map_cons, hmade, show p.unlined = q.unlined from hpq]

include hblock hcontrol in
theorem swapped_fixSiblings (hd : Below d) : SwapsSiblings d e m := by
  intro n made made' rest rest' hm hn hmade h
  induction m generalizing n made made' rest rest' with
  | zero =>
    obtain rfl := List.eq_nil_of_length_eq_zero (Nat.le_zero.mp hm)
    obtain rfl := h.eq_nil
    rw [fixSiblings, fixSiblings]
    exact .ok (by simp [hmade])
  | succ m ih =>
    cases h with
    | nil =>
      rw [fixSiblings, fixSiblings]
      exact .ok (by simp [hmade])
    | piece hleaf hinner hrest =>
      obtain ⟨n, rfl⟩ := Nat.exists_eq_succ_of_ne_zero (show n ≠ 0 by rw [List.length_cons] at hn; omega)
      exact SwapsSiblings.piece hblock hcontrol ih (Nat.le_of_succ_le_succ hm) (Nat.le_of_succ_le_succ hn) hmade
        hleaf hinner hrest
    | stmt hs hps hps' helse hrest => exact SwapsSiblings.stmt ih hd hm hn hmade hs hps hps' helse hrest

end

theorem swapped_both (d : Nat) :
    (∀ (e l l' : Nat) {ps qs : List Piece}, Swapped .item ps qs →
      Agree (fun ps qs => ps.map Piece.unlined = qs.map Piece.unlined) (fixBlock d l ps) (fixBlock e l' qs)) ∧
    ∀ (e : Nat) (k : Tok) (l l' : Nat) {rest rest' : List Piece}, k.isControl = true → Swapped .header rest rest' →
      Agree (fun x y => x.1.unlined = y.1.unlined ∧ Swapped .item x.2 y.2) (fixControl d k l rest)
        (fixControl e k l' rest') := by
  induction d using Nat.strong_induction_on with
  | _ d ih =>
    cases d with
    | zero => exact ⟨fun _ _ _ _ _ _ => .left rfl, fun _ _ _ _ _ _ _ _ => .left rfl⟩
    | succ d =>
      obtain ⟨hblock, hcontrol⟩ := ih d (Nat.lt_succ_self d)
      have hd : Below d := fun c e l l' _ _ hc hps =>
        (ih c (Nat.lt_succ_of_le hc)).1 e l l' (.of_unlined _ .item hps)
      constructor
      · intro e l l' ps qs h
        cases e with
        | zero => exact .right rfl
        | succ e =>
          exact swapped_fixSiblings (hblock e) (hcontrol e) hd (Nat.le_refl _) (Nat.le_refl _) rfl h
      · intro e k l l' rest rest' hk h
        cases e with
        | zero => exact .right rfl
        | succ e => exact swapped_controlParts (hblock e) (hcontrol e) k l l' h

/-- **Forests in which statements stand without braces and with them are completed alike,** within whatever
budgets. -/
theorem agree_fixBlock (d e l l' : Nat) {ps qs : List Piece} (h : Swapped .item ps qs) :
    Agree (fun ps qs => ps.map Piece.unlined = qs.map Piece.unlined) (fixBlock d l ps) (fixBlock e l' qs) :=
  (swapped_both d).1 e l l' h

end Blocks

end ScriptEngine
