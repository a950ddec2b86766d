import ScriptEngine.Grammar.Blocks

/-!
# Written forests are grouped again

A forest is written out as a list of tokens, each group with its closing bracket.  Grouping such a list
gives the forest back up to lines, and completing blocks leaves it as it is where it has no function literal
and no control statement; both fail only where something is nested too deeply.

* `Comes`            a result with a property, unless something is nested too deeply;
* `Piece.unlined`    a piece without its lines;
* `Piece.Grouped`    a piece with pieces below its brackets only, and `Piece.Plain` one without blocks in it;
* `Piece.depth`      how deeply a piece is nested;
* `comes_bracket`    **grouping what a forest is written as**;
* `comes_fix`        completing the blocks of a plain forest;
* `bracket_grouped`, `fix_plain`   neither fails on a forest that is not nested too deeply.
-/

namespace ScriptEngine

/-! ## results -/

/-- A result with a property, unless something is nested too deeply. -/
def Comes {α : Type} (P : α → Prop) : Except CompileError α → Prop
  | .ok a => P a
  | .error e => e.fault = .tooDeep

section

variable {α β : Type} {P Q : α → Prop} {R : β → Prop} {r : Except CompileError α}

@[simp] theorem comes_ok {a : α} : Comes P (.ok a) ↔ P a := Iff.rfl

@[simp] theorem comes_tooDeep (line : Nat) : Comes P (faultAt line .tooDeep) := rfl

theorem Comes.mono (h : Comes P r) (hPQ : ∀ a, P a → Q a) : Comes Q r := by
  cases r with
  | ok a => exact hPQ a h
  | error e => exact h

theorem Comes.bind {f : α → Except CompileError β} (h : Comes P r) (hf : ∀ a, P a → Comes R (f a)) :
    Comes R (r >>= f) := by
  cases r with
  | ok a => exact hf a h
  | error e => exact h

end

/-! ## pieces without lines -/

namespace Piece

mutual
/-- The piece with zero in the place of every line. -/
def unlined : Piece → Piece
  | mk k _ ps => mk k 0 (unlinedAll ps)
def unlinedAll : List Piece → List Piece
  | [] => []
  | p :: ps => unlined p :: unlinedAll ps
end

theorem unlinedAll_eq (ps : List Piece) : unlinedAll ps = ps.map unlined := by
  induction ps with
  | nil => rfl
  | cons p ps ih => rw [unlinedAll, ih, List.map_cons]

@[simp] theorem unlined_mk (k : Tok) (line : Nat) (ps : List Piece) :
    (mk k line ps).unlined = mk k 0 (ps.map unlined) := by
  rw [unlined, unlinedAll_eq]

theorem kind_of_unlined {p q : Piece} (h : p.unlined = q) : p.kind = q.kind := by
  subst h
  cases p
  simp [kind]

theorem inner_of_unlined {p q : Piece} (h : p.unlined = q) : p.inner.map unlined = q.inner := by
  subst h
  cases p
  simp [inner]

theorem flatAll_append (ps qs : List Piece) : flatAll (ps ++ qs) = flatAll ps ++ flatAll qs := by
  induction ps with
  | nil => rfl
  | cons p ps ih => simp [flatAll, ih]

end Piece

/-- Tokens that are no brackets and open no block. -/
def Tok.isPlain (k : Tok) : Bool :=
  !k.isOpen && !k.isClose && !k.isControl && k != .kFunc && k != .kElse && k != .kElsif

/-- Only opening brackets have pieces below them, and no closing bracket stands anywhere in the piece. -/
inductive Piece.Grouped : Piece → Prop
  | leaf {k : Tok} {line : Nat} (hopen : k.isOpen = false) (hclose : k.isClose = false) : Grouped (mk k line [])
  | group {k : Tok} {line : Nat} {ps : List Piece} (hk : k.isOpen = true) (hps : ∀ p ∈ ps, Grouped p) :
    Grouped (mk k line ps)

/-- No function literal and no control statement, anywhere in the piece. -/
inductive Piece.Plain : Piece → Prop
  | leaf {k : Tok} {line : Nat} (hk : k.isPlain = true) : Plain (mk k line [])
  | group {k : Tok} {line : Nat} {ps : List Piece} (hk : k.isOpen = true) (hps : ∀ p ∈ ps, Plain p) :
    Plain (mk k line ps)

theorem Piece.Plain.grouped {p : Piece} (hp : p.Plain) : p.Grouped := by
  induction hp with
  | leaf hk =>
    simp only [Tok.isPlain, Bool.and_eq_true, Bool.not_eq_true'] at hk
    exact .leaf hk.1.1.1.1.1 hk.1.1.1.1.2
  | group hk _ ih => exact .group hk ih

namespace Piece

mutual
/-- How many groups are nested in the piece. -/
def depth : Piece → Nat
  | mk k _ ps => depthAll ps + if k.isOpen then 1 else 0
def depthAll : List Piece → Nat
  | [] => 0
  | p :: ps => max (depth p) (depthAll ps)
end

mutual
theorem depth_unlined : (p : Piece) → p.unlined.depth = p.depth
  | mk k line ps => by rw [unlined, depth, depth, depthAll_unlined ps]
theorem depthAll_unlined : (ps : List Piece) → depthAll (unlinedAll ps) = depthAll ps
  | [] => rfl
  | p :: ps => by rw [unlinedAll, depthAll, depthAll, depth_unlined p, depthAll_unlined ps]
end

theorem depth_le_depthAll {p : Piece} {ps : List Piece} (hp : p ∈ ps) : p.depth ≤ depthAll ps := by
  induction ps with
  | nil => exact nomatch hp
  | cons q ps ih =>
    rw [depthAll]
    rcases List.mem_cons.mp hp with rfl | hp
    · exact Nat.le_max_left _ _
    · exact Nat.le_trans (ih hp) (Nat.le_max_right _ _)

end Piece

/-! ## grouping -/

namespace Bracket

/-- Grouping goes over the tokens of the piece and leaves the piece, if there is room for it. -/
def Regroups (p : Piece) : Prop := ∀ ts rest opened level, ts.map Token.kind = p.flat →
  (∃ q : Piece, q.unlined = p.unlined ∧ group (ts ++ rest) opened level = group rest opened (q :: level)) ∨
    maxNesting < opened.length + p.depth ∧
      ∃ e, group (ts ++ rest) opened level = .error e ∧ e.fault = .tooDeep

theorem regroups_all {ps : List Piece} (hps : ∀ p ∈ ps, Regroups p) {ts : List Token} (rest : List Token)
    (opened : List Open) (level : List Piece) (hts : ts.map Token.kind = Piece.flatAll ps) :
    (∃ qs : List Piece, qs.map Piece.unlined = ps.map Piece.unlined ∧
      group (ts ++ rest) opened level = group rest opened (qs.reverse ++ level)) ∨
    maxNesting < opened.length + Piece.depthAll ps ∧
      ∃ e, group (ts ++ rest) opened level = .error e ∧ e.fault = .tooDeep := by
  induction ps generalizing ts level with
  | nil =>
    left
    rw [Piece.flatAll, List.map_eq_nil_iff] at hts
    exact ⟨[], rfl, by rw [hts]; rfl⟩
  | cons p ps ih =>
    rw [Piece.flatAll, List.map_eq_append_iff] at hts
    obtain ⟨ts₁, ts₂, rfl, h₁, h₂⟩ := hts
    rw [List.append_assoc, Piece.depthAll]
    rcases hps p List.mem_cons_self ts₁ (ts₂ ++ rest) opened level h₁ with ⟨q, hq, hgroup⟩ | ⟨hroom, hdeep⟩
    · rcases ih (fun p hp => hps p (List.mem_cons_of_mem _ hp)) (q :: level) h₂ with
        ⟨qs, hqs, hgroup'⟩ | ⟨hroom, hdeep⟩
      · left
        refine ⟨q :: qs, by simp [hq, hqs], ?_⟩
        rw [hgroup, hgroup']
        simp
      · right
        rw [hgroup]
        exact ⟨by omega, hdeep⟩
    · exact .inr ⟨by omega, hdeep⟩

/-- **A piece is grouped again.** -/
theorem regroups_of_grouped {p : Piece} (hp : p.Grouped) : Regroups p := by
  induction hp with
  | @leaf k line hopen hclose =>
    intro ts rest opened level hts
    have hcloser : k.closer? = none := by
      rw [Tok.isOpen_iff_closer] at hopen
      simpa using hopen
    simp only [Piece.flat, Piece.flatAll, hcloser, Option.toList_none, List.append_nil] at hts
    obtain ⟨t, rfl, rfl⟩ := List.map_eq_singleton_iff.mp hts
    left
    refine ⟨Piece.leaf t, by simp [Piece.leaf], ?_⟩
    simp [group, hopen, hclose]
  | @group k line ps hk _ ih =>
    intro ts rest opened level hts
    obtain ⟨c, hcloser⟩ : ∃ c, k.closer? = some c := by
      rw [Tok.isOpen_iff_closer, Option.isSome_iff_exists] at hk
      exact hk
    have hclose : c.isClose = true ∧ c.isOpen = false := by
      cases k <;> simp [Tok.closer?] at hcloser <;> subst hcloser <;> simp [Tok.isClose, Tok.isOpen]
    simp only [Piece.flat, hcloser, Option.toList_some, List.map_eq_cons_iff, List.map_eq_append_iff,
      List.map_eq_nil_iff] at hts
    obtain ⟨t, _, rfl, rfl, inner, _, rfl, hinner, t', _, rfl, rfl, rfl⟩ := hts
    have hdepth : (Piece.mk t.kind line ps).depth = Piece.depthAll ps + 1 := by
      rw [Piece.depth, if_pos hk]
    by_cases hdeep : maxNesting ≤ opened.length
    · right
      exact ⟨by omega, ⟨t.line, .tooDeep, ""⟩, by simp [Bracket.group, hk, hdeep, faultAt], rfl⟩
    · have hopen : Bracket.group (t :: (inner ++ [t']) ++ rest) opened level =
          Bracket.group (inner ++ t' :: rest) (⟨t, level⟩ :: opened) [] := by
        simp [Bracket.group, hk, hdeep]
      rw [hopen]
      rcases regroups_all ih (t' :: rest) (⟨t, level⟩ :: opened) [] hinner with
        ⟨qs, hqs, hgroup⟩ | ⟨hroom, herr⟩
      · left
        refine ⟨.mk t.kind t.line qs, by simp [hqs], ?_⟩
        rw [hgroup]
        simp [Bracket.group, hclose, hcloser]
      · rw [List.length_cons] at hroom
        exact .inr ⟨by omega, herr⟩

end Bracket

/-- **Grouping what a forest is written as** gives the forest back. -/
theorem bracket_cases {ps : List Piece} (hps : ∀ p ∈ ps, p.Grouped) {ts : List Token}
    (hts : ts.map Token.kind = Piece.flatAll ps) :
    (∃ qs, bracket ts = .ok qs ∧ qs.map Piece.unlined = ps.map Piece.unlined) ∨
      maxNesting < Piece.depthAll ps ∧ ∃ e, bracket ts = .error e ∧ e.fault = .tooDeep := by
  have hregroups (p : Piece) (hp : p ∈ ps) := Bracket.regroups_of_grouped (hps p hp)
  have h := Bracket.regroups_all hregroups [] [] [] hts
  rw [List.append_nil, List.length_nil, Nat.zero_add] at h
  unfold bracket
  rcases h with ⟨qs, hqs, hgroup⟩ | hdeep
  · left
    exact ⟨qs, by rw [hgroup]; simp [Bracket.group], hqs⟩
  · exact .inr hdeep

theorem comes_bracket {ps : List Piece} (hps : ∀ p ∈ ps, p.Grouped) {ts : List Token}
    (hts : ts.map Token.kind = Piece.flatAll ps) :
    Comes (fun qs => qs.map Piece.unlined = ps.map Piece.unlined) (bracket ts) := by
  rcases bracket_cases hps hts with ⟨qs, h, hqs⟩ | ⟨-, e, h, he⟩
  · rw [h]
    exact hqs
  · rw [h]
    exact he

theorem bracket_grouped {ps : List Piece} (hps : ∀ p ∈ ps, p.Grouped) (hdepth : Piece.depthAll ps ≤ maxNesting)
    {ts : List Token} (hts : ts.map Token.kind = Piece.flatAll ps) :
    ∃ qs, bracket ts = .ok qs ∧ qs.map Piece.unlined = ps.map Piece.unlined := by
  rcases bracket_cases hps hts with h | ⟨hdeep, -⟩
  · exact h
  · omega

theorem Piece.Plain.of_unlined {p q : Piece} (hq : q.Plain) (h : p.unlined = q.unlined) : p.Plain := by
  induction hq generalizing p with
  | leaf hk =>
    obtain ⟨k, line, ps⟩ := p
    simp only [unlined_mk, mk.injEq, true_and, List.map_nil, List.map_eq_nil_iff] at h
    obtain ⟨rfl, rfl⟩ := h
    exact .leaf hk
  | @group k line qs hk _ ih =>
    obtain ⟨k', line', ps⟩ := p
    simp only [unlined_mk, mk.injEq, true_and] at h
    obtain ⟨rfl, hps⟩ := h
    refine .group hk fun x hx => ?_
    have hmem : x.unlined ∈ qs.map unlined := hps ▸ List.mem_map_of_mem hx
    obtain ⟨y, hy, hxy⟩ := List.mem_map.mp hmem
    exact ih y hy hxy.symm

/-! ## blocks -/

namespace Blocks

/-- On a plain forest only the completion of what stands in a group can fail. -/
theorem fixSiblings_plain {block : Nat → List Piece → Except CompileError (List Piece)}
    {control : Tok → Nat → List Piece → Except CompileError (Piece × List Piece)}
    (hblock : ∀ line ps, (∀ p ∈ ps, p.Plain) → block line ps = .ok ps ∨ ∃ e, block line ps = .error e)
    {n : Nat} (made : List Piece) {rest : List Piece} (hn : rest.length ≤ n) (hrest : ∀ p ∈ rest, p.Plain) :
    fixSiblings block control n made rest = .ok (made.reverse ++ rest) ∨
      ∃ p ∈ rest, p.kind.isOpen = true ∧ ∃ e, block p.line p.inner = .error e ∧
        fixSiblings block control n made rest = .error e := by
  induction rest generalizing n made with
  | nil => cases n <;> simp [fixSiblings]
  | cons p rest ih =>
    obtain ⟨n, rfl⟩ := Nat.exists_eq_succ_of_ne_zero (show n ≠ 0 by simp at hn; omega)
    have hmore : fixSiblings block control n (p :: made) rest = .ok (made.reverse ++ p :: rest) ∨
        ∃ q ∈ p :: rest, q.kind.isOpen = true ∧ ∃ e, block q.line q.inner = .error e ∧
          fixSiblings block control n (p :: made) rest = .error e := by
      rcases ih (p :: made) (by simpa using hn) fun q hq => hrest q (List.mem_cons_of_mem _ hq) with
        h | ⟨q, hq, h⟩
      · exact .inl (by simpa using h)
      · exact .inr ⟨q, List.mem_cons_of_mem _ hq, h⟩
    cases hrest p List.mem_cons_self with
    | @leaf k line hk =>
      have hleaf : fixSiblings block control (n + 1) made (.mk k line [] :: rest) =
          fixSiblings block control n (.mk k line [] :: made) rest := by
        cases k <;> first | rfl | cases hk
      rw [hleaf]
      exact hmore
    | @group k line ps hk hps =>
      have hgroup : fixSiblings block control (n + 1) made (.mk k line ps :: rest) =
          block line ps >>= fun qs => fixSiblings block control n (.mk k line qs :: made) rest := by
        have hstep : fixSiblings block control (n + 1) made (.mk k line ps :: rest) =
            fixGroup block (.mk k line ps) >>= fun q => fixSiblings block control n (q :: made) rest := by
          cases hr : fixGroup block (.mk k line ps) <;> cases k <;>
            first | exact absurd hk Bool.false_ne_true | (simp only [fixSiblings, hr]; rfl)
        rw [hstep, fixGroup]
        cases block line ps <;> rfl
      rw [hgroup]
      rcases hblock line ps hps with h | ⟨e, h⟩
      · rw [h]
        exact hmore
      · rw [h]
        exact .inr ⟨_, List.mem_cons_self, hk, e, h, rfl⟩

theorem fixBlock_cases (d line : Nat) {ps : List Piece} (hps : ∀ p ∈ ps, p.Plain) :
    fixBlock d line ps = .ok ps ∨
      d ≤ Piece.depthAll ps ∧ ∃ e, fixBlock d line ps = .error e ∧ e.fault = .tooDeep := by
  induction d generalizing line ps with
  | zero => exact .inr ⟨Nat.zero_le _, _, rfl, rfl⟩
  | succ d ih =>
    rw [fixBlock]
    have hblock (line : Nat) (ps : List Piece) (hps : ∀ p ∈ ps, p.Plain) :
        fixBlock d line ps = .ok ps ∨ ∃ e, fixBlock d line ps = .error e := by
      rcases ih line hps with h | ⟨-, e, h, -⟩
      · exact .inl h
      · exact .inr ⟨e, h⟩
    rcases fixSiblings_plain hblock [] (Nat.le_refl ps.length) hps with
      h | ⟨p, hp, hopen, e, hinner, h⟩
    · exact .inl h
    · right
      have hdepth := Piece.depth_le_depthAll hp
      cases hps p hp with
      | leaf hk =>
        rw [Piece.kind] at hopen
        simp [Tok.isPlain, hopen] at hk
      | @group k line qs hk hqs =>
        rw [Piece.depth, if_pos hk] at hdepth
        rcases ih line hqs with hok | ⟨hd, e', herror, hfault⟩
        · rw [show fixBlock d line qs = .error e from hinner] at hok
          cases hok
        · rw [show fixBlock d line qs = .error e from hinner] at herror
          cases herror
          exact ⟨by omega, e, h, hfault⟩

theorem comes_fix (line : Nat) {ps : List Piece} (hps : ∀ p ∈ ps, p.Plain) :
    Comes (· = ps) (fix line ps) := by
  unfold fix
  rcases fixBlock_cases maxNesting line hps with h | ⟨-, e, h, he⟩
  · rw [h]
    rfl
  · rw [h]
    exact he

theorem fix_plain (line : Nat) {ps : List Piece} (hps : ∀ p ∈ ps, p.Plain)
    (hdepth : Piece.depthAll ps < maxNesting) : fix line ps = .ok ps := by
  rcases fixBlock_cases maxNesting line hps with h | ⟨hd, -⟩
  · exact h
  · omega

end Blocks

end ScriptEngine
