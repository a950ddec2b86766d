import ScriptEngine.Proofs.Grammar.Bodies

/-!
# Other branches taken in place

The other branch of an `if` is looked for behind the body, and the parts of a control statement are put together.
-/

namespace ScriptEngine

namespace Blocks

variable {ps : List Piece}

theorem atElse_cons (k : Tok) (line : Nat) (inner ps : List Piece) : atElse (.mk k line inner :: ps) =
    if k = .semi ∧ startsElse ps = true then ps else .mk k line inner :: ps := by
  unfold atElse
  split
  · next h =>
    cases h
    rw [if_pos ⟨rfl, rfl⟩]
  · next h =>
    cases h
    rw [if_pos ⟨rfl, rfl⟩]
  · next helse helsif =>
    refine (if_neg fun ⟨hk, hstarts⟩ => ?_).symm
    subst hk
    match ps, hstarts with
    | .mk k' l qs :: ps, hstarts =>
      rcases Bool.or_eq_true_iff.mp hstarts with h | h
      · cases eq_of_beq h
        exact helse _ _ _ _ _ rfl
      · cases eq_of_beq h
        exact helsif _ _ _ _ _ rfl

theorem atElse_atElse (ps : List Piece) : atElse (atElse ps) = atElse ps := by
  match ps with
  | [] => rfl
  | .mk k line inner :: ps =>
    rw [atElse_cons]
    split
    · next helse =>
      match ps, helse.2 with
      | .mk k' line' inner' :: ps, hstarts =>
        rw [atElse_cons, if_neg]
        rintro ⟨rfl, -⟩
        exact nomatch hstarts
    · next helse => rw [atElse_cons, if_neg helse]

/-- A separator that is passed over does not matter. -/
theorem fixElse_atElse (block : Nat → List Piece → Except CompileError (List Piece))
    (control : Tok → Nat → List Piece → Except CompileError (Piece × List Piece)) (ps : List Piece) :
    fixElse block control (atElse ps) = fixElse block control ps := by
  match ps with
  | [] => rfl
  | .mk k line inner :: ps =>
    rw [atElse_cons]
    split
    · next helse => rw [helse.1, fixElse_semi helse.2]
    · rfl

end Blocks

namespace Linking

variable {g g' g'' : Grove} {i n m p : Nat} {l is is₁ : List Nat} {ps ps₁ inner inner' : List Piece}
variable {block control : Nat → Linking Unit} {fixB : Nat → List Piece → Except CompileError (List Piece)}
  {fixC : Tok → Nat → List Piece → Except CompileError (Piece × List Piece)} {made : List Piece × List Piece}

theorem steps_atElse (hp : g.rows p = l ++ i :: is) (hs : g.Shows is ps) :
    ∃ g' is', Steps (atElse i) g is'.head? g' ∧ Leaves g g' p (l ++ [i]) is is' ps (Blocks.atElse ps) {p} := by
  have hp' : g.rows p = (l ++ [i]) ++ is := by simp [hp]
  cases hs with
  | nil =>
    refine ⟨g, [], (steps_now g).bind ?_, .refl hp' .nil⟩
    rw [Arena.next, g.forest.next_of hp]
    exact steps_pure g none
  | @cons n is k line inner ps ht hi hs =>
    have hs' : g.Shows (n :: is) (.mk k line inner :: ps) := .cons ht hi hs
    have hkind : g.arena.kind n = k := congrArg Token.kind ht
    have hother : ((g.arena.nextOf? n .kElse).isSome || (g.arena.nextOf? n .kElsif).isSome) = startsElse ps := by
      rw [nextOf?_eq hp', nextOf?_eq hp']
      cases hs with
      | nil => rfl
      | @cons m _ k' _ _ _ ht _ _ =>
        rw [List.head?_cons, Option.filter_some, Option.filter_some, ht, startsElse]
        cases h : k' == .kElse <;> cases h' : k' == .kElsif <;> simp [h, h', Piece.kind]
    have hstep : g.arena.next i = some n := by rw [Arena.next, g.forest.next_of hp, List.head?_cons]
    rw [Blocks.atElse_cons]
    by_cases helse : k = .semi ∧ startsElse ps = true
    · rw [if_pos helse]
      obtain ⟨rfl, helse⟩ := helse
      refine ⟨g.unlink hp', is, (steps_now g).bind ?_, List.suffix_cons n is, List.suffix_cons _ ps, ?_, ?_,
        Grove.works_unlink hp' _⟩
      · rw [hstep]
        dsimp only
        rw [hkind, hother, helse]
        refine (steps_unlink hp').bind ?_
        rw [Arena.next, g.forest.next_of hp']
        exact steps_pure _ _
      · rw [Grove.rows_unlink, if_pos rfl]
      · exact hs.rewires (Grove.rewires_unlink hp') (by simpa using Grove.apart_of_row hp' p (.inl rfl))
    · rw [if_neg helse]
      refine ⟨g, n :: is, (steps_now g).bind ?_, .refl hp' hs'⟩
      rw [hstep]
      dsimp only
      rw [hkind, hother, if_neg (by simpa using helse)]
      exact steps_pure g _

/-- Another branch is taken from the siblings behind `i` to its row. -/
def TakesElse (g g' : Grove) (p : Nat) (l : List Nat) (i : Nat) (is : List Nat) (ps : List Piece)
    (made : List Piece × List Piece) : Prop :=
  ∃ os is', g'.rows i = g.rows i ++ os ∧ g'.Shows os made.1 ∧ Leaves g g' p (l ++ [i]) is is' ps made.2 {p, i}

theorem TakesElse.nothing (hp : g.rows p = l ++ i :: is) (hs : g.Shows is ps) : TakesElse g g p l i is ps ([], ps) :=
  ⟨[], is, by simp, .nil, .refl (by simp [hp]) hs⟩

theorem TakesElse.after (h : TakesElse g' g'' p l i is₁ ps₁ made) (hworks : g.Works g' {p, i} (g.reach is))
    (his : is₁ <:+ is) (hps : ps₁ <:+ ps) (hrow : g'.rows i = g.rows i) : TakesElse g g'' p l i is ps made :=
  have ⟨os, is', hos, hshows, hleaves⟩ := h
  ⟨os, is', hrow ▸ hos, hshows, hleaves.after hworks his hps⟩

/-- The other branch is a control statement. -/
theorem tracks_branch (hcontrol : ControlSpec control fixC) {k : Tok} {line : Nat} (hp : g.rows p = l ++ i :: n :: is)
    (ht : g.token n = ⟨k, line⟩) (hn : g.rows n = []) (hs : g.Shows is ps) (hgrouped : ∀ q ∈ ps, q.Grouped)
    (q : Piece) :
    Tracks (do control n; unlink n; append i n) g (do
        let (stmt, rest) ← fixC k line ps
        return ([stmt], rest)) fun _ made g' =>
      TakesElse g g' p l i (n :: is) (q :: ps) made := by
  have hp' : g.rows p = (l ++ [i]) ++ n :: is := by simp [hp]
  have hnd := hp ▸ g.forest.nodup p
  have hne := g.forest.ne_owner (p := p) (i := i) (by simp [hp])
  have hni : i ≠ n := by grind
  have hinot : i ∉ g.reach is := Grove.not_mem_reach (p := p) (by simp [hp]) (by simp +contextual [hp]) (by grind)
    (.refl g i)
  have hfix := hcontrol g p n (l ++ [i]) is ps hp' hn hs hgrouped
  rw [ht] at hfix
  refine hfix.bind fun _ ⟨stmt, rest⟩ g₁ ⟨hstmt, is₁, hleaves⟩ => ?_
  have hp₁ : g₁.rows p = (l ++ [i]) ++ n :: is₁ := hleaves.at_row
  have hip₁ : i ∈ g₁.rows p := by simp [hp₁]
  have hapart : ∀ q ∈ ({p, i} : Set Nat), q ∉ g₁.reach (n :: is₁) := Grove.apart_of_row (l := l) (by simpa using hp₁)
  have hclear := Grove.not_under_sibling (i := n) (by simp [hp₁]) hip₁ hni.symm
  have hrows := Grove.rows_move hp₁ (Grove.range hip₁).1 hclear hne
  have hrewires := Grove.rewires_move hp₁ (Grove.range hip₁).1 hclear
  have hworks := Grove.works_move hp₁ (Grove.range hip₁).1 hclear (S := g.reach (n :: is)) (Grove.mem_reach (.head _))
  refine Steps.tracks (Steps.move (k := fun _ => pure ()) hp₁ (Grove.range hip₁).1 hclear (steps_pure _ ())) ?_
  generalize g₁.move hp₁ (Grove.range hip₁).1 hclear = g₂ at *
  refine ⟨[n], is₁, ?_, hstmt.rewires hrewires fun q hq hmem => hapart q hq (Grove.reach_mono (by simp) hmem),
    hleaves.suffix.trans (List.suffix_cons n is), hleaves.pieces.trans (List.suffix_cons q ps), ?_,
    hleaves.shows.rewires hrewires fun q hq hmem => hapart q hq (Grove.reach_mono (by simp +contextual) hmem), ?_⟩
  · rw [hrows, if_pos rfl, hleaves.works.rows i (by simp [hne, hni]) hinot]
  · rw [hrows, if_neg hne.symm, if_pos rfl]
  · exact (hleaves.works.mono (by simp [Set.insert_subset_iff, Grove.mem_reach])
      (Grove.reach_mono (by simp +contextual))).trans hworks

theorem tracks_elsif (hcontrol : ControlSpec control fixC) {line : Nat} (hp : g.rows p = l ++ i :: n :: is)
    (hs : g.Shows (n :: is) (.mk .kElsif line inner :: ps))
    (hgrouped : ∀ q ∈ Piece.mk .kElsif line inner :: ps, q.Grouped) :
    Tracks (do setKind n .kIf; control n; unlink n; append i n) g
      (Blocks.fixElse fixB fixC (.mk .kElsif line inner :: ps)) fun _ made g' =>
        TakesElse g g' p l i (n :: is) (.mk .kElsif line inner :: ps) made := by
  obtain ⟨ht, hn, hs⟩ := hs.cons_inv
  have hnp : n ∈ g.rows p := by simp [hp]
  have hnd := hp ▸ g.forest.nodup p
  have hworks := g.works_setKind .kIf ∅ (i := n) (S := g.reach [n]) (Grove.mem_reach (.head _))
  have htoken : (g.setKind n .kIf).token n = ⟨.kIf, line⟩ := by
    rw [g.token_setKind, if_pos ⟨rfl, (Grove.range hnp).1⟩, ht]
  rw [(hgrouped _ (.head _)).inner_eq_nil rfl] at hn
  have hs₁ := hs.siblings hworks (p := p) (by simp +contextual [hp]) (by simpa using hnp) (by grind) (by simp)
  refine (steps_setKind g n .kIf).then ?_
  refine (tracks_branch hcontrol (g := g.setKind n .kIf) hp htoken hn.eq_nil hs₁ (fun q hq => hgrouped q (.tail _ hq))
    (.mk .kElsif line inner)).mono fun _ made g' htaken => ?_
  exact htaken.after (g.works_setKind .kIf {p, i} (Grove.mem_reach (.head _))) List.suffix_rfl List.suffix_rfl rfl

/-- An `else` that stands before an `if` is dropped. -/
theorem tracks_elseIf (hcontrol : ControlSpec control fixC) {line line' : Nat}
    (hp : g.rows p = l ++ i :: n :: m :: is)
    (hs : g.Shows (n :: m :: is) (.mk .kElse line inner :: .mk .kIf line' inner' :: ps))
    (hgrouped : ∀ q ∈ Piece.mk .kElse line inner :: .mk .kIf line' inner' :: ps, q.Grouped) :
    Tracks (do unlink n; control m; unlink m; append i m) g
      (Blocks.fixElse fixB fixC (.mk .kElse line inner :: .mk .kIf line' inner' :: ps)) fun _ made g' =>
        TakesElse g g' p l i (n :: m :: is) (.mk .kElse line inner :: .mk .kIf line' inner' :: ps) made := by
  have hp' : g.rows p = (l ++ [i]) ++ n :: m :: is := by simp [hp]
  have hne := g.forest.ne_owner (p := p) (i := i) (by simp [hp])
  have hs₁ := hs.tail.rewires (Grove.rewires_unlink hp') (by simpa using Grove.apart_of_row hp' p (.inl rfl))
  obtain ⟨htm, hm, hs₂⟩ := hs₁.cons_inv
  rw [(hgrouped _ (.tail _ (.head _))).inner_eq_nil rfl] at hm
  have hp₁ : (g.unlink hp').rows p = l ++ i :: m :: is := by simp [Grove.rows_unlink]
  refine (steps_unlink hp').then ?_
  refine (tracks_branch hcontrol hp₁ htm hm.eq_nil hs₂ (fun q hq => hgrouped q (.tail _ (.tail _ hq)))
    (.mk .kIf line' inner')).mono fun _ made g' htaken => ?_
  refine htaken.after ((Grove.works_unlink hp' _).mono (by simp) subset_rfl) (List.suffix_cons n _)
    (List.suffix_cons _ _) ?_
  rw [Grove.rows_unlink, if_neg hne]

/-- An `else` that stands before anything else is dropped when its body is taken. -/
theorem tracks_else (hblock : BlockSpec block fixB) (hcontrol : ControlSpec control fixC) {line : Nat}
    (hp : g.rows p = l ++ i :: n :: is) (hs : g.Shows (n :: is) (.mk .kElse line inner :: ps))
    (hfront : ∀ q, ps.head? = some q → q.kind ≠ .kIf) (hgrouped : ∀ q ∈ Piece.mk .kElse line inner :: ps, q.Grouped) :
    Tracks (do let body ← takeBody block control n; unlink n; append i body) g
      (Blocks.fixElse fixB fixC (.mk .kElse line inner :: ps)) fun _ made g' =>
        TakesElse g g' p l i (n :: is) (.mk .kElse line inner :: ps) made := by
  have hp' : g.rows p = (l ++ [i]) ++ n :: is := by simp [hp]
  rw [Blocks.fixElse_else hfront]
  have htake := tracks_takeBody hblock hcontrol hp' hs.tail fun q hq => hgrouped q (.tail _ hq)
  rw [hs.cons_inv.1] at htake
  refine htake.bind fun body ⟨made, rest⟩ g₁ hbody => ?_
  obtain ⟨g₂, hunlink, hbody⟩ := hbody.unlink hp' (.mk .kElse line inner)
  obtain ⟨g₃, happend, hrow, hshows, is', hleaves⟩ := hbody.append hp
  exact (hunlink.bind happend).tracks ⟨[body], is', hrow, hshows, hleaves⟩

theorem tracks_fixElse (hblock : BlockSpec block fixB) (hcontrol : ControlSpec control fixC)
    (hp : g.rows p = l ++ i :: is) (hs : g.Shows is ps) (hgrouped : ∀ q ∈ ps, q.Grouped) :
    Tracks (fixElse block control i) g (Blocks.fixElse fixB fixC ps) fun _ made g' =>
      TakesElse g g' p l i is ps made := by
  obtain ⟨g₁, is₁, hsteps, hleaves⟩ := steps_atElse hp hs
  have hp₁ := hleaves.at_row
  have hs₁ := hleaves.shows
  have hgrouped₁ : ∀ q ∈ Blocks.atElse ps, q.Grouped := fun q hq => hgrouped q (hleaves.pieces.subset hq)
  have hwhole {made : List Piece × List Piece} {g' : Grove}
      (h : TakesElse g₁ g' p l i is₁ (Blocks.atElse ps) made) : TakesElse g g' p l i is ps made :=
    h.after (hleaves.mono (by simp)).works hleaves.suffix hleaves.pieces
      (hleaves.works.rows i (g.forest.ne_owner (by simp [hp])) (Grove.apart_of_row hp i (.inr rfl)))
  unfold fixElse
  rw [← Blocks.fixElse_atElse]
  have hself := Blocks.atElse_atElse ps
  refine hsteps.then (Tracks.mono ?_ fun _ made g' => hwhole)
  generalize Blocks.atElse ps = ps₁ at hs₁ hgrouped₁ hself
  cases hs₁ with
  | nil => exact (steps_pure g₁ ()).tracks (.nothing hp₁ .nil)
  | @cons n is₁ k line inner ps₁ ht hi hs₁ =>
    have hshows : g₁.Shows (n :: is₁) (.mk k line inner :: ps₁) := .cons ht hi hs₁
    have hk : g₁.arena.kind n = k := congrArg Token.kind ht
    rw [List.head?_cons]
    refine (steps_now g₁).then ?_
    rw [hk]
    by_cases helsif : k = .kElsif
    · subst helsif
      rw [if_pos (by simp)]
      exact tracks_elsif hcontrol hp₁ hshows hgrouped₁
    · rw [if_neg (by simpa using helsif)]
      by_cases helse : k = .kElse
      · subst helse
        rw [if_pos (by simp)]
        have hp₁' : g₁.rows p = (l ++ [i]) ++ n :: is₁ := by simp [hp₁]
        rcases nextOf?_cases .kIf hp₁' hs₁ with ⟨m, is₂, line', inner', ps₂, rfl, rfl, hm⟩ | ⟨hm, hne⟩
        · rw [hm]
          exact tracks_elseIf hcontrol hp₁ hshows hgrouped₁
        · rw [hm]
          exact tracks_else hblock hcontrol hp₁ hshows hne hgrouped₁
      · have hstarts : startsElse (Blocks.atElse (.mk k line inner :: ps₁)) = false := by
          simp [hself, startsElse, Piece.kind, helse, helsif]
        rw [if_neg (by simpa using helse), Blocks.fixElse_eq_nil hstarts]
        exact (steps_pure g₁ ()).tracks (.nothing hp₁ hshows)

theorem controlSpec_parts (hblock : BlockSpec block fixB) (hcontrol : ControlSpec control fixC) :
    ControlSpec (controlParts block control) (Blocks.controlParts fixB fixC) := by
  intro g p i l is ps hp hi hs hgrouped
  unfold controlParts Blocks.controlParts
  refine (steps_now g).then ?_
  rcases nextOf?_cases .lpar hp hs with ⟨n, is₁, line, inner, ps₁, rfl, rfl, hn⟩ | ⟨hn, hne⟩
  · rw [hn]
    refine (tracks_adopt hblock hp hs (hgrouped _ (.head _))).bind fun _ head g₁ ⟨hleaves₁, hrow₁, hhead⟩ => ?_
    have hp₁ := hleaves₁.at_row
    have hpieces₁ : ∀ q ∈ ps₁, q.Grouped := fun q hq => hgrouped q (.tail _ hq)
    have htake := tracks_takeBody hblock hcontrol hp₁ hleaves₁.shows hpieces₁
    rw [hleaves₁.token_owner hp] at htake
    refine htake.bind fun body ⟨made, rest⟩ g₂ hbody => ?_
    obtain ⟨g₃, happend, hrow₃, hmade, is₃, hleaves₃⟩ := hbody.append hp₁
    refine happend.then ((steps_now g₃).then ?_)
    have hp₃ := hleaves₃.at_row
    rw [hi, List.nil_append] at hrow₁
    rw [hrow₁] at hrow₃
    have hparts : g₃.Shows (g₃.rows i) [head, made] := by
      rw [hrow₃]
      exact (hleaves₃.below hp₁ (by simp [hrow₁]) hhead).append hmade
    have htoken₃ : g₃.token i = g.token i := (hleaves₃.token_owner hp₁).trans (hleaves₁.token_owner hp)
    have hkind : g₃.arena.kind i = (g.token i).kind := congrArg Token.kind htoken₃
    have hleaves := hleaves₁.trans hleaves₃
    dsimp only
    rw [hkind]
    split
    · refine (tracks_fixElse hblock hcontrol hp₃ hleaves₃.shows fun q hq =>
        hpieces₁ q (hleaves₃.pieces.subset hq)).map ?_
      rintro - ⟨other, rest'⟩ g₄ ⟨os, is', hrow₄, hother, hleaves₄⟩
      refine ⟨.cons ?_ ?_ .nil, is', hleaves.trans hleaves₄⟩
      · rw [hleaves₄.token_owner hp₃, htoken₃]
      · rw [hrow₄]
        exact (hleaves₄.below hp₃ (fun _ => id) hparts).append hother
    · exact (steps_pure g₃ ()).tracks ⟨.cons htoken₃ hparts .nil, is₃, hleaves⟩
  · rw [hn]
    dsimp only
    split
    · exact absurd rfl (hne _ rfl)
    · exact tracks_refuse g i .missingHeader

end Linking

end ScriptEngine
