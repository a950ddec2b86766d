import ScriptEngine.Proofs.Grammar.Alternatives
import ScriptEngine.Proofs.Grammar.Swapping

/-!
# Texts arranged in place
-/

namespace ScriptEngine

namespace Blocks

section

variable (block : Nat → List Piece → Except CompileError (List Piece))
variable (control : Tok → Nat → List Piece → Except CompileError (Piece × List Piece))

/-- The pieces of a row when one more is completed, last first, and those that are still to come. -/
def nextPiece (made : List Piece) : Piece → List Piece → Except CompileError (List Piece × List Piece)
  | .mk kind line inner, rest =>
    if kind = .kFunc then do
      let (func, rest) ← fixFunc block line rest
      let semi := match made with | .mk .assign _ _ :: _ => separator line followsFunc rest | _ => []
      return (semi ++ func :: made, rest)
    else if kind.isControl then do
      let (stmt, rest) ← control kind line rest
      return (separator line (· == .semi) rest ++ stmt :: made, rest)
    else if kind = .kElse ∨ kind = .kElsif then faultAt line .elseWithoutIf
    else if kind.isOpen then do return ((← fixGroup block (.mk kind line inner)) :: made, rest)
    else return (.mk kind line inner :: made, rest)

variable {block control}

theorem fixSiblings_succ (n : Nat) (made : List Piece) (q : Piece) (rest : List Piece) :
    fixSiblings block control (n + 1) made (q :: rest) =
      nextPiece block control made q rest >>= fun (made, rest) => fixSiblings block control n made rest := by
  obtain ⟨k, line, inner⟩ := q
  unfold nextPiece
  dsimp only
  by_cases hfunc : k = .kFunc
  · subst hfunc
    rw [fixSiblings_func, if_pos rfl]
    cases fixFunc block line rest <;> rfl
  · rw [if_neg hfunc]
    by_cases hcontrol : k.isControl = true
    · rw [fixSiblings_control hcontrol, if_pos hcontrol]
      cases control k line rest <;> rfl
    · rw [if_neg hcontrol]
      by_cases helse : k = .kElse ∨ k = .kElsif
      · rw [if_pos helse]
        obtain rfl | rfl := helse <;> rfl
      · rw [if_neg helse]
        by_cases hopen : k.isOpen = true
        · rw [fixSiblings_group hopen, if_pos hopen]
          cases fixGroup block (.mk k line inner) <;> rfl
        · rw [if_neg hopen]
          rw [not_or] at helse
          rw [fixSiblings, if_neg hcontrol, if_neg hopen]
          · rfl
          · exact hfunc
          · exact helse.1
          · exact helse.2

end

end Blocks

namespace Linking

variable {g g' g'' : Grove} {i p : Nat} {l is is₁ semis cs : List Nat} {made ps rest sep qs : List Piece}
  {piece : Piece}

/-! ## rows -/

/-- The row of `p` may have got a separator behind `before`. -/
structure Separates (g g' : Grove) (p : Nat) (before is : List Nat) (semis : List Nat) (sep : List Piece) : Prop where
  row : g'.rows p = before ++ (semis ++ is)
  shows : g'.Shows semis sep
  kinds : ∀ c ∈ semis, (g'.token c).kind = .semi
  length : semis.length ≤ 1
  works : g.Works g' {p} (g.reach [])

theorem steps_addSeparator (keep : Tok → Bool) (hp : g.rows p = l ++ i :: is) (hs : g.Shows is ps) :
    ∃ g' semis, Steps (addSeparator i keep) g () g' ∧
      Separates g g' p (l ++ [i]) is semis (Blocks.separator (g.token i).line keep ps) := by
  have hstep : g.arena.next i = is.head? := by rw [Arena.next, g.forest.next_of hp]
  cases hs with
  | nil =>
    refine ⟨g, [], (steps_now g).bind ?_, by simpa using hp, .nil, by simp, Nat.zero_le 1, .refl g _ _⟩
    rw [hstep]
    exact steps_pure g ()
  | @cons n is k line inner ps ht hi hs =>
    have hkind : g.arena.kind n = k := congrArg Token.kind ht
    by_cases hkeep : keep k = true
    · refine ⟨g, [], (steps_now g).bind ?_, by simpa using hp, ?_, by simp, Nat.zero_le 1, .refl g _ _⟩
      · rw [hstep, List.head?_cons]
        dsimp only
        rw [hkind, if_pos hkeep]
        exact steps_pure g ()
      · rw [Blocks.separator, Piece.kind, if_pos hkeep]
        exact .nil
    · have hpsize : p < g.size := Grove.owner_lt hp
      have halone := g.alone_add ⟨.semi, (g.token i).line⟩
      have hadd := g.works_add ⟨.semi, (g.token i).line⟩ {p} (g.region_reach [])
      have hadded := g.token_added ⟨.semi, (g.token i).line⟩
      have hsteps := steps_add g ⟨.semi, (g.token i).line⟩
      have hp₁ : (g.add ⟨.semi, (g.token i).line⟩).rows p = l ++ i :: n :: is := hp
      generalize g.add ⟨.semi, (g.token i).line⟩ = g₁ at *
      have hrows := Grove.rows_insertAfter hp₁ halone.lt halone.loose halone.empty
      have hrewires := Grove.rewires_insertAfter hp₁ halone.lt halone.loose halone.empty
      have hworks := Grove.works_insertAfter hp₁ halone.lt halone.loose halone.empty (S := g.reach []) (.inr le_rfl)
      have hinsert := steps_insertAfter hp₁ halone.lt halone.loose halone.empty
      generalize g₁.insertAfter hp₁ halone.lt halone.loose halone.empty = g₂ at *
      have htoken : g₂.token g.size = ⟨.semi, (g.token i).line⟩ := by rw [hrewires.token, hadded]
      refine ⟨g₂, [g.size], (steps_now g).bind ?_, ?_, ?_, ?_, Nat.le_refl 1, hadd.trans hworks⟩
      · rw [hstep, List.head?_cons]
        dsimp only
        rw [hkind, if_neg hkeep]
        exact hsteps.bind hinsert
      · rw [hrows, if_pos rfl]
        simp
      · rw [Blocks.separator, Piece.kind, if_neg hkeep]
        refine .cons htoken ?_ .nil
        rw [hrows, if_neg hpsize.ne', halone.empty]
        exact .nil
      · intro c hc
        rw [List.mem_singleton.mp hc, htoken]

theorem Separates.refl (hp : g.rows p = l ++ is) : Separates g g p l is [] [] :=
  ⟨hp, .nil, by simp, Nat.zero_le 1, .refl g _ _⟩

theorem Separates.keeps {before : List Nat} (h : Separates g g' p before is semis sep) (hp : p < g.size)
    (hcs : ∀ c ∈ cs, c ∈ g.rows p) (hs : g.Shows cs qs) : g'.Shows cs qs :=
  hs.siblings h.works hcs (by simp) (by simp) (by simpa using Grove.owner_not_mem_reach hp hcs)

/-- The walk along the row of `p` has completed `i` and comes to the siblings that are left. -/
structure Advances (g g' : Grove) (p : Nat) (l : List Nat) (i : Nat) (is : List Nat) (ps : List Piece)
    (semis is' : List Nat) (made : List Piece × List Piece) : Prop where
  row : g'.rows p = l ++ i :: (semis ++ is')
  shows : g'.Shows (l ++ i :: semis) made.1.reverse
  left : g'.Shows is' made.2
  kinds : ∀ c ∈ semis, (g'.token c).kind = .semi
  length : semis.length ≤ 1
  suffix : is' <:+ is
  pieces : made.2 <:+ ps
  works : g.Works g' {p} (g.reach (i :: is))

theorem Advances.of_leaves (hp : g.rows p = l ++ i :: is) (hl : g.Shows l made.reverse)
    (hpiece : g'.Shows [i] [piece]) (hleaves : Leaves g g' p (l ++ [i]) is is₁ ps rest {p, i})
    (hsep : Separates g' g'' p (l ++ [i]) is₁ semis sep) (hreverse : sep.reverse = sep) :
    Advances g g'' p l i is ps semis is₁ (sep ++ piece :: made, rest) := by
  have hp' := hleaves.at_row
  have hpsize : p < g'.size := Grove.owner_lt hp'
  refine ⟨by simp [hsep.row], ?_, hsep.keeps hpsize (by simp +contextual [hp']) hleaves.shows, hsep.kinds,
    hsep.length, hleaves.suffix, hleaves.pieces, ?_⟩
  · have hfront := hsep.keeps hpsize (by simp +contextual [hp']) (hleaves.front hp hl)
    have hmade := hfront.append ((hsep.keeps hpsize (by simp [hp']) hpiece).append hsep.shows)
    simpa [hreverse] using hmade
  · have hsub : g.reach is ⊆ g.reach (i :: is) := Grove.reach_mono (by simp +contextual)
    have hregion : g'.Region (g.reach (i :: is)) := hleaves.works.region (g.region_reach _) hsub
    exact (hleaves.works.mono (by simp [Set.insert_subset_iff, Grove.mem_reach]) hsub).trans
      (hsep.works.mono Set.subset_union_left (hregion.reach_subset (by simp)))

theorem reverse_separator (line : Nat) (keep : Tok → Bool) (ps : List Piece) :
    (Blocks.separator line keep ps).reverse = Blocks.separator line keep ps := by
  cases ps with
  | nil => rfl
  | cons q ps =>
    rw [Blocks.separator]
    split <;> rfl

section

variable {block control : Nat → Linking Unit} {fixB : Nat → List Piece → Except CompileError (List Piece)}
  {fixC : Tok → Nat → List Piece → Except CompileError (Piece × List Piece)}

theorem advances_group (hp : g.rows p = l ++ i :: is) (hl : g.Shows l made.reverse) (hs : g.Shows is ps)
    (hpiece : g'.Shows [i] [piece]) (hworks : g.Works g' {i} (g.reach (g.rows i))) :
    Advances g g' p l i is ps [] is (piece :: made, ps) := by
  have hip : i ∈ g.rows p := by simp [hp]
  have hnd := hp ▸ g.forest.nodup p
  have hin : i ∈ g.reach [i] := Grove.mem_reach (.head _)
  have hworks' : g.Works g' {i} (g.reach [i]) := (Grove.Works.refl g {i} (g.reach [i])).below hworks hin
  -- the other siblings and what stands below them are left alone
  have hkeep {cs : List Nat} {qs : List Piece} (hcs : ∀ c ∈ cs, c ∈ g.rows p) (hnot : i ∉ cs) (h : g.Shows cs qs) :
      g'.Shows cs qs :=
    h.siblings hworks' hcs (by simpa using hip) (by grind)
      (by simpa using Grove.apart_of_mem hip hcs hnot i (.inr rfl))
  have hpnot : p ∉ g.reach [i] := Grove.owner_not_mem_reach (Grove.range hip).2 (by simpa using hip)
  refine ⟨?_, ?_, hkeep (by simp +contextual [hp]) (by grind) hs, by simp, Nat.zero_le 1, List.suffix_rfl,
    List.suffix_rfl, hworks'.mono (by simp [Grove.mem_reach]) (Grove.reach_mono (by simp))⟩
  · rw [hworks'.rows p (fun h => hpnot (h ▸ hin)) hpnot]
    simpa using hp
  · simpa using (hkeep (by simp +contextual [hp]) (by grind) hl).append hpiece

theorem tracks_fixOne (hblock : BlockSpec block fixB) (hcontrol : ControlSpec control fixC)
    (hp : g.rows p = l ++ i :: is) (hl : g.Shows l made.reverse) (hs : g.Shows (i :: is) (piece :: ps))
    (hgrouped : ∀ q ∈ piece :: ps, q.Grouped) :
    Tracks (fixOne block control i) g (Blocks.nextPiece fixB fixC made piece ps) fun _ made' g' =>
      ∃ semis is', Advances g g' p l i is ps semis is' made' := by
  obtain ⟨k, line, inner⟩ := piece
  obtain ⟨ht, hi, hs'⟩ := hs.cons_inv
  have hip : i ∈ g.rows p := by simp [hp]
  have hpieces : ∀ q ∈ ps, q.Grouped := fun q hq => hgrouped q (.tail _ hq)
  have hkind : g.arena.kind i = k := congrArg Token.kind ht
  have hempty (hopen : k.isOpen = false) : g.rows i = [] := by
    rw [(hgrouped _ (.head _)).inner_eq_nil hopen] at hi
    exact hi.eq_nil
  unfold fixOne Blocks.nextPiece
  dsimp only
  refine (steps_now g).then ?_
  rw [hkind]
  by_cases hfunc : k = .kFunc
  · subst hfunc
    rw [if_pos rfl, if_pos (by simp)]
    have hfix := tracks_fixFunc hblock hp (hempty rfl) (congrArg Token.kind ht) hs' hpieces
    rw [ht] at hfix
    refine hfix.bind ?_
    rintro _ ⟨func, rest⟩ g₁ ⟨hpiece, is₁, hleaves⟩
    refine (steps_now g₁).then ?_
    have hp₁ := hleaves.at_row
    have hfront := hleaves.front hp hl
    rw [g₁.forest.prev_of hp₁]
    have hplain : Advances g g₁ p l i is ps [] is₁ ([] ++ func :: made, rest) :=
      .of_leaves hp hl hpiece hleaves (.refl hleaves.row) rfl
    cases made with
    | nil =>
      obtain rfl := hl.eq_nil
      exact (steps_pure g₁ ()).tracks ⟨[], is₁, hplain⟩
    | cons q made =>
      obtain ⟨k', line', inner'⟩ := q
      rw [List.reverse_cons] at hfront
      obtain ⟨l', r, rfl, -, hlast⟩ := hfront.of_append
      obtain ⟨c, r, rfl⟩ := hlast.exists_cons
      obtain ⟨htc, -, hr⟩ := hlast.cons_inv
      obtain rfl := hr.eq_nil
      have hkc : g₁.arena.kind c = k' := congrArg Token.kind htc
      rw [List.getLast?_append_of_ne_nil _ (by simp), List.getLast?_singleton]
      dsimp only
      rw [hkc]
      by_cases hassign : k' = .assign
      · subst hassign
        rw [if_pos (by simp)]
        obtain ⟨g₂, semis, hsteps, hsep⟩ := steps_addSeparator Blocks.followsFunc hp₁ hleaves.shows
        rw [hleaves.token_owner hp, ht] at hsep
        exact hsteps.tracks ⟨semis, is₁, .of_leaves hp hl hpiece hleaves hsep (reverse_separator ..)⟩
      · rw [if_neg (by simpa using hassign)]
        split
        · next h =>
          cases h
          exact absurd rfl hassign
        · exact (steps_pure g₁ ()).tracks ⟨[], is₁, hplain⟩
  · rw [if_neg hfunc, if_neg (by simpa using hfunc)]
    by_cases hcontrolled : k.isControl = true
    · rw [if_pos hcontrolled, if_pos hcontrolled]
      have hfix := hcontrol g p i l is ps hp (hempty (Tok.isOpen_eq_false_of_isControl hcontrolled)) hs' hpieces
      rw [ht] at hfix
      refine hfix.bind ?_
      rintro _ ⟨stmt, rest⟩ g₁ ⟨hpiece, is₁, hleaves⟩
      obtain ⟨g₂, semis, hsteps, hsep⟩ := steps_addSeparator (· == .semi) hleaves.at_row hleaves.shows
      rw [hleaves.token_owner hp, ht] at hsep
      exact hsteps.tracks ⟨semis, is₁, .of_leaves hp hl hpiece hleaves hsep (reverse_separator ..)⟩
    · rw [if_neg hcontrolled, if_neg hcontrolled]
      by_cases helse : k = .kElse ∨ k = .kElsif
      · rw [if_pos helse, if_pos (by simpa using helse)]
        exact tracks_refuse_at ht .elseWithoutIf
      · rw [if_neg helse, if_neg (by simpa using helse)]
        by_cases hopen : k.isOpen = true
        · rw [if_pos hopen, if_pos hopen]
          refine (tracks_group hblock (Grove.range hip).1 hs.head (hgrouped _ (.head _))).map ?_
          rintro _ piece g₁ ⟨hpiece, hworks⟩
          exact ⟨[], is, advances_group hp hl hs' hpiece hworks⟩
        · rw [if_neg hopen, if_neg hopen]
          exact (steps_pure g ()).tracks ⟨[], is, by simpa using hp, by simpa using hl.append hs.head, hs', by simp,
            Nat.zero_le 1, List.suffix_rfl, List.suffix_rfl, .refl g _ _⟩

theorem steps_fixOne_semi (hk : (g.token i).kind = .semi) : Steps (fixOne block control i) g () g := by
  have hkind : g.arena.kind i = .semi := hk
  refine (steps_now g).bind ?_
  rw [hkind]
  exact steps_pure g ()

/-- The walk passes over the separators it has put in. -/
theorem tracks_pass {m : Nat} {r : Except CompileError (List Piece)} {post : Unit → List Piece → Grove → Prop}
    (hp : g.rows p = l ++ (semis ++ is)) (hsemi : ∀ c ∈ semis, (g.token c).kind = .semi)
    (h : Tracks (fixFrom block control m is.head?) g r post) :
    Tracks (fixFrom block control (semis.length + m) (semis ++ is).head?) g r post := by
  induction semis generalizing l with
  | nil => simpa using h
  | cons c semis ih =>
    rw [List.length_cons, Nat.add_right_comm]
    refine (steps_fixOne_semi (hsemi c (.head _))).then ((steps_now g).then ?_)
    rw [Arena.next, g.forest.next_of (p := p) (l := l) (r := semis ++ is) (by simpa using hp)]
    exact ih (l := l ++ [c]) (by simpa using hp) fun d hd => hsemi d (.tail _ hd)

/-- The walk along a row goes along with that along its pieces.  Each piece takes two steps at most, one for
the separator that may be put behind it. -/
theorem tracks_fixFrom (hblock : BlockSpec block fixB) (hcontrol : ControlSpec control fixC) (hpsize : p < g.size)
    (hp : g.rows p = l ++ is) (hl : g.Shows l made.reverse) (hs : g.Shows is ps) (hgrouped : ∀ q ∈ ps, q.Grouped)
    {n m : Nat} (hn : ps.length ≤ n) (hm : 2 * ps.length < m) :
    Tracks (fixFrom block control m is.head?) g (Blocks.fixSiblings fixB fixC n made ps) fun _ qs g' =>
      g'.Shows (g'.rows p) qs ∧ g.Works g' {p} (g.reach is) := by
  induction n generalizing g l is made ps m with
  | zero =>
    obtain rfl := List.length_eq_zero_iff.mp (Nat.le_zero.mp hn)
    obtain rfl := hs.eq_nil
    obtain ⟨m, rfl⟩ := Nat.exists_eq_add_one.mpr (Nat.zero_lt_of_lt hm)
    rw [List.append_nil] at hp
    exact (steps_pure g ()).tracks ⟨hp ▸ hl, .refl g _ _⟩
  | succ n ih =>
    obtain ⟨m, rfl⟩ := Nat.exists_eq_add_one.mpr (Nat.zero_lt_of_lt hm)
    cases ps with
    | nil =>
      obtain rfl := hs.eq_nil
      rw [List.append_nil] at hp
      exact (steps_pure g ()).tracks ⟨hp ▸ hl, .refl g _ _⟩
    | cons piece ps =>
      obtain ⟨i, is, rfl⟩ := hs.exists_cons
      rw [Blocks.fixSiblings_succ]
      refine (tracks_fixOne hblock hcontrol hp hl hs hgrouped).bind ?_
      rintro _ ⟨made', rest⟩ g₁ ⟨semis, is₁, hadv⟩
      refine (steps_now g₁).then ?_
      rw [Arena.next, g₁.forest.next_of hadv.row]
      have hrow : g₁.rows p = (l ++ [i]) ++ (semis ++ is₁) := by simp [hadv.row]
      have hlength := hadv.pieces.length_le
      have hone := hadv.length
      simp only [List.length_cons] at hn hm
      have hmore := ih (g := g₁) (m := m - semis.length) (hpsize.trans_le hadv.works.size) (by simp [hadv.row])
        hadv.shows hadv.left (fun q hq => hgrouped q (.tail _ (hadv.pieces.subset hq))) (by omega) (by omega)
      have hpass := tracks_pass hrow hadv.kinds hmore
      rw [Nat.add_sub_of_le (by omega)] at hpass
      refine hpass.mono ?_
      rintro _ qs g₂ ⟨hqs, hworks⟩
      refine ⟨hqs, hadv.works.trans (hworks.mono Set.subset_union_left ?_)⟩
      exact (hadv.works.region (g.region_reach _) subset_rfl).reach_subset fun c hc =>
        Grove.mem_reach (.tail _ (hadv.suffix.subset hc))

end

/-- Blocks and control statements are completed in place like their pieces. -/
theorem specs_fix (d : Nat) :
    BlockSpec (fixBlock d) (Blocks.fixBlock d) ∧ ControlSpec (fixControl d) (Blocks.fixControl d) := by
  induction d with
  | zero =>
    refine ⟨fun g p ps _ _ _ => ?_, fun g p i l is ps _ _ _ _ => ?_⟩
    · exact tracks_refuse g p .tooDeep
    · exact tracks_refuse g i .tooDeep
  | succ d ih =>
    refine ⟨fun g p ps hp hs hgrouped => ?_, ?_⟩
    · refine (steps_now g).then ?_
      rw [g.forest.first]
      have hlength : ps.length ≤ g.arena.size := hs.length_eq ▸ g.length_row_le p
      exact tracks_fixFrom ih.1 ih.2 hp (l := []) rfl .nil hs hgrouped le_rfl (by omega)
    · exact controlSpec_parts ih.1 ih.2

/-! ## brackets -/

/-- The brackets that are open, innermost first, and what stands in the row up to the last of them. -/
inductive Opened (g : Grove) : List Nat → List Nat → List Bracket.Open → Prop
  | nil : Opened g [] [] []
  | cons {pre os level : List Nat} {opened : List Bracket.Open} {o : Nat} {t : Token} {before : List Piece}
      (h : Opened g pre os opened) (hlevel : g.Shows level before.reverse) (ht : g.token o = t) (ho : g.rows o = []) :
      Opened g (pre ++ (level ++ [o])) (o :: os) (⟨t, before⟩ :: opened)

theorem Opened.length_eq {pre os : List Nat} {opened : List Bracket.Open} (h : Opened g pre os opened) :
    os.length = opened.length := by
  induction h with
  | nil => rfl
  | cons _ _ _ _ ih => rw [List.length_cons, List.length_cons, ih]

theorem Opened.rewires {pre os : List Nat} {opened : List Bracket.Open} {P : Set Nat} (h : Opened g pre os opened)
    (hr : g.Rewires g' P) (hclear : ∀ q ∈ P, q ∉ g.reach pre) : Opened g' pre os opened := by
  induction h with
  | nil => exact .nil
  | @cons pre os level opened o t before _ hlevel ht ho ih =>
    have ho' : o ∉ P := fun hP => hclear o hP (Grove.mem_reach (by simp))
    exact .cons (ih fun q hq hmem => hclear q hq (Grove.reach_mono (by simp +contextual) hmem))
      (hlevel.rewires hr fun q hq hmem => hclear q hq (Grove.reach_mono (by simp +contextual) hmem))
      ((hr.token o).trans ht) ((hr.rows o ho').trans ho)

open Arena (top)

/-- What stands between two brackets goes below the first of them, and the second one goes. -/
theorem steps_close {lev rest : List Nat} {o : Nat} (hp : g.rows p = l ++ o :: (lev ++ i :: rest))
    (ho : g.rows o = []) :
    ∃ g₁ g₂, Steps (gather o o (fun _ c => c == i) (g.arena.size + 1)) g () g₁ ∧ Steps (unlink i) g₁ () g₂ ∧
      g₂.rows p = l ++ o :: rest ∧ g₂.rows o = lev ∧ g.Rewires g₂ {p, o} := by
  have hnd := hp ▸ g.forest.nodup p
  have hop : o ∈ g.rows p := by simp [hp]
  have hne := g.forest.ne_owner hop
  have hfuel : lev.length < g.arena.size + 1 := Nat.lt_succ_of_lt (Grove.length_run_lt hp)
  obtain ⟨g₁, hgather, hrewires, hrow, hbelow⟩ := steps_gather (fun _ c => c == i) hp (Grove.range hop).1 hne
    (fun c hc => Grove.not_under_sibling (p := p) (by simp [hp, hc]) hop (by grind)) (fun _ _ c hc => by grind)
    (fun _ _ c hc => by simpa using (Option.some.inj hc).symm) hfuel
  refine ⟨g₁, g₁.unlink hrow, hgather, steps_unlink hrow, ?_, ?_,
    hrewires.trans ((Grove.rewires_unlink hrow).mono (by simp))⟩
  · simp [Grove.rows_unlink]
  · rw [Grove.rows_unlink, if_neg hne, hbelow, ho, List.nil_append]

theorem tracks_matchFrom {ts : List Token} {pre os lev rest : List Nat} {opened : List Bracket.Open}
    {level : List Piece} {n : Nat} (hp : g.rows top = pre ++ (lev ++ rest)) (hopened : Opened g pre os opened)
    (hlevel : g.Shows lev level.reverse) (hrest : g.Shows rest (ts.map Piece.leaf)) (hn : rest.length < n) :
    Tracks (matchFrom n rest.head? os) g (Bracket.group ts opened level) fun _ ps g' =>
      g'.size = g.size ∧ (∀ j, g'.token j = g.token j) ∧ g'.Shows (g'.rows top) ps := by
  induction ts generalizing g pre os lev rest opened level n with
  | nil =>
    obtain ⟨n, rfl⟩ := Nat.exists_eq_add_one.mpr (Nat.zero_lt_of_lt hn)
    obtain rfl := hrest.eq_nil
    cases hopened with
    | nil =>
      simp only [List.nil_append, List.append_nil] at hp
      exact (steps_pure g ()).tracks ⟨rfl, fun _ => rfl, hp ▸ hlevel⟩
    | @cons _ os _ opened o t before _ _ ht _ =>
      subst ht
      exact tracks_refuse g o .unterminatedBracket
  | cons t ts ih =>
    obtain ⟨n, rfl⟩ := Nat.exists_eq_add_one.mpr (Nat.zero_lt_of_lt hn)
    obtain ⟨i, rest, rfl⟩ := hrest.exists_cons
    obtain ⟨ht, hi, hrest'⟩ := hrest.cons_inv
    have hi := hi.eq_nil
    have hkind : g.arena.kind i = t.kind := congrArg Token.kind ht
    have hnext : g.arena.next i = rest.head? := by
      rw [Arena.next, g.forest.next_of (p := top) (l := pre ++ lev) (r := rest) (by simpa using hp)]
    rw [List.head?_cons, matchFrom, Bracket.group.eq_def]
    dsimp only
    refine (steps_now g).then ?_
    rw [hkind, hnext]
    simp only [List.length_cons] at hn
    by_cases hopen : t.kind.isOpen = true
    · rw [if_pos hopen, if_pos hopen, hopened.length_eq]
      by_cases hdeep : maxNesting ≤ opened.length
      · rw [if_pos hdeep, if_pos hdeep]
        exact tracks_refuse_at ht .tooDeep
      · rw [if_neg hdeep, if_neg hdeep]
        have hp' : g.rows top = (pre ++ (lev ++ [i])) ++ ([] ++ rest) := by simpa using hp
        exact ih hp' (.cons hopened hlevel ht hi) .nil hrest' (by omega)
    · rw [if_neg hopen, if_neg hopen]
      by_cases hclose : t.kind.isClose = true
      · rw [if_pos hclose, if_pos hclose]
        cases hopened with
        | nil =>
          exact tracks_refuse_at ht .unmatchedCloser
        | @cons pre os lev₀ opened o t₀ before hopened hlevel₀ ht₀ ho =>
          have hkind₀ : g.arena.kind o = t₀.kind := congrArg Token.kind ht₀
          dsimp only
          rw [hkind₀]
          by_cases hcloser : (t₀.kind.closer? == some t.kind) = true
          · rw [if_pos hcloser, if_pos hcloser]
            have hp₀ : g.rows top = (pre ++ lev₀) ++ o :: (lev ++ i :: rest) := by simpa using hp
            have hnd := hp₀ ▸ g.forest.nodup top
            obtain ⟨g₁, g₂, hgather, hunlink, hp₂, ho₂, hrewires⟩ := steps_close hp₀ ho
            have hapart {cs : List Nat} (hcs : ∀ c ∈ cs, c ∈ g.rows top) (hnot : o ∉ cs) :
                ∀ q ∈ ({top, o} : Set Nat), q ∉ g.reach cs :=
              Grove.apart_of_mem (by simp [hp₀]) hcs hnot
            refine hgather.then (hunlink.then ?_)
            have hlevel₁ := hlevel.rewires hrewires (hapart (by simp +contextual [hp₀]) (by grind))
            have hbefore := hlevel₀.rewires hrewires (hapart (by simp +contextual [hp₀]) (by grind))
            have hgroup : g₂.Shows [o] [.mk t₀.kind t₀.line level.reverse] :=
              .cons ((hrewires.token o).trans ht₀) (ho₂ ▸ hlevel₁) .nil
            have hlevel₂ : g₂.Shows (lev₀ ++ [o]) (.mk t₀.kind t₀.line level.reverse :: before).reverse := by
              rw [List.reverse_cons]
              exact hbefore.append hgroup
            have hmore := ih (g := g₂) (by simpa using hp₂)
              (hopened.rewires hrewires (hapart (by simp +contextual [hp₀]) (by grind))) hlevel₂
              (hrest'.rewires hrewires (hapart (by simp +contextual [hp₀]) (by grind))) (n := n) (by omega)
            refine hmore.mono ?_
            rintro _ ps g' ⟨hsize, htoken, hps⟩
            exact ⟨hsize.trans hrewires.size, fun j => (htoken j).trans (hrewires.token j), hps⟩
          · rw [if_neg hcloser, if_neg hcloser]
            exact tracks_refuse_at ht .mismatchedBracket
      · rw [if_neg hclose, if_neg hclose]
        have hp' : g.rows top = pre ++ ((lev ++ [i]) ++ rest) := by simpa using hp
        refine ih hp' hopened ?_ hrest' (by omega)
        rw [List.reverse_cons]
        exact hlevel.append hrest.head

theorem tracks_matchBrackets {ts : List Token} (hs : g.Shows (g.rows top) (ts.map Piece.leaf)) :
    Tracks matchBrackets g (bracket ts) fun _ ps g' =>
      g'.size = g.size ∧ (∀ j, g'.token j = g.token j) ∧ g'.Shows (g'.rows top) ps := by
  refine (steps_now g).then ?_
  rw [g.forest.first]
  have hlength : (g.rows top).length ≤ g.arena.size := g.length_row_le top
  exact tracks_matchFrom (by simp) .nil .nil hs (by omega)

theorem grouped_of_group {ts : List Token} {opened : List Bracket.Open} {level : List Piece}
    (hopened : ∀ o ∈ opened, o.token.kind.isOpen = true ∧ ∀ q ∈ o.before, q.Grouped) (hlevel : ∀ q ∈ level, q.Grouped)
    {ps : List Piece} (h : Bracket.group ts opened level = .ok ps) : ∀ q ∈ ps, q.Grouped := by
  fun_induction Bracket.group ts opened level with
  | case1 level =>
    cases h
    exact fun q hq => hlevel q (List.mem_reverse.mp hq)
  | case2 => cases h
  | case3 => cases h
  | case4 t ts opened level hopen hdeep ih =>
    refine ih (fun o ho => ?_) (List.forall_mem_nil _) h
    obtain rfl | ho := List.mem_cons.mp ho
    · exact ⟨hopen, hlevel⟩
    · exact hopened o ho
  | case5 => cases h
  | case6 t ts level hopen hclose o opened hmatch ih =>
    obtain ⟨ho, hbefore⟩ := hopened o (.head _)
    refine ih (fun o' ho' => hopened o' (.tail _ ho')) (fun q hq => ?_) h
    obtain rfl | hq := List.mem_cons.mp hq
    · exact .group ho fun q hq => hlevel q (List.mem_reverse.mp hq)
    · exact hbefore q hq
  | case7 => cases h
  | case8 t ts opened level hopen hclose ih =>
    refine ih hopened (fun q hq => ?_) h
    obtain rfl | hq := List.mem_cons.mp hq
    · exact .leaf (by simpa using hopen) (by simpa using hclose)
    · exact hlevel q hq

/-! ## reading -/

theorem steps_push {before : List Token} (kind : Tok) (line : Nat) (hsize : top < g.size)
    (hs : g.Shows (g.rows top) (before.reverse.map Piece.leaf)) :
    ∃ g', Steps (push kind line) g () g' ∧ top < g'.size ∧ g'.token top = g.token top ∧
      g'.Shows (g'.rows top) ((⟨Lexer.signed kind before, line⟩ :: before : List Token).reverse.map Piece.leaf) := by
  have hsigned : signed g.arena kind = Lexer.signed kind before := by
    unfold signed
    rw [g.forest.last]
    cases before with
    | nil =>
      rw [hs.eq_nil]
      unfold Lexer.signed
      split <;> split <;> simp_all
    | cons t before =>
      rw [List.reverse_cons, List.map_append] at hs
      obtain ⟨l, r, hrow, -, hr⟩ := hs.of_append
      obtain ⟨c, r, rfl⟩ := hr.exists_cons
      obtain ⟨ht, -, hr⟩ := hr.cons_inv
      obtain rfl := hr.eq_nil
      have hkind : g.arena.kind c = t.kind := congrArg Token.kind ht
      rw [hrow, List.getLast?_append_of_ne_nil _ (by simp), List.getLast?_singleton]
      unfold Lexer.signed
      split <;> split <;> simp_all
  have halone := g.alone_add ⟨Lexer.signed kind before, line⟩
  have htop : top < (g.add ⟨Lexer.signed kind before, line⟩).size := hsize.trans halone.lt
  have hclear := halone.not_under hsize.ne
  have hworks := g.works_add ⟨Lexer.signed kind before, line⟩ ∅ (g.region_reach [])
  have htoken := g.token_add ⟨Lexer.signed kind before, line⟩
  have hadd := steps_add g ⟨Lexer.signed kind before, line⟩
  have hrows₁ : (g.add ⟨Lexer.signed kind before, line⟩).rows = g.rows := rfl
  generalize g.add ⟨Lexer.signed kind before, line⟩ = g₁ at *
  have hrows := Grove.rows_append halone.lt htop halone.loose hclear
  have hrewires := Grove.rewires_append halone.lt htop halone.loose hclear
  refine ⟨g₁.append halone.lt htop halone.loose hclear, (steps_now g).bind ?_, hrewires.size ▸ htop, ?_, ?_⟩
  · rw [hsigned]
    exact hadd.bind (steps_append halone.lt htop halone.loose hclear)
  · rw [hrewires.token, htoken, if_neg hsize.ne]
  · rw [hrows, if_pos rfl, List.reverse_cons, List.map_append, hrows₁]
    have hs₁ := hs.siblings hworks (fun _ => id) (by simp) (by simp) (by simp)
    have hnot : top ∉ g₁.reach (g.rows top) := hrows₁ ▸ Grove.not_mem_reach_rows htop
    refine (hs₁.rewires hrewires (by simpa using hnot)).append (.cons ?_ ?_ .nil)
    · rw [hrewires.token, htoken, if_pos rfl]
    · rw [hrows, if_neg hsize.ne', halone.empty]
      exact .nil

theorem tracks_scan (n line : Nat) {before : List Token} {src : Bytes} (hsize : top < g.size)
    (hs : g.Shows (g.rows top) (before.reverse.map Piece.leaf)) :
    Tracks (scan n line src) g (Lexer.tokens n line before src) fun _ ts g' =>
      top < g'.size ∧ g'.token top = g.token top ∧ g'.Shows (g'.rows top) (ts.map Piece.leaf) := by
  induction n generalizing g line before src with
  | zero => cases src <;> exact (steps_pure g ()).tracks ⟨hsize, rfl, hs⟩
  | succ n ih =>
    cases src with
    | nil => exact (steps_pure g ()).tracks ⟨hsize, rfl, hs⟩
    | cons c rest =>
      unfold scan Lexer.tokens
      extract_lets take take'
      have htake (r : Except CompileError Lexer.Read) : Tracks (take r) g (take' r) fun _ ts g' =>
          top < g'.size ∧ g'.token top = g.token top ∧ g'.Shows (g'.rows top) (ts.map Piece.leaf) := by
        cases r with
        | error e => exact fun s hs => ⟨s, rfl, hs.2⟩
        | ok r =>
          obtain ⟨g₁, hpush, hsize₁, htop, hs₁⟩ := steps_push r.kind line hsize hs
          refine (steps_pure g r).then (hpush.then ((ih r.line hsize₁ hs₁).mono ?_))
          rintro _ ts g' ⟨hsize', htop', hs'⟩
          exact ⟨hsize', htop'.trans htop, hs'⟩
      split_ifs
      · exact ih _ hsize hs
      · exact ih _ hsize hs
      · exact ih _ hsize hs
      all_goals exact htake _

theorem holds_start (line : Nat) :
    (Arena.Log.start line).Holds ⟨.start line, fun _ => [], Arena.forest_start line⟩ :=
  ⟨rfl, List.forall_mem_nil _⟩

theorem tracks_arrange (src : Bytes) (line : Nat) :
    Tracks (arrange src line) ⟨.start line, fun _ => [], Arena.forest_start line⟩ (do
        Blocks.fix line (← bracket (← lex src line)))
      fun _ ps g' => g'.Shows (g'.rows top) ps := by
  have hread : Tracks (scan (src.length + 1) line src) ⟨.start line, fun _ => [], Arena.forest_start line⟩
      (lex src line) fun _ ts g' =>
        top < g'.size ∧ g'.token top = ⟨.list, line⟩ ∧ g'.Shows (g'.rows top) (ts.map Piece.leaf) :=
    tracks_scan _ line Nat.zero_lt_one .nil
  refine hread.bind ?_
  rintro _ ts g₁ ⟨hsize₁, htoken₁, hs₁⟩
  refine (tracks_matchBrackets hs₁).result.bind ?_
  rintro _ ps g₂ ⟨hps, hsize₂, htoken₂, hs₂⟩
  have hfix := (specs_fix maxNesting).1 g₂ top ps (hsize₂ ▸ hsize₁) hs₂ (grouped_of_group (by simp) (by simp) hps)
  rw [htoken₂, htoken₁] at hfix
  exact hfix.mono fun _ _ _ h => h.1

/-- **Reading a text and grouping its tokens in place never breaks the links and never walks on and on.**
Whatever the text is, the arena is well-formed after each change of a link, every walk comes to its end, and the
rows are in the end what the lists of pieces are, or the text is refused for the same reason. -/
theorem arrange_wellFormed (src : Bytes) (line : Nat) : ∃ s : Arena.Log, (∀ a ∈ s.past, a.WellFormed) ∧
    match (do Blocks.fix line (← bracket (← lex src line)) : Except CompileError (List Piece)) with
    | .ok ps => (arrange src line).run (.start line) = .ok () s ∧
        ∃ g : Grove, s.now = g.arena ∧ g.Shows (g.rows top) ps
    | .error e => (arrange src line).run (.start line) = .error (.refused e) s := by
  have h := tracks_arrange src line _ (holds_start line)
  generalize (do Blocks.fix line (← bracket (← lex src line)) : Except CompileError (List Piece)) = r at h
  cases r with
  | ok ps =>
    obtain ⟨_, s, g, hrun, hs, hps⟩ := h
    exact ⟨s, hs.2, hrun, g, hs.1, hps⟩
  | error e =>
    obtain ⟨s, hrun, hs⟩ := h
    exact ⟨s, hs, hrun⟩

/-- Six tokens are read, what stands in the brackets goes below them, and the statement takes its parts. -/
example : (match (arrange (Bytes.ofString "if (a) b;") 1).run (.start 1) with
    | .ok _ s => s.past.length
    | .error .. => 0) = 14 := by decide +kernel

end Linking

end ScriptEngine
