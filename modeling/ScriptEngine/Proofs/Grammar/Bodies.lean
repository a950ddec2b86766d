import ScriptEngine.Proofs.Grammar.Branches
import ScriptEngine.Proofs.Grammar.Linking

/-!
# Bodies taken in place

Function literals and control statements take their parts from the siblings behind them.  What is done to the
links goes along with what `Blocks` does to pieces, when this is so one level of nesting below.

* `BlockSpec`, `ControlSpec`   what is known of the level below;
* `Leaves`      which siblings are left, and that nothing else has changed;
* `TakesBody`   a body that has been taken and stands in no row yet.
-/

namespace ScriptEngine

theorem Tok.isOpen_eq_false_of_isControl {k : Tok} (h : k.isControl = true) : k.isOpen = false := by
  cases k <;> simp [isControl] at h <;> rfl

namespace Piece.Grouped

variable {k : Tok} {line : Nat} {inner : List Piece}

theorem of_inner (h : (Piece.mk k line inner).Grouped) : ∀ q ∈ inner, q.Grouped := by
  cases h with
  | leaf => exact List.forall_mem_nil _
  | group _ hps => exact hps

theorem inner_eq_nil (h : (Piece.mk k line inner).Grouped) (hk : k.isOpen = false) : inner = [] := by
  cases h with
  | leaf => rfl
  | group hk' _ => exact absurd (hk.symm.trans hk') Bool.false_ne_true

end Piece.Grouped

namespace Linking

variable {g g' g'' : Grove} {i n p : Nat} {l is is₁ is₂ cs before : List Nat} {ps ps₁ ps₂ qs : List Piece}
  {P P' : Set Nat}

/-! ## siblings that are left -/

/-- The siblings `is` behind `front` were used up to `is'`. -/
structure Leaves (g g' : Grove) (p : Nat) (front is is' : List Nat) (ps ps' : List Piece) (P : Set Nat) : Prop where
  suffix : is' <:+ is
  pieces : ps' <:+ ps
  row : g'.rows p = front ++ is'
  shows : g'.Shows is' ps'
  works : g.Works g' P (g.reach is)

namespace Leaves

theorem refl (hp : g.rows p = before ++ is) (hs : g.Shows is ps) : Leaves g g p before is is ps ps P :=
  ⟨List.suffix_rfl, List.suffix_rfl, hp, hs, .refl g _ _⟩

theorem after (h : Leaves g' g'' p before is₁ is₂ ps₁ ps₂ P) (hworks : g.Works g' P (g.reach is)) (his : is₁ <:+ is)
    (hps : ps₁ <:+ ps) : Leaves g g'' p before is is₂ ps ps₂ P where
  suffix := h.suffix.trans his
  pieces := h.pieces.trans hps
  row := h.row
  shows := h.shows
  works := hworks.trans (h.works.mono Set.subset_union_left
    ((hworks.region (g.region_reach is) subset_rfl).reach_subset fun _ hc => Grove.mem_reach (his.subset hc)))

theorem trans (h : Leaves g g' p before is is₁ ps ps₁ P) (h' : Leaves g' g'' p before is₁ is₂ ps₁ ps₂ P) :
    Leaves g g'' p before is is₂ ps ps₂ P :=
  h'.after h.works h.suffix h.pieces

theorem mono (h : Leaves g g' p before is is₁ ps ps₁ P) (hP : P ⊆ P') : Leaves g g' p before is is₁ ps ps₁ P' :=
  ⟨h.suffix, h.pieces, h.row, h.shows, h.works.mono (hP.trans Set.subset_union_left) subset_rfl⟩

theorem at_row (h : Leaves g g' p (l ++ [i]) is is₁ ps ps₁ P) : g'.rows p = l ++ i :: is₁ := by
  rw [h.row, List.append_assoc, List.singleton_append]

theorem token_owner (h : Leaves g g' p (l ++ [i]) is is₁ ps ps₁ P) (hp : g.rows p = l ++ i :: is) :
    g'.token i = g.token i :=
  h.works.token i (Grove.apart_of_row hp i (.inr rfl))

theorem front (h : Leaves g g' p (l ++ [i]) is is₁ ps ps₁ {p, i}) (hp : g.rows p = l ++ i :: is) (hs : g.Shows l qs) :
    g'.Shows l qs := by
  have hnd := hp ▸ g.forest.nodup p
  have hl : ∀ c ∈ l, c ∈ g.rows p := by simp +contextual [hp]
  exact hs.siblings h.works hl (by simp +contextual [hp]) (by grind)
    (Grove.apart_of_mem (by simp [hp]) hl (by grind))

/-- So is what stands below the token before them. -/
theorem below (h : Leaves g g' p (l ++ [i]) is is₁ ps ps₁ {p, i}) (hp : g.rows p = l ++ i :: is)
    (hcs : ∀ c ∈ cs, c ∈ g.rows i) (hs : g.Shows cs qs) : g'.Shows cs qs := by
  have hnd := hp ▸ g.forest.nodup p
  have hip : i ∈ g.rows p := by simp [hp]
  refine hs.works h.works fun c hc j hj => ?_
  have hij := (Grove.under_of_mem (hcs c hc)).trans hj
  have hjp : j ≠ p := fun h => Grove.not_under_owner hip (h ▸ hij)
  have hji : j ≠ i := fun h => Grove.not_under_owner (hcs c hc) (h ▸ hj)
  have : j ∉ g.reach is := Grove.not_mem_reach hip (by simp +contextual [hp]) (by grind) hij
  simp [hjp, hji, this]

end Leaves

/-- Completing the row of a bracket goes along with the computation on pieces. -/
def BlockSpec (block : Nat → Linking Unit) (fix : Nat → List Piece → Except CompileError (List Piece)) : Prop :=
  ∀ g p ps, p < g.size → g.Shows (g.rows p) ps → (∀ q ∈ ps, q.Grouped) →
    Tracks (block p) g (fix (g.token p).line ps) fun _ qs g' =>
      g'.Shows (g'.rows p) qs ∧ g.Works g' {p} (g.reach (g.rows p))

/-- Completing a control statement does. -/
def ControlSpec (control : Nat → Linking Unit)
    (fix : Tok → Nat → List Piece → Except CompileError (Piece × List Piece)) : Prop :=
  ∀ g p i l is ps, g.rows p = l ++ i :: is → g.rows i = [] → g.Shows is ps → (∀ q ∈ ps, q.Grouped) →
    Tracks (control i) g (fix (g.token i).kind (g.token i).line ps) fun _ made g' =>
      g'.Shows [i] [made.1] ∧ ∃ is', Leaves g g' p (l ++ [i]) is is' ps made.2 {p, i}

section

variable {block control : Nat → Linking Unit} {fixB : Nat → List Piece → Except CompileError (List Piece)}
  {fixC : Tok → Nat → List Piece → Except CompileError (Piece × List Piece)} {piece : Piece}

/-! ## brackets and function literals -/

theorem tracks_group (hblock : BlockSpec block fixB) (hn : n < g.size) (hs : g.Shows [n] [piece])
    (hgrouped : piece.Grouped) : Tracks (block n) g (Blocks.fixGroup fixB piece) fun _ made g' =>
      g'.Shows [n] [made] ∧ g.Works g' {n} (g.reach (g.rows n)) := by
  obtain ⟨k, line, inner⟩ := piece
  obtain ⟨ht, hi, -⟩ := hs.cons_inv
  have hfix := hblock g n inner hn hi hgrouped.of_inner
  rw [ht] at hfix
  refine hfix.map fun _ qs g' ⟨hqs, hworks⟩ => ⟨.cons ?_ hqs .nil, hworks⟩
  rw [hworks.token n (Grove.not_mem_reach_rows hn), ht]

theorem nextOf?_eq (hp : g.rows p = l ++ i :: is) (k : Tok) :
    g.arena.nextOf? i k = is.head?.filter fun n => (g.token n).kind == k := by
  rw [Arena.nextOf?, Arena.next, g.forest.next_of hp]
  rfl

theorem nextOf?_cases (k : Tok) (hp : g.rows p = l ++ i :: is) (hs : g.Shows is ps) :
    (∃ n is' line inner ps', is = n :: is' ∧ ps = .mk k line inner :: ps' ∧ g.arena.nextOf? i k = some n) ∨
      g.arena.nextOf? i k = none ∧ ∀ q, ps.head? = some q → q.kind ≠ k := by
  rw [nextOf?_eq hp]
  cases hs with
  | nil => exact .inr ⟨rfl, by simp⟩
  | @cons n is' k' line inner ps ht _ _ =>
    rw [List.head?_cons, Option.filter_some, ht]
    by_cases hk : k' = k
    · subst hk
      exact .inl ⟨n, is', line, inner, ps, rfl, rfl, by simp⟩
    · refine .inr ⟨by simp [hk], fun q hq => ?_⟩
      obtain rfl := Option.some.inj hq
      exact hk

theorem tracks_adopt (hblock : BlockSpec block fixB) (hp : g.rows p = l ++ i :: n :: is)
    (hs : g.Shows (n :: is) (piece :: ps)) (hgrouped : piece.Grouped) :
    Tracks (adopt block i n) g (Blocks.fixGroup fixB piece) fun _ made g' =>
      Leaves g g' p (l ++ [i]) (n :: is) is (piece :: ps) ps {p, i} ∧ g'.rows i = g.rows i ++ [n] ∧
        g'.Shows [n] [made] := by
  have hip : i ∈ g.rows p := by simp [hp]
  have hnp : n ∈ g.rows p := by simp [hp]
  have hisp : ∀ c ∈ is, c ∈ g.rows p := by simp +contextual [hp]
  have hnd := hp ▸ g.forest.nodup p
  have hne : i ≠ n := by grind
  have hipne := g.forest.ne_owner hip
  have hp' : g.rows p = (l ++ [i]) ++ n :: is := by simp [hp]
  have hn : n ∈ g.reach [n] := Grove.mem_reach (.head _)
  have hclear := Grove.not_under_sibling hnp hip hne.symm
  have hrows := Grove.rows_move hp' (Grove.range hip).1 hclear hipne
  have hrewires := Grove.rewires_move hp' (Grove.range hip).1 hclear
  have hworks := Grove.works_move hp' (Grove.range hip).1 hclear hn
  refine Tracks.move (k := fun _ => block n) hp' (Grove.range hip).1 hclear ?_
  generalize g.move hp' (Grove.range hip).1 hclear = g₁ at hrows hrewires hworks
  -- neither `i` nor the owner of the row is concerned when the group is completed
  have hapart : ∀ q ∈ ({p, i} : Set Nat), q ∉ g.reach [n] :=
    Grove.apart_of_mem hip (by simpa using hnp) (by simpa using hne)
  refine (tracks_group hblock (hrewires.size ▸ (Grove.range hnp).1) (hs.head.rewires hrewires hapart) hgrouped).mono
    fun _ made g₂ ⟨hmade, hworks₂⟩ => ?_
  have hrow : ∀ q ∈ ({p, i} : Set Nat), g₂.rows q = g₁.rows q := fun q hq =>
    hworks₂.rows q (fun h : q = n => hapart q hq (h ▸ hn)) fun h => hapart q hq (hworks.reach_row hn h)
  have hworks' := hworks.below hworks₂ hn
  refine ⟨⟨List.suffix_cons n is, List.suffix_cons _ ps, ?_, ?_,
    hworks'.mono Set.subset_union_left (Grove.reach_mono (by simp))⟩, ?_, hmade⟩
  · rw [hrow p (by simp), hrows, if_neg hipne.symm, if_pos rfl]
  · exact hs.tail.siblings hworks' hisp (by simpa using hnp) (by grind) (Grove.apart_of_mem hip hisp (by grind))
  · rw [hrow i (by simp), hrows, if_pos rfl]

theorem tracks_fixFunc (hblock : BlockSpec block fixB) (hp : g.rows p = l ++ i :: is) (hi : g.rows i = [])
    (hkind : (g.token i).kind = .kFunc) (hs : g.Shows is ps) (hgrouped : ∀ q ∈ ps, q.Grouped) :
    Tracks (fixFunc block i) g (Blocks.fixFunc fixB (g.token i).line ps) fun _ made g' =>
      g'.Shows [i] [made.1] ∧ ∃ is', Leaves g g' p (l ++ [i]) is is' ps made.2 {p, i} := by
  unfold fixFunc Blocks.fixFunc
  extract_lets body
  have hbody {g₁ : Grove} {params left : List Piece} {is₁ : List Nat} (hparams : g₁.Shows (g₁.rows i) params)
      (hleaves : Leaves g g₁ p (l ++ [i]) is is₁ ps left {p, i}) :
      Tracks (fixFuncBody block i) g₁ (body (params, left)) fun _ made g' =>
        g'.Shows [i] [made.1] ∧ ∃ is', Leaves g g' p (l ++ [i]) is is' ps made.2 {p, i} := by
    have hp₁ := hleaves.at_row
    refine (steps_now g₁).then ?_
    unfold body
    rcases nextOf?_cases .lcurl hp₁ hleaves.shows with ⟨n, is₂, line, inner, left, rfl, rfl, hn⟩ | ⟨hn, hne⟩
    · rw [hn]
      refine (tracks_adopt hblock hp₁ hleaves.shows (hgrouped _ (hleaves.pieces.subset (.head _)))).map ?_
      rintro - piece g₂ ⟨hleaves₂, hrow, hpiece⟩
      refine ⟨.cons ?_ ?_ .nil, is₂, hleaves.trans hleaves₂⟩
      · rw [hleaves₂.token_owner hp₁, hleaves.token_owner hp, ← hkind]
      · rw [hrow]
        exact (hleaves₂.below hp₁ (fun _ => id) hparams).append hpiece
    · rw [hn]
      dsimp only
      split
      · exact absurd rfl (hne _ rfl)
      · rw [← hleaves.token_owner hp]
        exact tracks_refuse g₁ i .badFunction
  refine (steps_now g).then ?_
  rcases nextOf?_cases .lpar hp hs with ⟨n, is₁, line, inner, ps, rfl, rfl, hn⟩ | ⟨hn, hne⟩
  · rw [hn]
    refine (tracks_adopt hblock hp hs (hgrouped _ (.head _))).bind ?_
    rintro - piece g₁ ⟨hleaves, hrow, hpiece⟩
    rw [hi] at hrow
    exact hbody (hrow ▸ hpiece) hleaves
  · rw [hn]
    dsimp only
    split
    · exact absurd rfl (hne _ rfl)
    · exact hbody (hi ▸ .nil) (.refl (by simp [hp]) hs)

/-! ## bodies of control statements -/

/-- A body is taken from the siblings `is`. -/
structure TakesBody (g g' : Grove) (p : Nat) (before is : List Nat) (ps : List Piece) (body : Nat)
    (made : Piece × List Piece) : Prop where
  leaves : ∃ is', Leaves g g' p before is is' ps made.2 {p}
  lt : body < g'.size
  loose : ∀ q, body ∉ g'.rows q
  reached : body ∈ g.reach is
  shows : g'.Shows [body] [made.1]

theorem takesBody_braces (hblock : BlockSpec block fixB) (hp : g.rows p = l ++ n :: is)
    (hs : g.Shows (n :: is) (piece :: ps)) (hgrouped : piece.Grouped) :
    Tracks (do unlink n; block n; return n) g (do return (← Blocks.fixGroup fixB piece, ps))
      fun body made g' => TakesBody g g' p l (n :: is) (piece :: ps) body made := by
  have hnp : n ∈ g.rows p := by simp [hp]
  have hisp : ∀ c ∈ is, c ∈ g.rows p := by simp +contextual [hp]
  have hnd := hp ▸ g.forest.nodup p
  have hn : n ∈ g.reach [n] := Grove.mem_reach (.head _)
  have hpn : p ∉ g.reach [n] := Grove.owner_not_mem_reach (Grove.range hnp).2 (by simpa using hnp)
  have hpis : p ∉ g.reach is := Grove.owner_not_mem_reach (Grove.range hnp).2 hisp
  have hrows := Grove.rows_unlink hp
  have hrewires := Grove.rewires_unlink hp
  have hloose := Grove.loose_unlink hp
  have hworks := Grove.works_unlink hp (g.reach [n])
  refine (steps_unlink hp).then ?_
  generalize g.unlink hp = g₁ at *
  have hlt : n < g₁.size := hrewires.size ▸ (Grove.range hnp).1
  have hpiece : g₁.Shows [n] [piece] := hs.head.rewires hrewires (by simpa using hpn)
  refine (tracks_group hblock hlt hpiece hgrouped).bind fun _ made g₂ ⟨hmade, hworks₂⟩ => ?_
  refine (steps_pure g₂ n).tracks ?_
  have hworks' := hworks.below hworks₂ hn
  refine ⟨⟨is, List.suffix_cons n is, List.suffix_cons _ ps, ?_, ?_,
    hworks'.mono Set.subset_union_left (Grove.reach_mono (by simp))⟩,
    hlt.trans_le hworks₂.size, fun q hq => ?_, Grove.mem_reach (.head _), hmade⟩
  · rw [hworks₂.rows p (fun h : p = n => hpn (h ▸ hn)) fun h => hpn (hworks.reach_row hn h), hrows, if_pos rfl]
  · exact hs.tail.siblings hworks' hisp (by simpa using hnp) (by grind) (by simpa using hpis)
  · exact (hworks₂.moved q n hq).elim (hloose q) (Grove.not_mem_reach_rows hlt)

theorem takesBody_control (hcontrol : ControlSpec control fixC) {k : Tok} {line : Nat} {inner : List Piece}
    (hp : g.rows p = l ++ n :: is) (hs : g.Shows (n :: is) (.mk k line inner :: ps)) (hk : k.isControl = true)
    (hgrouped : ∀ q ∈ Piece.mk k line inner :: ps, q.Grouped) :
    Tracks (do control n; unlink n; append g.size n; return g.size) (g.add ⟨.lcurl, line⟩)
      (do
        let (stmt, rest) ← fixC k line ps
        return (.mk .lcurl line [stmt], rest))
      fun body made g' => TakesBody g g' p l (n :: is) (.mk k line inner :: ps) body made := by
  have hnp : n ∈ g.rows p := by simp [hp]
  obtain ⟨ht, hi, hs'⟩ := hs.cons_inv
  have hin : g.rows n = [] := by
    rw [(hgrouped _ (.head _)).inner_eq_nil (Tok.isOpen_eq_false_of_isControl hk)] at hi
    exact hi.eq_nil
  have hnsize : n < g.size := (Grove.range hnp).1
  have hpsize : p < g.size := (Grove.range hnp).2
  have hadd := g.works_add ⟨.lcurl, line⟩ ∅ (g.region_reach [])
  have halone := g.alone_add ⟨.lcurl, line⟩
  have htoken := g.token_added ⟨.lcurl, line⟩
  have htokenn : (g.add ⟨.lcurl, line⟩).token n = ⟨k, line⟩ :=
    ((g.token_add ⟨.lcurl, line⟩ n).trans (if_neg hnsize.ne)).trans ht
  have hrows₁ : (g.add ⟨.lcurl, line⟩).rows = g.rows := rfl
  have hs₁ := hs'.siblings hadd (p := p) (by simp +contextual [hp]) (by simp) (by simp) (by simp)
  have hfix := hcontrol (g.add ⟨.lcurl, line⟩) p n l is ps hp hin hs₁ (fun q hq => hgrouped q (.tail _ hq))
  rw [htokenn] at hfix
  have hworks₁ : g.Works (g.add ⟨.lcurl, line⟩) {p} (g.reach (n :: is)) :=
    hadd.mono (by simp) (Grove.reach_mono (by simp))
  generalize g.add ⟨.lcurl, line⟩ = g₁ at *
  have hreach : g₁.reach is ⊆ g.reach (n :: is) :=
    (hworks₁.region (g.region_reach _) subset_rfl).reach_subset fun c hc => Grove.mem_reach (.tail _ hc)
  refine hfix.bind fun _ made g₂ ⟨hstmt, is₂, hleaves⟩ => ?_
  have hp₂ := hleaves.at_row
  have hb : g.size ∉ g₁.reach is := halone.not_mem_reach (p := p) (by simp +contextual [hrows₁, hp])
  have halone₂ := hleaves.works.alone halone (by simp [hnsize.ne', hpsize.ne']) hb
  have hclear := halone₂.not_under_row (j := n) (p := p) (by simp [hp₂])
  have hrows₃ := Grove.rows_move hp₂ halone₂.lt hclear hpsize.ne'
  have hrewires₃ := Grove.rewires_move hp₂ halone₂.lt hclear
  have hworks₃ := Grove.works_move hp₂ halone₂.lt hclear (S := {n}) rfl
  refine Tracks.move (k := fun _ => pure g.size) hp₂ halone₂.lt hclear ?_
  generalize g₂.move hp₂ halone₂.lt hclear = g₃ at *
  refine (steps_pure g₃ g.size).tracks ?_
  have hpsize₂ : p < g₂.size := Grove.owner_lt hp₂
  have hworks' : g.Works g₃ {p} (g.reach (n :: is)) :=
    (hworks₁.trans (hleaves.works.mono (by simp [Set.insert_subset_iff, Grove.mem_reach]) hreach)).trans
      (hworks₃.mono (by simp [Set.insert_subset_iff, Grove.reach]) (by simp [Grove.mem_reach]))
  refine ⟨⟨is₂, hleaves.suffix.trans (List.suffix_cons n is), hleaves.pieces.trans (List.suffix_cons _ ps), ?_, ?_,
    hworks'⟩, hrewires₃.size ▸ halone₂.lt, fun q hq => ?_, .inr le_rfl, .cons ?_ ?_ .nil⟩
  · rw [hrows₃, if_neg hpsize.ne, if_pos rfl]
  · exact hleaves.shows.rewires hrewires₃ (halone₂.apart hpsize₂ (by simp +contextual [hp₂]))
  · exact (hworks₃.moved q _ hq).elim (halone₂.loose q) fun h => hnsize.ne' h
  · rw [hrewires₃.token, hleaves.works.token _ hb, htoken]
  · rw [hrows₃, if_pos rfl, halone₂.empty]
    exact hstmt.rewires hrewires₃ (halone₂.apart hpsize₂ (by simp [hp₂]))

theorem takesBody_simple (hblock : BlockSpec block fixB) {own rest : List Piece} (line : Nat)
    (hp : g.rows p = l ++ i :: is) (hs : g.Shows is (own ++ rest)) (hown : ∀ q ∈ own, q.kind ≠ .semi)
    (hrest : ∀ q, rest.head? = some q → q.kind = .semi) (hgrouped : ∀ q ∈ own, q.Grouped) :
    Tracks (do gather i g.size (fun a c => a.kind c == .semi) (g.size + 1); block g.size; return g.size)
      (g.add ⟨.lcurl, line⟩) (do return (.mk .lcurl line (← fixB line own), rest))
      fun body made g' => TakesBody g g' p (l ++ [i]) is (own ++ rest) body made := by
  have hnd := hp ▸ g.forest.nodup p
  have hpsize : p < g.size := Grove.owner_lt hp
  obtain ⟨mid, left, rfl, hmid, hleft⟩ := hs.of_append
  have hmidp : ∀ c ∈ mid, c ∈ g.rows p := by simp +contextual [hp]
  have hleftp : ∀ c ∈ left, c ∈ g.rows p := by simp +contextual [hp]
  have hfuel : mid.length < g.size + 1 := Nat.lt_succ_of_lt (Grove.length_run_lt hp)
  have hadd := g.works_add ⟨.lcurl, line⟩ ∅ (g.region_reach [])
  have halone := g.alone_add ⟨.lcurl, line⟩
  have htoken := g.token_added ⟨.lcurl, line⟩
  have hrows₁ : (g.add ⟨.lcurl, line⟩).rows = g.rows := rfl
  generalize g.add ⟨.lcurl, line⟩ = g₁ at *
  have hp₁ : g₁.rows p = l ++ i :: (mid ++ left) := hrows₁ ▸ hp
  have hmid₁ := hmid.siblings hadd hmidp (by simp) (by simp) (by simp)
  have hleft₁ := hleft.siblings hadd hleftp (by simp) (by simp) (by simp)
  obtain ⟨g₂, hsteps, hgathered⟩ := steps_gather (fun a c => a.kind c == .semi) hp₁ halone.lt hpsize.ne'
    (fun c hc => halone.not_under_row (hrows₁ ▸ hmidp c hc))
    (fun a ha c hc => by
      obtain ⟨q, hq, hkind⟩ := hmid₁.exists_kind hc
      simpa [Arena.kind, ha, ← hkind] using hown q hq)
    (fun a ha c hc => by
      obtain ⟨q, hq, hkind⟩ := hleft₁.head_kind hc
      simpa [Arena.kind, ha, ← hkind] using hrest q hq) hfuel
  have hworks₂ := hgathered.works (S := g.reach mid) (by simpa using hp₁) fun c hc => Grove.mem_reach hc
  have hloose : ∀ q, g.size ∉ g₂.rows q := hgathered.loose (by simpa using hp₁) halone.loose
  obtain ⟨hrewires, hrow, hbelow⟩ := hgathered
  rw [halone.empty, List.nil_append] at hbelow
  refine hsteps.then ?_
  have hb : g.size < g₂.size := hrewires.size ▸ halone.lt
  have hown₂ := hmid₁.rewires hrewires (halone.apart (hpsize.trans halone.lt) (hrows₁ ▸ hmidp))
  have hfix := hblock g₂ g.size own hb (hbelow ▸ hown₂) hgrouped
  rw [hrewires.token, htoken] at hfix
  refine hfix.bind fun _ made g₃ ⟨hmade, hworks₃⟩ => ?_
  refine (steps_pure g₃ g.size).tracks ?_
  have hbmid : g.size ∈ g.reach mid := .inr le_rfl
  have hbrow : g.size ∉ g₂.reach (g₂.rows g.size) := Grove.not_mem_reach_rows hb
  have hworks : g.Works g₂ {p} (g.reach mid) :=
    (hadd.mono (by simp) (Grove.reach_mono (by simp))).trans
      (hworks₂.mono (by simp [Set.insert_subset_iff, hbmid]) subset_rfl)
  have hworks' := hworks.below hworks₃ hbmid
  have hpmid : p ∉ g.reach mid := Grove.owner_not_mem_reach hpsize hmidp
  have hpleft : p ∉ g.reach left := Grove.owner_not_mem_reach hpsize hleftp
  refine ⟨⟨left, List.suffix_append .., List.suffix_append .., ?_, ?_,
    hworks'.mono Set.subset_union_left (Grove.reach_mono (by simp +contextual))⟩,
    hb.trans_le hworks₃.size, fun q hq => ?_, .inr le_rfl, .cons ?_ hmade .nil⟩
  · rw [hworks₃.rows p hpsize.ne fun h => hpmid (hworks.reach_row hbmid h), hrow]
  · exact hleft.siblings hworks' hleftp hmidp (by grind) (by simpa using hpleft)
  · exact (hworks₃.moved q _ hq).elim (hloose q) hbrow
  · rw [hworks₃.token _ hbrow, hrewires.token, htoken]

/-- A body without braces: a control statement, or what stands before the separator. -/
theorem takeBody_bare {k : Tok} (hk : k ≠ .lcurl) (owner line : Nat) (inner : List Piece) :
    Blocks.takeBody fixB fixC owner (.mk k line inner :: ps) =
      if k.isControl then do
        let (stmt, rest) ← fixC k line ps
        return (.mk .lcurl line [stmt], rest)
      else do
        let own := (Piece.mk k line inner :: ps).takeWhile fun q => q.kind != .semi
        let rest := (Piece.mk k line inner :: ps).dropWhile fun q => q.kind != .semi
        return (.mk .lcurl line (← fixB line own), rest) := by
  unfold Blocks.takeBody
  split
  · next h => cases h
  · next h =>
    cases h
    exact absurd rfl hk
  · next h =>
    cases h
    rw [List.span_eq_takeWhile_dropWhile]
    rfl

theorem tracks_takeBody (hblock : BlockSpec block fixB) (hcontrol : ControlSpec control fixC)
    (hp : g.rows p = l ++ i :: is) (hs : g.Shows is ps) (hgrouped : ∀ q ∈ ps, q.Grouped) :
    Tracks (takeBody block control i) g (Blocks.takeBody fixB fixC (g.token i).line ps) fun body made g' =>
      TakesBody g g' p (l ++ [i]) is ps body made := by
  unfold takeBody
  refine (steps_now g).then ?_
  rw [Arena.next, g.forest.next_of hp]
  cases hs with
  | nil => exact tracks_refuse g i .missingBody
  | @cons n is k line inner ps ht hi hs' =>
    have hp' : g.rows p = (l ++ [i]) ++ n :: is := by simp [hp]
    have hkind : g.arena.kind n = k := congrArg Token.kind ht
    have hline : g.arena.line n = line := congrArg Token.line ht
    have hs : g.Shows (n :: is) (.mk k line inner :: ps) := .cons ht hi hs'
    rw [List.head?_cons]
    dsimp only
    rw [hkind, hline]
    by_cases hk : k = .lcurl
    · subst hk
      exact takesBody_braces hblock hp' hs (hgrouped _ (.head _))
    · rw [if_neg (by simpa using hk)]
      refine (steps_add g _).then ?_
      rw [takeBody_bare hk]
      by_cases hcontrolled : k.isControl = true
      · rw [if_pos hcontrolled, if_pos hcontrolled]
        exact takesBody_control hcontrol hp' hs hcontrolled hgrouped
      · rw [if_neg hcontrolled, if_neg hcontrolled]
        have hsplit := List.takeWhile_append_dropWhile (p := fun q : Piece => q.kind != .semi)
          (l := .mk k line inner :: ps)
        rw [← hsplit] at hs
        have htake := takesBody_simple hblock line hp hs (fun q hq => by simpa using List.mem_takeWhile_imp hq)
          (fun q hq => by
            have := List.head?_dropWhile_not (fun q : Piece => q.kind != .semi) (.mk k line inner :: ps)
            rw [hq] at this
            simpa using this)
          (fun q hq => hgrouped q (List.takeWhile_subset _ hq))
        rw [hsplit] at htake
        exact htake

namespace TakesBody

variable {body : Nat} {made : Piece × List Piece}

theorem reach_subset (h : TakesBody g g' p before is ps body made) : g'.reach [body] ⊆ g.reach is :=
  have ⟨_, hleaves⟩ := h.leaves
  (hleaves.works.region (g.region_reach is) subset_rfl).reach_subset (by simpa using h.reached)

/-- The token before the siblings may go when the body is taken. -/
theorem unlink (h : TakesBody g g' p (before ++ [n]) is ps body made) (hp : g.rows p = before ++ n :: is)
    (q : Piece) :
    ∃ g'', Steps (unlink n) g' () g'' ∧ TakesBody g g'' p before (n :: is) (q :: ps) body made := by
  obtain ⟨is', hleaves⟩ := h.leaves
  have hp' := hleaves.at_row
  have hrewires := Grove.rewires_unlink hp'
  have hpnot := Grove.apart_of_row hp p (.inl rfl)
  have hpnot' := Grove.apart_of_row hp' p (.inl rfl)
  have hsub : g.reach is ⊆ g.reach (n :: is) := Grove.reach_mono (by simp +contextual)
  refine ⟨g'.unlink hp', steps_unlink hp', ⟨is', hleaves.suffix.trans (List.suffix_cons n is),
    hleaves.pieces.trans (List.suffix_cons q ps), ?_, ?_, ?_⟩, ?_, fun r hr => ?_, hsub h.reached, ?_⟩
  · rw [Grove.rows_unlink, if_pos rfl]
  · exact hleaves.shows.rewires hrewires (by simpa using hpnot')
  · exact (hleaves.works.mono Set.subset_union_left hsub).trans (Grove.works_unlink hp' _)
  · simpa using h.lt
  · exact ((Grove.works_unlink hp' ∅).moved r body hr).elim (h.loose r) id
  · exact h.shows.rewires hrewires fun r hr hmem => hpnot (hr ▸ h.reach_subset hmem)

/-- The body goes to the row of the token that it is for. -/
theorem append (h : TakesBody g g' p (l ++ [i]) is ps body made) (hp : g.rows p = l ++ i :: is) :
    ∃ g'', Steps (append i body) g' () g'' ∧ g''.rows i = g.rows i ++ [body] ∧ g''.Shows [body] [made.1] ∧
      ∃ is', Leaves g g'' p (l ++ [i]) is is' ps made.2 {p, i} := by
  obtain ⟨is', hleaves⟩ := h.leaves
  have hp' := hleaves.at_row
  have hip' : i ∈ g'.rows p := by simp [hp']
  have hne := g'.forest.ne_owner hip'
  have hinot := Grove.apart_of_row hp i (.inr rfl)
  have hinot' := Grove.apart_of_row hp' i (.inr rfl)
  have hclear : ¬ g'.Under body i := fun hi => hinot (h.reach_subset (.inl ⟨body, .head _, hi⟩))
  have hrows := Grove.rows_append h.lt (Grove.range hip').1 h.loose hclear
  have hrewires := Grove.rewires_append h.lt (Grove.range hip').1 h.loose hclear
  have hworks := Grove.works_append h.lt (Grove.range hip').1 h.loose hclear h.reached
  refine ⟨g'.append h.lt (Grove.range hip').1 h.loose hclear, steps_append _ _ _ _, ?_, ?_, is', hleaves.suffix,
    hleaves.pieces, ?_, ?_, ?_⟩
  · rw [hrows, if_pos rfl, hleaves.works.rows i hne hinot]
  · exact h.shows.rewires hrewires fun q hq hmem => hinot (hq ▸ h.reach_subset hmem)
  · rw [hrows, if_neg hne.symm, hleaves.row]
  · exact hleaves.shows.rewires hrewires (by simpa using hinot')
  · exact (hleaves.works.mono (by simp) subset_rfl).trans (hworks.mono (by simp) subset_rfl)

end TakesBody

end

end Linking

end ScriptEngine
