import Mathlib.Data.List.Perm.Subperm
import Mathlib.Data.Set.Insert
import ScriptEngine.Grammar.Bracketed
import ScriptEngine.Proofs.Token.Arena

/-!
# Groves

A grove is an arena with its rows.  Work on some siblings leaves alone what stands neither among them
nor below them.

* `Grove.Under`   a place is another one or stands below it;
* `Grove.Works`   which rows and which tokens a change may concern;
* `Grove.Shows`   places that stand for pieces.
-/

namespace ScriptEngine

open Relation (TransGen ReflTransGen)

/-- An arena with its rows. -/
structure Grove where
  arena : Arena
  rows : Nat → List Nat
  forest : arena.Forest rows

namespace Grove

variable {g g' g'' : Grove} {i j p q here : Nat} {l r is js : List Nat} {P P' S S' : Set Nat}

abbrev size (g : Grove) : Nat := g.arena.size

abbrev token (g : Grove) : Nat → Token := g.arena.token

theorem range (h : i ∈ g.rows p) : i < g.size ∧ p < g.size := g.forest.range p i h

/-! ## changes of links -/

def add (g : Grove) (t : Token) : Grove := ⟨g.arena.add t, g.rows, g.forest.add t⟩

def setKind (g : Grove) (i : Nat) (k : Tok) : Grove := ⟨g.arena.setKind i k, g.rows, g.forest.setKind i k⟩

def unlink (g : Grove) (hp : g.rows p = l ++ i :: r) : Grove :=
  ⟨g.arena.unlink i, Function.update g.rows p (l ++ r), g.forest.unlink hp⟩

/-- The token `j` is the token `i` or stands below it. -/
def Under (g : Grove) (i j : Nat) : Prop := ReflTransGen (fun c p => c ∈ g.rows p) j i

def append (g : Grove) (hi : i < g.size) (hp : p < g.size) (hloose : ∀ q, i ∉ g.rows q) (hclear : ¬ g.Under i p) :
    Grove :=
  ⟨g.arena.append p i, Function.update g.rows p (g.rows p ++ [i]), g.forest.append hi hp hloose hclear⟩

def insertAfter (g : Grove) (hp : g.rows p = l ++ here :: r) (hi : i < g.size) (hloose : ∀ q, i ∉ g.rows q)
    (hempty : g.rows i = []) : Grove :=
  ⟨g.arena.insertAfter here i, Function.update g.rows p (l ++ here :: i :: r),
    g.forest.insertAfter hp hi hloose hempty⟩

section

variable (hp : g.rows p = l ++ i :: r)

@[simp]
theorem size_unlink : (g.unlink hp).size = g.size := g.arena.size_unlink i

@[simp]
theorem token_unlink (j : Nat) : (g.unlink hp).token j = g.token j := g.arena.token_unlink i j

theorem rows_unlink (q : Nat) : (g.unlink hp).rows q = if q = p then l ++ r else g.rows q :=
  Function.update_apply ..

end

section

variable (hi : i < g.size) (hp : p < g.size) (hloose : ∀ q, i ∉ g.rows q) (hclear : ¬ g.Under i p)

@[simp]
theorem size_append : (g.append hi hp hloose hclear).size = g.size := g.arena.size_append p i

@[simp]
theorem token_append (j : Nat) : (g.append hi hp hloose hclear).token j = g.token j := g.arena.token_append p i j

theorem rows_append (q : Nat) :
    (g.append hi hp hloose hclear).rows q = if q = p then g.rows p ++ [i] else g.rows q :=
  Function.update_apply ..

end

section

variable (hp : g.rows p = l ++ here :: r) (hi : i < g.size) (hloose : ∀ q, i ∉ g.rows q) (hempty : g.rows i = [])

@[simp]
theorem size_insertAfter : (g.insertAfter hp hi hloose hempty).size = g.size := g.arena.size_insertAfter here i

@[simp]
theorem token_insertAfter (j : Nat) : (g.insertAfter hp hi hloose hempty).token j = g.token j :=
  g.arena.token_insertAfter here i j

theorem rows_insertAfter (q : Nat) :
    (g.insertAfter hp hi hloose hempty).rows q = if q = p then l ++ here :: i :: r else g.rows q :=
  Function.update_apply ..

end

@[simp]
theorem size_add (g : Grove) (t : Token) : (g.add t).size = g.size + 1 := g.arena.size_add t

theorem token_add (g : Grove) (t : Token) (j : Nat) : (g.add t).token j = if j = g.size then t else g.token j :=
  g.arena.token_add t j

theorem token_added (g : Grove) (t : Token) : (g.add t).token g.size = t :=
  (g.token_add t g.size).trans (if_pos rfl)

theorem token_setKind (g : Grove) (i : Nat) (k : Tok) (j : Nat) :
    (g.setKind i k).token j = if i = j ∧ i < g.size then { g.token j with kind := k } else g.token j :=
  g.arena.token_setKind i k j

@[simp]
theorem size_setKind (g : Grove) (i : Nat) (k : Tok) : (g.setKind i k).size = g.size := g.arena.size_setKind i k

theorem rows_of_size_le (g : Grove) (h : g.size ≤ i) : g.rows i = [] := by
  refine List.eq_nil_iff_forall_not_mem.mpr fun c hc => ?_
  have := (range hc).2
  omega

theorem length_row_le (g : Grove) (p : Nat) : (g.rows p).length ≤ g.size := by
  have hsub : g.rows p ⊆ List.range g.size := fun i hi => List.mem_range.mpr (range hi).1
  simpa using (List.Nodup.subperm (g.forest.nodup p) hsub).length_le

theorem length_run_lt {run : List Nat} (hp : g.rows p = l ++ here :: (run ++ r)) : run.length < g.size := by
  have hlength := g.length_row_le p
  rw [hp] at hlength
  simp only [List.length_append, List.length_cons] at hlength
  omega

theorem owner_lt (hp : g.rows p = l ++ i :: r) : p < g.size := (range (i := i) (by simp [hp])).2

theorem loose_of_size_le (g : Grove) (h : g.size ≤ i) (q : Nat) : i ∉ g.rows q := by
  intro hi
  have := (range hi).1
  omega

/-! ## what stands below a token -/

theorem Under.refl (g : Grove) (i : Nat) : g.Under i i := ReflTransGen.refl

theorem Under.trans (h : g.Under i j) (h' : g.Under j q) : g.Under i q := ReflTransGen.trans h' h

theorem under_of_mem (h : i ∈ g.rows p) : g.Under p i := .single h

theorem Under.mem (h : g.Under i j) : j = i ∨ ∃ q, j ∈ g.rows q := by
  rcases ReflTransGen.cases_head h with rfl | ⟨q, hq, -⟩
  · exact .inl rfl
  · exact .inr ⟨q, hq⟩

theorem Under.eq_of_empty (h : g.Under i j) (hi : g.rows i = []) : j = i := by
  rcases ReflTransGen.cases_tail h with rfl | ⟨q, -, hq⟩
  · rfl
  · rw [hi] at hq
    exact nomatch hq

theorem Under.lt (h : g.Under i j) (hi : i < g.size) : j < g.size := by
  obtain rfl | ⟨q, hq⟩ := h.mem
  · exact hi
  · exact (range hq).1

/-- Where the rows are the same, the same stands below a token. -/
theorem Under.of_same (h : g'.Under i j) (hrows : ∀ x, g.Under i x → g'.rows x = g.rows x) : g.Under i j := by
  induction h using ReflTransGen.head_induction_on with
  | refl => exact .refl g i
  | head hc _ ih => exact ih.trans (under_of_mem (hrows _ ih ▸ hc))

theorem under_unlink (hp : g.rows p = l ++ i :: r) (h : (g.unlink hp).Under j q) : g.Under j q := by
  refine ReflTransGen.mono (fun x y hxy => ?_) q j h
  rw [rows_unlink] at hxy
  grind

/-- A token that is taken out of its row stands in no row. -/
theorem loose_unlink (hp : g.rows p = l ++ i :: r) (q : Nat) : i ∉ (g.unlink hp).rows q := by
  have hnd := hp ▸ g.forest.nodup p
  have := g.forest.owner_unique (p := p) (q := q) (i := i) (by simp [hp])
  rw [rows_unlink]
  grind

section

variable {into : Nat} (hp : g.rows p = l ++ i :: r) (hinto : into < g.size) (hclear : ¬ g.Under i into)

/-- The token `i` goes to the end of the row of `into`. -/
def move : Grove :=
  (g.unlink hp).append (i := i) (p := into) ((size_unlink hp).symm ▸ (range (g := g) (p := p) (by simp [hp])).1)
    ((size_unlink hp).symm ▸ hinto) (loose_unlink hp) fun h => hclear (under_unlink hp h)

theorem rows_move (hne : into ≠ p) (q : Nat) : (g.move hp hinto hclear).rows q =
    if q = into then g.rows into ++ [i] else if q = p then l ++ r else g.rows q := by
  rw [move, rows_append, rows_unlink, rows_unlink, if_neg hne]

end

theorem not_under_owner (h : i ∈ g.rows p) : ¬ g.Under i p := fun hp =>
  g.forest.acyclic p (.tail' hp h)

theorem under_unique (hi : i ∈ g.rows p) (hj : j ∈ g.rows p) (hiq : g.Under i q) (hjq : g.Under j q) : i = j := by
  have hunique : ∀ {x y}, x ∈ g.rows p → y ∈ g.rows p → ReflTransGen (fun c p => c ∈ g.rows p) x y → x = y := by
    intro x y hx hy hxy
    obtain rfl | ⟨r, hr, hry⟩ := ReflTransGen.cases_head hxy
    · rfl
    · obtain rfl := g.forest.owner_unique hx hr
      exact absurd hry (not_under_owner hy)
  have hright : Relator.RightUnique fun c p => c ∈ g.rows p := fun _ _ _ => g.forest.owner_unique
  rcases ReflTransGen.total_of_right_unique hright hiq hjq with h | h
  · exact hunique hi hj h
  · exact (hunique hj hi h).symm

theorem not_under_sibling (hi : i ∈ g.rows p) (hj : j ∈ g.rows p) (hne : i ≠ j) : ¬ g.Under i j := fun h =>
  hne (under_unique hi hj h (.refl g j))

/-- The tokens among `is` and below them, and the places that are not in use. -/
def reach (g : Grove) (is : List Nat) : Set Nat := {j | (∃ i ∈ is, g.Under i j) ∨ g.size ≤ j}

/-- Nothing stands below a token of `S` that is not in `S`. -/
structure Region (g : Grove) (S : Set Nat) : Prop where
  closed : ∀ j ∈ S, ∀ c ∈ g.rows j, c ∈ S
  fresh : ∀ j, g.size ≤ j → j ∈ S

theorem region_reach (g : Grove) (is : List Nat) : g.Region (g.reach is) where
  closed := by
    rintro j (⟨i, hi, hj⟩ | hj) c hc
    · exact .inl ⟨i, hi, hj.trans (under_of_mem hc)⟩
    · rw [g.rows_of_size_le hj] at hc
      exact nomatch hc
  fresh _ hj := .inr hj

theorem mem_reach (hi : i ∈ is) : i ∈ g.reach is := .inl ⟨i, hi, .refl g i⟩

theorem Region.under (h : g.Region S) (hi : i ∈ S) (hj : g.Under i j) : j ∈ S := by
  induction hj using ReflTransGen.head_induction_on with
  | refl => exact hi
  | head hc _ ih => exact h.closed _ ih _ hc

theorem Region.reach_subset (h : g.Region S) (his : ∀ i ∈ is, i ∈ S) : g.reach is ⊆ S := by
  rintro j (⟨i, hi, hj⟩ | hj)
  · exact h.under (his i hi) hj
  · exact h.fresh j hj

theorem reach_mono (h : ∀ i ∈ is, i ∈ js) : g.reach is ⊆ g.reach js :=
  (g.region_reach js).reach_subset fun i hi => mem_reach (h i hi)

/-- The owner of a row is not reached from it. -/
theorem owner_not_mem_reach (hp : p < g.size) (h : ∀ i ∈ is, i ∈ g.rows p) : p ∉ g.reach is := by
  rintro (⟨i, hi, hj⟩ | hj)
  · exact not_under_owner (h i hi) hj
  · omega

/-- A token is not reached from what stands below it. -/
theorem not_mem_reach_rows (hp : p < g.size) : p ∉ g.reach (g.rows p) := owner_not_mem_reach hp fun _ => id

/-- A token that stands in no row is reached from itself only. -/
theorem loose_not_mem_reach (hi : i < g.size) (hloose : ∀ q, i ∉ g.rows q) (hnot : i ∉ is) : i ∉ g.reach is := by
  rintro (⟨c, hc, hci⟩ | hlt)
  · obtain rfl | ⟨q, hq⟩ := hci.mem
    · exact hnot hc
    · exact hloose q hq
  · omega

/-- What stands below a token is not reached from its siblings. -/
theorem not_mem_reach (hi : i ∈ g.rows p) (his : ∀ c ∈ is, c ∈ g.rows p) (hnot : i ∉ is) (hj : g.Under i j) :
    j ∉ g.reach is := by
  rintro (⟨c, hc, hcj⟩ | hlt)
  · exact hnot (under_unique hi (his c hc) hj hcj ▸ hc)
  · have := hj.lt (range hi).1
    omega

/-- Neither the owner of a row nor a token of it is reached from its other tokens. -/
theorem apart_of_mem (hi : i ∈ g.rows p) (his : ∀ c ∈ is, c ∈ g.rows p) (hnot : i ∉ is) :
    ∀ q ∈ ({p, i} : Set Nat), q ∉ g.reach is := by
  rintro q (rfl | rfl)
  · exact owner_not_mem_reach (range hi).2 his
  · exact not_mem_reach hi his hnot (.refl g q)

theorem apart_of_row (hp : g.rows p = l ++ i :: is) : ∀ q ∈ ({p, i} : Set Nat), q ∉ g.reach is := by
  have hnd := hp ▸ g.forest.nodup p
  exact apart_of_mem (by simp [hp]) (by simp +contextual [hp]) (by grind)

/-! ## tokens on their own -/

/-- The token stands in no row and has none. -/
structure Alone (g : Grove) (i : Nat) : Prop where
  lt : i < g.size
  loose : ∀ q, i ∉ g.rows q
  empty : g.rows i = []

theorem alone_add (g : Grove) (t : Token) : (g.add t).Alone g.size where
  lt := by simp
  loose := g.loose_of_size_le le_rfl
  empty := g.rows_of_size_le le_rfl

namespace Alone

theorem not_mem_reach (h : g.Alone i) (his : ∀ c ∈ is, c ∈ g.rows p) : i ∉ g.reach is :=
  loose_not_mem_reach h.lt h.loose fun hi => h.loose p (his i hi)

theorem not_under (h : g.Alone i) (hne : j ≠ i) : ¬ g.Under i j := fun hj => hne (hj.eq_of_empty h.empty)

theorem not_under_row (h : g.Alone i) (hj : j ∈ g.rows p) : ¬ g.Under j i := fun hi => by
  obtain rfl | ⟨q, hq⟩ := hi.mem
  · exact h.loose p hj
  · exact h.loose q hq

/-- Neither the owner of a row nor a token on its own is reached from the row. -/
theorem apart (h : g.Alone i) (hp : p < g.size) (his : ∀ c ∈ is, c ∈ g.rows p) :
    ∀ q ∈ ({p, i} : Set Nat), q ∉ g.reach is := by
  rintro q (rfl | rfl)
  · exact owner_not_mem_reach hp his
  · exact h.not_mem_reach his

end Alone

/-! ## what a change leaves alone -/

/-- The tokens are the same, and so are all rows but those of tokens in `P`. -/
structure Rewires (g g' : Grove) (P : Set Nat) : Prop where
  size : g'.size = g.size
  token : ∀ j, g'.token j = g.token j
  rows : ∀ j, j ∉ P → g'.rows j = g.rows j

theorem Rewires.refl (g : Grove) (P : Set Nat) : g.Rewires g P := ⟨rfl, fun _ => rfl, fun _ _ => rfl⟩

theorem Rewires.trans (h : g.Rewires g' P) (h' : g'.Rewires g'' P) : g.Rewires g'' P where
  size := h'.size.trans h.size
  token j := (h'.token j).trans (h.token j)
  rows j hj := (h'.rows j hj).trans (h.rows j hj)

theorem Rewires.mono (h : g.Rewires g' P) (hP : P ⊆ P') : g.Rewires g' P' :=
  ⟨h.size, h.token, fun j hj => h.rows j fun h => hj (hP h)⟩

theorem rewires_unlink (hp : g.rows p = l ++ i :: r) : g.Rewires (g.unlink hp) {p} :=
  ⟨size_unlink hp, token_unlink hp, fun j hj => (rows_unlink hp j).trans (if_neg hj)⟩

theorem rewires_append (hi : i < g.size) (hp : p < g.size) (hloose : ∀ q, i ∉ g.rows q) (hclear : ¬ g.Under i p) :
    g.Rewires (g.append hi hp hloose hclear) {p} :=
  ⟨size_append hi hp hloose hclear, token_append hi hp hloose hclear,
    fun j hj => (rows_append hi hp hloose hclear j).trans (if_neg hj)⟩

theorem rewires_move {into : Nat} (hp : g.rows p = l ++ i :: r) (hinto : into < g.size) (hclear : ¬ g.Under i into) :
    g.Rewires (g.move hp hinto hclear) {p, into} :=
  ((rewires_unlink hp).mono (by simp)).trans ((rewires_append _ _ _ _).mono (by simp))

theorem rewires_insertAfter (hp : g.rows p = l ++ here :: r) (hi : i < g.size) (hloose : ∀ q, i ∉ g.rows q)
    (hempty : g.rows i = []) : g.Rewires (g.insertAfter hp hi hloose hempty) {p} :=
  ⟨size_insertAfter hp hi hloose hempty, token_insertAfter hp hi hloose hempty,
    fun j hj => (rows_insertAfter hp hi hloose hempty j).trans (if_neg hj)⟩

/-- Only rows of tokens in `P` and `S` are changed, and only tokens in `S` are moved. -/
structure Works (g g' : Grove) (P S : Set Nat) : Prop where
  size : g.size ≤ g'.size
  rows : ∀ j, j ∉ P → j ∉ S → g'.rows j = g.rows j
  token : ∀ j, j ∉ S → g'.token j = g.token j
  moved : ∀ j c, c ∈ g'.rows j → c ∈ g.rows j ∨ c ∈ S

namespace Works

theorem refl (g : Grove) (P S : Set Nat) : g.Works g P S :=
  ⟨le_rfl, fun _ _ _ => rfl, fun _ _ => rfl, fun _ _ => .inl⟩

theorem trans (h : g.Works g' P S) (h' : g'.Works g'' P S) : g.Works g'' P S where
  size := h.size.trans h'.size
  rows j hP hS := (h'.rows j hP hS).trans (h.rows j hP hS)
  token j hS := (h'.token j hS).trans (h.token j hS)
  moved j c hc := (h'.moved j c hc).elim (h.moved j c) .inr

theorem mono (h : g.Works g' P S) (hP : P ⊆ P' ∪ S') (hS : S ⊆ S') : g.Works g' P' S' where
  size := h.size
  rows j hP' hS' := h.rows j (fun hj => (hP hj).elim hP' hS') fun hj => hS' (hS hj)
  token j hS' := h.token j fun hj => hS' (hS hj)
  moved j c hc := (h.moved j c hc).imp_right fun hc => hS hc

theorem region (h : g.Works g' P S) {R : Set Nat} (hR : g.Region R) (hS : S ⊆ R) : g'.Region R where
  closed j hj c hc := (h.moved j c hc).elim (hR.closed j hj c) fun hc => hS hc
  fresh j hj := hR.fresh j (h.size.trans hj)

/-- A token on its own stays so while others are worked on. -/
theorem alone (h : g.Works g' P S) (hi : g.Alone i) (hP : i ∉ P) (hS : i ∉ S) : g'.Alone i where
  lt := hi.lt.trans_le h.size
  loose q hq := (h.moved q i hq).elim (hi.loose q) hS
  empty := (h.rows i hP hS).trans hi.empty

theorem reach_row (h : g.Works g' P (g.reach is)) (hi : i ∈ g.reach is) : g'.reach (g'.rows i) ⊆ g.reach is :=
  have hregion := h.region (g.region_reach is) subset_rfl
  hregion.reach_subset (hregion.closed i hi)

/-- Work below one of the tokens that are worked on is work on them. -/
theorem below (h : g.Works g' P (g.reach is)) (h' : g'.Works g'' {i} (g'.reach (g'.rows i))) (hi : i ∈ g.reach is) :
    g.Works g'' P (g.reach is) :=
  h.trans (h'.mono (by simp [hi]) (h.reach_row hi))

end Works

theorem works_add (g : Grove) (t : Token) (P : Set Nat) (hS : g.Region S) : g.Works (g.add t) P S where
  size := by simp
  rows _ _ _ := rfl
  token j hj := (g.token_add t j).trans (if_neg fun h => hj (hS.fresh j h.ge))
  moved _ _ := .inl

theorem works_setKind (g : Grove) (k : Tok) (P : Set Nat) (hi : i ∈ S) : g.Works (g.setKind i k) P S where
  size := by simp
  rows _ _ _ := rfl
  token j hj := (g.token_setKind i k j).trans (if_neg fun h => hj (by rwa [← h.1]))
  moved _ _ := .inl

theorem Rewires.works (h : g.Rewires g' P) (hmoved : ∀ j c, c ∈ g'.rows j → c ∈ g.rows j ∨ c ∈ S) :
    g.Works g' P S :=
  ⟨h.size.ge, fun j hP _ => h.rows j hP, fun j _ => h.token j, hmoved⟩

theorem works_unlink (hp : g.rows p = l ++ i :: r) (S : Set Nat) : g.Works (g.unlink hp) {p} S :=
  (rewires_unlink hp).works fun j c hc => by
    rw [rows_unlink] at hc
    grind

theorem works_append (hi : i < g.size) (hp : p < g.size) (hloose : ∀ q, i ∉ g.rows q) (hclear : ¬ g.Under i p)
    (hS : i ∈ S) : g.Works (g.append hi hp hloose hclear) {p} S :=
  (rewires_append hi hp hloose hclear).works fun j c hc => by
    rw [rows_append] at hc
    grind

theorem works_move {into : Nat} (hp : g.rows p = l ++ i :: r) (hinto : into < g.size) (hclear : ¬ g.Under i into)
    (hS : i ∈ S) : g.Works (g.move hp hinto hclear) {p, into} S :=
  ((works_unlink hp S).mono (by simp) subset_rfl).trans ((works_append _ _ _ _ hS).mono (by simp) subset_rfl)

theorem works_insertAfter (hp : g.rows p = l ++ here :: r) (hi : i < g.size) (hloose : ∀ q, i ∉ g.rows q)
    (hempty : g.rows i = []) (hS : i ∈ S) : g.Works (g.insertAfter hp hi hloose hempty) {p} S :=
  (rewires_insertAfter hp hi hloose hempty).works fun j c hc => by
    rw [rows_insertAfter] at hc
    grind

/-! ## places and pieces -/

/-- The places stand for the pieces, with what is below them. -/
inductive Shows (g : Grove) : List Nat → List Piece → Prop
  | nil : Shows g [] []
  | cons {i : Nat} {is : List Nat} {k : Tok} {line : Nat} {inner ps : List Piece} (ht : g.token i = ⟨k, line⟩)
    (hi : Shows g (g.rows i) inner) (hs : Shows g is ps) : Shows g (i :: is) (.mk k line inner :: ps)

namespace Shows

variable {ps qs : List Piece}

theorem cons_inv {k : Tok} {line : Nat} {inner : List Piece} (h : g.Shows (i :: is) (.mk k line inner :: ps)) :
    g.token i = ⟨k, line⟩ ∧ g.Shows (g.rows i) inner ∧ g.Shows is ps := by
  cases h with
  | cons ht hi hs => exact ⟨ht, hi, hs⟩

theorem exists_cons {piece : Piece} (h : g.Shows is (piece :: ps)) : ∃ i js, is = i :: js := by
  cases h with
  | cons _ _ _ => exact ⟨_, _, rfl⟩

theorem head {piece : Piece} (h : g.Shows (i :: is) (piece :: ps)) : g.Shows [i] [piece] := by
  cases h with
  | cons ht hi _ => exact .cons ht hi .nil

theorem tail {piece : Piece} (h : g.Shows (i :: is) (piece :: ps)) : g.Shows is ps := by
  cases h with
  | cons _ _ hs => exact hs

theorem append (h : g.Shows is ps) (h' : g.Shows js qs) : g.Shows (is ++ js) (ps ++ qs) := by
  induction h with
  | nil => exact h'
  | cons ht hi _ _ ih => exact .cons ht hi ih

theorem of_append (h : g.Shows is (ps ++ qs)) :
    ∃ l r, is = l ++ r ∧ g.Shows l ps ∧ g.Shows r qs := by
  induction ps generalizing is with
  | nil => exact ⟨[], is, rfl, .nil, h⟩
  | cons p ps ih =>
    cases h with
    | cons ht hi hs =>
      obtain ⟨l, r, rfl, hl, hr⟩ := ih hs
      exact ⟨_ :: l, r, rfl, .cons ht hi hl, hr⟩

theorem length_eq (h : g.Shows is ps) : is.length = ps.length := by
  induction h with
  | nil => rfl
  | cons _ _ _ _ ih => simp [ih]

theorem eq_nil (h : g.Shows is []) : is = [] := List.length_eq_zero_iff.mp h.length_eq

theorem map_kind (h : g.Shows is ps) : is.map (fun i => (g.token i).kind) = ps.map Piece.kind := by
  induction h with
  | nil => rfl
  | cons ht _ _ _ ih => rw [List.map_cons, List.map_cons, ht, ih]; rfl

theorem exists_kind (h : g.Shows is ps) (hi : i ∈ is) : ∃ q ∈ ps, q.kind = (g.token i).kind := by
  have hmem : (g.token i).kind ∈ is.map fun i => (g.token i).kind := List.mem_map_of_mem hi
  rw [h.map_kind] at hmem
  exact List.mem_map.mp hmem

theorem head_kind (h : g.Shows is ps) (hi : is.head? = some i) :
    ∃ q, ps.head? = some q ∧ q.kind = (g.token i).kind := by
  cases h with
  | nil => exact nomatch hi
  | cons ht _ _ =>
    obtain rfl := Option.some.inj hi
    exact ⟨_, rfl, by rw [ht]; rfl⟩

/-- What is the same below the places shows the same. -/
theorem of_same (h : g.Shows is ps)
    (hsame : ∀ i ∈ is, ∀ j, g.Under i j → g'.rows j = g.rows j ∧ g'.token j = g.token j) : g'.Shows is ps := by
  induction h with
  | nil => exact .nil
  | @cons i is k line inner ps ht hi _ ihi ihs =>
    have hhere := hsame i (.head _) i (.refl g i)
    refine .cons (hhere.2.trans ht) ?_ (ihs fun c hc => hsame c (.tail _ hc))
    rw [hhere.1]
    exact ihi fun c hc j hj => hsame i (.head _) j ((under_of_mem hc).trans hj)

theorem works (h : g.Shows is ps) (hw : g.Works g' P S) (hclear : ∀ i ∈ is, ∀ j, g.Under i j → j ∉ P ∧ j ∉ S) :
    g'.Shows is ps :=
  h.of_same fun i hi j hj => ⟨hw.rows j (hclear i hi j hj).1 (hclear i hi j hj).2, hw.token j (hclear i hi j hj).2⟩

/-- Changes of other rows leave the pieces as they are. -/
theorem rewires (h : g.Shows is ps) (hr : g.Rewires g' P) (hclear : ∀ q ∈ P, q ∉ g.reach is) : g'.Shows is ps :=
  h.of_same fun i hi j hj => ⟨hr.rows j fun hP => hclear j hP (.inl ⟨i, hi, hj⟩), hr.token j⟩

/-- Work on some siblings leaves the other ones alone. -/
theorem siblings (h : g.Shows is ps) (hw : g.Works g' P (g.reach js)) (his : ∀ c ∈ is, c ∈ g.rows p)
    (hjs : ∀ c ∈ js, c ∈ g.rows p) (hnot : ∀ c ∈ is, c ∉ js) (hclear : ∀ q ∈ P, q ∉ g.reach is) : g'.Shows is ps :=
  h.works hw fun c hc j hj => ⟨fun hP => hclear j hP (.inl ⟨c, hc, hj⟩), not_mem_reach (his c hc) hjs (hnot c hc) hj⟩

end Shows

end Grove

end ScriptEngine
