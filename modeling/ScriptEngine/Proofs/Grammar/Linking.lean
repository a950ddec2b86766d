import ScriptEngine.Grammar.Linking
import ScriptEngine.Proofs.Grammar.Branches
import ScriptEngine.Proofs.Runs
import ScriptEngine.Proofs.Token.Groves

/-!
# Changes of links on the way

Work on an arena goes along with a computation on pieces: it is refused where that one fails, and where that
one has a result, the rows show it.  Every arena on the way is well-formed.
-/

namespace ScriptEngine

namespace Arena.Log

/-- Each change of links has left an arena that is well-formed. -/
def Sound (s : Log) : Prop := ∀ a ∈ s.past, a.WellFormed

/-- The arena is that of `g`. -/
def Holds (s : Log) (g : Grove) : Prop := s.now = g.arena ∧ s.Sound

end Arena.Log

namespace Linking

variable {α β γ δ : Type} {g g' : Grove} {m : Linking α} {k : α → Linking γ} {i j p q here : Nat} {l r is : List Nat}

/-- The work gives `x` and turns `g` into `g'`. -/
def Steps (m : Linking α) (g : Grove) (x : α) (g' : Grove) : Prop :=
  ∀ s : Arena.Log, s.Holds g → ∃ s', m.run s = .ok x s' ∧ s'.Holds g'

/-- The work ends like `r`: refused with the same error, or with a result for the one that `r` has. -/
def Tracks (m : Linking α) (g : Grove) (r : Except CompileError β) (post : α → β → Grove → Prop) : Prop :=
  ∀ s : Arena.Log, s.Holds g →
    match r with
    | .ok b => ∃ x s' g', m.run s = .ok x s' ∧ s'.Holds g' ∧ post x b g'
    | .error e => ∃ s', m.run s = .error (.refused e) s' ∧ s'.Sound

section

variable {r : Except CompileError β} {post : α → β → Grove → Prop} {x : α}

theorem Steps.bind {y : γ} {g'' : Grove} (h : Steps m g x g') (hk : Steps (k x) g' y g'') :
    Steps (m >>= k) g y g'' := by
  intro s hs
  obtain ⟨s₁, hrun, hs₁⟩ := h s hs
  rw [run_bind_of_ok hrun]
  exact hk s₁ hs₁

theorem Steps.then {post : γ → β → Grove → Prop} (h : Steps m g x g') (hk : Tracks (k x) g' r post) :
    Tracks (m >>= k) g r post := by
  intro s hs
  obtain ⟨s₁, hrun, hs₁⟩ := h s hs
  rw [run_bind_of_ok hrun]
  exact hk s₁ hs₁

theorem Steps.tracks {b : β} (h : Steps m g x g') (hpost : post x b g') : Tracks m g (.ok b) post := by
  intro s hs
  obtain ⟨s₁, hrun, hs₁⟩ := h s hs
  exact ⟨x, s₁, g', hrun, hs₁, hpost⟩

theorem Tracks.bind {f : β → Except CompileError δ} {post' : γ → δ → Grove → Prop} (h : Tracks m g r post)
    (hk : ∀ x b g', post x b g' → Tracks (k x) g' (f b) post') : Tracks (m >>= k) g (r >>= f) post' := by
  intro s hs
  cases r with
  | ok b =>
    obtain ⟨x, s₁, g₁, hrun, hs₁, hpost⟩ := h s hs
    rw [run_bind_of_ok hrun]
    exact hk x b g₁ hpost s₁ hs₁
  | error e =>
    obtain ⟨s₁, hrun, hs₁⟩ := h s hs
    exact ⟨s₁, run_bind_of_error hrun, hs₁⟩

theorem Tracks.map {f : β → δ} {post' : α → δ → Grove → Prop} (h : Tracks m g r post)
    (hpost : ∀ x b g', post x b g' → post' x (f b) g') : Tracks m g (r >>= fun b => .ok (f b)) post' := by
  intro s hs
  cases r with
  | ok b =>
    obtain ⟨x, s₁, g₁, hrun, hs₁, h⟩ := h s hs
    exact ⟨x, s₁, g₁, hrun, hs₁, hpost x b g₁ h⟩
  | error e => exact h s hs

theorem Tracks.mono {post' : α → β → Grove → Prop} (h : Tracks m g r post)
    (hpost : ∀ x b g', post x b g' → post' x b g') : Tracks m g r post' := by
  intro s hs
  cases r with
  | ok b =>
    obtain ⟨x, s₁, g₁, hrun, hs₁, h⟩ := h s hs
    exact ⟨x, s₁, g₁, hrun, hs₁, hpost x b g₁ h⟩
  | error e => exact h s hs

theorem Tracks.result (h : Tracks m g r post) : Tracks m g r fun x b g' => r = .ok b ∧ post x b g' := by
  intro s hs
  cases r with
  | ok b =>
    obtain ⟨x, s₁, g₁, hrun, hs₁, h⟩ := h s hs
    exact ⟨x, s₁, g₁, hrun, hs₁, rfl, h⟩
  | error e => exact h s hs

theorem steps_pure (g : Grove) (x : α) : Steps (pure x) g x g := fun s hs => ⟨s, rfl, hs⟩

theorem steps_now (g : Grove) : Steps now g g.arena g := fun s hs => ⟨s, by rw [← hs.1]; rfl, hs⟩

theorem steps_add (g : Grove) (t : Token) : Steps (add t) g g.size (g.add t) := fun s hs =>
  ⟨{ s with now := s.now.add t }, by rw [Grove.size, ← hs.1]; rfl, congrArg (Arena.add · t) hs.1, hs.2⟩

theorem steps_setKind (g : Grove) (i : Nat) (k : Tok) : Steps (setKind i k) g () (g.setKind i k) := fun s hs =>
  ⟨{ s with now := s.now.setKind i k }, rfl, congrArg (Arena.setKind · i k) hs.1, hs.2⟩

theorem steps_relink (f : Arena → Arena) (h : g'.arena = f g.arena) : Steps (relink f) g () g' := by
  intro s hs
  refine ⟨_, rfl, (congrArg f hs.1).trans h.symm, fun a ha => ?_⟩
  obtain rfl | ha := List.mem_cons.mp ha
  · rw [hs.1, ← h]
    exact g'.forest.wellFormed
  · exact hs.2 a ha

theorem steps_unlink (hp : g.rows p = l ++ i :: is) : Steps (unlink i) g () (g.unlink hp) := steps_relink _ rfl

theorem steps_append (hi : i < g.size) (hp : p < g.size) (hloose : ∀ q, i ∉ g.rows q) (hclear : ¬ g.Under i p) :
    Steps (append p i) g () (g.append hi hp hloose hclear) := steps_relink _ rfl

theorem Steps.move {into : Nat} {k : Unit → Linking γ} {y : γ} (hp : g.rows p = l ++ i :: is) (hinto : into < g.size)
    (hclear : ¬ g.Under i into) (hk : Steps (k ()) (g.move hp hinto hclear) y g') :
    Steps (do unlink i; append into i; k ()) g y g' :=
  (steps_unlink hp).bind ((steps_append _ _ _ _).bind hk)

theorem Tracks.move {into : Nat} {k : Unit → Linking γ} {post : γ → β → Grove → Prop}
    (hp : g.rows p = l ++ i :: is) (hinto : into < g.size) (hclear : ¬ g.Under i into)
    (hk : Tracks (k ()) (g.move hp hinto hclear) r post) : Tracks (do unlink i; append into i; k ()) g r post :=
  (steps_unlink hp).then ((steps_append _ _ _ _).then hk)

theorem steps_insertAfter (hp : g.rows p = l ++ here :: is) (hi : i < g.size) (hloose : ∀ q, i ∉ g.rows q)
    (hempty : g.rows i = []) :
    Steps (relink (·.insertAfter here i)) g () (g.insertAfter hp hi hloose hempty) := steps_relink _ rfl

theorem tracks_refuse (g : Grove) (i : Nat) (fault : Fault) :
    Tracks (refuse i fault) g (faultAt (g.token i).line fault) post := fun s hs =>
  ⟨s, by rw [Grove.token, ← hs.1]; rfl, hs.2⟩

theorem tracks_refuse_at {t : Token} (ht : g.token i = t) (fault : Fault) :
    Tracks (refuse i fault) g (faultAt t.line fault) post := ht ▸ tracks_refuse g i fault

end

/-! ## gathering siblings -/

/-- The tokens `mid` behind `front` have gone to the end of the row of `into`. -/
structure Gathered (g g' : Grove) (p into : Nat) (front mid rest : List Nat) : Prop where
  rewires : g.Rewires g' {p, into}
  row : g'.rows p = front ++ rest
  below : g'.rows into = g.rows into ++ mid

theorem Gathered.works {into : Nat} {front mid rest : List Nat} {S : Set Nat}
    (h : Gathered g g' p into front mid rest) (hp : g.rows p = front ++ (mid ++ rest)) (hmid : ∀ c ∈ mid, c ∈ S) :
    g.Works g' {p, into} S := by
  refine h.rewires.works fun j c hc => ?_
  by_cases hjp : j = p
  · subst hjp
    rw [h.row] at hc
    rw [hp]
    grind
  · by_cases hji : j = into
    · subst hji
      rw [h.below] at hc
      exact (List.mem_append.mp hc).imp_right (hmid c)
    · exact .inl (h.rewires.rows j (by simp [hjp, hji]) ▸ hc)

theorem Gathered.loose {into : Nat} {front mid rest : List Nat} (h : Gathered g g' p into front mid rest)
    (hp : g.rows p = front ++ (mid ++ rest)) (hi : ∀ q, i ∉ g.rows q) (q : Nat) : i ∉ g'.rows q := fun hq =>
  ((h.works hp (S := {c | c ∈ mid}) fun _ => id).moved q i hq).elim (hi q) fun hmid =>
    hi p (by simp [hp, show i ∈ mid from hmid])

/-- Siblings up to the one at which to stop go to the row of `into`. -/
theorem steps_gather (stop : Arena → Nat → Bool) {into : Nat} {mid rest : List Nat} {n : Nat}
    (hp : g.rows p = l ++ here :: (mid ++ rest)) (hinto : into < g.size) (hne : into ≠ p)
    (hclear : ∀ c ∈ mid, ¬ g.Under c into)
    (hmid : ∀ a : Arena, (∀ j, a.token j = g.token j) → ∀ c ∈ mid, stop a c = false)
    (hrest : ∀ a : Arena, (∀ j, a.token j = g.token j) → ∀ c, rest.head? = some c → stop a c = true)
    (hn : mid.length < n) :
    ∃ g', Steps (gather here into stop n) g () g' ∧ Gathered g g' p into (l ++ [here]) mid rest := by
  induction mid generalizing g n with
  | nil =>
    obtain ⟨n, rfl⟩ := Nat.exists_eq_add_one.mpr hn
    refine ⟨g, (steps_now g).bind ?_, .refl g _, by simpa using hp, by simp⟩
    rw [Arena.next, g.forest.next_of hp]
    cases rest with
    | nil => exact steps_pure g ()
    | cons c rest =>
      have : stop g.arena c = true := hrest g.arena (fun _ => rfl) c rfl
      simp only [List.nil_append, List.head?_cons, this, if_true]
      exact steps_pure g ()
  | cons c mid ih =>
    obtain ⟨n, rfl⟩ := Nat.exists_eq_add_one.mpr (Nat.zero_lt_of_lt hn)
    have hp' : g.rows p = (l ++ [here]) ++ c :: (mid ++ rest) := by simp [hp]
    have hcinto := hclear c (.head _)
    have hrows := Grove.rows_move hp' hinto hcinto hne
    have hrewires := Grove.rewires_move hp' hinto hcinto
    have hmove : ∀ g', Steps (gather here into stop n) (g.move hp' hinto hcinto) () g' →
        Steps (do unlink c; append into c; gather here into stop n) g () g' := fun _ =>
      Steps.move (k := fun _ => gather here into stop n) hp' hinto hcinto
    generalize g.move hp' hinto hcinto = g₁ at hrows hrewires hmove
    have hclear₁ : ∀ d ∈ mid, ¬ g₁.Under d into := by
      intro d hd h
      have hnot := hclear d (.tail _ hd)
      refine hnot (h.of_same fun x hx => hrewires.rows x ?_)
      rintro (rfl | rfl)
      · exact Grove.not_under_owner (g := g) (i := d) (by simp [hp, hd]) hx
      · exact hnot hx
    obtain ⟨g', hsteps, hgathered⟩ := ih (by grind) (hrewires.size ▸ hinto) hclear₁
      (fun a ha d hd => hmid a (fun j => (ha j).trans (hrewires.token j)) d (.tail _ hd))
      (fun a ha => hrest a fun j => (ha j).trans (hrewires.token j)) (by simpa using hn)
    refine ⟨g', (steps_now g).bind ?_, hrewires.trans hgathered.rewires, hgathered.row, ?_⟩
    · have : stop g.arena c = false := hmid g.arena (fun _ => rfl) c (.head _)
      rw [Arena.next, g.forest.next_of hp]
      simp only [List.cons_append, List.head?_cons, this]
      exact hmove g' hsteps
    · rw [hgathered.below, hrows, if_pos rfl, List.append_assoc, List.singleton_append]

end Linking

end ScriptEngine
