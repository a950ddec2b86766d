import ScriptEngine.Proofs.Grammar.Rendering

/-!
# How signed operands are written

An operand is a name with any number of `-` and `!` before it.  Such operands and the binary operators
between them are written with parentheses only where the binding of the operators asks for them.  A `-`
takes one of two kinds: it is a sign behind an arithmetic operator or another `-`, and a minus elsewhere.

* `Prefix`, `Signed`   operators before an operand, and expressions over such operands;
* `Signed.words`, `Signed.tree`   how they are written, and the trees they stand for;
* `Signed.row`         the pieces their words are grouped into;
* `Signed.Clear`       no `-` stands directly behind a `!`;
* `Signed.need`        how many readings are nested in an expression;
* `Signed.spells_written`   **the words are read as the tokens of the row.**
-/

namespace ScriptEngine

/-- An operator before its operand. -/
inductive Prefix where
  | minus | not
  deriving DecidableEq

namespace Prefix

def word : Prefix → Word
  | minus => .fixed "-" .minus (by decide)
  | not => .fixed "!" .not (by decide)

def kind (sign : Bool) : Prefix → Tok
  | minus => if sign then .neg else .minus
  | not => .not

def kinds : Bool → List Prefix → List Tok
  | _, [] => []
  | sign, p :: ps => p.kind sign :: kinds (p == minus) ps

end Prefix

/-- An expression over names with operators before them. -/
inductive Signed where
  | operand (ps : List Prefix) (s : Name)
  | apply (op : Operator) (left right : Signed)

def prefixLevel : Nat := 12

namespace Signed

def level : Signed → Nat
  | operand [] _ => chainLevel
  | operand (_ :: _) _ => prefixLevel
  | apply op _ _ => op.level

/-- Whether the left operand stands in parentheses. -/
def leftEnclosed (op : Operator) (left : Signed) : Bool := left.level < op.leftLevel

def rightEnclosed (op : Operator) (right : Signed) : Bool := right.level < op.rightLevel

def words : Signed → List Word
  | operand ps s => ps.map Prefix.word ++ [.name s]
  | apply op left right =>
    Word.enclosed (leftEnclosed op left) left.words ++ op.word :: Word.enclosed (rightEnclosed op right) right.words

def text (e : Signed) : Bytes := written e.words

/-- The tree of an expression, given whether a minus at its front can only be a sign: the operators before
a name are nested in the order in which they are written. -/
def tree : Bool → Signed → Tree
  | sign, operand ps s => (Prefix.kinds sign ps).foldr (fun k t => .mk k 0 [t]) (.mk (.symbol s) 0 [])
  | sign, apply op left right =>
    .mk op.kind 0 [tree (sign && !leftEnclosed op left) left,
      tree (op.kind.beforeSign && !rightEnclosed op right) right]

/-- No `-` stands directly behind a `!`. -/
def Clear : Signed → Prop
  | operand ps _ => ¬ [Prefix.not, .minus] <:+: ps
  | apply _ left right => Clear left ∧ Clear right

/-- How many readings are nested: one for each operator on the way to a name and for the name, and one
for each pair of parentheses. -/
def need : Signed → Nat
  | operand ps _ => ps.length + 1
  | apply op left right =>
    1 + max (need left + (leftEnclosed op left).toNat) (need right + (rightEnclosed op right).toNat)

def row : Bool → Signed → List Piece
  | sign, operand ps s => (Prefix.kinds sign ps).map (Piece.mk · 0 []) ++ [.mk (.symbol s) 0 []]
  | sign, apply op left right =>
    Piece.enclosed (leftEnclosed op left) (row (sign && !leftEnclosed op left) left) ++ .mk op.kind 0 [] ::
      Piece.enclosed (rightEnclosed op right) (row (op.kind.beforeSign && !rightEnclosed op right) right)

/-- The text is read as the tokens of the expression, on whatever lines. -/
def Spells (src : Bytes) (line : Nat) (e : Signed) : Prop :=
  ∃ ts, lex src line = .ok ts ∧ ts.map Token.kind = Piece.flatAll (e.row false)

end Signed

/-! ## rows -/

namespace Signed

theorem mem_kinds {sign : Bool} {ps : List Prefix} {k : Tok} (h : k ∈ Prefix.kinds sign ps) :
    k = .minus ∨ k = .neg ∨ k = .not := by
  induction ps generalizing sign with
  | nil => exact nomatch h
  | cons p ps ih =>
    rw [Prefix.kinds, List.mem_cons] at h
    rcases h with rfl | h
    · cases p <;> cases sign <;> simp [Prefix.kind]
    · exact ih h

theorem mem_row_operand {sign : Bool} {ps : List Prefix} {s : Name} {p : Piece}
    (h : p ∈ row sign (.operand ps s)) :
    ∃ k, p = .mk k 0 [] ∧ (k = .minus ∨ k = .neg ∨ k = .not ∨ k = .symbol s) := by
  rw [row, List.mem_append, List.mem_singleton] at h
  rcases h with h | rfl
  · obtain ⟨k, hk, rfl⟩ := List.mem_map.mp h
    have hkind := mem_kinds hk
    exact ⟨k, rfl, by tauto⟩
  · exact ⟨_, rfl, by simp⟩

theorem plain_row : (e : Signed) → (sign : Bool) → ∀ p ∈ e.row sign, p.Plain
  | operand ps s, sign => by
    intro p hp
    obtain ⟨k, rfl, rfl | rfl | rfl | rfl⟩ := mem_row_operand hp <;> exact .leaf rfl
  | apply op left right, sign => by
    intro p hp
    have hop : op.kind.isPlain = true := by cases op <;> rfl
    rw [row, List.mem_append, List.mem_cons] at hp
    rcases hp with hp | rfl | hp
    · exact Piece.plain_enclosed (plain_row left _) p hp
    · exact .leaf hop
    · exact Piece.plain_enclosed (plain_row right _) p hp

theorem unlined_row (e : Signed) (sign : Bool) : (e.row sign).map Piece.unlined = e.row sign := by
  induction e generalizing sign with
  | operand ps s => simp [row, Function.comp_def]
  | apply op left right ihl ihr => simp [row, Expr.unlined_enclosed (ihl _), Expr.unlined_enclosed (ihr _)]

end Signed

namespace Piece

theorem depthAll_append (ps qs : List Piece) : depthAll (ps ++ qs) = max (depthAll ps) (depthAll qs) := by
  induction ps with
  | nil => simp [depthAll]
  | cons p ps ih => rw [List.cons_append, depthAll, depthAll, ih, Nat.max_assoc]

theorem depthAll_enclosed (b : Bool) (ps : List Piece) :
    depthAll (enclosed b ps) = depthAll ps + b.toNat := by
  cases b with
  | false => rfl
  | true => simp [enclosed, depthAll, depth, Tok.isOpen]

end Piece

namespace Signed

theorem depth_row (e : Signed) (sign : Bool) : Piece.depthAll (e.row sign) < e.need := by
  induction e generalizing sign with
  | operand ps s =>
    have hzero : Piece.depthAll ((Prefix.kinds sign ps).map (Piece.mk · 0 [])) = 0 := by
      generalize hks : Prefix.kinds sign ps = ks
      have hopen : ∀ k ∈ ks, k.isOpen = false := by
        intro k hk
        rcases mem_kinds (hks ▸ hk) with rfl | rfl | rfl <;> rfl
      clear hks
      induction ks with
      | nil => rfl
      | cons k ks ih =>
        rw [List.map_cons, Piece.depthAll, ih fun k hk => hopen k (List.mem_cons_of_mem _ hk)]
        simp [Piece.depth, Piece.depthAll, hopen k List.mem_cons_self]
    rw [row, need, Piece.depthAll_append, hzero]
    simp [Piece.depthAll, Piece.depth, Tok.isOpen]
  | apply op left right ihl ihr =>
    have hop : op.kind.isOpen = false := by cases op <;> rfl
    have hleft := ihl (sign && !leftEnclosed op left)
    have hright := ihr (op.kind.beforeSign && !rightEnclosed op right)
    rw [row, need, Piece.depthAll_append, Piece.depthAll, Piece.depthAll_enclosed, Piece.depthAll_enclosed,
      Piece.depth, hop]
    simp only [Piece.depthAll, Bool.false_eq_true, if_false]
    omega

end Signed

/-! ## spelling -/

theorem signs_minus (last : Option Tok) (ks : List Tok) :
    signs last (.minus :: ks) =
      Prefix.minus.kind (last.any Tok.beforeSign) :: signs (some (Prefix.minus.kind (last.any Tok.beforeSign))) ks := by
  have hmem : last ∈ [Tok.plus, .minus, .mul, .div, .cat, .neg].map some ↔ last.any Tok.beforeSign = true := by
    cases last with
    | none => simp
    | some k => cases k <;> simp [Tok.beforeSign]
  rw [signs]
  simp only [hmem, true_and, Prefix.kind]

/-- Words that are read as the tokens of a row, which depends on whether a minus at its front is a sign, and
behind which no minus is a sign. -/
def Spelt (ws : List Word) (row : Bool → List Piece) : Prop := ∀ last more, ∃ k : Tok, k.beforeSign = false ∧
  signs last (ws.map Word.kind ++ more) =
    Piece.flatAll (row (last.any Tok.beforeSign)) ++ signs (some k) more

theorem Spelt.enclosed {ws : List Word} {row : Bool → List Piece} (h : Spelt ws row) (b : Bool) :
    Spelt (Word.enclosed b ws) fun sign => Piece.enclosed b (row (sign && !b)) := by
  cases b with
  | false => simpa [Word.enclosed, Piece.enclosed] using h
  | true =>
    intro last more
    obtain ⟨k, hk, hinner⟩ := h (some .lpar) (.rpar :: more)
    refine ⟨.rpar, rfl, ?_⟩
    have hopen (ks : List Tok) : signs last (.lpar :: ks) = .lpar :: signs (some .lpar) ks :=
      signs_cons ks Tok.noConfusion
    have hclose : signs (some k) (.rpar :: more) = .rpar :: signs (some .rpar) more := signs_cons more Tok.noConfusion
    simp only [Word.enclosed, Piece.enclosed, if_true, List.map_cons, List.map_append, List.map_nil,
      List.cons_append, List.append_assoc, Word.kind, hopen, hclose, hinner, List.nil_append]
    simp [Piece.flatAll, Piece.flat, Tok.closer?, Tok.beforeSign]

namespace Signed

theorem spelt_operand (ps : List Prefix) (s : Name) :
    Spelt (words (.operand ps s)) fun sign => row sign (.operand ps s) := by
  induction ps with
  | nil =>
    intro last more
    refine ⟨.symbol s, rfl, ?_⟩
    simp only [words, row, Prefix.kinds, List.map_nil, List.nil_append, List.map_cons, Word.kind,
      List.cons_append]
    rw [signs_cons (k := .symbol s) more nofun]
    simp [Piece.flatAll, Piece.flat, Tok.closer?]
  | cons p ps ih =>
    intro last more
    cases p with
    | minus =>
      obtain ⟨k, hk, h⟩ := ih (some (Prefix.minus.kind (last.any Tok.beforeSign))) more
      refine ⟨k, hk, ?_⟩
      have hbefore : (Prefix.minus.kind (last.any Tok.beforeSign)).beforeSign = true := by
        cases last.any Tok.beforeSign <;> rfl
      have hcloser : (Prefix.minus.kind (last.any Tok.beforeSign)).closer? = none := by
        cases last.any Tok.beforeSign <;> rfl
      rw [Option.any_some, hbefore] at h
      simp only [words, row, Prefix.kinds, List.map_cons, List.cons_append, Prefix.word, Word.kind,
        signs_minus] at h ⊢
      rw [h]
      simp [Piece.flatAll, Piece.flat, hcloser]
    | not =>
      obtain ⟨k, hk, h⟩ := ih (some .not) more
      refine ⟨k, hk, ?_⟩
      simp only [words, row, Prefix.kinds, List.map_cons, List.cons_append, Prefix.word, Word.kind,
        Prefix.kind] at h ⊢
      have hnot : (Prefix.not == .minus) = false := rfl
      rw [signs_cons (k := .not) _ nofun, h, hnot]
      simp [Piece.flatAll, Piece.flat, Tok.closer?, Tok.beforeSign]

theorem spelt_words (e : Signed) : Spelt e.words fun sign => e.row sign := by
  induction e with
  | operand ps s => exact spelt_operand ps s
  | apply op left right ihl ihr =>
    intro last more
    have hop : op.kind.closer? = none := by cases op <;> rfl
    obtain ⟨k, hk, hleft⟩ := ihl.enclosed (leftEnclosed op left) last
      (op.kind :: ((Word.enclosed (rightEnclosed op right) right.words).map Word.kind ++ more))
    obtain ⟨l, hl, hright⟩ := ihr.enclosed (rightEnclosed op right) (some op.kind) more
    refine ⟨l, hl, ?_⟩
    -- behind an operand no minus is a sign, so the operator is read as it is written
    have hbetween (ks : List Tok) : signs (some k) (op.kind :: ks) = op.kind :: signs (some op.kind) ks :=
      signs_cons ks fun _ => ⟨k, rfl, hk⟩
    dsimp only
    rw [words, row, List.map_append, List.map_cons, List.append_assoc, List.cons_append, Operator.word, Word.kind,
      hleft, hbetween, hright, Piece.flatAll_append]
    simp [Piece.flatAll, Piece.flat, hop]

/-- **The words of an expression are read as the tokens of its row.** -/
theorem spells_written (e : Signed) (line : Nat) : e.Spells e.text line := by
  obtain ⟨ts, hlex, hkinds⟩ := lex_written e.words line
  obtain ⟨k, -, hsigns⟩ := e.spelt_words none []
  refine ⟨ts, hlex, ?_⟩
  rw [hkinds]
  simpa [signs] using hsigns

end Signed

end ScriptEngine
