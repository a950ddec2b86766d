import ScriptEngine.Grammar.Precedence
import ScriptEngine.Proofs.Grammar.Regrouping
import ScriptEngine.Proofs.Token.Spelling

/-!
# How expressions are written

An expression over names is written with parentheses only around operands that bind more loosely than
their operator, or as loosely on the side to which the operator does not group.

* `Operator`           operators between two operands, with their levels of binding;
* `Expr`               expressions, `Expr.words` how they are written, `Expr.tree` their trees;
* `Expr.row`           the pieces that the words of an expression are grouped into;
* `Expr.kinds_words`   the words of an expression spell its row;
* `Expr.unsigned_row`  no minus between operands is a sign.
-/

namespace ScriptEngine

/-! ## trees without lines -/

namespace Tree

mutual
def unlined : Tree → Tree
  | mk k _ ts => mk k 0 (unlinedAll ts)
def unlinedAll : List Tree → List Tree
  | [] => []
  | t :: ts => unlined t :: unlinedAll ts
end

theorem unlinedAll_eq (ts : List Tree) : unlinedAll ts = ts.map unlined := by
  induction ts with
  | nil => rfl
  | cons t ts ih => rw [unlinedAll, ih, List.map_cons]

@[simp] theorem unlined_mk (k : Tok) (line : Nat) (ts : List Tree) :
    (mk k line ts).unlined = mk k 0 (ts.map unlined) := by
  rw [unlined, unlinedAll_eq]

theorem kind_unlined (t : Tree) : t.unlined.kind = t.kind := by
  cases t
  simp [kind]

end Tree

/-! ## expressions -/

/-- An operator between two operands. -/
inductive Operator where
  | assign | plusEq | minusEq | mulEq | divEq | catEq
  | or | and | eq | neq | lt | lte | gt | gte | plus | minus | cat | mul | div
  deriving DecidableEq

namespace Operator

def kind : Operator → Tok
  | assign => .assign | plusEq => .plusEq | minusEq => .minusEq | mulEq => .mulEq | divEq => .divEq
  | catEq => .catEq | or => .or | and => .and | eq => .eq | neq => .neq | lt => .lt | lte => .lte
  | gt => .gt | gte => .gte | plus => .plus | minus => .minus | cat => .cat | mul => .mul | div => .div

def text : Operator → String
  | assign => "=" | plusEq => "+=" | minusEq => "-=" | mulEq => "*=" | divEq => "/=" | catEq => "~="
  | or => "or" | and => "and" | eq => "==" | neq => "!=" | lt => "<" | lte => "<=" | gt => ">" | gte => ">="
  | plus => "+" | minus => "-" | cat => "~" | mul => "*" | div => "/"

/-- How tightly it binds. -/
def level : Operator → Nat
  | assign | plusEq | minusEq | mulEq | divEq | catEq => 3
  | or => 6
  | and => 7
  | eq | neq => 8
  | lt | lte | gt | gte => 9
  | plus | minus | cat => 10
  | mul | div => 11

/-- Assignments group to the right, all other operators to the left. -/
def toRight (op : Operator) : Bool := op.level == 3

/-- How tightly the left operand must bind to stand without parentheses. -/
def leftLevel (op : Operator) : Nat := if op.toRight then op.level + 1 else op.level

def rightLevel (op : Operator) : Nat := if op.toRight then op.level else op.level + 1

theorem mem_lexemes (op : Operator) : (op.text, op.kind) ∈ lexemes := by
  cases op <;> decide +kernel

def word (op : Operator) : Word := .fixed op.text op.kind op.mem_lexemes

theorem level_lt (op : Operator) : op.level < 12 := by cases op <;> decide

end Operator

/-- An expression over names. -/
inductive Expr where
  | name (s : Name)
  | apply (op : Operator) (left right : Expr)
  | member (owner : Expr) (s : Name)
  | call (func : Expr) (args : List Expr)
  | index (box key : Expr)

/-- The level of calls, indexing and member access, which bind tightest. -/
def chainLevel : Nat := 13

namespace Expr

def level : Expr → Nat
  | apply op _ _ => op.level
  | _ => chainLevel

end Expr

/-- Words in parentheses, if `b`. -/
def Word.enclosed (b : Bool) (ws : List Word) : List Word :=
  if b then .fixed "(" .lpar (by decide) :: (ws ++ [.fixed ")" .rpar (by decide)]) else ws

namespace Expr

mutual
def words : Expr → List Word
  | name s => [.name s]
  | apply op left right =>
    Word.enclosed (left.level < op.leftLevel) left.words ++
      op.word :: Word.enclosed (right.level < op.rightLevel) right.words
  | member owner s =>
    Word.enclosed (owner.level < chainLevel) owner.words ++ [.fixed "." .dot (by decide), .name s]
  | call func args =>
    Word.enclosed (func.level < chainLevel) func.words ++
      .fixed "(" .lpar (by decide) :: (wordsAll args ++ [.fixed ")" .rpar (by decide)])
  | index box key =>
    Word.enclosed (box.level < chainLevel) box.words ++
      .fixed "[" .lbra (by decide) :: (key.words ++ [.fixed "]" .rbra (by decide)])
def wordsAll : List Expr → List Word
  | [] => []
  | [e] => e.words
  | e :: es => e.words ++ .fixed "," .comma (by decide) :: wordsAll es
end

def text (e : Expr) : Bytes := written e.words

mutual
def tree : Expr → Tree
  | name s => .mk (.symbol s) 0 []
  | apply op left right => .mk op.kind 0 [left.tree, right.tree]
  | member owner s => .mk .dot 0 [owner.tree, .mk (.symbol s) 0 []]
  | call func args => .mk .call 0 [func.tree, argsTree args]
  | index box key => .mk .index 0 [box.tree, key.tree]
def argsTree : List Expr → Tree
  | [] => .empty 0
  | [e] => e.tree
  | es => .mk .list 0 (treeAll es)
def treeAll : List Expr → List Tree
  | [] => []
  | e :: es => e.tree :: treeAll es
end

end Expr

/-! ## rows -/

/-- A row in parentheses, if `b`. -/
def Piece.enclosed (b : Bool) (ps : List Piece) : List Piece := if b then [.mk .lpar 0 ps] else ps

theorem Piece.plain_enclosed {b : Bool} {ps : List Piece} (hps : ∀ p ∈ ps, p.Plain) :
    ∀ p ∈ enclosed b ps, p.Plain := by
  cases b with
  | false => exact hps
  | true =>
    intro p hp
    obtain rfl := List.mem_singleton.mp hp
    exact .group rfl hps

theorem Word.kinds_enclosed {b : Bool} {ws : List Word} {ps : List Piece}
    (h : ws.map kind = Piece.flatAll ps) : (enclosed b ws).map kind = Piece.flatAll (Piece.enclosed b ps) := by
  cases b with
  | false => exact h
  | true =>
    simp only [enclosed, Piece.enclosed, if_true, List.map_cons, List.map_append, h]
    simp [Piece.flatAll, Piece.flat, Word.kind, Tok.closer?]

namespace Expr

mutual
def row : Expr → List Piece
  | name s => [.mk (.symbol s) 0 []]
  | apply op left right =>
    Piece.enclosed (left.level < op.leftLevel) left.row ++
      .mk op.kind 0 [] :: Piece.enclosed (right.level < op.rightLevel) right.row
  | member owner s =>
    Piece.enclosed (owner.level < chainLevel) owner.row ++ [.mk .dot 0 [], .mk (.symbol s) 0 []]
  | call func args => Piece.enclosed (func.level < chainLevel) func.row ++ [.mk .lpar 0 (rowAll args)]
  | index box key => Piece.enclosed (box.level < chainLevel) box.row ++ [.mk .lbra 0 key.row]
def rowAll : List Expr → List Piece
  | [] => []
  | [e] => e.row
  | e :: es => e.row ++ .mk .comma 0 [] :: rowAll es
end

mutual
theorem plain_row : (e : Expr) → ∀ p ∈ e.row, p.Plain
  | name s => by
    intro p hp
    rw [row, List.mem_singleton] at hp
    subst hp
    exact .leaf rfl
  | apply op left right => by
    intro p hp
    have hop : op.kind.isPlain = true := by cases op <;> rfl
    rw [row, List.mem_append, List.mem_cons] at hp
    rcases hp with hp | rfl | hp
    · exact Piece.plain_enclosed (plain_row left) p hp
    · exact .leaf hop
    · exact Piece.plain_enclosed (plain_row right) p hp
  | member owner s => by
    intro p hp
    simp only [row, List.mem_append, List.mem_cons, List.not_mem_nil, or_false] at hp
    rcases hp with hp | rfl | rfl
    · exact Piece.plain_enclosed (plain_row owner) p hp
    · exact .leaf rfl
    · exact .leaf rfl
  | call func args => by
    intro p hp
    rw [row, List.mem_append, List.mem_singleton] at hp
    rcases hp with hp | rfl
    · exact Piece.plain_enclosed (plain_row func) p hp
    · exact .group rfl (plain_rowAll args)
  | index box key => by
    intro p hp
    rw [row, List.mem_append, List.mem_singleton] at hp
    rcases hp with hp | rfl
    · exact Piece.plain_enclosed (plain_row box) p hp
    · exact .group rfl (plain_row key)
theorem plain_rowAll : (es : List Expr) → ∀ p ∈ rowAll es, p.Plain
  | [] => by simp [rowAll]
  | [e] => plain_row e
  | e :: e' :: es => by
    intro p hp
    simp only [rowAll, List.mem_append, List.mem_cons] at hp
    rcases hp with hp | rfl | hp
    · exact plain_row e p hp
    · exact .leaf rfl
    · exact plain_rowAll (e' :: es) p (by simpa [rowAll] using hp)
end

theorem unlined_enclosed {b : Bool} {ps : List Piece} (h : ps.map Piece.unlined = ps) :
    (Piece.enclosed b ps).map Piece.unlined = Piece.enclosed b ps := by
  cases b with
  | false => exact h
  | true => simp [Piece.enclosed, h]

mutual
/-- Rows have no lines. -/
theorem unlined_row : (e : Expr) → e.row.map Piece.unlined = e.row
  | name s => by simp [row]
  | apply op left right => by simp [row, unlined_enclosed (unlined_row left), unlined_enclosed (unlined_row right)]
  | member owner s => by simp [row, unlined_enclosed (unlined_row owner)]
  | call func args => by simp [row, unlined_enclosed (unlined_row func), unlined_rowAll args]
  | index box key => by simp [row, unlined_enclosed (unlined_row box), unlined_row key]
theorem unlined_rowAll : (es : List Expr) → (rowAll es).map Piece.unlined = rowAll es
  | [] => by simp [rowAll]
  | [e] => by simpa [rowAll] using unlined_row e
  | e :: e' :: es => by simp [rowAll, unlined_row e, unlined_rowAll (e' :: es)]
end

mutual
theorem kinds_words : (e : Expr) → e.words.map Word.kind = Piece.flatAll e.row
  | name s => rfl
  | apply op left right => by
    have hop : op.kind.closer? = none := by cases op <;> rfl
    simp only [words, row, List.map_append, List.map_cons, Piece.flatAll_append, Piece.flatAll,
      Word.kinds_enclosed (kinds_words left), Word.kinds_enclosed (kinds_words right)]
    simp [Operator.word, Word.kind, Piece.flat, Piece.flatAll, hop]
  | member owner s => by
    simp only [words, row, List.map_append, Piece.flatAll_append, Word.kinds_enclosed (kinds_words owner)]
    rfl
  | call func args => by
    simp only [words, row, List.map_append, List.map_cons, Piece.flatAll_append, Piece.flatAll, Piece.flat,
      Word.kinds_enclosed (kinds_words func), kinds_wordsAll args]
    simp [Word.kind, Tok.closer?]
  | index box key => by
    simp only [words, row, List.map_append, List.map_cons, Piece.flatAll_append, Piece.flatAll, Piece.flat,
      Word.kinds_enclosed (kinds_words box), kinds_words key]
    simp [Word.kind, Tok.closer?]
theorem kinds_wordsAll : (es : List Expr) → (wordsAll es).map Word.kind = Piece.flatAll (rowAll es)
  | [] => rfl
  | [e] => kinds_words e
  | e :: e' :: es => by
    have h := kinds_wordsAll (e' :: es)
    simp only [wordsAll, rowAll, List.map_append, List.map_cons, Piece.flatAll_append, Piece.flatAll,
      kinds_words e] at h ⊢
    rw [h]
    rfl
end

end Expr

/-! ## signs -/

/-- Behind tokens of the kinds `ks` no minus is a sign, nor is one among them. -/
def Unsigned (ks : List Tok) : Prop := ∀ last more, ∃ k : Tok, k.beforeSign = false ∧
  signs last (ks ++ more) = ks ++ signs (some k) more

theorem signs_cons {last : Option Tok} {k : Tok} (ks : List Tok) (h : k = .minus → ∃ l, last = some l ∧
    l.beforeSign = false) : signs last (k :: ks) = k :: signs (some k) ks := by
  have hnot : ¬ (k = .minus ∧ last ∈ [Tok.plus, .minus, .mul, .div, .cat, .neg].map some) := by
    rintro ⟨hk, hmem⟩
    obtain ⟨l, rfl, hl⟩ := h hk
    cases l <;> simp [Tok.beforeSign] at hl hmem
  rw [signs]
  simp only [if_neg hnot]

theorem unsigned_singleton {k : Tok} (hk : k.beforeSign = false) : Unsigned [k] := by
  intro last more
  refine ⟨k, hk, signs_cons more ?_⟩
  rintro rfl
  exact nomatch hk

theorem Unsigned.append {ks ls : List Tok} (hks : Unsigned ks) (hls : Unsigned ls) : Unsigned (ks ++ ls) := by
  intro last more
  obtain ⟨k, hk, hfirst⟩ := hks last (ls ++ more)
  obtain ⟨l, hl, hsecond⟩ := hls (some k) more
  exact ⟨l, hl, by rw [List.append_assoc, hfirst, hsecond, List.append_assoc]⟩

/-- An operator between operands is none of their signs. -/
theorem Unsigned.around {ks ls : List Tok} (hks : Unsigned ks) (k : Tok) (hls : Unsigned ls) :
    Unsigned (ks ++ k :: ls) := by
  intro last more
  obtain ⟨l, hl, hfirst⟩ := hks last (k :: (ls ++ more))
  obtain ⟨m, hm, hsecond⟩ := hls (some k) more
  refine ⟨m, hm, ?_⟩
  rw [List.append_assoc, List.cons_append, hfirst, signs_cons _ fun _ => ⟨l, rfl, hl⟩, hsecond]
  simp

theorem unsigned_group {k c : Tok} (hk : k.beforeSign = false) (hc : c.beforeSign = false) {ks : List Tok}
    (hks : ks = [] ∨ Unsigned ks) : Unsigned (k :: (ks ++ [c])) := by
  have hopen := unsigned_singleton hk
  have hclose := unsigned_singleton hc
  rcases hks with rfl | hks
  · exact hopen.append hclose
  · exact hopen.append (hks.append hclose)

theorem unsigned_enclosed {b : Bool} {ps : List Piece} (h : Unsigned (Piece.flatAll ps)) :
    Unsigned (Piece.flatAll (Piece.enclosed b ps)) := by
  cases b with
  | false => exact h
  | true =>
    have hgroup : Unsigned (.lpar :: (Piece.flatAll ps ++ [.rpar])) := unsigned_group rfl rfl (.inr h)
    simpa [Piece.enclosed, Piece.flatAll, Piece.flat, Tok.closer?] using hgroup

namespace Expr

mutual
theorem unsigned_row : (e : Expr) → Unsigned (Piece.flatAll e.row)
  | name s => unsigned_singleton rfl
  | apply op left right => by
    have hop : op.kind.closer? = none := by cases op <;> rfl
    simp only [row, Piece.flatAll_append, Piece.flatAll, Piece.flat, hop, Option.toList_none,
      List.append_nil, List.cons_append, List.nil_append]
    exact (unsigned_enclosed (unsigned_row left)).around op.kind (unsigned_enclosed (unsigned_row right))
  | member owner s => by
    have hdot : Unsigned [Tok.dot, .symbol s] := (unsigned_singleton rfl).append (unsigned_singleton rfl)
    rw [row, Piece.flatAll_append]
    exact (unsigned_enclosed (unsigned_row owner)).append hdot
  | call func args => by
    have hargs : Unsigned (.lpar :: (Piece.flatAll (rowAll args) ++ [.rpar])) :=
      unsigned_group rfl rfl (unsigned_rowAll args)
    simp only [row, Piece.flatAll_append, Piece.flatAll, Piece.flat, List.append_nil]
    exact (unsigned_enclosed (unsigned_row func)).append hargs
  | index box key => by
    have hkey : Unsigned (.lbra :: (Piece.flatAll key.row ++ [.rbra])) :=
      unsigned_group rfl rfl (.inr (unsigned_row key))
    simp only [row, Piece.flatAll_append, Piece.flatAll, Piece.flat, List.append_nil]
    exact (unsigned_enclosed (unsigned_row box)).append hkey
theorem unsigned_rowAll : (es : List Expr) →
    Piece.flatAll (rowAll es) = [] ∨ Unsigned (Piece.flatAll (rowAll es))
  | [] => .inl rfl
  | [e] => .inr (unsigned_row e)
  | e :: e' :: es => by
    right
    have hcomma : Unsigned [Tok.comma] := unsigned_singleton rfl
    have he := (unsigned_row e).append hcomma
    rw [rowAll, Piece.flatAll_append]
    rcases unsigned_rowAll (e' :: es) with h | h
    · simpa [Piece.flatAll, Piece.flat, Tok.closer?, h] using he
    · simpa [Piece.flatAll, Piece.flat, Tok.closer?] using he.append h
    · simp
end

end Expr

end ScriptEngine
