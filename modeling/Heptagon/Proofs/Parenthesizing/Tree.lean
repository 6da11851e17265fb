import Heptagon.Proofs.Swap.Standing

/-!
# An expression in parentheses

An expression in parentheses stands for the expression (`Swap.parens`).  What
writes a tree with the one and with the other differs by two parentheses
(`Lexeme.Wraps`).
-/

namespace Heptagon

/-- A tree in parentheses. -/
def Tree.parenthesized (t : Tree) : Tree := .operand [.sym .parenOpen, t, .sym .parenClose]

/-- The second text is the first one with parentheses around what writes the tree `e`, behind what
writes some tokens. -/
def Lexeme.Wraps (e : Tree) (ls : List Leaf) (ts ts' : List Lexeme) : Prop :=
  ∃ before middle after, ts = before ++ (middle ++ after) ∧
    ts' = before ++ .symbol .parenOpen :: (middle ++ .symbol .parenClose :: after) ∧
    before.map shown = ls.flatMap Leaf.lexemes ∧ middle.map shown = e.leaves.flatMap Leaf.lexemes ∧
    ∃ l ∈ middle.head?, l.startsExpr = true

/-- An expression and the expression in parentheses. -/
def Swap.parens (e : Tree) (h : e.label = .named .expression) : Swap where
  old := e
  new := e.parenthesized
  opens := true
  Text ts ts' := ts' = .symbol .parenOpen :: (ts ++ [.symbol .parenClose]) ∧
    ts.map Lexeme.shown = e.leaves.flatMap Leaf.lexemes ∧ ∃ l ∈ ts.head?, l.startsExpr = true
  label := h
  ne_nil := by rintro ts _ ⟨rfl, -⟩; simp
  head := by rintro ts _ ⟨rfl, -⟩; exact .inl ⟨rfl, rfl⟩
  shown := by
    rintro ts _ ⟨rfl, hts, l, hl, hstarts⟩
    refine ⟨by simp [Lexeme.shown], ?_, l.shown, by rw [List.head?_map, hl]; rfl, ?_⟩
    · rw [List.map_map, Lexeme.shown_comp_shown, hts]
    · cases l <;> exact hstarts
  exists_new := by
    rintro f rfl hf
    obtain ⟨l, ts, hts, hl⟩ := f.exists_lexemes_eq_cons
    exact ⟨.paren .plain f, rfl, hf, .paren _ _ _, rfl, f.map_shown_eq_leaves,
      l, by simp [hts], hl⟩

theorem Lexeme.Turns.wraps {e : Tree} {he : e.label = .named .expression} {ls : List Leaf}
    {ts ts' : List Lexeme} (h : Turns (.parens e he) ls ts ts') : Wraps e ls ts ts' := by
  obtain ⟨before, middle, _, after, rfl, rfl, hbefore, rfl, hmiddle⟩ := h
  exact ⟨before, middle, after, rfl, by simp, hbefore, hmiddle⟩

end Heptagon
