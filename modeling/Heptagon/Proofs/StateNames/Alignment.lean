import Heptagon.Proofs.StateNames.Finding

/-!
# Two readings of a text

Two programs that are read from the same lexemes, apart from which parentheses
are set apart, can differ in their calls and equations.  They have the same
tokens nevertheless, token by token: the names of states are found without
reading the program (`Program.marks_units`), and every other token is a single
lexeme (`Program.forall₂_leaves`).
-/

namespace Heptagon

namespace Leaf

/-- Two tokens are written with the same lexemes, and both name a state or none does. -/
def WrittenAs (l l' : Leaf) : Prop := l.lexemes = l'.lexemes ∧ l.marks = l'.marks

theorem marks_cases (l : Leaf) :
    (∃ x m, l.lexemes = [x] ∧ l.marks = [m] ∧ m ≠ .half) ∨
      ∃ x y, l.lexemes = [x, y] ∧ l.marks = [.state, .half] := by
  cases l with
  | state s =>
      cases s with
      | mixed w t => exact .inr ⟨_, _, rfl, rfl⟩
      | _ => exact .inl ⟨_, _, rfl, rfl, by simp⟩
  | _ => exact .inl ⟨_, _, rfl, rfl, by simp⟩

/-- No token starts with the capital end of one. -/
theorem head?_marks_ne_half (ls : List Leaf) : (ls.flatMap marks).head? ≠ some .half := by
  cases ls with
  | nil => simp
  | cons l ls =>
      rcases l.marks_cases with ⟨x, m, -, hm, hne⟩ | ⟨x, y, -, hm⟩
      · simpa [hm] using hne
      · simp [hm]

/-- The lexemes of some tokens, and what they are, determine the tokens' lexemes one by one. -/
theorem forall₂_writtenAs {ls ls' : List Leaf} (h : ls.flatMap lexemes = ls'.flatMap lexemes)
    (hmarks : ls.flatMap marks = ls'.flatMap marks) : List.Forall₂ WrittenAs ls ls' := by
  induction ls generalizing ls' with
  | nil =>
      cases ls' with
      | nil => exact .nil
      | cons l' ls' => simp [l'.lexemes_ne_nil] at h
  | cons l ls ih =>
      cases ls' with
      | nil => simp [l.lexemes_ne_nil] at h
      | cons l' ls' =>
          rw [List.flatMap_cons, List.flatMap_cons] at h hmarks
          have hhead := head?_marks_ne_half ls
          have hhead' := head?_marks_ne_half ls'
          rcases l.marks_cases with ⟨x, m, hx, hm, -⟩ | ⟨x, y, hx, hm⟩ <;>
            rcases l'.marks_cases with ⟨x', m', hx', hm', -⟩ | ⟨x', y', hx', hm'⟩ <;>
            simp only [hx, hx', hm, hm', List.cons_append, List.nil_append, List.cons.injEq] at h hmarks
          · obtain ⟨rfl, h⟩ := h
            obtain ⟨rfl, hmarks⟩ := hmarks
            exact .cons ⟨hx.trans hx'.symm, hm.trans hm'.symm⟩ (ih h hmarks)
          · simp [hmarks.2] at hhead
          · simp [← hmarks.2] at hhead'
          · obtain ⟨rfl, rfl, h⟩ := h
            exact .cons ⟨hx.trans hx'.symm, hm.trans hm'.symm⟩ (ih h hmarks.2.2)

end Leaf

/-- The tokens of two programs that are read from the same lexemes, apart from which parentheses
are set apart, are the same lexemes one by one. -/
theorem Program.forall₂_leaves {p q : Program} (hp : p.Fits) (hq : q.Fits)
    (h : p.units.flatten.map Lexeme.shown = q.units.flatten.map Lexeme.shown) :
    List.Forall₂ Leaf.WrittenAs (Tree.leavesAll (p.flatMap Definition.trees))
      (Tree.leavesAll (q.flatMap Definition.trees)) := by
  have hlexemes : ∀ r : Program, (Tree.leavesAll (r.flatMap Definition.trees)).flatMap Leaf.lexemes =
      r.units.flatten.map Lexeme.shown := fun r => by
    rw [← Units.flatten_shown, ← r.unitsAll_flatMap_trees, Tree.unitsAll, List.flatMap_def]
  have hmarks : ∀ {r : Program}, r.Fits →
      (Tree.leavesAll (r.flatMap Definition.trees)).flatMap Leaf.marks =
        Frame.marks [.definitions] (r.units.flatten.map Lexeme.shown) := fun hr => by
    rw [Frame.marks_shown, Program.marks_units hr, Tree.marksAll]
  exact Leaf.forall₂_writtenAs (by rw [hlexemes, hlexemes, h]) (by rw [hmarks hp, hmarks hq, h])

end Heptagon
