import Heptagon.Proofs.Expr.Canonical
import Heptagon.Proofs.Statement.Reading
import Heptagon.Proofs.Swap.Tree

/-!
# An expression that stands for another one

An expression can stand wherever another one can (`Expr.StandsFor`) if it
groups as that one does, ends in a name or a conditional only if that one
does, and has no call that could also be a name with an equation after it
unless that one has one.

A `Swap` is an expression with another one that stands for it.  What writes a
tree before and after the swap then differs in what writes these two
(`Lexeme.Turns`).
-/

namespace Heptagon

/-- The first expression can stand where the second one does. -/
structure Expr.StandsFor (e' e : Expr) : Prop where
  binary : e'.isBinary = true → e.isBinary = true
  cond : e'.endsInCond = true → e.endsInCond = true
  name : e'.endsInName = true → e.endsInName = true
  target : e'.isTarget = true → e.isTarget = true
  before : ∀ next, e.beforeEquation? next = none → e'.beforeEquation? next = none

namespace Expr.StandsFor

variable {e e' f f' : Expr} {ts : List Lexeme}

theorem refl (e : Expr) : e.StandsFor e := ⟨id, id, id, id, fun _ => id⟩

theorem paren (o : Opening) (e f : Expr) : (Expr.paren o e).StandsFor f where
  binary h := by simp [isBinary] at h
  cond h := by simp [endsInCond] at h
  name h := by simp [endsInName] at h
  target h := by simp [isTarget] at h
  before _ _ := rfl

theorem stops (h : e'.StandsFor e) (hstops : e.Stops ts) : e'.Stops ts :=
  ⟨hstops.operator, fun hname => hstops.paren (h.name hname)⟩

theorem isBinary_eq_false (h : e'.StandsFor e) (he : e.isBinary = false) : e'.isBinary = false :=
  Bool.eq_false_iff.mpr fun h' => by simp [h.binary h'] at he

theorem endsInCond_eq_false (h : e'.StandsFor e) (he : e.endsInCond = false) :
    e'.endsInCond = false :=
  Bool.eq_false_iff.mpr fun h' => by simp [h.cond h'] at he

theorem unary (h : e'.StandsFor e) (op : UnaryOp) : (Expr.unary op e').StandsFor (.unary op e) where
  binary := id
  cond := h.cond
  name := h.name
  target := id
  before next hnone := by
    simp only [beforeEquation?, Option.map_eq_none_iff] at hnone ⊢
    exact h.before next hnone

theorem binary_left (h : e'.StandsFor e) (op : BinaryOp) (r : Expr) :
    (Expr.binary e' op r).StandsFor (.binary e op r) where
  binary := id
  cond := id
  name := id
  target := id
  before next hnone := by
    simp only [beforeEquation?] at hnone ⊢
    cases he : e.beforeEquation? (some op) with
    | some f => simp [he] at hnone
    | none => simpa [he, h.before _ he] using hnone

theorem binary_right (h : e'.StandsFor e) (l : Expr) (op : BinaryOp) :
    (Expr.binary l op e').StandsFor (.binary l op e) where
  binary := id
  cond := h.cond
  name := h.name
  target := id
  before next hnone := by
    simp only [beforeEquation?] at hnone ⊢
    cases hl : l.beforeEquation? (some op) with
    | some f => simp [hl] at hnone
    | none =>
        simp only [hl, Option.map_eq_none_iff] at hnone ⊢
        exact h.before next hnone

theorem cond_last (h : e'.StandsFor e) (c y c' y' : Expr) :
    (Expr.cond c' y' e').StandsFor (.cond c y e) where
  binary := id
  cond := id
  name := h.name
  target := id
  before next hnone := by
    simp only [beforeEquation?, Option.map_eq_none_iff] at hnone ⊢
    exact h.before next hnone

theorem call {f : Name} {args args' : Args} (h : args'.areTargets = true → args.areTargets = true) :
    (Expr.call f args').StandsFor (.call f args) where
  binary := id
  cond := id
  name := id
  target := id
  before next hnone := by
    simp only [beforeEquation?, ite_eq_right_iff, reduceCtorEq, imp_false, Bool.and_eq_true,
      not_and] at hnone ⊢
    exact fun hargs => hnone (h hargs)

/-- What has brackets around it stands for what has the same brackets around it. -/
theorem of_closed (hbinary : e'.isBinary = false) (hcond : e'.endsInCond = false)
    (hname : e'.endsInName = false) (htarget : e'.isTarget = false)
    (hbefore : ∀ next, e'.beforeEquation? next = none) : e'.StandsFor e where
  binary h := by simp [hbinary] at h
  cond h := by simp [hcond] at h
  name h := by simp [hname] at h
  target h := by simp [htarget] at h
  before next _ := hbefore next

end Expr.StandsFor

/-! ## The tokens of an expression and before it -/

theorem Expr.map_shown_eq_leaves (e : Expr) :
    e.lexemes.map Lexeme.shown = e.tree.leaves.flatMap Leaf.lexemes := by
  have := congrArg List.flatten e.map_lexemes_leaves
  rw [Units.flatten_shown, Units.flatten_ofLexemes] at this
  rw [← this, List.flatMap_def]

/-- The last of some tokens is no name, which a parenthesis after it would call. -/
def Leaf.NoCallee (ls : List Leaf) : Prop := ∀ n, ls.getLast? ≠ some (.name n)

theorem Leaf.NoCallee.of_append {ls ms : List Leaf} (h : NoCallee (ls ++ ms)) : NoCallee ms := by
  rintro n hn
  refine h n ?_
  rwa [List.getLast?_append_of_ne_nil]
  rintro rfl
  simp at hn

/-! ## Swaps -/

/-- An expression and one that stands for it, by their trees. -/
structure Swap where
  /-- the tree of the expression -/
  old : Tree
  /-- the tree of the one that stands for it -/
  new : Tree
  /-- whether the new one starts with a parenthesis that the old one does not start with -/
  opens : Bool
  /-- what becomes of what writes the expression -/
  Text : List Lexeme → List Lexeme → Prop
  label : old.label = .named .expression
  ne_nil : ∀ {ts ts'}, Text ts ts' → ts' ≠ []
  head : ∀ {ts ts'}, Text ts ts' →
    opens = true ∧ ts'.head? = some (.symbol .parenOpen) ∨ ts'.head? = ts.head?
  shown : ∀ {ts ts'}, Text ts ts' → Text (ts.map Lexeme.shown) (ts'.map Lexeme.shown)
  exists_new : ∀ e : Expr, old = e.tree → e.Normal →
    ∃ e' : Expr, e'.tree = new ∧ e'.Normal ∧ e'.StandsFor e ∧ Text e.lexemes e'.lexemes

namespace Swap

variable (w : Swap) {ls ms : List Leaf} {ts : List Tree} {t' : Tree}

/-- The second tree is the first one after the swap. -/
abbrev Turns (ls : List Leaf) (t t' : Tree) : Prop := Tree.Turns w.old w.new ls t t'

abbrev TurnsAll (ls : List Leaf) (ts ts' : List Tree) : Prop := Tree.TurnsAll w.old w.new ls ts ts'

@[simp] theorem not_turns_leaf (l : Leaf) : ¬ w.Turns ls (.leaf l) t' := by
  rintro h
  have hlabel := w.label
  rw [(Tree.turns_leaf_iff.mp h).1] at hlabel
  cases l <;> simp [Tree.label, Leaf.label] at hlabel

theorem turns_node_iff {k : Kind} : w.Turns ls (.node k ts) t' ↔
    (k = .expression ∧ w.old = .node k ts ∧ ls = [] ∧ t' = w.new) ∨
      ∃ ts', w.TurnsAll ls ts ts' ∧ t' = .node k ts' := by
  refine Tree.turns_node_iff.trans (or_congr_left ⟨fun h => ⟨?_, h⟩, And.right⟩)
  have hlabel := w.label
  rw [h.1] at hlabel
  simpa [Tree.label] using hlabel

/-- The new expression may stand behind the tokens: if it opens with a parenthesis, this calls no
name. -/
def Allows (ls : List Leaf) : Prop := w.opens = true → Leaf.NoCallee ls

variable {w}

theorem Allows.of_append (h : w.Allows (ls ++ ms)) : w.Allows ms := fun hopens =>
  (h hopens).of_append

theorem Allows.of_cons {l : Leaf} (h : w.Allows (l :: ls)) : w.Allows ls :=
  have hls : w.Allows ([l] ++ ls) := h
  hls.of_append

end Swap

/-! ## Texts -/

/-- The second text is the first one after the swap, behind what writes some tokens. -/
def Lexeme.Turns (w : Swap) (ls : List Leaf) (ts ts' : List Lexeme) : Prop :=
  ∃ before middle middle' after, ts = before ++ (middle ++ after) ∧
    ts' = before ++ (middle' ++ after) ∧ before.map shown = ls.flatMap Leaf.lexemes ∧
    w.Text middle middle'

namespace Lexeme.Turns

variable {w : Swap} {ls : List Leaf} {ts ts' : List Lexeme}

theorem append_right (h : Turns w ls ts ts') (us : List Lexeme) :
    Turns w ls (ts ++ us) (ts' ++ us) := by
  obtain ⟨before, middle, middle', after, rfl, rfl, hbefore, hmiddle⟩ := h
  exact ⟨before, middle, middle', after ++ us, by simp, by simp, hbefore, hmiddle⟩

theorem append_left (h : Turns w ls ts ts') {us : List Lexeme} {ms : List Leaf}
    (hus : us.map shown = ms.flatMap Leaf.lexemes) : Turns w (ms ++ ls) (us ++ ts) (us ++ ts') := by
  obtain ⟨before, middle, middle', after, rfl, rfl, hbefore, hmiddle⟩ := h
  exact ⟨us ++ before, middle, middle', after, by simp, by simp, by simp [hus, hbefore], hmiddle⟩

theorem cons (h : Turns w ls ts ts') {l : Lexeme} {m : Leaf} (hl : m.lexemes = [l.shown]) :
    Turns w (m :: ls) (l :: ts) (l :: ts') := by
  have hlexemes : [l].map shown = [m].flatMap Leaf.lexemes := by simp [hl]
  exact h.append_left hlexemes

/-- The whole text is that of the expression. -/
theorem here (h : w.Text ts ts') : Turns w [] ts ts' :=
  ⟨[], ts, ts', [], by simp, by simp, rfl, h⟩

theorem ne_nil (h : Turns w ls ts ts') : ts' ≠ [] := by
  obtain ⟨before, middle, middle', after, -, rfl, -, hmiddle⟩ := h
  simp [w.ne_nil hmiddle]

/-- The new text starts as the old one, unless it is the new expression that starts it, with a
parenthesis. -/
theorem head? (h : Turns w ls ts ts') :
    w.opens = true ∧ ls = [] ∧ ts'.head? = some (.symbol .parenOpen) ∨ ts'.head? = ts.head? := by
  obtain ⟨before, middle, middle', after, rfl, rfl, hbefore, hmiddle⟩ := h
  cases before with
  | nil =>
      obtain ⟨x, xs, rfl⟩ := List.exists_cons_of_ne_nil (w.ne_nil hmiddle)
      rcases w.head hmiddle with ⟨hopens, hx⟩ | hx
      · refine .inl ⟨hopens, ?_, hx⟩
        cases ls with
        | nil => rfl
        | cons l ls =>
            have := l.lexemes_ne_nil
            simp_all
      · obtain ⟨ys, rfl⟩ := List.head?_eq_some_iff.mp (Eq.trans hx.symm (List.head?_cons))
        exact .inr rfl
  | cons x before => exact .inr rfl

theorem map_shown (h : Turns w ls ts ts') : Turns w ls (ts.map shown) (ts'.map shown) := by
  obtain ⟨before, middle, middle', after, rfl, rfl, hbefore, hmiddle⟩ := h
  refine ⟨before.map shown, middle.map shown, middle'.map shown, after.map shown, by simp, by simp,
    ?_, w.shown hmiddle⟩
  rw [List.map_map, shown_comp_shown, hbefore]

end Lexeme.Turns

end Heptagon
