import Heptagon.Proofs.Document.Settling
import Heptagon.Proofs.Swap.Units

/-!
# An operator in place of another one

An operator that is no equality sign can take the place of any other operator
(`Swap.operator`): the operands stay, and only an equality sign can also be that
of an equation behind its left operand.  What writes a program before and after
the swap differs in one lexeme, which is at the same place in the text as it is
read first and in the end.  So if the same parentheses are set apart, the text
with the other operator is read as the program after the swap
(`Layout.reading?_of_operator`).
-/

namespace Heptagon

variable {op op' : BinaryOp}

/-- Only an equality sign lets a call before it be a name with an equation after it. -/
theorem Expr.beforeEquation?_of_ne_equal (hne : op' ≠ .equal) : (e : Expr) →
    e.beforeEquation? (some op) = none → e.beforeEquation? (some op') = none
  | .call f args, _ => by simp [beforeEquation?, hne]
  | .unary o e, hnone => by
      simp only [beforeEquation?, Option.map_eq_none_iff] at hnone ⊢
      exact beforeEquation?_of_ne_equal hne e hnone
  | .binary l o r, hnone => by
      simp only [beforeEquation?] at hnone ⊢
      cases hl : l.beforeEquation? (some o) with
      | some f => simp [hl] at hnone
      | none =>
          simp only [hl, Option.map_eq_none_iff] at hnone ⊢
          exact beforeEquation?_of_ne_equal hne r hnone
  | .cond c y n, hnone => by
      simp only [beforeEquation?, Option.map_eq_none_iff] at hnone ⊢
      exact beforeEquation?_of_ne_equal hne n hnone
  | .literal _, _ | .name _, _ | .paren _ _, _ | .tuple _ _ _ _, _ | .record _ _ _, _ => rfl

theorem Expr.StandsFor.operator (hne : op' ≠ .equal) (l r : Expr) :
    (Expr.binary l op' r).StandsFor (.binary l op r) where
  binary := id
  cond := id
  name := id
  target := id
  before next hnone := by
    simp only [beforeEquation?] at hnone ⊢
    cases hl : l.beforeEquation? (some op) with
    | some f => simp [hl] at hnone
    | none => simpa [hl, beforeEquation?_of_ne_equal hne l hl] using hnone

/-- The tree of two operands with an operator between. -/
def Tree.applied (left : Tree) (op : BinaryOp) (right : Tree) : Tree :=
  .operand [left, .node .binaryOperator [.leaf op.leaf], right]

theorem Expr.exists_of_tree_eq_applied {left right : Tree} {e : Expr}
    (h : left.applied op right = e.tree) :
    ∃ l r, e = .binary l op r ∧ l.tree = left ∧ r.tree = right := by
  cases e with
  | binary l o r =>
      obtain ⟨rfl, hop, rfl⟩ : left = l.tree ∧ op.leaf = o.leaf ∧ right = r.tree := by
        simpa [tree, Tree.applied, Tree.operand] using h
      obtain rfl : op = o := by cases op <;> cases o <;> first | rfl | simp [BinaryOp.leaf] at hop
      exact ⟨l, r, rfl, rfl, rfl⟩
  | paren o e =>
      obtain ⟨-, hop, -⟩ := by simpa [tree, Tree.applied, Tree.operand] using h
      have hlabel := (congrArg Tree.label hop).trans e.label_tree
      simp [Tree.label] at hlabel
  | _ => simp [tree, Tree.applied, Tree.operand] at h

/-- An operator and another one in its place, between the same operands. -/
def Swap.operator (left : Tree) (op : BinaryOp) (right : Tree) (hne : op' ≠ .equal) : Swap where
  old := left.applied op right
  new := left.applied op' right
  opens := false
  Text ts ts' := 0 < left.width ∧ left.width < ts.length ∧ ts' = ts.set left.width op'.lexeme
  label := rfl
  ne_nil := by
    rintro ts _ ⟨-, hlt, rfl⟩ hnil
    rw [List.set_eq_nil_iff] at hnil
    simp [hnil] at hlt
  head := by
    rintro ts _ ⟨hpos, -, rfl⟩
    refine .inr ?_
    rw [List.head?_eq_getElem?, List.head?_eq_getElem?, List.getElem?_set_ne hpos.ne']
  shown := by
    rintro ts _ ⟨hpos, hlt, rfl⟩
    refine ⟨hpos, by simpa using hlt, ?_⟩
    rw [List.map_set]
    cases op' <;> rfl
  exists_new := by
    intro e hold he
    obtain ⟨l, r, rfl, rfl, rfl⟩ := Expr.exists_of_tree_eq_applied hold
    have hwidth : l.lexemes.length = l.tree.width := by
      rw [← Tree.length_flatMap_leaves, ← l.map_shown_eq_leaves, List.length_map]
    obtain ⟨x, xs, hxs, -⟩ := l.exists_lexemes_eq_cons
    refine ⟨.binary l op' r, rfl, he, .operator hne l r, ?_, ?_, ?_⟩
    · simp [← hwidth, hxs]
    · simp [Expr.lexemes, hwidth]
    · simp [Expr.lexemes, ← hwidth]

/-- The texts differ in the one lexeme of the operator. -/
theorem Lexeme.Turns.eq_set {left right : Tree} {hne : op' ≠ .equal} {ls : List Leaf}
    {ts ts' : List Lexeme} (h : Turns (.operator left op right hne) ls ts ts') :
    ts' = ts.set ((ls.flatMap Leaf.lexemes).length + left.width) op'.lexeme := by
  obtain ⟨before, middle, _, after, rfl, rfl, hbefore, -, hlt, rfl⟩ := h
  rw [← hbefore, List.length_map, List.set_append_right _ _ (Nat.le_add_right _ _),
    Nat.add_sub_cancel_left, List.set_append_left _ _ hlt]

/-- What is no parenthesis is not set apart. -/
theorem Lexeme.separateFrom_set {starts : List Nat} {x : Lexeme} (hx : x ≠ .symbol .parenOpen)
    (i : Nat) (ts : List Lexeme) (slots : List Slot) :
    separateFrom starts (ts.set i x) slots = (separateFrom starts ts slots).set i x := by
  induction ts generalizing i slots with
  | nil => rfl
  | cons t ts ih =>
      cases slots with
      | nil => cases i <;> rfl
      | cons s slots =>
          cases i with
          | zero => simp [separateFrom_cons, hx]
          | succ i => rw [List.set_cons_succ, separateFrom_cons, separateFrom_cons, ih]; rfl

/-- A layout with another operator in its text, which sets the same parentheses apart elsewhere, is
read as the program with the other operator. -/
theorem Layout.reading?_of_operator {source source' : Text} {items items' : List (Placed Item)}
    {r r' : Program} {left right : Tree} {hne : op' ≠ .equal} {ls : List Leaf} {f : Nat → Nat}
    (hscan : scan source = some items) (hscan' : scan source' = some items')
    (hr : (ofItems items).reading? = some r) (hfits : r'.Fits)
    (hunits : Units.Turns (.operator left op right hne) ls r.units r'.units)
    (hlexemes : (ofItems items').lexemes = r'.units.flatten.map Lexeme.shown)
    (hslots : List.Forall₂ (fun s s' => s'.span.start = f s.span.start)
      (ofItems items).slots (ofItems items').slots)
    (hf : Function.Injective f)
    (hapart : Document.apartStarts source' = (Document.apartStarts source).map f) :
    (ofItems items').reading? = some r' := by
  obtain ⟨hsettled, hjoined⟩ := settled_and_joined_of_reading? hr (map_shown_lexemes hscan)
  have hstarts : List.Forall₂ (fun s s' => s'.span.start ∈ (Document.apartStarts source).map f ↔
      s.span.start ∈ Document.apartStarts source) (ofItems items).slots (ofItems items').slots :=
    hslots.imp fun s s' hs => by rw [hs, List.mem_map_of_injective hf]
  have hparen : op'.lexeme ≠ .symbol .parenOpen := by cases op' <;> simp [BinaryOp.lexeme]
  refine reading?_of_settled ?_ hfits
  rw [Document.settled_eq hscan', hapart, Lexeme.separateFrom_congr hstarts, joined_eq hlexemes,
    hunits.joined.eq_set, Lexeme.separateFrom_set hparen, ← hjoined, ← Document.settled_eq hscan,
    hsettled, ← hunits.lexemes.eq_set]

end Heptagon
