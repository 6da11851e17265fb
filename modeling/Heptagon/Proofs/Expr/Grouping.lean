import Heptagon.Proofs.Declaration.Written

/-!
# How operators group in a tree

The tree of an expression shows how its operators group.  `Tree.Groups` is what
a normal expression comes to for the children of an operand: neither operand of
a sign nor the right operand of an operator is a binary application, and the
left operand does not end in a conditional, which would have gone on.
-/

namespace Heptagon

namespace Tree

mutual

/-- Whether the tree is of a kind or its last child ends in one. -/
def endsIn (k : Kind) : Tree → Bool
  | leaf _ => false
  | node k' ts => k' = k || endsInAll k ts

def endsInAll (k : Kind) : List Tree → Bool
  | [] => false
  | [t] => t.endsIn k
  | _ :: ts => endsInAll k ts

end

@[simp] theorem endsInAll_append_singleton (k : Kind) (ts : List Tree) (t : Tree) :
    endsInAll k (ts ++ [t]) = t.endsIn k := by
  induction ts with
  | nil => rfl
  | cons u ts ih =>
      cases ts with
      | nil => rfl
      | cons v ts => exact ih

/-- Whether the tree is an expression made of two with an operator between. -/
def isBinary : Tree → Bool
  | node .expression [node .subExpression [_, op, _]] => op.label == .named .binaryOperator
  | _ => false

/-- The operands among the children are as an operator or a sign groups them. -/
def Groups : List Tree → Prop
  | [l, op, r] => op.label = .named .binaryOperator →
      r.isBinary = false ∧ l.endsIn .ifthenelse = false
  | [op, e] => op.label = .named .unaryOperator → e.isBinary = false
  | _ => True

/-- The tree is as the reader leaves it: names of states have no quotes, and operands group. -/
def Normal : Tree → Prop
  | leaf (.state s) => s.Normal
  | node .subExpression ts => Groups ts
  | _ => True

end Tree

namespace Expr

@[simp] theorem label_tree (e : Expr) : e.tree.label = .named .expression := by
  cases e <;> rfl

@[simp] theorem isBinary_tree (e : Expr) : e.tree.isBinary = e.isBinary := by
  cases e with
  | literal l =>
      cases l with
      | bool value => cases value <;> rfl
      | _ => rfl
  | paren o e => simp [tree, Tree.operand, Tree.isBinary, isBinary]
  | _ => rfl

/-- An expression ends in a conditional exactly if its tree does. -/
@[simp] theorem endsIn_tree : (e : Expr) → e.tree.endsIn .ifthenelse = e.endsInCond
  | .literal (.number _) => rfl
  | .literal (.bool true) => rfl
  | .literal (.bool false) => rfl
  | .literal (.array es) => by
      simp [tree, Literal.tree, Tree.operand, Tree.endsIn, Tree.endsInAll, endsInCond]
  | .tuple _ _ _ _ | .record _ _ _ | .call _ _ => by
      simp [tree, Tree.operand, Tree.endsIn, Tree.endsInAll, endsInCond]
  | .name _ => rfl
  | .paren _ _ => rfl
  | .unary op e => by
      have ih := endsIn_tree e
      simpa [tree, Tree.operand, Tree.endsIn, Tree.endsInAll, endsInCond] using ih
  | .binary l op r => by
      have ih := endsIn_tree r
      simpa [tree, Tree.operand, Tree.endsIn, Tree.endsInAll, endsInCond] using ih
  | .cond _ _ _ => rfl

end Expr

end Heptagon
