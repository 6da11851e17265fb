import Heptagon.Expr

/-!
# Expressions that could end earlier

A call `a (b)` could also be the name `a`, ending an expression, with an
equation for `b` after it, if its arguments are single words and an equality
sign follows.
-/

namespace Heptagon

/-- Whether an expression is a single word and so could be the target of an equation. -/
def Expr.isTarget : Expr → Bool
  | .name _ => true
  | .literal (.bool _) => true
  | _ => false

/-- Whether all expressions could be targets of an equation. -/
def Exprs.areTargets : Exprs → Bool
  | .nil => true
  | .cons e es => e.isTarget && es.areTargets

/-- Whether the arguments, with their parentheses, could be the targets of an equation. -/
def Args.areTargets : Args → Bool
  | .group e es .nil => e.isTarget && es.areTargets
  | _ => false

namespace Expr

/-- The part of an expression before the first call that could also be a name with an equation
after it; `next` is the operator after the expression. -/
def beforeEquation? (next : Option BinaryOp) : Expr → Option Expr
  | .call f args => if args.areTargets && next == some .equal then some (.name f) else none
  | .unary op e => (e.beforeEquation? next).map (.unary op)
  | .binary l op r =>
    match l.beforeEquation? (some op) with
    | some e => some e
    | none => (r.beforeEquation? next).map (.binary l op)
  | .cond c y n => (n.beforeEquation? next).map (.cond c y)
  | _ => none

end Expr

end Heptagon
