import Heptagon.Tree

/-!
# Expressions

Expressions with every bracket and separator that was written, so that an
expression determines its concrete tree and its tokens.

Nothing here says how operators group: `binary` and `unary` may be nested in
any way.  The reader (`Heptagon.Expr.Parser`) chooses among the groupings of a
given text.
-/

namespace Heptagon

/-- The operators that stand before their operand. -/
inductive UnaryOp where
  | minusDot | minus | pre | not | last
  deriving DecidableEq, Repr

namespace UnaryOp

def leaf : UnaryOp → Leaf
  | minusDot => .symbol .minusDot
  | minus => .symbol .minus
  | pre => .keyword .pre
  | not => .keyword .not
  | last => .keyword .last

/-- The operator that a lexeme writes. -/
def ofLexeme? : Lexeme → Option UnaryOp
  | .symbol .minusDot => some minusDot
  | .symbol .minus => some minus
  | .kw .pre => some pre
  | .kw .not => some not
  | .kw .last => some last
  | _ => none

end UnaryOp

/-- The operators that stand between two operands. -/
inductive BinaryOp where
  | arrow | fby | plusDot | minusDot | starDot | slashDot | plus | minus | star | slash
  | unequal | atMostDot | equalDot | lessDot | greaterDot | atMost | atLeast | equal | less
  | greater | and | or | percent | caret
  deriving DecidableEq, Repr

namespace BinaryOp

def leaf : BinaryOp → Leaf
  | arrow => .symbol .arrow
  | fby => .keyword .fby
  | plusDot => .symbol .plusDot
  | minusDot => .symbol .minusDot
  | starDot => .symbol .starDot
  | slashDot => .symbol .slashDot
  | plus => .symbol .plus
  | minus => .symbol .minus
  | star => .symbol .star
  | slash => .symbol .slash
  | unequal => .symbol .unequal
  | atMostDot => .symbol .atMostDot
  | equalDot => .symbol .equalDot
  | lessDot => .symbol .lessDot
  | greaterDot => .symbol .greaterDot
  | atMost => .symbol .atMost
  | atLeast => .symbol .atLeast
  | equal => .symbol .equal
  | less => .symbol .less
  | greater => .symbol .greater
  | and => .keyword .and
  | or => .keyword .or
  | percent => .symbol .percent
  | caret => .symbol .caret

/-- The operator that a lexeme writes. -/
def ofLexeme? : Lexeme → Option BinaryOp
  | .symbol .arrow => some arrow
  | .kw .fby => some fby
  | .symbol .plusDot => some plusDot
  | .symbol .minusDot => some minusDot
  | .symbol .starDot => some starDot
  | .symbol .slashDot => some slashDot
  | .symbol .plus => some plus
  | .symbol .minus => some minus
  | .symbol .star => some star
  | .symbol .slash => some slash
  | .symbol .unequal => some unequal
  | .symbol .atMostDot => some atMostDot
  | .symbol .equalDot => some equalDot
  | .symbol .lessDot => some lessDot
  | .symbol .greaterDot => some greaterDot
  | .symbol .atMost => some atMost
  | .symbol .atLeast => some atLeast
  | .symbol .equal => some equal
  | .symbol .less => some less
  | .symbol .greater => some greater
  | .kw .and => some and
  | .kw .or => some or
  | .symbol .percent => some percent
  | .symbol .caret => some caret
  | _ => none

end BinaryOp

mutual

/-- Constants: numbers, truth values and arrays. -/
inductive Literal where
  | number (t : Text)
  | bool (value : Bool)
  | array (elements : Exprs)

inductive Expr where
  | literal (l : Literal)
  | name (n : Name)
  /-- an expression in parentheses -/
  | paren (opening : Opening) (inner : Expr)
  /-- at least two expressions in parentheses -/
  | tuple (opening : Opening) (first second : Expr) (others : Exprs)
  | record (field : Name) (value : Expr) (others : Fields)
  | call (function : Name) (args : Args)
  | unary (op : UnaryOp) (operand : Expr)
  | binary (left : Expr) (op : BinaryOp) (right : Expr)
  | cond (test yes no : Expr)

/-- Expressions separated by commas. -/
inductive Exprs where
  | nil
  | cons (head : Expr) (tail : Exprs)

/-- The fields of a record after the first one. -/
inductive Fields where
  | nil
  | cons (field : Name) (value : Expr) (tail : Fields)

/-- The arguments of a call: groups that follow each other without a separator, each group
being one or more expressions separated by commas. -/
inductive Args where
  | nil
  | group (first : Expr) (others : Exprs) (rest : Args)

end

deriving instance DecidableEq, Repr for Literal, Expr, Exprs, Fields, Args

/-- The node of an expression that is not a conditional. -/
def Tree.operand (parts : List Tree) : Tree :=
  .node .expression [.node .subExpression parts]

mutual

def Literal.tree : Literal → Tree
  | .number t => .node .literal [.leaf (.number t)]
  | .bool true => .node .literal [.node .lBool [.kw .true_]]
  | .bool false => .node .literal [.node .lBool [.kw .false_]]
  | .array es => .node .literal [.node .lArray
      (.sym .squareOpen :: (es.trees ++ [.sym .squareClose]))]

def Expr.tree : Expr → Tree
  | .literal l => .operand [l.tree]
  | .name n => .operand [.name n]
  | .paren _ e => .operand [.sym .parenOpen, e.tree, .sym .parenClose]
  | .tuple _ e f es => .operand [.node .tuple
      (.sym .parenOpen :: e.tree :: .sym .comma :: f.tree :: (es.more ++ [.sym .parenClose]))]
  | .record n e fs => .operand [.node .recordConstruction
      (.sym .braceOpen :: .name n :: .sym .equal :: e.tree :: (fs.more ++ [.sym .braceClose]))]
  | .call f args => .operand [.node .functionCall
      (.name f :: .sym .parenOpen :: (args.trees ++ [.sym .parenClose]))]
  | .unary op e => .operand [.node .unaryOperator [.leaf op.leaf], e.tree]
  | .binary l op r => .operand [l.tree, .node .binaryOperator [.leaf op.leaf], r.tree]
  | .cond c y n => .node .expression [.node .ifthenelse
      [.kw .if_, c.tree, .kw .then_, y.tree, .kw .else_, n.tree]]

/-- Expressions with a comma between any two. -/
def Exprs.trees : Exprs → List Tree
  | .nil => []
  | .cons e es => e.tree :: es.more

/-- Expressions with a comma before each. -/
def Exprs.more : Exprs → List Tree
  | .nil => []
  | .cons e es => .sym .comma :: e.tree :: es.more

/-- Fields with a semicolon before each. -/
def Fields.more : Fields → List Tree
  | .nil => []
  | .cons n e fs => .sym .semicolon :: .name n :: .sym .equal :: e.tree :: fs.more

def Args.trees : Args → List Tree
  | .nil => []
  | .group e es rest => e.tree :: (es.more ++ rest.trees)

end

end Heptagon
