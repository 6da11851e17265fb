import Heptagon.Expr
import Heptagon.Lexeme.Take

/-!
# Reading expressions

All binary operators have one level and group to the left, a unary operator
binds tighter than any of them, and a conditional reaches as far to the right
as possible.  So an expression is a chain of operands with operators between,
and only its last operand can be a conditional.

Of the words, `if`, `true`, `false` and the unary operators are keywords at
the start of an operand; any other word is a name there.  A name before an
opening parenthesis is called, unless the parenthesis stands apart.

The readers recurse on a number of steps.  A reader takes at least one lexeme
for every three steps it goes down, which `Expr.take?` provides for.
-/

namespace Heptagon

/-- The operator at the front, if there is one. -/
def UnaryOp.take? : List Lexeme → Option (UnaryOp × List Lexeme)
  | [] => none
  | l :: ts => (ofLexeme? l).map (·, ts)

/-- The operator at the front, if there is one. -/
def BinaryOp.take? : List Lexeme → Option (BinaryOp × List Lexeme)
  | [] => none
  | l :: ts => (ofLexeme? l).map (·, ts)

mutual

/-- An expression: a chain of operands. -/
def Expr.takeIn : (steps : Nat) → List Lexeme → Option (Expr × List Lexeme)
  | 0, _ => none
  | n + 1, ts => do
    let (e, ts) ← Expr.takeOperand n ts
    Expr.takeChain n e ts

/-- What an expression goes on with after `left`: operators with their right operands. -/
def Expr.takeChain : (steps : Nat) → (left : Expr) → List Lexeme → Option (Expr × List Lexeme)
  | 0, _, _ => none
  | n + 1, left, ts =>
    match BinaryOp.take? ts with
    | none => some (left, ts)
    | some (op, ts) => do
      let (right, ts) ← Expr.takeOperand n ts
      Expr.takeChain n (.binary left op right) ts

/-- An operand: an expression that is no binary application. -/
def Expr.takeOperand : (steps : Nat) → List Lexeme → Option (Expr × List Lexeme)
  | 0, _ => none
  | n + 1, ts =>
    match UnaryOp.take? ts with
    | some (op, ts) => do
      let (e, ts) ← Expr.takeOperand n ts
      return (.unary op e, ts)
    | none =>
      match ts with
      | .kw .if_ :: ts => do
        let (test, ts) ← Expr.takeIn n ts
        let ts ← Lexeme.skipKw .then_ ts
        let (yes, ts) ← Expr.takeIn n ts
        let ts ← Lexeme.skipKw .else_ ts
        let (no, ts) ← Expr.takeIn n ts
        return (.cond test yes no, ts)
      | .kw .true_ :: ts => some (.literal (.bool true), ts)
      | .kw .false_ :: ts => some (.literal (.bool false), ts)
      | .number t :: ts => some (.literal (.number t), ts)
      | .symbol .squareOpen :: ts => do
        let (es, ts) ← Exprs.takeArray n ts
        return (.literal (.array es), ts)
      | .symbol .braceOpen :: ts => do
        let (field, ts) ← Name.take? ts
        let ts ← Lexeme.skipSym .equal ts
        let (value, ts) ← Expr.takeIn n ts
        let (others, ts) ← Fields.takeMore n ts
        let ts ← Lexeme.skipSym .braceClose ts
        return (.record field value others, ts)
      | .symbol .parenOpen :: ts => Expr.takeParen n .plain ts
      | .apart :: ts => Expr.takeParen n .apart ts
      | .word f :: .symbol .parenOpen :: ts => do
        let (args, ts) ← Args.takeIn n ts
        let ts ← Lexeme.skipSym .parenClose ts
        return (.call f args, ts)
      | .word w :: ts => some (.name w, ts)
      | _ => none

/-- The rest of a parenthesised expression or tuple after its opening parenthesis. -/
def Expr.takeParen : (steps : Nat) → Opening → List Lexeme → Option (Expr × List Lexeme)
  | 0, _, _ => none
  | n + 1, o, ts => do
    let (e, ts) ← Expr.takeIn n ts
    match ← Exprs.takeMore n ts with
    | (.nil, ts) => do
      let ts ← Lexeme.skipSym .parenClose ts
      return (.paren o e, ts)
    | (.cons f es, ts) => do
      let ts ← Lexeme.skipSym .parenClose ts
      return (.tuple o e f es, ts)

/-- The rest of an array after its opening bracket. -/
def Exprs.takeArray : (steps : Nat) → List Lexeme → Option (Exprs × List Lexeme)
  | 0, _ => none
  | _ + 1, .symbol .squareClose :: ts => some (.nil, ts)
  | n + 1, ts => do
    let (e, ts) ← Expr.takeIn n ts
    let (es, ts) ← Exprs.takeMore n ts
    let ts ← Lexeme.skipSym .squareClose ts
    return (.cons e es, ts)

/-- Expressions with a comma before each, as many as there are. -/
def Exprs.takeMore : (steps : Nat) → List Lexeme → Option (Exprs × List Lexeme)
  | 0, _ => none
  | n + 1, .symbol .comma :: ts => do
    let (e, ts) ← Expr.takeIn n ts
    let (es, ts) ← Exprs.takeMore n ts
    return (.cons e es, ts)
  | _ + 1, ts => some (.nil, ts)

/-- Fields with a semicolon before each, as many as there are. -/
def Fields.takeMore : (steps : Nat) → List Lexeme → Option (Fields × List Lexeme)
  | 0, _ => none
  | n + 1, .symbol .semicolon :: ts => do
    let (field, ts) ← Name.take? ts
    let ts ← Lexeme.skipSym .equal ts
    let (e, ts) ← Expr.takeIn n ts
    let (fs, ts) ← Fields.takeMore n ts
    return (.cons field e fs, ts)
  | _ + 1, ts => some (.nil, ts)

/-- The arguments of a call up to its closing parenthesis. -/
def Args.takeIn : (steps : Nat) → List Lexeme → Option (Args × List Lexeme)
  | 0, _ => none
  | _ + 1, .symbol .parenClose :: ts => some (.nil, .symbol .parenClose :: ts)
  | n + 1, ts => do
    let (e, ts) ← Expr.takeIn n ts
    let (es, ts) ← Exprs.takeMore n ts
    let (rest, ts) ← Args.takeIn n ts
    return (.group e es rest, ts)

end

/-- As many steps as the readers of expressions can need for a list of lexemes. -/
def Expr.steps (ts : List Lexeme) : Nat := 3 * ts.length + 3

/-- The expression at the front. -/
def Expr.take? (ts : List Lexeme) : Option (Expr × List Lexeme) := Expr.takeIn (Expr.steps ts) ts

end Heptagon
