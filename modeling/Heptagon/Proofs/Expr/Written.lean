import Heptagon.Expr.Parser
import Heptagon.Proofs.Units

/-!
# How expressions are written

An expression has all the brackets and separators that were written, so the
lexemes of its text are a function of it: `Expr.lexemes`.  They are the tokens
of its tree, one lexeme for each (`Expr.unitsAll_tree_cons`).

Where an expression stops is decided by how it ends.  A name at the end would
be called by a parenthesis after it (`Expr.endsInName`), and a conditional at
the end would go on with an operator after it (`Expr.endsInCond`).
-/

namespace Heptagon

/-! ## Operators -/

def UnaryOp.lexeme : UnaryOp → Lexeme
  | minusDot => .symbol .minusDot
  | minus => .symbol .minus
  | pre => .kw .pre
  | not => .kw .not
  | last => .kw .last

namespace UnaryOp

@[simp] theorem lexemes_leaf (op : UnaryOp) : op.leaf.lexemes = [op.lexeme] := by
  cases op <;> rfl

@[simp] theorem shown_lexeme (op : UnaryOp) : op.lexeme.shown = op.lexeme := by
  cases op <;> rfl

@[simp] theorem ofLexeme?_lexeme (op : UnaryOp) : ofLexeme? op.lexeme = some op := by
  cases op <;> rfl

theorem eq_lexeme_of_ofLexeme? {l : Lexeme} {op : UnaryOp} (h : ofLexeme? l = some op) :
    l = op.lexeme := by
  unfold ofLexeme? at h
  split at h <;> cases h <;> rfl

theorem take?_eq_some_iff {ts rest : List Lexeme} {op : UnaryOp} :
    take? ts = some (op, rest) ↔ ts = op.lexeme :: rest := by
  cases ts with
  | nil => simp [take?]
  | cons l ts =>
      simp only [take?, Option.map_eq_some_iff, Prod.mk.injEq, List.cons.injEq]
      constructor
      · rintro ⟨op', h, rfl, rfl⟩
        exact ⟨eq_lexeme_of_ofLexeme? h, rfl⟩
      · rintro ⟨rfl, rfl⟩
        exact ⟨op, by simp⟩

end UnaryOp

def BinaryOp.lexeme : BinaryOp → Lexeme
  | arrow => .symbol .arrow
  | fby => .kw .fby
  | plusDot => .symbol .plusDot
  | minusDot => .symbol .minusDot
  | starDot => .symbol .starDot
  | slashDot => .symbol .slashDot
  | plus => .symbol .plus
  | minus => .symbol .minus
  | star => .symbol .star
  | slash => .symbol .slash
  | unequal => .symbol .unequal
  | atMostDot => .symbol .atMostDot
  | equalDot => .symbol .equalDot
  | lessDot => .symbol .lessDot
  | greaterDot => .symbol .greaterDot
  | atMost => .symbol .atMost
  | atLeast => .symbol .atLeast
  | equal => .symbol .equal
  | less => .symbol .less
  | greater => .symbol .greater
  | and => .kw .and
  | or => .kw .or
  | percent => .symbol .percent
  | caret => .symbol .caret

namespace BinaryOp

@[simp] theorem lexemes_leaf (op : BinaryOp) : op.leaf.lexemes = [op.lexeme] := by
  cases op <;> rfl

@[simp] theorem shown_lexeme (op : BinaryOp) : op.lexeme.shown = op.lexeme := by
  cases op <;> rfl

@[simp] theorem ofLexeme?_lexeme (op : BinaryOp) : ofLexeme? op.lexeme = some op := by
  cases op <;> rfl

theorem eq_lexeme_of_ofLexeme? {l : Lexeme} {op : BinaryOp} (h : ofLexeme? l = some op) :
    l = op.lexeme := by
  unfold ofLexeme? at h
  split at h <;> cases h <;> rfl

theorem take?_eq_some_iff {ts rest : List Lexeme} {op : BinaryOp} :
    take? ts = some (op, rest) ↔ ts = op.lexeme :: rest := by
  cases ts with
  | nil => simp [take?]
  | cons l ts =>
      simp only [take?, Option.map_eq_some_iff, Prod.mk.injEq, List.cons.injEq]
      constructor
      · rintro ⟨op', h, rfl, rfl⟩
        exact ⟨eq_lexeme_of_ofLexeme? h, rfl⟩
      · rintro ⟨rfl, rfl⟩
        exact ⟨op, by simp⟩

@[simp] theorem take?_lexeme_cons (op : BinaryOp) (ts : List Lexeme) :
    take? (op.lexeme :: ts) = some (op, ts) :=
  take?_eq_some_iff.mpr rfl

@[simp] theorem take?_nil : take? [] = none := rfl

/-- Whether an operator comes next is up to the next lexeme alone. -/
theorem take?_cons_eq_none_iff {l : Lexeme} {ts : List Lexeme} :
    take? (l :: ts) = none ↔ ofLexeme? l = none := by
  simp [take?]

end BinaryOp

/-! ## The lexemes of an expression -/

mutual

def Literal.lexemes : Literal → List Lexeme
  | .number t => [.number t]
  | .bool true => [.kw .true_]
  | .bool false => [.kw .false_]
  | .array es => .symbol .squareOpen :: (es.lexemes ++ [.symbol .squareClose])

/-- The lexemes that write an expression. -/
def Expr.lexemes : Expr → List Lexeme
  | .literal l => l.lexemes
  | .name n => [.word n]
  | .paren o e => o.lexeme :: (e.lexemes ++ [.symbol .parenClose])
  | .tuple o e f es => o.lexeme :: (e.lexemes ++
      .symbol .comma :: (f.lexemes ++ (es.moreLexemes ++ [.symbol .parenClose])))
  | .record n e fs => .symbol .braceOpen :: .word n :: .symbol .equal ::
      (e.lexemes ++ (fs.moreLexemes ++ [.symbol .braceClose]))
  | .call f args => .word f :: .symbol .parenOpen :: (args.lexemes ++ [.symbol .parenClose])
  | .unary op e => op.lexeme :: e.lexemes
  | .binary l op r => l.lexemes ++ op.lexeme :: r.lexemes
  | .cond c y n => .kw .if_ :: (c.lexemes ++
      .kw .then_ :: (y.lexemes ++ .kw .else_ :: n.lexemes))

/-- Expressions with a comma between any two. -/
def Exprs.lexemes : Exprs → List Lexeme
  | .nil => []
  | .cons e es => e.lexemes ++ es.moreLexemes

/-- Expressions with a comma before each. -/
def Exprs.moreLexemes : Exprs → List Lexeme
  | .nil => []
  | .cons e es => .symbol .comma :: (e.lexemes ++ es.moreLexemes)

/-- Fields with a semicolon before each. -/
def Fields.moreLexemes : Fields → List Lexeme
  | .nil => []
  | .cons n e fs => .symbol .semicolon :: .word n :: .symbol .equal ::
      (e.lexemes ++ fs.moreLexemes)

def Args.lexemes : Args → List Lexeme
  | .nil => []
  | .group e es rest => e.lexemes ++ (es.moreLexemes ++ rest.lexemes)

end

/-! ## Tokens -/

mutual

theorem Literal.unitsAll_tree_cons (l : Literal) (us : List Tree) :
    Tree.unitsAll (l.tree :: us) = (Units.ofLexemes l.lexemes).shown ++ Tree.unitsAll us := by
  cases l with
  | number t => simp [Literal.tree, Literal.lexemes]
  | bool value => cases value <;> simp [Literal.tree, Literal.lexemes]
  | array es =>
      simp [Literal.tree, Literal.lexemes, Exprs.unitsAll_trees es]

/-- Every token of an expression is written with one lexeme. -/
theorem Expr.unitsAll_tree_cons (e : Expr) (us : List Tree) :
    Tree.unitsAll (e.tree :: us) = (Units.ofLexemes e.lexemes).shown ++ Tree.unitsAll us := by
  cases e with
  | literal l => simp [Expr.tree, Tree.operand, Expr.lexemes, Literal.unitsAll_tree_cons l]
  | name n => simp [Expr.tree, Tree.operand, Expr.lexemes]
  | paren o e =>
      simp [Expr.tree, Tree.operand, Expr.lexemes, Expr.unitsAll_tree_cons e]
  | tuple o e f es =>
      simp [Expr.tree, Tree.operand, Expr.lexemes, Expr.unitsAll_tree_cons e,
        Expr.unitsAll_tree_cons f, Exprs.unitsAll_more es]
  | record n e fs =>
      simp [Expr.tree, Tree.operand, Expr.lexemes, Expr.unitsAll_tree_cons e,
        Fields.unitsAll_more fs]
  | call f args =>
      simp [Expr.tree, Tree.operand, Expr.lexemes, Args.unitsAll_trees args]
  | unary op e =>
      simp [Expr.tree, Tree.operand, Expr.lexemes, Expr.unitsAll_tree_cons e]
  | binary l op r =>
      simp [Expr.tree, Tree.operand, Expr.lexemes, Expr.unitsAll_tree_cons l,
        Expr.unitsAll_tree_cons r]
  | cond c y n =>
      simp [Expr.tree, Expr.lexemes, Expr.unitsAll_tree_cons c,
        Expr.unitsAll_tree_cons y, Expr.unitsAll_tree_cons n]

theorem Exprs.unitsAll_trees (es : Exprs) :
    Tree.unitsAll es.trees = (Units.ofLexemes es.lexemes).shown := by
  cases es with
  | nil => rfl
  | cons e es =>
      simp [Exprs.trees, Exprs.lexemes, Expr.unitsAll_tree_cons e, Exprs.unitsAll_more es]

theorem Exprs.unitsAll_more (es : Exprs) :
    Tree.unitsAll es.more = (Units.ofLexemes es.moreLexemes).shown := by
  cases es with
  | nil => rfl
  | cons e es =>
      simp [Exprs.more, Exprs.moreLexemes, Expr.unitsAll_tree_cons e,
        Exprs.unitsAll_more es]

theorem Fields.unitsAll_more (fs : Fields) :
    Tree.unitsAll fs.more = (Units.ofLexemes fs.moreLexemes).shown := by
  cases fs with
  | nil => rfl
  | cons n e fs =>
      simp [Fields.more, Fields.moreLexemes, Expr.unitsAll_tree_cons e,
        Fields.unitsAll_more fs]

theorem Args.unitsAll_trees (args : Args) :
    Tree.unitsAll args.trees = (Units.ofLexemes args.lexemes).shown := by
  cases args with
  | nil => rfl
  | group e es rest =>
      simp [Args.trees, Args.lexemes, Expr.unitsAll_tree_cons e, Exprs.unitsAll_more es,
        Args.unitsAll_trees rest]

end

/-- A tree is as wide as its text is long. -/
theorem Expr.width_tree (e : Expr) : e.tree.width = e.lexemes.length := by
  have h := Tree.widthAll_eq_length [e.tree]
  simpa [Tree.widthAll, Expr.unitsAll_tree_cons, Units.flatten_shown] using h

/-! ## How an expression ends -/

namespace Expr

/-- Whether the last token is a name that a parenthesis after it would call. -/
def endsInName : Expr → Bool
  | .name _ => true
  | .unary _ e => e.endsInName
  | .binary _ _ r => r.endsInName
  | .cond _ _ n => n.endsInName
  | _ => false

/-- Whether an operator after the expression would belong to the last branch of a conditional. -/
def endsInCond : Expr → Bool
  | .cond _ _ _ => true
  | .unary _ e => e.endsInCond
  | .binary _ _ r => r.endsInCond
  | _ => false

/-- Whether the expression is two operands with an operator between. -/
def isBinary : Expr → Bool
  | .binary _ _ _ => true
  | _ => false

end Expr

end Heptagon
