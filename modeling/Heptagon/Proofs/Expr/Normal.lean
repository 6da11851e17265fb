import Heptagon.Proofs.Expr.Written

/-!
# Normal expressions

Of all groupings of a text the reader takes one.  `Expr.Normal` says which: all
binary operators group to the left, a sign has the nearest operand, a
conditional goes on as far as it can, and arguments follow each other without a
comma only where the first of them cannot go on.

`Expr.Stops` is the condition on what follows an expression: it does not
continue it.
-/

namespace Heptagon

/-- Whether an operand that starts with the keyword is something else than a name. -/
def Keyword.startsOperand : Keyword → Bool
  | .if_ | .true_ | .false_ | .pre | .not | .last => true
  | _ => false

/-- Whether the word is a name at the start of an operand. -/
def Word.isOperand : Word → Bool
  | .keyword k => !k.startsOperand
  | .plain _ => true

/-- The last of some expressions after a first one. -/
def Exprs.lastOr (e : Expr) : Exprs → Expr
  | .nil => e
  | .cons f fs => fs.lastOr f

namespace Expr

/-- Nothing that may follow belongs to the expression. -/
structure Stops (e : Expr) (ts : List Lexeme) : Prop where
  operator : BinaryOp.take? ts = none
  paren : e.endsInName → ts.head? ≠ some (.symbol .parenOpen)

/-- Nothing that may follow belongs to the last operand of the expression. -/
structure Pauses (e : Expr) (ts : List Lexeme) : Prop where
  operator : e.endsInCond → BinaryOp.take? ts = none
  paren : e.endsInName → ts.head? ≠ some (.symbol .parenOpen)

variable {e : Expr} {ts : List Lexeme}

theorem Stops.pauses (h : e.Stops ts) : e.Pauses ts := ⟨fun _ => h.operator, h.paren⟩

theorem Pauses.stops (h : e.Pauses ts) (hop : BinaryOp.take? ts = none) : e.Stops ts :=
  ⟨hop, h.paren⟩

/-- A lexeme that ends every expression. -/
theorem Stops.of_cons {l : Lexeme} (hop : BinaryOp.ofLexeme? l = none)
    (hparen : l ≠ .symbol .parenOpen) : e.Stops (l :: ts) :=
  ⟨BinaryOp.take?_cons_eq_none_iff.mpr hop, fun _ => by simpa using hparen⟩

/-- Only the next lexeme decides whether an expression stops. -/
theorem Stops.congr {us : List Lexeme} (h : e.Stops ts) (hhead : ts.head? = us.head?) :
    e.Stops us := by
  refine ⟨?_, fun hname => hhead ▸ h.paren hname⟩
  cases us with
  | nil => rfl
  | cons u us =>
      obtain ⟨t, ts, rfl⟩ : ∃ t ts', ts = t :: ts' := by
        cases ts with
        | nil => simp at hhead
        | cons t ts => exact ⟨t, ts, rfl⟩
      obtain rfl : t = u := by simpa using hhead
      exact BinaryOp.take?_cons_eq_none_iff.mpr (BinaryOp.take?_cons_eq_none_iff.mp h.operator)

theorem Pauses.operator_cons (op : BinaryOp) (ts : List Lexeme) (hcond : e.endsInCond = false) :
    e.Pauses (op.lexeme :: ts) :=
  ⟨fun h => by simp [hcond] at h, fun _ => by cases op <;> simp [BinaryOp.lexeme]⟩

end Expr

mutual

def Literal.Normal : Literal → Prop
  | .number _ => True
  | .bool _ => True
  | .array es => es.Normal

/-- An expression is normal if it is how the reader groups its text. -/
def Expr.Normal : Expr → Prop
  | .literal l => l.Normal
  | .name n => n.isOperand
  | .paren _ e => e.Normal
  | .tuple _ e f es => e.Normal ∧ f.Normal ∧ es.Normal
  | .record _ e fs => e.Normal ∧ fs.Normal
  | .call f args => f.isOperand ∧ args.Normal
  | .unary _ e => e.isBinary = false ∧ e.Normal
  | .binary l _ r => l.endsInCond = false ∧ r.isBinary = false ∧ l.Normal ∧ r.Normal
  | .cond c y n => c.Normal ∧ y.Normal ∧ n.Normal

def Exprs.Normal : Exprs → Prop
  | .nil => True
  | .cons e es => e.Normal ∧ es.Normal

def Fields.Normal : Fields → Prop
  | .nil => True
  | .cons _ e fs => e.Normal ∧ fs.Normal

/-- Each group of arguments ends where it cannot go on with the next one. -/
def Args.Normal : Args → Prop
  | .nil => True
  | .group e es rest => e.Normal ∧ es.Normal ∧ rest.Normal ∧
      (es.lastOr e).Stops (rest.lexemes ++ [.symbol .parenClose])

end

/-! ## How an expression starts -/

/-- Whether an expression can start with a lexeme. -/
def Lexeme.startsExpr : Lexeme → Bool
  | .word _ | .number _ | .apart => true
  | .symbol .parenOpen | .symbol .squareOpen | .symbol .braceOpen => true
  | .symbol .minus | .symbol .minusDot => true
  | _ => false

@[simp] theorem UnaryOp.startsExpr_lexeme (op : UnaryOp) : op.lexeme.startsExpr = true := by
  cases op <;> rfl

@[simp] theorem Opening.startsExpr_lexeme (o : Opening) : o.lexeme.startsExpr = true := by
  cases o <;> rfl

theorem Expr.exists_lexemes_eq_cons : (e : Expr) →
    ∃ l ts, e.lexemes = l :: ts ∧ l.startsExpr = true
  | .literal (.number _) => ⟨_, _, rfl, rfl⟩
  | .literal (.bool true) => ⟨_, _, rfl, rfl⟩
  | .literal (.bool false) => ⟨_, _, rfl, rfl⟩
  | .literal (.array _) => ⟨_, _, rfl, rfl⟩
  | .name _ => ⟨_, _, rfl, rfl⟩
  | .paren o _ => ⟨_, _, rfl, o.startsExpr_lexeme⟩
  | .tuple o _ _ _ => ⟨_, _, rfl, o.startsExpr_lexeme⟩
  | .record _ _ _ => ⟨_, _, rfl, rfl⟩
  | .call _ _ => ⟨_, _, rfl, rfl⟩
  | .unary op _ => ⟨_, _, rfl, op.startsExpr_lexeme⟩
  | .binary l op r => by
      obtain ⟨t, ts, hts, ht⟩ := Expr.exists_lexemes_eq_cons l
      exact ⟨t, ts ++ op.lexeme :: r.lexemes, by simp [Expr.lexemes, hts], ht⟩
  | .cond _ _ _ => ⟨_, _, rfl, rfl⟩

/-- What follows an expression is not what it starts with, for a lexeme that starts none. -/
theorem Expr.head?_lexemes_append_ne (e : Expr) (ts : List Lexeme) {l : Lexeme}
    (hl : l.startsExpr = false) : (e.lexemes ++ ts).head? ≠ some l := by
  obtain ⟨t, us, hus, ht⟩ := e.exists_lexemes_eq_cons
  rw [hus]
  rintro h
  obtain rfl : t = l := by simpa using h
  simp [ht] at hl

theorem Expr.lexemes_ne_nil (e : Expr) : e.lexemes ≠ [] := by
  obtain ⟨t, us, hus, -⟩ := e.exists_lexemes_eq_cons
  simp [hus]

theorem Expr.one_le_length_lexemes (e : Expr) : 1 ≤ e.lexemes.length :=
  List.length_pos_iff.mpr e.lexemes_ne_nil

/-- What comes after some arguments does not change whether what is before them stops. -/
theorem Expr.Stops.append_right {e : Expr} {ts : List Lexeme}
    (h : e.Stops (ts ++ [.symbol .parenClose])) (us : List Lexeme) :
    e.Stops (ts ++ .symbol .parenClose :: us) :=
  h.congr (by cases ts <;> rfl)

/-! ## Left folds -/

/-- How many binary operators stand at the top of an expression. -/
def Expr.operators : Expr → Nat
  | .binary l _ _ => l.operators + 1
  | _ => 0

theorem Expr.operators_lt_length : (e : Expr) → e.operators < e.lexemes.length
  | .binary l op r => by
      have hl := Expr.operators_lt_length l
      simp only [Expr.operators, Expr.lexemes, List.length_append, List.length_cons]
      omega
  | .literal _ | .name _ | .paren _ _ | .tuple _ _ _ _ | .record _ _ _ | .call _ _ | .unary _ _
  | .cond _ _ _ => Expr.one_le_length_lexemes _

end Heptagon
