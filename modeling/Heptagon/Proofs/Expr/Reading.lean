import Heptagon.Proofs.Expr.Normal

/-!
# What the readers of expressions take

`Expr.take?_eq_some_iff` says all there is to say about `Expr.take?`: it takes
an expression exactly if the text starts with the lexemes of this expression,
the expression is normal, and nothing that follows belongs to it.

One direction is an induction on the number of steps (`Expr.ReadsAt`); the
other one is an induction on the expression, for any number of steps that is
at least three for each of its lexemes.
-/

namespace Heptagon

/-! ## Taking single lexemes -/

@[simp] theorem Lexeme.skip_eq_some_iff {l : Lexeme} {ts rest : List Lexeme} :
    skip l ts = some rest ↔ ts = l :: rest := by
  cases ts with
  | nil => simp [skip]
  | cons t ts =>
      simp only [skip, Option.ite_none_right_eq_some, Option.some.injEq, List.cons.injEq]

@[simp] theorem Name.take?_eq_some_iff {n : Name} {ts rest : List Lexeme} :
    take? ts = some (n, rest) ↔ ts = .word n :: rest := by
  unfold take?
  split
  · simp
  · next h =>
      simp only [reduceCtorEq, false_iff]
      rintro rfl
      exact h _ _ rfl

@[simp] theorem Opening.take?_eq_some_iff {o : Opening} {ts rest : List Lexeme} :
    take? ts = some (o, rest) ↔ ts = o.lexeme :: rest := by
  unfold take?
  split
  · cases o <;> simp [lexeme]
  · cases o <;> simp [lexeme]
  · next h₁ h₂ =>
      simp only [reduceCtorEq, false_iff]
      rintro rfl
      cases o with
      | plain => exact h₁ _ rfl
      | apart => exact h₂ _ rfl

/-! ## What is taken is written and normal -/

/-- Nothing that may follow belongs to some expressions with a comma before each, nor to an
expression before them. -/
structure Exprs.Stops (es : Exprs) (ts : List Lexeme) : Prop where
  comma : ts.head? ≠ some (.symbol .comma)
  last : ∀ e : Expr, e.Stops (es.moreLexemes ++ ts) → (es.lastOr e).Stops ts

/-- The readers of expressions take what they are said to take, in a given number of steps. -/
structure Expr.ReadsAt (n : Nat) : Prop where
  expr : ∀ {ts e rest}, Expr.takeIn n ts = some (e, rest) →
    ts = e.lexemes ++ rest ∧ e.Normal ∧ e.Stops rest
  chain : ∀ {left ts e rest}, left.Normal → left.Pauses ts →
    Expr.takeChain n left ts = some (e, rest) →
    left.lexemes ++ ts = e.lexemes ++ rest ∧ e.Normal ∧ e.Stops rest
  operand : ∀ {ts e rest}, Expr.takeOperand n ts = some (e, rest) →
    ts = e.lexemes ++ rest ∧ e.Normal ∧ e.isBinary = false ∧ e.Pauses rest
  paren : ∀ {o ts e rest}, Expr.takeParen n o ts = some (e, rest) →
    o.lexeme :: ts = e.lexemes ++ rest ∧ e.Normal ∧ e.isBinary = false ∧ e.Pauses rest
  array : ∀ {ts es rest}, Exprs.takeArray n ts = some (es, rest) →
    ts = es.lexemes ++ .symbol .squareClose :: rest ∧ es.Normal
  more : ∀ {ts es rest}, Exprs.takeMore n ts = some (es, rest) →
    ts = es.moreLexemes ++ rest ∧ es.Normal ∧ es.Stops rest
  fields : ∀ {ts fs rest}, Fields.takeMore n ts = some (fs, rest) →
    ts = fs.moreLexemes ++ rest ∧ fs.Normal
  args : ∀ {ts args rest}, Args.takeIn n ts = some (args, rest) →
    ts = args.lexemes ++ rest ∧ args.Normal ∧ ∃ us, rest = .symbol .parenClose :: us

namespace Expr.ReadsAt

variable {n : Nat}

theorem zero : ReadsAt 0 := by
  constructor <;> intros <;> simp_all [Expr.takeIn, Expr.takeChain, Expr.takeOperand,
    Expr.takeParen, Exprs.takeArray, Exprs.takeMore, Fields.takeMore, Args.takeIn]

/-- An operand that neither a name nor a conditional ends is followed by anything. -/
theorem pauses_of_closed {e : Expr} {ts : List Lexeme} (hname : e.endsInName = false)
    (hcond : e.endsInCond = false) : e.Pauses ts :=
  ⟨fun h => by simp [hcond] at h, fun h => by simp [hname] at h⟩

theorem expr_succ (h : ReadsAt n) {ts rest : List Lexeme} {e : Expr}
    (htake : Expr.takeIn (n + 1) ts = some (e, rest)) :
    ts = e.lexemes ++ rest ∧ e.Normal ∧ e.Stops rest := by
  simp only [Expr.takeIn, Option.bind_eq_bind, Option.bind_eq_some_iff, Prod.exists] at htake
  obtain ⟨first, us, hfirst, hchain⟩ := htake
  obtain ⟨rfl, hnormal, -, hpauses⟩ := h.operand hfirst
  exact h.chain hnormal hpauses hchain

theorem chain_succ (h : ReadsAt n) {left e : Expr} {ts rest : List Lexeme}
    (hnormal : left.Normal) (hpauses : left.Pauses ts)
    (htake : Expr.takeChain (n + 1) left ts = some (e, rest)) :
    left.lexemes ++ ts = e.lexemes ++ rest ∧ e.Normal ∧ e.Stops rest := by
  rw [Expr.takeChain] at htake
  split at htake
  · next hop =>
      obtain ⟨rfl, rfl⟩ : left = e ∧ ts = rest := by simpa using htake
      exact ⟨rfl, hnormal, hpauses.stops hop⟩
  · next op us hop =>
      have hcond : left.endsInCond = false := by
        rw [← Bool.not_eq_true]
        intro hcond
        simp [hpauses.operator hcond] at hop
      rw [BinaryOp.take?_eq_some_iff] at hop
      subst hop
      simp only [Option.bind_eq_bind, Option.bind_eq_some_iff, Prod.exists] at htake
      obtain ⟨right, vs, hright, hchain⟩ := htake
      obtain ⟨rfl, hright, hbinary, hpause⟩ := h.operand hright
      have hnormal : (Expr.binary left op right).Normal := ⟨hcond, hbinary, hnormal, hright⟩
      have := h.chain hnormal ⟨hpause.operator, hpause.paren⟩ hchain
      simpa [Expr.lexemes] using this

/-- An operator before an operand. -/
theorem unary (h : ReadsAt n) {op : UnaryOp} {ts us rest : List Lexeme} {e : Expr}
    (hop : UnaryOp.take? ts = some (op, us)) (htake : Expr.takeOperand n us = some (e, rest)) :
    ts = (Expr.unary op e).lexemes ++ rest ∧ (Expr.unary op e).Normal ∧
      (Expr.unary op e).isBinary = false ∧ (Expr.unary op e).Pauses rest := by
  rw [UnaryOp.take?_eq_some_iff] at hop
  subst hop
  obtain ⟨rfl, hnormal, hbinary, hpause⟩ := h.operand htake
  exact ⟨rfl, ⟨hbinary, hnormal⟩, rfl, hpause.operator, hpause.paren⟩

/-- A word that is no operator before an operand and starts no conditional or truth value. -/
theorem isOperand_of_take? {w : Word} {us : List Lexeme}
    (hop : UnaryOp.take? (.word w :: us) = none) (hif : w ≠ .keyword .if_)
    (htrue : w ≠ .keyword .true_) (hfalse : w ≠ .keyword .false_) : w.isOperand := by
  cases w with
  | plain t => rfl
  | keyword k => cases k <;> simp_all [UnaryOp.take?, UnaryOp.ofLexeme?] <;> rfl

theorem operand_succ (h : ReadsAt n) {ts rest : List Lexeme} {e : Expr}
    (htake : Expr.takeOperand (n + 1) ts = some (e, rest)) :
    ts = e.lexemes ++ rest ∧ e.Normal ∧ e.isBinary = false ∧ e.Pauses rest := by
  rw [Expr.takeOperand.eq_def] at htake
  simp only [Option.bind_eq_bind, Option.pure_def] at htake
  split at htake
  · next op us hop =>
      simp only [Option.bind_eq_some_iff, Prod.exists, Option.some.injEq, Prod.mk.injEq] at htake
      obtain ⟨operand, vs, htake, rfl, rfl⟩ := htake
      exact h.unary hop htake
  · next hop =>
      split at htake
      case h_1 us =>
        simp only [Option.bind_eq_some_iff, Prod.exists, Option.some.injEq, Prod.mk.injEq,
          Lexeme.skip_eq_some_iff] at htake
        obtain ⟨test, ts₁, htest, ts₂, rfl, yes, ts₃, hyes, ts₄, rfl, no, ts₅, hno, rfl, rfl⟩ := htake
        obtain ⟨rfl, ntest, -⟩ := h.expr htest
        obtain ⟨rfl, nyes, -⟩ := h.expr hyes
        obtain ⟨rfl, nno, hstops⟩ := h.expr hno
        exact ⟨by simp [Expr.lexemes], ⟨ntest, nyes, nno⟩, rfl, fun _ => hstops.operator,
          hstops.paren⟩
      case h_2 us =>
        obtain ⟨rfl, rfl⟩ : Expr.literal (.bool true) = e ∧ us = rest := by simpa using htake
        exact ⟨rfl, trivial, rfl, pauses_of_closed rfl rfl⟩
      case h_3 us =>
        obtain ⟨rfl, rfl⟩ : Expr.literal (.bool false) = e ∧ us = rest := by simpa using htake
        exact ⟨rfl, trivial, rfl, pauses_of_closed rfl rfl⟩
      case h_4 t us =>
        obtain ⟨rfl, rfl⟩ : Expr.literal (.number t) = e ∧ us = rest := by simpa using htake
        exact ⟨rfl, trivial, rfl, pauses_of_closed rfl rfl⟩
      case h_5 us =>
        simp only [Option.bind_eq_some_iff, Prod.exists, Option.some.injEq, Prod.mk.injEq] at htake
        obtain ⟨es, vs, htake, rfl, rfl⟩ := htake
        obtain ⟨rfl, hnormal⟩ := h.array htake
        exact ⟨by simp [Expr.lexemes, Literal.lexemes], hnormal, rfl, pauses_of_closed rfl rfl⟩
      case h_6 us =>
        simp only [Option.bind_eq_some_iff, Prod.exists, Option.some.injEq, Prod.mk.injEq,
          Lexeme.skip_eq_some_iff, Name.take?_eq_some_iff] at htake
        obtain ⟨field, ts₁, rfl, ts₂, rfl, value, ts₃, hvalue, others, ts₄, hothers, ts₅, rfl, rfl, rfl⟩ :=
          htake
        obtain ⟨rfl, nvalue, -⟩ := h.expr hvalue
        obtain ⟨rfl, nothers⟩ := h.fields hothers
        exact ⟨by simp [Expr.lexemes], ⟨nvalue, nothers⟩, rfl, pauses_of_closed rfl rfl⟩
      case h_7 us => exact h.paren htake
      case h_8 us => exact h.paren htake
      case h_9 f us hif htrue hfalse =>
        simp only [Option.bind_eq_some_iff, Prod.exists, Option.some.injEq, Prod.mk.injEq,
          Lexeme.skip_eq_some_iff] at htake
        obtain ⟨args, ts₁, hargs, ts₂, rfl, rfl, rfl⟩ := htake
        obtain ⟨rfl, nargs, -⟩ := h.args hargs
        exact ⟨by simp [Expr.lexemes], ⟨isOperand_of_take? hop hif htrue hfalse, nargs⟩, rfl,
          pauses_of_closed rfl rfl⟩
      case h_10 w us hif htrue hfalse hcall =>
        obtain ⟨rfl, rfl⟩ : Expr.name w = e ∧ us = rest := by simpa using htake
        refine ⟨rfl, isOperand_of_take? hop hif htrue hfalse, rfl, nofun, fun _ hhead => ?_⟩
        obtain ⟨l, us, rfl⟩ : ∃ l vs, us = l :: vs := by
          cases us with
          | nil => simp at hhead
          | cons l vs => exact ⟨l, vs, rfl⟩
        obtain rfl : l = .symbol .parenOpen := by simpa using hhead
        exact hcall _ rfl
      case h_11 => simp at htake

theorem paren_succ (h : ReadsAt n) {o : Opening} {ts rest : List Lexeme} {e : Expr}
    (htake : Expr.takeParen (n + 1) o ts = some (e, rest)) :
    o.lexeme :: ts = e.lexemes ++ rest ∧ e.Normal ∧ e.isBinary = false ∧ e.Pauses rest := by
  simp only [Expr.takeParen, Option.bind_eq_bind, Option.bind_eq_some_iff, Prod.exists] at htake
  obtain ⟨inner, us, hinner, others, vs, hothers, htake⟩ := htake
  obtain ⟨rfl, ninner, -⟩ := h.expr hinner
  obtain ⟨rfl, nothers, -⟩ := h.more hothers
  cases others with
  | nil =>
      simp only [Option.bind_eq_some_iff, Lexeme.skip_eq_some_iff, Option.pure_def,
        Option.some.injEq, Prod.mk.injEq] at htake
      obtain ⟨ws, rfl, rfl, rfl⟩ := htake
      exact ⟨by simp [Expr.lexemes, Exprs.moreLexemes], ninner, rfl, pauses_of_closed rfl rfl⟩
  | cons second others =>
      simp only [Option.bind_eq_some_iff, Lexeme.skip_eq_some_iff, Option.pure_def,
        Option.some.injEq, Prod.mk.injEq] at htake
      obtain ⟨ws, rfl, rfl, rfl⟩ := htake
      exact ⟨by simp [Expr.lexemes, Exprs.moreLexemes], ⟨ninner, nothers⟩, rfl,
        pauses_of_closed rfl rfl⟩

theorem array_succ (h : ReadsAt n) {ts rest : List Lexeme} {es : Exprs}
    (htake : Exprs.takeArray (n + 1) ts = some (es, rest)) :
    ts = es.lexemes ++ .symbol .squareClose :: rest ∧ es.Normal := by
  rw [Exprs.takeArray.eq_def] at htake
  split at htake
  · simp at *
  · next us hn =>
      obtain ⟨rfl, rfl⟩ : Exprs.nil = es ∧ us = rest := by simpa using htake
      exact ⟨rfl, trivial⟩
  · next hn hclose =>
      obtain rfl := Nat.succ.inj hn
      simp only [Option.bind_eq_bind, Option.bind_eq_some_iff, Prod.exists,
        Lexeme.skip_eq_some_iff, Option.pure_def, Option.some.injEq, Prod.mk.injEq] at htake
      obtain ⟨e, ts₁, hfirst, others, ts₂, hothers, ts₃, rfl, rfl, rfl⟩ := htake
      obtain ⟨rfl, nfirst, -⟩ := h.expr hfirst
      obtain ⟨rfl, nothers, -⟩ := h.more hothers
      exact ⟨by simp [Exprs.lexemes], nfirst, nothers⟩

theorem more_succ (h : ReadsAt n) {ts rest : List Lexeme} {es : Exprs}
    (htake : Exprs.takeMore (n + 1) ts = some (es, rest)) :
    ts = es.moreLexemes ++ rest ∧ es.Normal ∧ es.Stops rest := by
  rw [Exprs.takeMore.eq_def] at htake
  split at htake
  · simp at *
  · next m us hn =>
      obtain rfl := Nat.succ.inj hn
      simp only [Option.bind_eq_bind, Option.bind_eq_some_iff, Prod.exists, Option.pure_def,
        Option.some.injEq, Prod.mk.injEq] at htake
      obtain ⟨e, ts₁, hfirst, others, ts₂, hothers, rfl, rfl⟩ := htake
      obtain ⟨rfl, nfirst, sfirst⟩ := h.expr hfirst
      obtain ⟨rfl, nothers, sothers⟩ := h.more hothers
      exact ⟨by simp [Exprs.moreLexemes], ⟨nfirst, nothers⟩, sothers.comma,
        fun _ _ => sothers.last e sfirst⟩
  · next ts _ _ m hn hcomma =>
      obtain ⟨rfl, rfl⟩ : Exprs.nil = es ∧ ts = rest := by simpa using htake
      refine ⟨rfl, trivial, fun hhead => ?_, fun _ hstops => hstops⟩
      cases ts with
      | nil => simp at hhead
      | cons l us =>
          obtain rfl : l = .symbol .comma := by simpa using hhead
          exact hcomma _ rfl

theorem fields_succ (h : ReadsAt n) {ts rest : List Lexeme} {fs : Fields}
    (htake : Fields.takeMore (n + 1) ts = some (fs, rest)) :
    ts = fs.moreLexemes ++ rest ∧ fs.Normal := by
  rw [Fields.takeMore.eq_def] at htake
  split at htake
  · simp at *
  · next m us hn =>
      obtain rfl := Nat.succ.inj hn
      simp only [Option.bind_eq_bind, Option.bind_eq_some_iff, Prod.exists, Option.pure_def,
        Option.some.injEq, Prod.mk.injEq, Name.take?_eq_some_iff,
        Lexeme.skip_eq_some_iff] at htake
      obtain ⟨field, ts₁, rfl, ts₂, rfl, e, ts₃, hvalue, others, ts₄, hothers, rfl, rfl⟩ := htake
      obtain ⟨rfl, nvalue, -⟩ := h.expr hvalue
      obtain ⟨rfl, nothers⟩ := h.fields hothers
      exact ⟨by simp [Fields.moreLexemes], nvalue, nothers⟩
  · next ts _ _ m hn hsemicolon =>
      obtain ⟨rfl, rfl⟩ : Fields.nil = fs ∧ ts = rest := by simpa using htake
      exact ⟨rfl, trivial⟩

theorem args_succ (h : ReadsAt n) {ts rest : List Lexeme} {args : Args}
    (htake : Args.takeIn (n + 1) ts = some (args, rest)) :
    ts = args.lexemes ++ rest ∧ args.Normal ∧ ∃ us, rest = .symbol .parenClose :: us := by
  rw [Args.takeIn.eq_def] at htake
  split at htake
  · simp at *
  · next us hn =>
      obtain ⟨rfl, rfl⟩ : Args.nil = args ∧ .symbol .parenClose :: us = rest := by
        simpa using htake
      exact ⟨rfl, trivial, us, rfl⟩
  · next hn hclose =>
      obtain rfl := Nat.succ.inj hn
      simp only [Option.bind_eq_bind, Option.bind_eq_some_iff, Prod.exists, Option.pure_def,
        Option.some.injEq, Prod.mk.injEq] at htake
      obtain ⟨e, ts₁, hfirst, others, ts₂, hothers, tail, ts₃, htail, rfl, rfl⟩ := htake
      obtain ⟨rfl, nfirst, sfirst⟩ := h.expr hfirst
      obtain ⟨rfl, nothers, sothers⟩ := h.more hothers
      obtain ⟨rfl, ntail, us, rfl⟩ := h.args htail
      refine ⟨by simp [Args.lexemes], ⟨nfirst, nothers, ntail, ?_⟩, us, rfl⟩
      exact (sothers.last e sfirst).congr (by cases tail.lexemes <;> rfl)

/-- The readers of expressions take what they are said to take. -/
theorem all (n : Nat) : ReadsAt n := by
  induction n with
  | zero => exact zero
  | succ n ih =>
      exact ⟨ih.expr_succ, ih.chain_succ, ih.operand_succ, ih.paren_succ, ih.array_succ,
        ih.more_succ, ih.fields_succ, ih.args_succ⟩

end Expr.ReadsAt

/-! ## What is normal is taken -/

section Unfolding

variable {n : Nat} {ts : List Lexeme}

theorem Exprs.takeArray_of_head?_ne (h : ts.head? ≠ some (.symbol .squareClose)) :
    Exprs.takeArray (n + 1) ts = (do
      let (e, ts) ← Expr.takeIn n ts
      let (es, ts) ← Exprs.takeMore n ts
      let ts ← Lexeme.skipSym .squareClose ts
      return (.cons e es, ts)) := by
  cases ts with
  | nil => rfl
  | cons l us => exact Exprs.takeArray.eq_3 (l :: us) n (by rintro us' h'; cases h'; simp at h)

theorem Exprs.takeMore_of_head?_ne (h : ts.head? ≠ some (.symbol .comma)) :
    Exprs.takeMore (n + 1) ts = some (.nil, ts) := by
  exact Exprs.takeMore.eq_3 ts n (by rintro us' rfl; simp at h)

theorem Exprs.takeMore_comma {us vs : List Lexeme} {e : Expr} {es : Exprs}
    (he : Expr.takeIn n ts = some (e, us)) (hes : Exprs.takeMore n us = some (es, vs)) :
    Exprs.takeMore (n + 1) (.symbol .comma :: ts) = some (.cons e es, vs) := by
  simp [Exprs.takeMore, he, hes]

theorem Fields.takeMore_of_head?_ne (h : ts.head? ≠ some (.symbol .semicolon)) :
    Fields.takeMore (n + 1) ts = some (.nil, ts) := by
  exact Fields.takeMore.eq_3 ts n (by rintro us' rfl; simp at h)

theorem Args.takeIn_of_head?_ne (h : ts.head? ≠ some (.symbol .parenClose)) :
    Args.takeIn (n + 1) ts = (do
      let (e, ts) ← Expr.takeIn n ts
      let (es, ts) ← Exprs.takeMore n ts
      let (rest, ts) ← Args.takeIn n ts
      return (.group e es rest, ts)) := by
  exact Args.takeIn.eq_3 ts n (by rintro us' rfl; simp at h)

end Unfolding

namespace Expr

/-- The reader of operands takes a name unless a parenthesis calls it. -/
theorem takeOperand_word {w : Word} (hw : w.isOperand) {n : Nat} {ts : List Lexeme}
    (hparen : ts.head? ≠ some (.symbol .parenOpen)) :
    takeOperand (n + 1) (.word w :: ts) = some (.name w, ts) := by
  have hname : ∀ us, ts ≠ .symbol .parenOpen :: us := by
    rintro us rfl
    simp at hparen
  cases w with
  | plain t => simp [takeOperand, UnaryOp.take?, UnaryOp.ofLexeme?]
  | keyword k =>
      cases k <;> first
        | exact absurd hw (by decide)
        | simp [takeOperand, UnaryOp.take?, UnaryOp.ofLexeme?]

/-- The reader takes a call if its arguments are taken. -/
theorem takeOperand_call {f : Word} (hf : f.isOperand) {args : Args} {n : Nat}
    {ts us : List Lexeme} (hargs : Args.takeIn n ts = some (args, .symbol .parenClose :: us)) :
    takeOperand (n + 1) (.word f :: .symbol .parenOpen :: ts) = some (.call f args, us) := by
  cases f with
  | plain t =>
      simp [takeOperand, UnaryOp.take?, UnaryOp.ofLexeme?, hargs, Lexeme.skip]
  | keyword k =>
      cases k <;> first
        | exact absurd hf (by decide)
        | simp [takeOperand, UnaryOp.take?, UnaryOp.ofLexeme?, hargs, Lexeme.skip]

/-- The reader of operands takes what starts with an opening parenthesis as one in parentheses. -/
theorem takeOperand_opening (o : Opening) {n : Nat} {ts : List Lexeme} :
    takeOperand (n + 1) (o.lexeme :: ts) = takeParen n o ts := by
  cases o <;> simp [Opening.lexeme, takeOperand, UnaryOp.take?, UnaryOp.ofLexeme?]

theorem takeOperand_unary (op : UnaryOp) {e : Expr} {n : Nat} {ts us : List Lexeme}
    (he : takeOperand n ts = some (e, us)) :
    takeOperand (n + 1) (op.lexeme :: ts) = some (.unary op e, us) := by
  rw [takeOperand.eq_def]
  simp [UnaryOp.take?_eq_some_iff.mpr rfl, he]

/-- An expression is taken in every number of steps that is large enough. -/
structure IsTaken (e : Expr) : Prop where
  operand : e.isBinary = false → ∀ {n ts}, 3 * e.lexemes.length ≤ n → e.Pauses ts →
    takeOperand n (e.lexemes ++ ts) = some (e, ts)
  chain : ∀ {n ts}, 3 * e.lexemes.length ≤ n → e.Pauses ts →
    takeIn (n + 1) (e.lexemes ++ ts) = takeChain (n - e.operators) e ts

namespace IsTaken

/-- An operand is an expression without a further operand. -/
theorem of_operand {e : Expr} (hbinary : e.isBinary = false)
    (h : ∀ {n ts}, 3 * e.lexemes.length ≤ n → e.Pauses ts →
      takeOperand n (e.lexemes ++ ts) = some (e, ts)) : e.IsTaken := by
  refine ⟨fun _ => h, fun {n ts} hn hpauses => ?_⟩
  have hoperators : e.operators = 0 := by
    cases e <;> first | rfl | simp [isBinary] at hbinary
  simp [takeIn, h hn hpauses, hoperators]

theorem expr {e : Expr} (h : e.IsTaken) {n : Nat} (ts : List Lexeme)
    (hn : 3 * e.lexemes.length + 1 ≤ n) (hstops : e.Stops ts) :
    takeIn n (e.lexemes ++ ts) = some (e, ts) := by
  obtain ⟨n, rfl⟩ : ∃ m, n = m + 1 := ⟨n - 1, by omega⟩
  have hoperators := e.operators_lt_length
  obtain ⟨m, hm⟩ : ∃ m, n - e.operators = m + 1 := ⟨n - e.operators - 1, by omega⟩
  rw [h.chain (by omega) hstops.pauses, hm, takeChain, hstops.operator]

end IsTaken

end Expr

/-- Only the last of some expressions with commas meets what follows. -/
theorem Exprs.stops_of_last {e : Expr} {es : Exprs} {ts : List Lexeme}
    (h : (es.lastOr e).Stops ts) : e.Stops (es.moreLexemes ++ ts) := by
  cases es with
  | nil => exact h
  | cons f fs => exact .of_cons rfl (by simp)

theorem Args.head?_lexemes_ne_comma (args : Args) (ts : List Lexeme) :
    (args.lexemes ++ .symbol .parenClose :: ts).head? ≠ some (.symbol .comma) := by
  cases args with
  | nil => simp [Args.lexemes]
  | group e es rest =>
      rw [Args.lexemes, List.append_assoc]
      exact e.head?_lexemes_append_ne _ rfl

theorem Fields.stops_of_more {e : Expr} {fs : Fields} {ts : List Lexeme} (h : e.Stops ts) :
    e.Stops (fs.moreLexemes ++ ts) := by
  cases fs with
  | nil => exact h
  | cons field f fs => exact .of_cons rfl (by simp)

mutual

theorem Literal.isTaken : (l : Literal) → l.Normal → (Expr.literal l).IsTaken
  | .number t, _ => .of_operand rfl fun {n ts} hn _ => by
      obtain ⟨n, rfl⟩ : ∃ m, n = m + 1 :=
        ⟨n - 1, by simp only [Expr.lexemes, Literal.lexemes, List.length_cons] at hn; omega⟩
      simp [Expr.lexemes, Literal.lexemes, Expr.takeOperand, UnaryOp.take?, UnaryOp.ofLexeme?]
  | .bool value, _ => .of_operand rfl fun {n ts} hn _ => by
      obtain ⟨n, rfl⟩ : ∃ m, n = m + 1 := by
        refine ⟨n - 1, ?_⟩
        cases value <;> simp only [Expr.lexemes, Literal.lexemes, List.length_cons] at hn <;> omega
      cases value <;>
        simp [Expr.lexemes, Literal.lexemes, Expr.takeOperand, UnaryOp.take?, UnaryOp.ofLexeme?]
  | .array es, h => .of_operand rfl fun {n ts} hn _ => by
      simp only [Expr.lexemes, Literal.lexemes, List.length_cons, List.length_append,
        List.length_nil] at hn
      obtain ⟨n, rfl⟩ : ∃ m, n = m + 1 := ⟨n - 1, by omega⟩
      have hes := Exprs.takeArray_lexemes es h (n := n) ts (by omega)
      simp [Expr.lexemes, Literal.lexemes, Expr.takeOperand, UnaryOp.take?, UnaryOp.ofLexeme?, hes]

/-- A normal expression is taken. -/
theorem Expr.isTaken : (e : Expr) → e.Normal → e.IsTaken
  | .literal l, h => Literal.isTaken l h
  | .name w, h => .of_operand rfl fun {n ts} hn hpauses => by
      obtain ⟨n, rfl⟩ : ∃ m, n = m + 1 :=
        ⟨n - 1, by simp only [Expr.lexemes, List.length_cons] at hn; omega⟩
      exact Expr.takeOperand_word h (hpauses.paren rfl)
  | .paren o e, h => .of_operand rfl fun {n ts} hn _ => by
      simp only [Expr.lexemes, List.length_cons, List.length_append, List.length_nil] at hn
      obtain ⟨n, rfl⟩ : ∃ m, n = m + 2 := ⟨n - 2, by omega⟩
      have he := (Expr.isTaken e h).expr (n := n) (.symbol .parenClose :: ts) (by omega)
        (.of_cons rfl (by simp))
      have hmore : Exprs.takeMore n (.symbol .parenClose :: ts) =
          some (.nil, .symbol .parenClose :: ts) := by
        obtain ⟨n, rfl⟩ : ∃ m, n = m + 1 := ⟨n - 1, by omega⟩
        exact Exprs.takeMore_of_head?_ne (by simp)
      simp [Expr.lexemes, Expr.takeOperand_opening, Expr.takeParen, he, hmore, Lexeme.skip]
  | .tuple o e f es, h => .of_operand rfl fun {n ts} hn _ => by
      obtain ⟨he, hf, hes⟩ := h
      simp only [Expr.lexemes, List.length_cons, List.length_append, List.length_nil] at hn
      obtain ⟨n, rfl⟩ : ∃ m, n = m + 3 := ⟨n - 3, by omega⟩
      have he := (Expr.isTaken e he).expr (n := n + 1)
        (.symbol .comma :: (f.lexemes ++ (es.moreLexemes ++ .symbol .parenClose :: ts)))
        (by omega) (.of_cons rfl (by simp))
      have hlast : (es.lastOr f).Stops (.symbol .parenClose :: ts) := .of_cons rfl (by simp)
      have hmore := Exprs.takeMore_comma
        ((Expr.isTaken f hf).expr (n := n) _ (by omega) (Exprs.stops_of_last hlast))
        (Exprs.takeMore_lexemes es hes (n := n) _ (by omega) hlast (by simp))
      simp [Expr.lexemes, Expr.takeOperand_opening, Expr.takeParen, he, hmore, Lexeme.skip]
  | .record field e fs, h => .of_operand rfl fun {n ts} hn _ => by
      obtain ⟨he, hfs⟩ := h
      simp only [Expr.lexemes, List.length_cons, List.length_append, List.length_nil] at hn
      obtain ⟨n, rfl⟩ : ∃ m, n = m + 1 := ⟨n - 1, by omega⟩
      have he := (Expr.isTaken e he).expr (n := n)
        (fs.moreLexemes ++ .symbol .braceClose :: ts) (by omega)
        (Fields.stops_of_more (.of_cons rfl (by simp)))
      have hmore := Fields.takeMore_lexemes fs hfs (n := n) (.symbol .braceClose :: ts)
        (by omega) (fun _ => .of_cons rfl (by simp)) (by simp)
      simp [Expr.lexemes, Expr.takeOperand, UnaryOp.take?, UnaryOp.ofLexeme?, Name.take?,
        Lexeme.skip, he, hmore]
  | .call f args, h => .of_operand rfl fun {n ts} hn _ => by
      obtain ⟨hf, hargs⟩ := h
      simp only [Expr.lexemes, List.length_cons, List.length_append, List.length_nil] at hn
      obtain ⟨n, rfl⟩ : ∃ m, n = m + 1 := ⟨n - 1, by omega⟩
      have hargs := Args.takeIn_lexemes args hargs (n := n) ts (by omega)
      simpa [Expr.lexemes] using Expr.takeOperand_call hf hargs
  | .unary op e, h => .of_operand rfl fun {n ts} hn hpauses => by
      obtain ⟨hbinary, he⟩ := h
      simp only [Expr.lexemes, List.length_cons] at hn
      obtain ⟨n, rfl⟩ : ∃ m, n = m + 1 := ⟨n - 1, by omega⟩
      exact Expr.takeOperand_unary op ((Expr.isTaken e he).operand hbinary (by omega)
        ⟨hpauses.operator, hpauses.paren⟩)
  | .binary l op r, h => by
      obtain ⟨hcond, hbinary, hl, hr⟩ := h
      refine ⟨by simp [Expr.isBinary], fun {n ts} hn hpauses => ?_⟩
      simp only [Expr.lexemes, List.length_cons, List.length_append] at hn
      have hoperators := l.operators_lt_length
      obtain ⟨m, hm⟩ : ∃ m, n - l.operators = m + 1 := ⟨n - l.operators - 1, by omega⟩
      have hleft := (Expr.isTaken l hl).chain (n := n) (by omega)
        (.operator_cons op (r.lexemes ++ ts) hcond)
      have hright := (Expr.isTaken r hr).operand hbinary (n := m) (by omega)
        ⟨hpauses.operator, hpauses.paren⟩
      have hrest : n - (Expr.binary l op r).operators = m := by
        simp only [Expr.operators]
        omega
      rw [Expr.lexemes, List.append_assoc, List.cons_append, hleft, hm, hrest, Expr.takeChain]
      simp [hright]
  | .cond c y no, h => .of_operand rfl fun {n ts} hn hpauses => by
      obtain ⟨hc, hy, hno⟩ := h
      simp only [Expr.lexemes, List.length_cons, List.length_append] at hn
      obtain ⟨n, rfl⟩ : ∃ m, n = m + 1 := ⟨n - 1, by omega⟩
      have hc := (Expr.isTaken c hc).expr (n := n)
        (.kw .then_ :: (y.lexemes ++ .kw .else_ :: (no.lexemes ++ ts))) (by omega)
        (.of_cons rfl (by simp))
      have hy := (Expr.isTaken y hy).expr (n := n) (.kw .else_ :: (no.lexemes ++ ts))
        (by omega) (.of_cons rfl (by simp))
      have hno := (Expr.isTaken no hno).expr (n := n) ts (by omega)
        ⟨hpauses.operator rfl, hpauses.paren⟩
      simp [Expr.lexemes, Expr.takeOperand, UnaryOp.take?, UnaryOp.ofLexeme?, Lexeme.skip, hc, hy,
        hno]

theorem Exprs.takeArray_lexemes : (es : Exprs) → es.Normal → ∀ {n} (ts),
    3 * es.lexemes.length + 2 ≤ n →
      Exprs.takeArray n (es.lexemes ++ .symbol .squareClose :: ts) = some (es, ts)
  | .nil, _, n, ts, hn => by
      obtain ⟨n, rfl⟩ : ∃ m, n = m + 1 := ⟨n - 1, by omega⟩
      simp [Exprs.lexemes, Exprs.takeArray]
  | .cons e es, h, n, ts, hn => by
      obtain ⟨he, hes⟩ := h
      simp only [Exprs.lexemes, List.length_append] at hn
      obtain ⟨n, rfl⟩ : ∃ m, n = m + 1 := ⟨n - 1, by omega⟩
      have hlast : (es.lastOr e).Stops (.symbol .squareClose :: ts) := .of_cons rfl (by simp)
      have he' := (Expr.isTaken e he).expr (n := n) _ (by omega) (Exprs.stops_of_last hlast)
      have hpos := e.one_le_length_lexemes
      have hmore := Exprs.takeMore_lexemes es hes (n := n) _ (by omega) hlast (by simp)
      rw [Exprs.lexemes, List.append_assoc,
        Exprs.takeArray_of_head?_ne (e.head?_lexemes_append_ne _ rfl)]
      simp [he', hmore, Lexeme.skip]

theorem Exprs.takeMore_lexemes : (es : Exprs) → es.Normal → ∀ {n ts} (first : Expr),
    3 * es.moreLexemes.length + 1 ≤ n → (es.lastOr first).Stops ts →
      ts.head? ≠ some (.symbol .comma) →
      Exprs.takeMore n (es.moreLexemes ++ ts) = some (es, ts)
  | .nil, _, n, ts, _, hn, _, hcomma => by
      obtain ⟨n, rfl⟩ : ∃ m, n = m + 1 := ⟨n - 1, by omega⟩
      exact Exprs.takeMore_of_head?_ne hcomma
  | .cons e es, h, n, ts, _, hn, hlast, hcomma => by
      obtain ⟨he, hes⟩ := h
      simp only [Exprs.moreLexemes, List.length_cons, List.length_append] at hn
      obtain ⟨n, rfl⟩ : ∃ m, n = m + 1 := ⟨n - 1, by omega⟩
      rw [Exprs.moreLexemes, List.cons_append, List.append_assoc]
      exact Exprs.takeMore_comma
        ((Expr.isTaken e he).expr (n := n) _ (by omega) (Exprs.stops_of_last hlast))
        (Exprs.takeMore_lexemes es hes (n := n) e (by omega) hlast hcomma)

theorem Fields.takeMore_lexemes : (fs : Fields) → fs.Normal → ∀ {n} (ts),
    3 * fs.moreLexemes.length + 1 ≤ n → (∀ e : Expr, e.Stops ts) →
      ts.head? ≠ some (.symbol .semicolon) →
      Fields.takeMore n (fs.moreLexemes ++ ts) = some (fs, ts)
  | .nil, _, n, ts, hn, _, hsemicolon => by
      obtain ⟨n, rfl⟩ : ∃ m, n = m + 1 := ⟨n - 1, by omega⟩
      exact Fields.takeMore_of_head?_ne hsemicolon
  | .cons field e fs, h, n, ts, hn, hstops, hsemicolon => by
      obtain ⟨he, hfs⟩ := h
      simp only [Fields.moreLexemes, List.length_cons, List.length_append] at hn
      obtain ⟨n, rfl⟩ : ∃ m, n = m + 1 := ⟨n - 1, by omega⟩
      have he := (Expr.isTaken e he).expr (n := n) (fs.moreLexemes ++ ts) (by omega)
        (Fields.stops_of_more (hstops e))
      have hmore := Fields.takeMore_lexemes fs hfs (n := n) ts (by omega) hstops hsemicolon
      simp [Fields.moreLexemes, Fields.takeMore, Name.take?, Lexeme.skip, he, hmore]

theorem Args.takeIn_lexemes : (args : Args) → args.Normal → ∀ {n} (ts),
    3 * args.lexemes.length + 2 ≤ n →
      Args.takeIn n (args.lexemes ++ .symbol .parenClose :: ts) =
        some (args, .symbol .parenClose :: ts)
  | .nil, _, n, ts, hn => by
      obtain ⟨n, rfl⟩ : ∃ m, n = m + 1 := ⟨n - 1, by omega⟩
      simp [Args.lexemes, Args.takeIn]
  | .group e es rest, h, n, ts, hn => by
      obtain ⟨he, hes, hrest, hstops⟩ := h
      simp only [Args.lexemes, List.length_append] at hn
      obtain ⟨n, rfl⟩ : ∃ m, n = m + 1 := ⟨n - 1, by omega⟩
      have hlast : (es.lastOr e).Stops (rest.lexemes ++ .symbol .parenClose :: ts) :=
        hstops.append_right _
      have he' := (Expr.isTaken e he).expr (n := n) _ (by omega) (Exprs.stops_of_last hlast)
      have hpos := e.one_le_length_lexemes
      have hmore := Exprs.takeMore_lexemes es hes (n := n) _ (by omega) hlast
        (rest.head?_lexemes_ne_comma ts)
      have htail := Args.takeIn_lexemes rest hrest (n := n) ts (by omega)
      rw [Args.lexemes, List.append_assoc,
        Args.takeIn_of_head?_ne (e.head?_lexemes_append_ne _ rfl), List.append_assoc]
      simp [he', hmore, htail]

end

/-! ## The readers -/

/-- The reader takes exactly the normal expressions, as far as they go. -/
theorem Expr.take?_eq_some_iff {ts rest : List Lexeme} {e : Expr} :
    Expr.take? ts = some (e, rest) ↔ ts = e.lexemes ++ rest ∧ e.Normal ∧ e.Stops rest := by
  constructor
  · exact (ReadsAt.all _).expr
  · rintro ⟨rfl, hnormal, hstops⟩
    refine (e.isTaken hnormal).expr rest ?_ hstops
    simp only [steps, List.length_append]
    omega

/-- The rest of an array is its elements and a closing bracket. -/
theorem Exprs.takeArray_eq_some_iff {ts rest : List Lexeme} {es : Exprs} :
    Exprs.takeArray (Expr.steps ts) ts = some (es, rest) ↔
      ts = es.lexemes ++ .symbol .squareClose :: rest ∧ es.Normal := by
  constructor
  · exact (Expr.ReadsAt.all _).array
  · rintro ⟨rfl, hnormal⟩
    refine es.takeArray_lexemes hnormal rest ?_
    simp only [Expr.steps, List.length_append, List.length_cons]
    omega

end Heptagon
