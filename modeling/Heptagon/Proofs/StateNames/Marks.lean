import Heptagon.Proofs.Program.Reading
import Heptagon.Proofs.StateNames.Frame

/-!
# The names of states in a program

The stack of `Heptagon.Proofs.StateNames.Frame` finds the names of states in
every program that is read.
-/

namespace Heptagon

open Frame

section

variable {k : List Frame} {ts : List Lexeme}

/-! ## Brackets -/

namespace Lexeme

@[simp] theorem opens_lexeme (o : Opening) : o.lexeme.opens = true := by cases o <;> rfl
@[simp] theorem isParen_lexeme (o : Opening) : o.lexeme.isParen = true := by cases o <;> rfl

end Lexeme

theorem Opening.marks_within (o : Opening) :
    marks (within :: k) (o.lexeme :: ts) = .token :: marks (within :: within :: k) ts := by
  cases o <;> rfl

@[simp] theorem UnaryOp.marks_leaf (op : UnaryOp) : op.leaf.marks = [.token] := by cases op <;> rfl

@[simp] theorem BinaryOp.marks_leaf (op : BinaryOp) : op.leaf.marks = [.token] := by
  cases op <;> rfl

theorem UnaryOp.marks_within (op : UnaryOp) :
    marks (within :: k) (op.lexeme :: ts) = .token :: marks (within :: k) ts := by
  cases op <;> rfl

theorem BinaryOp.marks_within (op : BinaryOp) :
    marks (within :: k) (op.lexeme :: ts) = .token :: marks (within :: k) ts := by
  cases op <;> rfl

mutual

theorem Literal.marks_within (l : Literal) (k : List Frame) (ts : List Lexeme) :
    marks (within :: k) (l.lexemes ++ ts) = l.tree.marks ++ marks (within :: k) ts := by
  cases l with
  | number t => rfl
  | bool value => cases value <;> rfl
  | array es =>
      simp [Literal.lexemes, Literal.tree, marks, go, step, inside, Lexeme.opens, Lexeme.shuts,
        Exprs.marks_within es]

/-- A bracket goes on behind an expression. -/
theorem Expr.marks_within (e : Expr) (k : List Frame) (ts : List Lexeme) :
    marks (within :: k) (e.lexemes ++ ts) = e.tree.marks ++ marks (within :: k) ts := by
  cases e with
  | literal l => simp [Expr.lexemes, Expr.tree, Tree.operand, Literal.marks_within l]
  | name n => rfl
  | paren o e =>
      simp [Expr.lexemes, Expr.tree, Tree.operand, Opening.marks_within, Expr.marks_within e, marks,
        go, step, Lexeme.shuts]
  | tuple o e f es =>
      simp [Expr.lexemes, Expr.tree, Tree.operand, Opening.marks_within, Expr.marks_within e,
        Expr.marks_within f, Exprs.marks_within_more es, marks, go, step, inside, Lexeme.opens,
        Lexeme.shuts]
  | record n e fs =>
      simp [Expr.lexemes, Expr.tree, Tree.operand, Expr.marks_within e, Fields.marks_within fs,
        marks, go, step, inside, Lexeme.opens, Lexeme.shuts]
  | call f args =>
      simp [Expr.lexemes, Expr.tree, Tree.operand, Args.marks_within args, marks, go, step, inside,
        Lexeme.opens, Lexeme.shuts]
  | unary op e =>
      simp [Expr.lexemes, Expr.tree, Tree.operand, UnaryOp.marks_within, Expr.marks_within e]
  | binary l op r =>
      simp [Expr.lexemes, Expr.tree, Tree.operand, BinaryOp.marks_within, Expr.marks_within l,
        Expr.marks_within r]
  | cond c y n =>
      simp [Expr.lexemes, Expr.tree, Expr.marks_within c, Expr.marks_within y, Expr.marks_within n,
        marks, go, step, inside, Lexeme.opens, Lexeme.shuts]

theorem Exprs.marks_within (es : Exprs) (k : List Frame) (ts : List Lexeme) :
    marks (within :: k) (es.lexemes ++ ts) = Tree.marksAll es.trees ++ marks (within :: k) ts := by
  cases es with
  | nil => rfl
  | cons e es =>
      simp [Exprs.lexemes, Exprs.trees, Expr.marks_within e, Exprs.marks_within_more es]

theorem Exprs.marks_within_more (es : Exprs) (k : List Frame) (ts : List Lexeme) :
    marks (within :: k) (es.moreLexemes ++ ts) =
      Tree.marksAll es.more ++ marks (within :: k) ts := by
  cases es with
  | nil => rfl
  | cons e es =>
      simp [Exprs.moreLexemes, Exprs.more, Expr.marks_within e, Exprs.marks_within_more es, marks,
        go, step, inside, Lexeme.opens, Lexeme.shuts]

theorem Fields.marks_within (fs : Fields) (k : List Frame) (ts : List Lexeme) :
    marks (within :: k) (fs.moreLexemes ++ ts) =
      Tree.marksAll fs.more ++ marks (within :: k) ts := by
  cases fs with
  | nil => rfl
  | cons n e fs =>
      simp [Fields.moreLexemes, Fields.more, Expr.marks_within e, Fields.marks_within fs, marks, go,
        step, inside, Lexeme.opens, Lexeme.shuts]

theorem Args.marks_within (args : Args) (k : List Frame) (ts : List Lexeme) :
    marks (within :: k) (args.lexemes ++ ts) =
      Tree.marksAll args.trees ++ marks (within :: k) ts := by
  cases args with
  | nil => rfl
  | group e es rest =>
      simp [Args.lexemes, Args.trees, Expr.marks_within e, Exprs.marks_within_more es,
        Args.marks_within rest]

end

/-! ## Expressions -/

theorem UnaryOp.marks_operand (op : UnaryOp) :
    marks (operand :: k) (op.lexeme :: ts) = .token :: marks (operand :: k) ts := by
  cases op <;> rfl

theorem BinaryOp.marks_more (op : BinaryOp) :
    marks (more :: k) (op.lexeme :: ts) = .token :: marks (operand :: k) ts := by
  cases op <;> rfl

theorem Opening.marks_operand (o : Opening) :
    marks (operand :: k) (o.lexeme :: ts) = .token :: marks (within :: more :: k) ts := by
  cases o <;> rfl

theorem Word.marks_operand {w : Word} (h : w.isOperand = true) :
    marks (operand :: k) (.word w :: ts) = .token :: marks (more :: k) ts := by
  cases w with
  | plain t => rfl
  | keyword kw => cases kw <;> first | rfl | simp [isOperand, Keyword.startsOperand] at h

theorem Literal.marks_operand (l : Literal) (k : List Frame) (ts : List Lexeme) :
    marks (operand :: k) (l.lexemes ++ ts) = l.tree.marks ++ marks (more :: k) ts := by
  cases l with
  | number t => rfl
  | bool value => cases value <;> rfl
  | array es =>
      simp [Literal.lexemes, Literal.tree, marks, go, step, operandStep, Lexeme.opens, Lexeme.shuts,
        Exprs.marks_within es]

/-- An expression may go on behind what is read of it. -/
theorem Expr.marks_operand (e : Expr) (h : e.Normal) (k : List Frame) (ts : List Lexeme) :
    marks (operand :: k) (e.lexemes ++ ts) = e.tree.marks ++ marks (more :: k) ts := by
  cases e with
  | literal l => simp [Expr.lexemes, Expr.tree, Tree.operand, Literal.marks_operand l]
  | name n => simpa [Expr.lexemes, Expr.tree, Tree.operand] using Word.marks_operand h
  | paren o e =>
      simp [Expr.lexemes, Expr.tree, Tree.operand, Opening.marks_operand, Expr.marks_within e, marks,
        go, step, Lexeme.shuts]
  | tuple o e f es =>
      simp [Expr.lexemes, Expr.tree, Tree.operand, Opening.marks_operand, Expr.marks_within e,
        Expr.marks_within f, Exprs.marks_within_more es, marks, go, step, inside, Lexeme.opens,
        Lexeme.shuts]
  | record n e fs =>
      simp [Expr.lexemes, Expr.tree, Tree.operand, Expr.marks_within e, Fields.marks_within fs,
        marks, go, step, operandStep, inside, Lexeme.opens, Lexeme.shuts]
  | call f args =>
      simp [Expr.lexemes, Expr.tree, Tree.operand, Word.marks_operand h.1, Args.marks_within args,
        marks, go, step, Lexeme.isParen, Lexeme.shuts, BinaryOp.ofLexeme?]
  | unary op e =>
      simp [Expr.lexemes, Expr.tree, Tree.operand, UnaryOp.marks_operand, Expr.marks_operand e h.2]
  | binary l op r =>
      simp [Expr.lexemes, Expr.tree, Tree.operand, BinaryOp.marks_more,
        Expr.marks_operand l h.2.2.1, Expr.marks_operand r h.2.2.2]
  | cond c y n =>
      simp [Expr.lexemes, Expr.tree, Expr.marks_operand c h.1, Expr.marks_operand y h.2.1,
        Expr.marks_operand n h.2.2, marks, go, step, operandStep, Lexeme.isParen,
        BinaryOp.ofLexeme?]

/-! ## Declarations -/

/-- The name of a state is found where one is expected. -/
theorem StateName.marks_expected {s : StateName} (h : s.Stops ts) (k : List Frame) :
    Frame.marks (.state :: k) (s.lexemes ++ ts) = s.marks ++ Frame.marks k ts := by
  cases s with
  | capital t => rfl
  | mixed w t => rfl
  | small w =>
      have hpop : ∀ l ∈ ts.head?, half.step l = none := by
        intro l hl
        obtain ⟨us, rfl⟩ := List.head?_eq_some_iff.mp hl
        cases l with
        | capital t => exact absurd rfl (h t us)
        | _ => rfl
      exact congrArg (Mark.state :: ·) (marks_pop hpop)

section

variable {f : Frame}

theorem Ty.marks_inside (hf : f = within ∨ f = declarations) (t : Ty) (ts : List Lexeme) :
    marks (f :: k) (t.units.flatten ++ ts) = t.tree.marks ++ marks (f :: k) ts := by
  induction t generalizing ts with
  | base b => rcases hf with rfl | rfl <;> cases b <;> rfl
  | named n => rcases hf with rfl | rfl <;> rfl
  | array t s ih =>
      have hsize : marks (f :: k) (.symbol .caret :: s.lexeme :: ts) =
          .token :: .token :: marks (f :: k) ts := by
        rcases hf with rfl | rfl <;> cases s <;> rfl
      cases s <;> simpa [Ty.units, Ty.tree, Size.tree, ih] using hsize

theorem Name.marks_inside (hf : f = within ∨ f = declarations) (ns : List Name) :
    marks (f :: k) ((Name.moreUnits ns).flatten ++ ts) =
      Tree.marksAll (Name.more ns) ++ marks (f :: k) ts := by
  induction ns with
  | nil => rfl
  | cons n ns ih =>
      have hname : ∀ us, marks (f :: k) (.symbol .comma :: .word n :: us) =
          .token :: .token :: marks (f :: k) us := by
        rcases hf with rfl | rfl <;> exact fun _ => rfl
      have hunits : (Name.moreUnits (n :: ns)).flatten ++ ts =
          .symbol .comma :: .word n :: ((Name.moreUnits ns).flatten ++ ts) := rfl
      rw [hunits, hname, ih]
      rfl

theorem Sampling.marks_samplings (ss : List Sampling) (ts : List Lexeme) :
    marks (samplings :: k) ((ss.flatMap Sampling.units).flatten ++ ts) =
      Tree.marksAll (ss.flatMap Sampling.trees) ++ marks (samplings :: k) ts := by
  induction ss with
  | nil => rfl
  | cons s ss ih =>
      have hstops : ∀ us, s.state.Stops (s.opening.lexeme :: us) := by
        intro us
        cases s.state <;> cases s.opening <;> simp [StateName.Stops, Opening.lexeme]
      simp [Sampling.units, Sampling.trees, marks, go, step, StateName.marks_expected (hstops _), ih]

/-- A clock is at an end where no condition follows. -/
theorem Clock.marks_inside (hf : f = within ∨ f = declarations) (c : Option Clock)
    (hts : ts.head? ≠ some (.kw .on_)) :
    marks (f :: k) ((Clock.unitsOf c).flatten ++ ts) =
      Tree.marksAll (c.map Clock.tree).toList ++ marks (f :: k) ts := by
  cases c with
  | none => rfl
  | some c =>
      have hstart : ∀ us, marks (f :: k) (.symbol .clockColon :: .symbol .dot :: .kw .on_ :: us) =
          .token :: .token :: .token ::
            marks (state :: any :: any :: any :: samplings :: f :: k) us := by
        rcases hf with rfl | rfl <;> exact fun _ => rfl
      have hstops : ∀ us, c.first.state.Stops (c.first.opening.lexeme :: us) := by
        intro us
        cases c.first.state <;> cases c.first.opening <;> simp [StateName.Stops, Opening.lexeme]
      have hpop : ∀ l ∈ ts.head?, samplings.step l = none := by
        intro l hl
        have hne : l ≠ .kw .on_ := fun h => hts (h ▸ hl)
        unfold step
        split <;> simp_all
      have hrest := Sampling.marks_samplings (k := f :: k) c.others ts
      rw [marks_pop hpop] at hrest
      simp [Clock.unitsOf, Clock.units, Clock.tree, Sampling.units, Sampling.trees, hstart,
        StateName.marks_expected (hstops _), marks, go, step, hrest]

theorem VarGroup.marks_inside (hf : f = within ∨ f = declarations) (g : VarGroup)
    (hts : ts.head? ≠ some (.kw .on_)) :
    marks (f :: k) (g.units.flatten ++ ts) = g.tree.marks ++ marks (f :: k) ts := by
  have hword : ∀ us, marks (f :: k) (.word g.first :: us) = .token :: marks (f :: k) us := by
    rcases hf with rfl | rfl <;> exact fun _ => rfl
  have hcolon : ∀ us, marks (f :: k) (.symbol .colon :: us) = .token :: marks (f :: k) us := by
    rcases hf with rfl | rfl <;> exact fun _ => rfl
  simp [VarGroup.units, VarGroup.tree, hword, hcolon, Name.marks_inside hf, Ty.marks_inside hf,
    Clock.marks_inside hf g.clock hts]

theorem Init.marks_inside (hf : f = within ∨ f = declarations) (i : Init) (ts : List Lexeme) :
    marks (f :: k) (i.units.flatten ++ ts) = i.tree.marks ++ marks (f :: k) ts := by
  cases i with
  | name n => rcases hf with rfl | rfl <;> rfl
  | literal l =>
      rcases hf with rfl | rfl
      · simpa [Init.units, Init.tree] using Literal.marks_within l k ts
      · cases l with
        | number t => rfl
        | bool value => cases value <;> rfl
        | array es =>
            simp [Init.units, Init.tree, Literal.lexemes, Literal.tree, marks, go, step, inside,
              Lexeme.opens, Lexeme.shuts, Exprs.marks_within es]

/-- A bracket, or a list of declarations, goes on behind a declaration. -/
theorem Declaration.marks_inside (hf : f = within ∨ f = declarations) (d : Declaration)
    (hts : ts.head? ≠ some (.kw .on_)) :
    marks (f :: k) (d.units.flatten ++ ts) = d.tree.marks ++ marks (f :: k) ts := by
  cases d with
  | plain g => simpa [Declaration.units, Declaration.tree] using VarGroup.marks_inside hf g hts
  | last g i =>
      have hlast : ∀ us, marks (f :: k) (.kw .last :: us) = .token :: marks (f :: k) us := by
        rcases hf with rfl | rfl <;> exact fun _ => rfl
      have hequal : ∀ us, marks (f :: k) (.symbol .equal :: us) = .token :: marks (f :: k) us := by
        rcases hf with rfl | rfl <;> exact fun _ => rfl
      have hnext : (.symbol .equal :: (i.units.flatten ++ ts)).head? ≠ some (.kw .on_) := by simp
      have hgroup := VarGroup.marks_inside (k := k) hf g hnext
      simp [Declaration.units, Declaration.tree, hlast, hgroup, hequal, Init.marks_inside hf]

end

/-! ## Lists of declarations -/

theorem Declaration.moreUnits_cons (d : Declaration) (ds : List Declaration) :
    moreUnits (d :: ds) = [.symbol .semicolon] :: (d.units ++ moreUnits ds) := rfl

theorem Declaration.more_cons (d : Declaration) (ds : List Declaration) :
    more (d :: ds) = .sym .semicolon :: d.tree :: more ds := rfl

theorem Declaration.marks_within (d : Declaration) (ds : List Declaration) (ts : List Lexeme)
    (hts : ts.head? ≠ some (.kw .on_)) :
    marks (within :: k) (d.units.flatten ++ ((Declaration.moreUnits ds).flatten ++ ts)) =
      Tree.marksAll (d.tree :: Declaration.more ds) ++ marks (within :: k) ts := by
  induction ds generalizing d with
  | nil => simpa [Declaration.moreUnits, Declaration.more] using
      Declaration.marks_inside (.inl rfl) d hts
  | cons d' ds ih =>
      have hmore : ∀ us, marks (within :: k) (.symbol .semicolon :: us) =
          .token :: marks (within :: k) us := fun _ => rfl
      have hnext : (.symbol .semicolon :: (d'.units.flatten ++
          ((Declaration.moreUnits ds).flatten ++ ts))).head? ≠ some (.kw .on_) := by simp
      have hd := Declaration.marks_inside (k := k) (.inl rfl) d hnext
      have ih := ih d'
      simp only [Tree.marksAll_cons] at ih
      simpa [Declaration.moreUnits_cons, Declaration.more_cons, hmore, ih] using hd

theorem Params.marks_params (p : Params) (k : List Frame) (ts : List Lexeme) :
    marks (params :: k) (p.units.flatten ++ ts) = p.tree.marks ++ marks k ts := by
  cases p with
  | empty o => simp [Params.units, Params.tree, marks, go, step, Lexeme.shuts]
  | list o d ds semicolon =>
      have hclose : marks (within :: k) ((Units.semicolonIf semicolon).flatten ++
          .symbol .parenClose :: ts) =
          Tree.marksAll (Tree.semicolonIf semicolon) ++ .token :: marks k ts := by
        cases semicolon <;> rfl
      have hopen : ∀ us, marks (params :: k) (o.lexeme :: us) = .token :: marks (within :: k) us :=
        fun _ => rfl
      have hlist := Declaration.marks_within (k := k) d ds
        ((Units.semicolonIf semicolon).flatten ++ .symbol .parenClose :: ts)
        (by cases semicolon <;> simp [Units.semicolonIf])
      simp only [Tree.marksAll_cons, List.append_assoc] at hlist
      simp [Params.units, Params.tree, hopen, hlist, hclose]

/-- A declaration that closes no local variables goes on with them. -/
theorem Declaration.marks_declaration {d : Declaration} (h : d.closesLocals = false)
    (ts : List Lexeme) : marks (declaration :: k) (d.units.flatten ++ ts) =
      marks (declarations :: k) (d.units.flatten ++ ts) := by
  cases d with
  | plain g =>
      have hg : Locals.closes (.word g.first) = false := h
      simp [Declaration.units, VarGroup.units, marks, go, step, inside, Lexeme.opens, hg]
  | last g i => rfl

theorem Declaration.marks_declarations (d : Declaration) (ds : List Declaration)
    (h : ∀ d' ∈ ds, d'.closesLocals = false) (ts : List Lexeme) :
    marks (declarations :: k) (d.units.flatten ++ ((Declaration.moreUnits ds).flatten ++
      .symbol .semicolon :: ts)) =
      Tree.marksAll (d.tree :: Declaration.more ds) ++ .token :: marks (declaration :: k) ts := by
  induction ds generalizing d with
  | nil =>
      have hnext : (.symbol .semicolon :: ts).head? ≠ some (.kw .on_) := by simp
      have hd := Declaration.marks_inside (k := k) (.inr rfl) d hnext
      simpa [Declaration.moreUnits, Declaration.more, marks, go, step] using hd
  | cons d' ds ih =>
      obtain ⟨hd', hds⟩ := List.forall_mem_cons.mp h
      have hmore : ∀ us, marks (declarations :: k) (.symbol .semicolon :: us) =
          .token :: marks (declaration :: k) us := fun _ => rfl
      have hnext : (.symbol .semicolon :: (d'.units.flatten ++
          ((Declaration.moreUnits ds).flatten ++ .symbol .semicolon :: ts))).head? ≠
            some (.kw .on_) := by simp
      have hd := Declaration.marks_inside (k := k) (.inr rfl) d hnext
      have ih := ih d' hds
      simp only [Tree.marksAll_cons] at ih
      simpa [Declaration.moreUnits_cons, Declaration.more_cons, hmore,
        Declaration.marks_declaration hd', ih] using hd

/-- Local variables are at an end in front of a word that closes them. -/
theorem Locals.marks_locals {l : Option Locals} (h : ∀ l' ∈ l, l'.Normal)
    (hts : ∀ x ∈ ts.head?, Locals.closes x = true) (k : List Frame) :
    marks (locals :: k) ((Locals.unitsOf l).flatten ++ ts) =
      Tree.marksAll (Locals.trees l) ++ marks k ts := by
  cases l with
  | none =>
      refine marks_pop fun x hx => ?_
      have hcloses := hts x hx
      unfold step
      split <;> simp_all [Locals.closes]
  | some l =>
      have hpop : ∀ x ∈ ts.head?, declaration.step x = none := fun x hx => by
        simp [step, hts x hx]
      have hlist := Declaration.marks_declarations (k := k) l.first l.others
        (fun d hd => ((h l rfl).others d hd).2) ts
      have hvar : ∀ us, marks (locals :: k) (.kw .var :: us) =
          .token :: marks (declarations :: k) us := fun _ => rfl
      rw [marks_pop hpop] at hlist
      simp only [Tree.marksAll_cons, List.append_assoc] at hlist
      simp [Locals.unitsOf, Locals.units, Locals.trees, Locals.tree, hvar, hlist]

end

end Heptagon
