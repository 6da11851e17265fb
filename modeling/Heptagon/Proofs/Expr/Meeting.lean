import Heptagon.Division
import Heptagon.Proofs.Division
import Heptagon.Proofs.Expr.Grouping

/-!
# Where expressions meet

Two expressions, or two statements, may follow each other with nothing between
them.  If the first of them ends in a name and the second one starts with a
parenthesis, the parenthesis would open a call, so it must stand apart in the
text that was read.  `Tree.Joins` says this of all places in a tree, given the
text that it was read from; `Expr.joins` says that it is so for expressions.

A parenthesis may stand apart because it holds the targets of an equation one
of which cannot be an argument.  That is never so for the parenthesis of an
expression (`Expr.holdsOperators_eq`), since in an expression such a word has
its operand behind it.
-/

namespace Heptagon

/-! ## Trees that meet -/

namespace Tree

/-- The last token is a name. -/
def EndsInName (t : Tree) : Prop := ∃ n, t.leaves.getLast? = some (.name n)

/-- The first token is an opening parenthesis. -/
def StartsInParen (t : Tree) : Prop := t.leaves.head? = some (.symbol .parenOpen)

end Tree

/-- One of the names up to the first closing parenthesis cannot stand alone as an argument. -/
def Leaf.HoldOperator (ls : List Leaf) : Prop :=
  ∃ k ∈ [Keyword.if_, .not, .pre, .last],
    .name (.keyword k) ∈ ls.takeWhile (· ≠ .symbol .parenClose)

namespace Tree

/-- The tree is an expression or a statement. -/
def isJoint (t : Tree) : Bool := t.label == .named .expression || t.isStatement

/-- Two trees that follow each other are both expressions or both statements. -/
def meets (t u : Tree) : Bool :=
  t.label == .named .expression && u.label == .named .expression || t.isStatement && u.isStatement

/-- A name does not call what meets it; `ts` is the text from the second tree on. -/
structure Parted (t u : Tree) (ts : List Lexeme) : Prop where
  expressions : t.label = .named .expression →
    ∃ us, ts = .apart :: us ∧ Lexeme.holdsOperators false us = false
  statements : t.isStatement = true →
    (∃ us, ts = .apart :: us ∧ (Lexeme.holdsOperators false us = true → Leaf.HoldOperator u.leaves)) ∨
      t.label = .named .resetStatement ∧ u.leaves.getLast? = some (.symbol .semicolon)

mutual

/-- No name in the tree calls what meets it; the text `ts` starts with the tree. -/
def Joins (ts : List Lexeme) : Tree → Prop
  | leaf _ => True
  | node _ us => JoinsAll ts us

/-- No name in the row calls what meets it; the text `ts` starts with the row. -/
def JoinsAll (ts : List Lexeme) : List Tree → Prop
  | [] => True
  | t :: us => t.Joins ts ∧
      (∀ u ∈ us.head?, t.meets u = true → t.EndsInName → u.StartsInParen →
        t.Parted u (ts.drop t.width)) ∧
      JoinsAll (ts.drop t.width) us

end

variable {ts : List Lexeme} {t u : Tree} {us : List Tree} {l : Leaf} {k : Kind}

@[simp] theorem joins_leaf : (leaf l).Joins ts := trivial

@[simp] theorem width_leaf : (leaf l).width = l.lexemes.length := rfl

@[simp] theorem joins_node : (node k us).Joins ts ↔ JoinsAll ts us := Iff.rfl

@[simp] theorem joinsAll_nil : JoinsAll ts [] := trivial

theorem meets_eq_false_left (h : t.isJoint = false) (u : Tree) : t.meets u = false := by
  obtain ⟨hlabel, hstatement⟩ : (t.label == .named .expression) = false ∧ t.isStatement = false := by
    simpa [isJoint] using h
  simp [meets, hlabel, hstatement]

theorem meets_eq_false_right (h : u.isJoint = false) (t : Tree) : t.meets u = false := by
  obtain ⟨hlabel, hstatement⟩ : (u.label == .named .expression) = false ∧ u.isStatement = false := by
    simpa [isJoint] using h
  simp [meets, hlabel, hstatement]

@[simp] theorem isJoint_leaf : (leaf l).isJoint = false := by
  cases l <;> simp [isJoint, isStatement, label, Leaf.label]

@[simp] theorem isJoint_node : (node k us).isJoint = (k == .expression || k.isStatement) := by
  cases k <;> rfl

/-- Nothing meets a tree that is neither an expression nor a statement. -/
theorem joinsAll_cons_of_isJoint (h : t.isJoint = false) :
    JoinsAll ts (t :: us) ↔ t.Joins ts ∧ JoinsAll (ts.drop t.width) us := by
  simp [JoinsAll, meets_eq_false_left h]

@[simp] theorem joinsAll_leaf_cons :
    JoinsAll ts (leaf l :: us) ↔ JoinsAll (ts.drop l.lexemes.length) us := by
  simp [joinsAll_cons_of_isJoint]

@[simp] theorem joinsAll_singleton : JoinsAll ts [t] ↔ t.Joins ts := by simp [JoinsAll]

@[simp] theorem joinsAll_cons_leaf : JoinsAll ts (t :: leaf l :: us) ↔
    t.Joins ts ∧ JoinsAll (ts.drop t.width) (leaf l :: us) := by
  simp [JoinsAll, meets_eq_false_right]

end Tree

/-! ## Words that need an operand -/

namespace Lexeme

/-- Up to the first closing parenthesis no word stands alone that needs an operand. -/
theorem found_of_holdsOperators_append {ts us : List Lexeme} {found : Bool}
    (h : (ts ++ [symbol .parenClose]).IsChain Precedes)
    (hholds : holdsOperators found (ts ++ symbol .parenClose :: us) = true) : found = true := by
  generalize hvs : ts ++ symbol .parenClose :: us = vs at hholds
  fun_induction holdsOperators found vs generalizing ts with
  | case1 found w vs ih =>
      obtain ⟨ts, rfl⟩ : ∃ us, ts = .word w :: .symbol .comma :: us := by
        rcases ts with _ | ⟨x, _ | ⟨y, ts⟩⟩
        · simp at hvs
        · simp at hvs
        · exact ⟨ts, by simp_all⟩
      obtain ⟨hw, hts⟩ := List.isChain_cons_cons.mp h
      have hfound := ih (List.isChain_cons.mp hts).2 (by simpa using hvs) hholds
      by_contra hnot
      have hpends : holdsOperators.needsOperand w = true := by simpa [hnot] using hfound
      simpa [closes] using hw hpends
  | case2 found w vs =>
      obtain ⟨ts, rfl, hhead⟩ : ∃ us, ts = .word w :: us ∧
          (us ++ [symbol .parenClose]).head? = some (.symbol .parenClose) := by
        rcases ts with _ | ⟨x, _ | ⟨y, ts⟩⟩
        · simp at hvs
        · exact ⟨[], by simp_all⟩
        · exact ⟨y :: ts, by simp_all⟩
      by_contra hnot
      have hpends : holdsOperators.needsOperand w = true := by simpa [hnot] using hholds
      simpa [closes] using (List.isChain_cons.mp h).1 _ hhead hpends
  | case3 => simp at hholds

end Lexeme

/-! ## Expressions -/

@[simp] theorem Word.pends_of_isOperand {w : Word} (h : w.isOperand = true) :
    (Lexeme.word w).pends = false := by
  cases w with
  | plain t => rfl
  | keyword k => cases k <;> first | rfl | cases h

theorem Lexeme.closes_of_startsExpr {l : Lexeme} (h : l.startsExpr = true) : l.closes = false := by
  cases l with
  | symbol s => cases s <;> first | rfl | cases h
  | _ => rfl

/-- A lexeme before an expression does not stand alone. -/
theorem Expr.isChain_cons {x : Lexeme} {e : Expr} {us : List Lexeme}
    (h : (e.lexemes ++ us).IsChain Lexeme.Precedes) :
    (x :: (e.lexemes ++ us)).IsChain Lexeme.Precedes := by
  obtain ⟨l, ts, hts, hl⟩ := e.exists_lexemes_eq_cons
  rw [hts] at h ⊢
  exact List.isChain_cons_cons.mpr ⟨fun _ => Lexeme.closes_of_startsExpr hl, h⟩

/-- What does not pend may stand before anything. -/
theorem Lexeme.isChain_cons {x : Lexeme} {us : List Lexeme} (hx : x.pends = false)
    (h : us.IsChain Precedes) : (x :: us).IsChain Precedes :=
  List.isChain_cons.mpr ⟨fun _ _ hpends => by simp [hx] at hpends, h⟩

mutual

theorem Literal.isChain_lexemes (l : Literal) (h : l.Normal) {us : List Lexeme}
    (hus : us.IsChain Lexeme.Precedes) : (l.lexemes ++ us).IsChain Lexeme.Precedes := by
  cases l with
  | number t => exact Lexeme.isChain_cons rfl hus
  | bool value => cases value <;> exact Lexeme.isChain_cons rfl hus
  | array es =>
      have hend := Lexeme.isChain_cons (x := .symbol .squareClose) rfl hus
      have hes := Exprs.isChain_lexemes es h hend
      simpa [Literal.lexemes] using Lexeme.isChain_cons rfl hes

/-- In an expression no word stands alone that needs an operand. -/
theorem Expr.isChain_lexemes (e : Expr) (h : e.Normal) {us : List Lexeme}
    (hus : us.IsChain Lexeme.Precedes) : (e.lexemes ++ us).IsChain Lexeme.Precedes := by
  cases e with
  | literal l => exact Literal.isChain_lexemes l h hus
  | name n => exact Lexeme.isChain_cons (Word.pends_of_isOperand h) hus
  | paren o e =>
      have hend := Lexeme.isChain_cons (x := .symbol .parenClose) rfl hus
      have he := Expr.isChain_lexemes e h hend
      simpa [Expr.lexemes] using Expr.isChain_cons (x := o.lexeme) he
  | tuple o e f es =>
      obtain ⟨he, hf, hes⟩ := h
      have hend := Lexeme.isChain_cons (x := .symbol .parenClose) rfl hus
      have hf := Expr.isChain_lexemes f hf (Exprs.isChain_moreLexemes es hes hend)
      have he := Expr.isChain_lexemes e he (Expr.isChain_cons (x := .symbol .comma) hf)
      simpa [Expr.lexemes] using Expr.isChain_cons (x := o.lexeme) he
  | record n e fs =>
      obtain ⟨he, hfs⟩ := h
      have hend := Lexeme.isChain_cons (x := .symbol .braceClose) rfl hus
      have he := Expr.isChain_lexemes e he (Fields.isChain_moreLexemes fs hfs hend)
      have hname := (List.isChain_cons_cons (R := Lexeme.Precedes) (a := .word n)).mpr
        ⟨fun _ => rfl, Lexeme.isChain_cons (x := .symbol .equal) rfl he⟩
      simpa [Expr.lexemes] using Lexeme.isChain_cons (x := .symbol .braceOpen) rfl hname
  | call f args =>
      obtain ⟨hf, hargs⟩ := h
      have hend := Lexeme.isChain_cons (x := .symbol .parenClose) rfl hus
      have hargs := Args.isChain_lexemes args hargs hend
      simpa [Expr.lexemes] using Lexeme.isChain_cons (Word.pends_of_isOperand hf)
        (Lexeme.isChain_cons (x := .symbol .parenOpen) rfl hargs)
  | unary op e => exact Expr.isChain_cons (Expr.isChain_lexemes e h.2 hus)
  | binary l op r =>
      obtain ⟨-, -, hl, hr⟩ := h
      have hr := Expr.isChain_cons (x := op.lexeme) (Expr.isChain_lexemes r hr hus)
      simpa [Expr.lexemes] using Expr.isChain_lexemes l hl hr
  | cond c y n =>
      obtain ⟨hc, hy, hn⟩ := h
      have hn := Expr.isChain_cons (x := .kw .else_) (Expr.isChain_lexemes n hn hus)
      have hy := Expr.isChain_cons (x := .kw .then_) (Expr.isChain_lexemes y hy hn)
      have hc := Expr.isChain_cons (x := .kw .if_) (Expr.isChain_lexemes c hc hy)
      simpa [Expr.lexemes] using hc

theorem Exprs.isChain_lexemes (es : Exprs) (h : es.Normal) {us : List Lexeme}
    (hus : us.IsChain Lexeme.Precedes) : (es.lexemes ++ us).IsChain Lexeme.Precedes := by
  cases es with
  | nil => exact hus
  | cons e es =>
      have he := Expr.isChain_lexemes e h.1 (Exprs.isChain_moreLexemes es h.2 hus)
      simpa [Exprs.lexemes] using he

theorem Exprs.isChain_moreLexemes (es : Exprs) (h : es.Normal) {us : List Lexeme}
    (hus : us.IsChain Lexeme.Precedes) : (es.moreLexemes ++ us).IsChain Lexeme.Precedes := by
  cases es with
  | nil => exact hus
  | cons e es =>
      have he := Expr.isChain_lexemes e h.1 (Exprs.isChain_moreLexemes es h.2 hus)
      simpa [Exprs.moreLexemes] using Expr.isChain_cons (x := .symbol .comma) he

theorem Fields.isChain_moreLexemes (fs : Fields) (h : fs.Normal) {us : List Lexeme}
    (hus : us.IsChain Lexeme.Precedes) : (fs.moreLexemes ++ us).IsChain Lexeme.Precedes := by
  cases fs with
  | nil => exact hus
  | cons n e fs =>
      have he := Expr.isChain_lexemes e h.1 (Fields.isChain_moreLexemes fs h.2 hus)
      have hname := (List.isChain_cons_cons (R := Lexeme.Precedes) (a := .word n)).mpr
        ⟨fun _ => rfl, Lexeme.isChain_cons (x := .symbol .equal) rfl he⟩
      simpa [Fields.moreLexemes] using Lexeme.isChain_cons (x := .symbol .semicolon) rfl hname

theorem Args.isChain_lexemes (args : Args) (h : args.Normal) {us : List Lexeme}
    (hus : us.IsChain Lexeme.Precedes) : (args.lexemes ++ us).IsChain Lexeme.Precedes := by
  cases args with
  | nil => exact hus
  | group e es rest =>
      obtain ⟨he, hes, hrest, -⟩ := h
      have he := Expr.isChain_lexemes e he (Exprs.isChain_moreLexemes es hes
        (Args.isChain_lexemes rest hrest hus))
      simpa [Args.lexemes] using he

end

theorem Lexeme.holdsOperators_of_isChain {ts us : List Lexeme}
    (h : (ts ++ [symbol .parenClose]).IsChain Precedes) :
    holdsOperators false (ts ++ symbol .parenClose :: us) = false :=
  Bool.eq_false_iff.mpr fun hholds =>
    Bool.false_ne_true (found_of_holdsOperators_append h hholds)

/-- The parenthesis of an expression does not hold the targets of an equation. -/
theorem Expr.holdsOperators_eq (e : Expr) (h : e.Normal) {o : Opening} {ts : List Lexeme}
    (hlexemes : e.lexemes = o.lexeme :: ts) (us : List Lexeme) :
    Lexeme.holdsOperators false (ts ++ us) = false := by
  have hend : ([.symbol .parenClose] : List Lexeme).IsChain Lexeme.Precedes := .singleton _
  have hnever : ∀ xs vs : List Lexeme, (xs ++ [Lexeme.symbol .parenClose]).IsChain Lexeme.Precedes →
      Lexeme.holdsOperators false (xs ++ .symbol .parenClose :: vs) = false := fun _ _ =>
    Lexeme.holdsOperators_of_isChain
  cases e with
  | paren o' e =>
      obtain ⟨-, rfl⟩ := List.cons.inj hlexemes
      simpa using hnever e.lexemes us (Expr.isChain_lexemes e h hend)
  | tuple o' e f es =>
      obtain ⟨-, rfl⟩ := List.cons.inj hlexemes
      obtain ⟨he, hf, hes⟩ := h
      have hf := Expr.isChain_lexemes f hf (Exprs.isChain_moreLexemes es hes hend)
      have he := Expr.isChain_lexemes e he (Expr.isChain_cons (x := .symbol .comma) hf)
      have := hnever (e.lexemes ++ .symbol .comma :: (f.lexemes ++ es.moreLexemes)) us
        (by simpa using he)
      simpa using this
  | binary l op r =>
      obtain ⟨t, vs, hvs, -⟩ := l.exists_lexemes_eq_cons
      rw [Expr.lexemes, hvs, List.cons_append] at hlexemes
      obtain ⟨rfl, rfl⟩ := List.cons.inj hlexemes
      rw [List.append_assoc]
      exact l.holdsOperators_eq h.2.2.1 hvs _
  | literal l =>
      cases l with
      | bool value =>
          cases value <;> cases o <;>
            simp [Expr.lexemes, Literal.lexemes, Opening.lexeme] at hlexemes
      | _ => cases o <;> simp [Expr.lexemes, Literal.lexemes, Opening.lexeme] at hlexemes
  | unary op e => cases o <;> cases op <;>
      simp [Expr.lexemes, UnaryOp.lexeme, Opening.lexeme] at hlexemes
  | _ => cases o <;> simp [Expr.lexemes, Opening.lexeme] at hlexemes

/-! ## Expressions as they are read first -/

@[simp] theorem UnaryOp.lexeme_ne_parenOpen (op : UnaryOp) : op.lexeme ≠ .symbol .parenOpen := by
  cases op <;> simp [UnaryOp.lexeme]

@[simp] theorem UnaryOp.lexeme_ne_apart (op : UnaryOp) : op.lexeme ≠ .apart := by
  cases op <;> simp [UnaryOp.lexeme]

@[simp] theorem BinaryOp.lexeme_ne_parenOpen (op : BinaryOp) : op.lexeme ≠ .symbol .parenOpen := by
  cases op <;> simp [BinaryOp.lexeme]

@[simp] theorem BinaryOp.lexeme_ne_apart (op : BinaryOp) : op.lexeme ≠ .apart := by
  cases op <;> simp [BinaryOp.lexeme]

mutual

theorem Literal.joined_lexemes_append (l : Literal) (h : l.Normal) (us : List Lexeme) :
    Lexeme.joined (l.lexemes ++ us) = l.lexemes.map Lexeme.shown ++ Lexeme.joined us := by
  cases l with
  | number t => simp [Literal.lexemes, Lexeme.joined_cons]
  | bool value => cases value <;> simp [Literal.lexemes, Lexeme.joined_cons]
  | array es =>
      simp [Literal.lexemes, Lexeme.joined_cons, Exprs.joined_lexemes_append es h]

/-- In an expression no parenthesis stands apart when it is read first. -/
theorem Expr.joined_lexemes_append (e : Expr) (h : e.Normal) (us : List Lexeme) :
    Lexeme.joined (e.lexemes ++ us) = e.lexemes.map Lexeme.shown ++ Lexeme.joined us := by
  have hopening : ∀ {o : Opening} {ts : List Lexeme}, e.lexemes = o.lexeme :: ts →
      Lexeme.joined (o.lexeme :: (ts ++ us)) =
        .symbol .parenOpen :: Lexeme.joined (ts ++ us) := fun hlexemes => by
    rw [Lexeme.joined_opening, e.holdsOperators_eq h hlexemes us, if_neg (by simp)]
  cases e with
  | literal l => exact Literal.joined_lexemes_append l h us
  | name n => simp [Expr.lexemes, Lexeme.joined_cons]
  | paren o e =>
      rw [Expr.lexemes, List.cons_append, hopening rfl]
      simp [Lexeme.joined_cons, Expr.joined_lexemes_append e h]
  | tuple o e f es =>
      rw [Expr.lexemes, List.cons_append, hopening rfl]
      simp [Lexeme.joined_cons, Expr.joined_lexemes_append e h.1,
        Expr.joined_lexemes_append f h.2.1, Exprs.joined_moreLexemes_append es h.2.2]
  | record n e fs =>
      simp [Expr.lexemes, Lexeme.joined_cons, Expr.joined_lexemes_append e h.1,
        Fields.joined_moreLexemes_append fs h.2]
  | call f args =>
      have hchain := Args.isChain_lexemes args h.2 (.singleton (.symbol .parenClose))
      have hopen := Lexeme.joined_opening .plain (args.lexemes ++ .symbol .parenClose :: us)
      rw [Lexeme.holdsOperators_of_isChain hchain, if_neg (by simp)] at hopen
      simp only [Opening.lexeme] at hopen
      simp [Expr.lexemes, Lexeme.joined_cons, hopen, Args.joined_lexemes_append args h.2]
  | unary op e => simp [Expr.lexemes, Lexeme.joined_cons, Expr.joined_lexemes_append e h.2]
  | binary l op r =>
      simp [Expr.lexemes, Lexeme.joined_cons, Expr.joined_lexemes_append l h.2.2.1,
        Expr.joined_lexemes_append r h.2.2.2]
  | cond c y n =>
      simp [Expr.lexemes, Lexeme.joined_cons, Expr.joined_lexemes_append c h.1,
        Expr.joined_lexemes_append y h.2.1, Expr.joined_lexemes_append n h.2.2]

theorem Exprs.joined_lexemes_append (es : Exprs) (h : es.Normal) (us : List Lexeme) :
    Lexeme.joined (es.lexemes ++ us) = es.lexemes.map Lexeme.shown ++ Lexeme.joined us := by
  cases es with
  | nil => rfl
  | cons e es =>
      simp [Exprs.lexemes, Expr.joined_lexemes_append e h.1, Exprs.joined_moreLexemes_append es h.2]

theorem Exprs.joined_moreLexemes_append (es : Exprs) (h : es.Normal) (us : List Lexeme) :
    Lexeme.joined (es.moreLexemes ++ us) = es.moreLexemes.map Lexeme.shown ++ Lexeme.joined us := by
  cases es with
  | nil => rfl
  | cons e es =>
      simp [Exprs.moreLexemes, Lexeme.joined_cons, Expr.joined_lexemes_append e h.1,
        Exprs.joined_moreLexemes_append es h.2]

theorem Fields.joined_moreLexemes_append (fs : Fields) (h : fs.Normal) (us : List Lexeme) :
    Lexeme.joined (fs.moreLexemes ++ us) = fs.moreLexemes.map Lexeme.shown ++ Lexeme.joined us := by
  cases fs with
  | nil => rfl
  | cons n e fs =>
      simp [Fields.moreLexemes, Lexeme.joined_cons, Expr.joined_lexemes_append e h.1,
        Fields.joined_moreLexemes_append fs h.2]

theorem Args.joined_lexemes_append (args : Args) (h : args.Normal) (us : List Lexeme) :
    Lexeme.joined (args.lexemes ++ us) = args.lexemes.map Lexeme.shown ++ Lexeme.joined us := by
  cases args with
  | nil => rfl
  | group e es rest =>
      simp [Args.lexemes, Expr.joined_lexemes_append e h.1, Exprs.joined_moreLexemes_append es h.2.1,
        Args.joined_lexemes_append rest h.2.2.1]

end

/-! ## How the tree of an expression starts and ends -/

@[simp] theorem Tree.leavesAll_cons (t : Tree) (ts : List Tree) :
    leavesAll (t :: ts) = t.leaves ++ leavesAll ts := rfl

@[simp] theorem Tree.leavesAll_nil : leavesAll [] = [] := rfl

/-- The tokens of an expression are written with its lexemes, one with each. -/
theorem Expr.map_lexemes_leaves (e : Expr) :
    e.tree.leaves.map Leaf.lexemes = (Units.ofLexemes e.lexemes).shown := by
  simpa [Tree.unitsAll] using e.unitsAll_tree_cons []

theorem Expr.leaves_ne_nil (e : Expr) : e.tree.leaves ≠ [] := by
  intro hnil
  have := congrArg List.length e.map_lexemes_leaves
  have hlength := e.one_le_length_lexemes
  simp [hnil, Units.shown, Units.ofLexemes] at this
  omega

/-- What stands before an expression is not its last token. -/
theorem Expr.getLast?_leaves_append (ls : List Leaf) (e : Expr) :
    (ls ++ e.tree.leaves).getLast? = e.tree.leaves.getLast? := by
  rw [List.getLast?_append, List.getLast?_eq_some_getLast e.leaves_ne_nil]
  rfl

theorem Expr.endsInName_of_leaves : (e : Expr) → e.tree.EndsInName → e.endsInName = true
  | .literal (.number t), ⟨n, h⟩ => by simp [tree, Literal.tree, Tree.operand, Tree.leaves] at h
  | .literal (.bool b), ⟨n, h⟩ => by
      cases b <;> simp [tree, Literal.tree, Tree.operand, Tree.leaves] at h
  | .literal (.array es), ⟨n, h⟩ => by
      simp [tree, Literal.tree, Tree.operand, Tree.leaves, List.getLast?_append,
        List.getLast?_cons] at h
  | .name _, _ => rfl
  | .paren _ _, ⟨n, h⟩ => by simp [tree, Tree.operand, Tree.leaves, List.getLast?_append,
        List.getLast?_cons] at h
  | .tuple _ _ _ _, ⟨n, h⟩ => by simp [tree, Tree.operand, Tree.leaves, List.getLast?_append,
        List.getLast?_cons] at h
  | .record _ _ _, ⟨n, h⟩ => by simp [tree, Tree.operand, Tree.leaves, List.getLast?_append,
        List.getLast?_cons] at h
  | .call _ _, ⟨n, h⟩ => by simp [tree, Tree.operand, Tree.leaves, List.getLast?_append,
        List.getLast?_cons] at h
  | .unary op e, ⟨n, h⟩ => by
      refine e.endsInName_of_leaves ⟨n, ?_⟩
      rw [← e.getLast?_leaves_append [op.leaf]]
      simpa [tree, Tree.operand, Tree.leaves] using h
  | .binary l op r, ⟨n, h⟩ => by
      refine r.endsInName_of_leaves ⟨n, ?_⟩
      rw [← r.getLast?_leaves_append (l.tree.leaves ++ [op.leaf])]
      simpa [tree, Tree.operand, Tree.leaves] using h
  | .cond c y m, ⟨n, h⟩ => by
      refine m.endsInName_of_leaves ⟨n, ?_⟩
      rw [← m.getLast?_leaves_append (.keyword .if_ :: (c.tree.leaves ++
        .keyword .then_ :: (y.tree.leaves ++ [.keyword .else_])))]
      simpa [tree, Tree.leaves] using h

theorem Expr.exists_lexemes_of_startsInParen (e : Expr) (h : e.tree.StartsInParen) :
    ∃ (o : Opening) (ts : List Lexeme), e.lexemes = o.lexeme :: ts := by
  obtain ⟨l, ts, hts, -⟩ := e.exists_lexemes_eq_cons
  have hhead := congrArg List.head? e.map_lexemes_leaves
  rw [List.head?_map, h, hts] at hhead
  have hshown : l.shown = .symbol .parenOpen := by simpa using hhead.symm
  cases l with
  | apart => exact ⟨.apart, ts, hts⟩
  | symbol s =>
      obtain rfl : s = .parenOpen := by simpa using hshown
      exact ⟨.plain, ts, hts⟩
  | _ => simp at hshown

/-- A name at the end of an expression does not call the next argument. -/
theorem Expr.parted {e f : Expr} {us : List Lexeme} (hstops : e.Stops (f.lexemes ++ us))
    (hf : f.Normal) (hname : e.tree.EndsInName) (hparen : f.tree.StartsInParen) :
    e.tree.Parted f.tree (f.lexemes ++ us) := by
  obtain ⟨o, ts, hts⟩ := f.exists_lexemes_of_startsInParen hparen
  have hhead := hstops.paren (e.endsInName_of_leaves hname)
  obtain rfl : o = .apart := by
    cases o with
    | plain => simp [hts, Opening.lexeme] at hhead
    | apart => rfl
  have hstatement : e.tree.isStatement = false := by cases e <;> rfl
  refine ⟨fun _ => ⟨ts ++ us, by rw [hts]; rfl, f.holdsOperators_eq hf hts us⟩, fun h => ?_⟩
  simp [hstatement] at h

/-! ## No name in an expression calls what meets it -/

@[simp] theorem Expr.drop_width (e : Expr) (us : List Lexeme) :
    (e.lexemes ++ us).drop e.tree.width = us := by
  rw [e.width_tree, List.drop_left]

@[simp] theorem Tree.meets_leaf (t : Tree) (l : Leaf) : t.meets (leaf l) = false :=
  meets_eq_false_right isJoint_leaf t

/-- After a field a semicolon or the closing brace comes. -/
theorem Fields.exists_more_append (fs : Fields) :
    ∃ l ts, fs.more ++ [.sym .braceClose] = .leaf l :: ts := by
  cases fs with
  | nil => exact ⟨_, _, rfl⟩
  | cons n e fs => exact ⟨_, _, rfl⟩

mutual

theorem Literal.joins (l : Literal) (h : l.Normal) (us : List Lexeme) :
    l.tree.Joins (l.lexemes ++ us) := by
  cases l with
  | number t => simp [Literal.tree]
  | bool value => cases value <;> simp [Literal.tree]
  | array es =>
      cases es with
      | nil => simp [Literal.tree, Exprs.trees]
      | cons e es =>
          have hclose : Tree.JoinsAll (.symbol .squareClose :: us) [.sym .squareClose] := by simp
          have hes := Exprs.joinsAll_more e es (Expr.joins e h.1) h.2 hclose (by simp)
          simpa [Literal.tree, Exprs.trees, Literal.lexemes, Exprs.lexemes] using hes

theorem Expr.joins (e : Expr) (h : e.Normal) (us : List Lexeme) :
    e.tree.Joins (e.lexemes ++ us) := by
  cases e with
  | literal l => simpa [Expr.tree, Tree.operand, Expr.lexemes] using Literal.joins l h us
  | name n => simp [Expr.tree, Tree.operand]
  | paren o e =>
      simpa [Expr.tree, Tree.operand, Expr.lexemes] using Expr.joins e h (.symbol .parenClose :: us)
  | tuple o e f es =>
      obtain ⟨he, hf, hes⟩ := h
      have he := Expr.joins e he (.symbol .comma :: (f.lexemes ++ (es.moreLexemes ++
        .symbol .parenClose :: us)))
      have hclose : Tree.JoinsAll (.symbol .parenClose :: us) [.sym .parenClose] := by simp
      have hmore := Exprs.joinsAll_more f es (Expr.joins f hf) hes hclose (by simp)
      simpa [Expr.tree, Tree.operand, Expr.lexemes] using ⟨he, hmore⟩
  | record n e fs =>
      have he := Expr.joins e h.1 (fs.moreLexemes ++ .symbol .braceClose :: us)
      have hfs := Fields.joinsAll_more fs h.2 us
      obtain ⟨l, vs, hvs⟩ := fs.exists_more_append
      rw [hvs] at hfs
      simpa [Expr.tree, Tree.operand, Expr.lexemes, hvs] using ⟨he, by simpa using hfs⟩
  | call f args => simpa [Expr.tree, Tree.operand, Expr.lexemes] using Args.joinsAll_trees args h.2 us
  | unary op e =>
      have he := Expr.joins e h.2 us
      have hmeets : (Tree.node .unaryOperator [.leaf op.leaf]).meets e.tree = false := rfl
      simpa [Expr.tree, Tree.operand, Expr.lexemes, Tree.JoinsAll, hmeets, Tree.width,
        Tree.widthAll] using he
  | binary l op r =>
      have hl := Expr.joins l h.2.2.1 (op.lexeme :: (r.lexemes ++ us))
      have hr := Expr.joins r h.2.2.2 us
      have hmeets : (Tree.node .binaryOperator [.leaf op.leaf]).meets r.tree = false := rfl
      have hmeets' : l.tree.meets (.node .binaryOperator [.leaf op.leaf]) = false := by
        simp [Tree.meets, Tree.label, Tree.isStatement, Kind.isStatement]
      simpa [Expr.tree, Tree.operand, Expr.lexemes, Tree.JoinsAll, hmeets, hmeets', Tree.width,
        Tree.widthAll] using ⟨hl, hr⟩
  | cond c y n =>
      obtain ⟨hc, hy, hn⟩ := h
      have hc := Expr.joins c hc (.kw .then_ :: (y.lexemes ++ .kw .else_ :: (n.lexemes ++ us)))
      have hy := Expr.joins y hy (.kw .else_ :: (n.lexemes ++ us))
      have hn := Expr.joins n hn us
      simpa [Expr.tree, Expr.lexemes] using ⟨hc, hy, hn⟩

/-- A row of expressions with commas between, and what follows it. -/
theorem Exprs.joinsAll_more (e : Expr) (es : Exprs) (he : ∀ us, e.tree.Joins (e.lexemes ++ us))
    (hes : es.Normal) {us : List Lexeme} {vs : List Tree} (hvs : Tree.JoinsAll us vs)
    (hlast : ∀ v ∈ vs.head?, (es.lastOr e).tree.meets v = true →
      (es.lastOr e).tree.EndsInName → v.StartsInParen → (es.lastOr e).tree.Parted v us) :
    Tree.JoinsAll (e.lexemes ++ (es.moreLexemes ++ us)) (e.tree :: (es.more ++ vs)) := by
  cases es with
  | nil =>
      refine ⟨he us, fun v hv => ?_, ?_⟩
      · rw [e.drop_width]
        exact hlast v hv
      · rw [e.drop_width]
        exact hvs
  | cons f fs =>
      have hmore := Exprs.joinsAll_more f fs (Expr.joins f hes.1) hes.2 hvs hlast
      have he := he (.symbol .comma :: (f.lexemes ++ (fs.moreLexemes ++ us)))
      simpa [Exprs.more, Exprs.moreLexemes] using ⟨he, hmore⟩

theorem Fields.joinsAll_more (fs : Fields) (h : fs.Normal) (us : List Lexeme) :
    Tree.JoinsAll (fs.moreLexemes ++ .symbol .braceClose :: us) (fs.more ++ [.sym .braceClose]) := by
  cases fs with
  | nil => simp [Fields.more]
  | cons n e fs =>
      have he := Expr.joins e h.1 (fs.moreLexemes ++ .symbol .braceClose :: us)
      have hfs := Fields.joinsAll_more fs h.2 us
      obtain ⟨l, vs, hvs⟩ := fs.exists_more_append
      rw [hvs] at hfs
      simpa [Fields.more, Fields.moreLexemes, hvs] using ⟨he, by simpa using hfs⟩

theorem Args.joinsAll_trees (args : Args) (h : args.Normal) (us : List Lexeme) :
    Tree.JoinsAll (args.lexemes ++ .symbol .parenClose :: us) (args.trees ++ [.sym .parenClose]) := by
  cases args with
  | nil => simp [Args.trees]
  | group e es rest =>
      obtain ⟨he, hes, hrest, hstops⟩ := h
      have hmore := Exprs.joinsAll_more e es (Expr.joins e he) hes
        (Args.joinsAll_trees rest hrest us) (by
        intro v hv hmeets hname hparen
        cases rest with
        | nil =>
            obtain rfl : .sym .parenClose = v := by simpa [Args.trees] using hv
            simp at hmeets
        | group f fs rest =>
            obtain rfl : f.tree = v := by simpa [Args.trees] using hv
            have hstops := hstops.append_right us
            simp only [Args.lexemes, List.append_assoc] at hstops ⊢
            exact Expr.parted hstops hrest.1 hname hparen)
      simpa [Args.trees, Args.lexemes] using hmore

end

end Heptagon
