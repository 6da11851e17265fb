import Heptagon.Proofs.Respelling.Token
import Heptagon.Proofs.Statement.Reading

/-!
# Expressions in another spelling

Two expressions are alike (`Expr.Alike`) if they have the same structure and
their names and numbers differ in spelling only.  Then their lexemes and trees
are alike, the one is how its text is read if the other is
(`Expr.Alike.normal`), and they end alike.

Whatever other tokens the leaves of an expression are replaced by, they are
the leaves of an expression that is like it (`Expr.exists_alike`).
-/

namespace Heptagon

mutual

inductive Literal.Alike : Literal → Literal → Prop
  | number (t t' : Text) : Literal.Alike (.number t) (.number t')
  | bool (value : Bool) : Literal.Alike (.bool value) (.bool value)
  | array {es es' : Exprs} (h : Exprs.Alike es es') : Literal.Alike (.array es) (.array es')

/-- Two expressions differ in the spelling of their names and numbers only. -/
inductive Expr.Alike : Expr → Expr → Prop
  | literal {l l' : Literal} (h : Literal.Alike l l') : Expr.Alike (.literal l) (.literal l')
  | name {n n' : Name} (h : n.Alike n') : Expr.Alike (.name n) (.name n')
  | paren {e e' : Expr} (o : Opening) (h : Expr.Alike e e') : Expr.Alike (.paren o e) (.paren o e')
  | tuple {e e' f f' : Expr} {es es' : Exprs} (o : Opening) (he : Expr.Alike e e')
      (hf : Expr.Alike f f') (hes : Exprs.Alike es es') :
      Expr.Alike (.tuple o e f es) (.tuple o e' f' es')
  | record {n n' : Name} {e e' : Expr} {fs fs' : Fields} (hn : n.Alike n') (he : Expr.Alike e e')
      (hfs : Fields.Alike fs fs') : Expr.Alike (.record n e fs) (.record n' e' fs')
  | call {f f' : Name} {args args' : Args} (hf : f.Alike f') (hargs : Args.Alike args args') :
      Expr.Alike (.call f args) (.call f' args')
  | unary {op op' : UnaryOp} {e e' : Expr} (hop : op.Alike op') (h : Expr.Alike e e') :
      Expr.Alike (.unary op e) (.unary op' e')
  | binary {l l' r r' : Expr} {op op' : BinaryOp} (hl : Expr.Alike l l') (hop : op.Alike op')
      (hr : Expr.Alike r r') : Expr.Alike (.binary l op r) (.binary l' op' r')
  | cond {c c' y y' n n' : Expr} (hc : Expr.Alike c c') (hy : Expr.Alike y y')
      (hn : Expr.Alike n n') : Expr.Alike (.cond c y n) (.cond c' y' n')

inductive Exprs.Alike : Exprs → Exprs → Prop
  | nil : Exprs.Alike .nil .nil
  | cons {e e' : Expr} {es es' : Exprs} (he : Expr.Alike e e') (hes : Exprs.Alike es es') :
      Exprs.Alike (.cons e es) (.cons e' es')

inductive Fields.Alike : Fields → Fields → Prop
  | nil : Fields.Alike .nil .nil
  | cons {n n' : Name} {e e' : Expr} {fs fs' : Fields} (hn : n.Alike n') (he : Expr.Alike e e')
      (hfs : Fields.Alike fs fs') : Fields.Alike (.cons n e fs) (.cons n' e' fs')

inductive Args.Alike : Args → Args → Prop
  | nil : Args.Alike .nil .nil
  | group {e e' : Expr} {es es' : Exprs} {rest rest' : Args} (he : Expr.Alike e e')
      (hes : Exprs.Alike es es') (hrest : Args.Alike rest rest') :
      Args.Alike (.group e es rest) (.group e' es' rest')

end

/-! ## Lexemes -/

mutual

theorem Literal.Alike.lexemes : (l : Literal) → ∀ {l' : Literal}, l.Alike l' →
    List.Forall₂ Lexeme.Alike l.lexemes l'.lexemes
  | .number _, _, .number _ _ => .cons (.number _ _) .nil
  | .bool value, _, .bool _ => List.forall₂_same.mpr fun l _ => .refl l
  | .array es, _, .array h =>
      .cons (.refl _) (List.rel_append (Exprs.Alike.lexemes es h) (.cons (.refl _) .nil))

theorem Expr.Alike.lexemes : (e : Expr) → ∀ {e' : Expr}, e.Alike e' →
    List.Forall₂ Lexeme.Alike e.lexemes e'.lexemes
  | .literal l, _, .literal h => Literal.Alike.lexemes l h
  | .name _, _, .name h => .cons (.word h) .nil
  | .paren _ e, _, .paren _ h =>
      .cons (.refl _) (List.rel_append (Expr.Alike.lexemes e h) (.cons (.refl _) .nil))
  | .tuple _ e f es, _, .tuple _ he hf hes =>
      .cons (.refl _) (List.rel_append (Expr.Alike.lexemes e he) (.cons (.refl _)
        (List.rel_append (Expr.Alike.lexemes f hf)
          (List.rel_append (Exprs.Alike.moreLexemes es hes) (.cons (.refl _) .nil)))))
  | .record _ e fs, _, .record hn he hfs =>
      .cons (.refl _) (.cons (.word hn) (.cons (.refl _) (List.rel_append (Expr.Alike.lexemes e he)
        (List.rel_append (Fields.Alike.moreLexemes fs hfs) (.cons (.refl _) .nil)))))
  | .call _ args, _, .call hf hargs =>
      .cons (.word hf) (.cons (.refl _)
        (List.rel_append (Args.Alike.lexemes args hargs) (.cons (.refl _) .nil)))
  | .unary _ e, _, .unary hop h => .cons hop.lexeme (Expr.Alike.lexemes e h)
  | .binary l _ r, _, .binary hl hop hr =>
      List.rel_append (Expr.Alike.lexemes l hl) (.cons hop.lexeme (Expr.Alike.lexemes r hr))
  | .cond c y n, _, .cond hc hy hn =>
      .cons (.refl _) (List.rel_append (Expr.Alike.lexemes c hc) (.cons (.refl _)
        (List.rel_append (Expr.Alike.lexemes y hy) (.cons (.refl _) (Expr.Alike.lexemes n hn)))))

theorem Exprs.Alike.lexemes : (es : Exprs) → ∀ {es' : Exprs}, es.Alike es' →
    List.Forall₂ Lexeme.Alike es.lexemes es'.lexemes
  | .nil, _, .nil => .nil
  | .cons e es, _, .cons he hes =>
      List.rel_append (Expr.Alike.lexemes e he) (Exprs.Alike.moreLexemes es hes)

theorem Exprs.Alike.moreLexemes : (es : Exprs) → ∀ {es' : Exprs}, es.Alike es' →
    List.Forall₂ Lexeme.Alike es.moreLexemes es'.moreLexemes
  | .nil, _, .nil => .nil
  | .cons e es, _, .cons he hes => .cons (.refl _)
      (List.rel_append (Expr.Alike.lexemes e he) (Exprs.Alike.moreLexemes es hes))

theorem Fields.Alike.moreLexemes : (fs : Fields) → ∀ {fs' : Fields}, fs.Alike fs' →
    List.Forall₂ Lexeme.Alike fs.moreLexemes fs'.moreLexemes
  | .nil, _, .nil => .nil
  | .cons _ e fs, _, .cons hn he hfs => .cons (.refl _) (.cons (.word hn) (.cons (.refl _)
      (List.rel_append (Expr.Alike.lexemes e he) (Fields.Alike.moreLexemes fs hfs))))

theorem Args.Alike.lexemes : (args : Args) → ∀ {args' : Args}, args.Alike args' →
    List.Forall₂ Lexeme.Alike args.lexemes args'.lexemes
  | .nil, _, .nil => .nil
  | .group e es rest, _, .group he hes hrest =>
      List.rel_append (Expr.Alike.lexemes e he)
        (List.rel_append (Exprs.Alike.moreLexemes es hes) (Args.Alike.lexemes rest hrest))

end

/-! ## Trees -/

mutual

theorem Literal.Alike.tree : (l : Literal) → ∀ {l' : Literal}, l.Alike l' → l.tree.Alike l'.tree
  | .number _, _, .number _ _ => by simp [Literal.tree]
  | .bool _, _, .bool _ => .refl _
  | .array es, _, .array h => by
      simp [Literal.tree, List.rel_append (Exprs.Alike.trees es h) (Tree.Rel.reflAll _)]

theorem Expr.Alike.tree : (e : Expr) → ∀ {e' : Expr}, e.Alike e' → e.tree.Alike e'.tree
  | .literal l, _, .literal h => by simp [Expr.tree, Tree.operand, Literal.Alike.tree l h]
  | .name _, _, .name h => by simp [Expr.tree, Tree.operand, h]
  | .paren _ e, _, .paren _ h => by simp [Expr.tree, Tree.operand, Expr.Alike.tree e h]
  | .tuple _ e f es, _, .tuple _ he hf hes => by
      simp [Expr.tree, Tree.operand, Expr.Alike.tree e he, Expr.Alike.tree f hf,
        List.rel_append (Exprs.Alike.more es hes) (Tree.Rel.reflAll _)]
  | .record _ e fs, _, .record hn he hfs => by
      simp [Expr.tree, Tree.operand, hn, Expr.Alike.tree e he,
        List.rel_append (Fields.Alike.more fs hfs) (Tree.Rel.reflAll _)]
  | .call _ args, _, .call hf hargs => by
      simp [Expr.tree, Tree.operand, hf,
        List.rel_append (Args.Alike.trees args hargs) (Tree.Rel.reflAll _)]
  | .unary op e, .unary op' _, .unary hop h => by
      have hleaf : op.leaf.Alike op'.leaf := hop
      simp [Expr.tree, Tree.operand, hleaf, Expr.Alike.tree e h]
  | .binary l op r, .binary _ op' _, .binary hl hop hr => by
      have hleaf : op.leaf.Alike op'.leaf := hop
      simp [Expr.tree, Tree.operand, hleaf, Expr.Alike.tree l hl, Expr.Alike.tree r hr]
  | .cond c y n, _, .cond hc hy hn => by
      simp [Expr.tree, Expr.Alike.tree c hc, Expr.Alike.tree y hy, Expr.Alike.tree n hn]

theorem Exprs.Alike.trees : (es : Exprs) → ∀ {es' : Exprs}, es.Alike es' →
    List.Forall₂ Tree.Alike es.trees es'.trees
  | .nil, _, .nil => .nil
  | .cons e es, _, .cons he hes => .cons (Expr.Alike.tree e he) (Exprs.Alike.more es hes)

theorem Exprs.Alike.more : (es : Exprs) → ∀ {es' : Exprs}, es.Alike es' →
    List.Forall₂ Tree.Alike es.more es'.more
  | .nil, _, .nil => .nil
  | .cons e es, _, .cons he hes =>
      .cons (.refl _) (.cons (Expr.Alike.tree e he) (Exprs.Alike.more es hes))

theorem Fields.Alike.more : (fs : Fields) → ∀ {fs' : Fields}, fs.Alike fs' →
    List.Forall₂ Tree.Alike fs.more fs'.more
  | .nil, _, .nil => .nil
  | .cons _ e fs, _, .cons hn he hfs => .cons (.refl _) (.cons (.leaf (.name hn))
      (.cons (.refl _) (.cons (Expr.Alike.tree e he) (Fields.Alike.more fs hfs))))

theorem Args.Alike.trees : (args : Args) → ∀ {args' : Args}, args.Alike args' →
    List.Forall₂ Tree.Alike args.trees args'.trees
  | .nil, _, .nil => .nil
  | .group e es rest, _, .group he hes hrest =>
      .cons (Expr.Alike.tree e he)
        (List.rel_append (Exprs.Alike.more es hes) (Args.Alike.trees rest hrest))

end

/-! ## Ends -/

namespace Expr.Alike

theorem isBinary_eq {e e' : Expr} (h : e.Alike e') : e'.isBinary = e.isBinary := by
  cases h <;> rfl

theorem endsInName_eq : (e : Expr) → ∀ {e' : Expr}, e.Alike e' → e'.endsInName = e.endsInName
  | .unary _ e, _, .unary _ h => (endsInName_eq e h :)
  | .binary _ _ r, _, .binary _ _ hr => (endsInName_eq r hr :)
  | .cond _ _ n, _, .cond _ _ hn => (endsInName_eq n hn :)
  | .literal _, _, .literal _ | .name _, _, .name _ | .paren _ _, _, .paren _ _
  | .tuple _ _ _ _, _, .tuple _ _ _ _ | .record _ _ _, _, .record _ _ _
  | .call _ _, _, .call _ _ => rfl

theorem endsInCond_eq : (e : Expr) → ∀ {e' : Expr}, e.Alike e' → e'.endsInCond = e.endsInCond
  | .unary _ e, _, .unary _ h => (endsInCond_eq e h :)
  | .binary _ _ r, _, .binary _ _ hr => (endsInCond_eq r hr :)
  | .cond _ _ _, _, .cond _ _ _ => rfl
  | .literal _, _, .literal _ | .name _, _, .name _ | .paren _ _, _, .paren _ _
  | .tuple _ _ _ _, _, .tuple _ _ _ _ | .record _ _ _, _, .record _ _ _
  | .call _ _, _, .call _ _ => rfl

/-- An expression stops where one that is like it does. -/
theorem stops {e e' : Expr} (h : e.Alike e') {ts ts' : List Lexeme} (hts : Lexeme.HeadAlike ts ts')
    (hstops : e.Stops ts) : e'.Stops ts' where
  operator := hts.take?_eq_none_iff.mpr hstops.operator
  paren := fun hname hparen =>
    hstops.paren (endsInName_eq e h ▸ hname) ((hts.head?_eq_symbol_iff rfl).mp hparen)

end Expr.Alike

theorem Exprs.Alike.lastOr : (es : Exprs) → ∀ {es' : Exprs} {e e' : Expr}, es.Alike es' →
    e.Alike e' → (es.lastOr e).Alike (es'.lastOr e')
  | .nil, _, _, _, .nil, h => h
  | .cons _ fs, _, _, _, .cons hf hfs, _ => (Exprs.Alike.lastOr fs hfs hf :)

/-! ## Normal expressions -/

mutual

theorem Literal.Alike.normal : (l : Literal) → ∀ {l' : Literal}, l.Alike l' → l.Normal → l'.Normal
  | .number _, _, .number _ _, _ => trivial
  | .bool _, _, .bool _, _ => trivial
  | .array es, _, .array h, hnormal => Exprs.Alike.normal es h hnormal

/-- Of two expressions that are alike, the one is how its text is read if the other is. -/
theorem Expr.Alike.normal : (e : Expr) → ∀ {e' : Expr}, e.Alike e' → e.Normal → e'.Normal
  | .literal l, _, .literal h, hnormal => Literal.Alike.normal l h hnormal
  | .name _, _, .name h, hnormal => h.isOperand_eq.trans hnormal
  | .paren _ e, _, .paren _ h, hnormal => (Expr.Alike.normal e h hnormal :)
  | .tuple _ e f es, _, .tuple _ he hf hes, ⟨hne, hnf, hnes⟩ =>
      ⟨Expr.Alike.normal e he hne, Expr.Alike.normal f hf hnf, Exprs.Alike.normal es hes hnes⟩
  | .record _ e fs, _, .record _ he hfs, ⟨hne, hnfs⟩ =>
      ⟨Expr.Alike.normal e he hne, Fields.Alike.normal fs hfs hnfs⟩
  | .call _ args, _, .call hf hargs, ⟨hnf, hnargs⟩ =>
      ⟨hf.isOperand_eq.trans hnf, Args.Alike.normal args hargs hnargs⟩
  | .unary _ e, _, .unary _ h, ⟨hbinary, hne⟩ =>
      ⟨h.isBinary_eq.trans hbinary, Expr.Alike.normal e h hne⟩
  | .binary l _ r, _, .binary hl _ hr, ⟨hcond, hbinary, hnl, hnr⟩ =>
      ⟨(Expr.Alike.endsInCond_eq l hl).trans hcond, hr.isBinary_eq.trans hbinary,
        Expr.Alike.normal l hl hnl, Expr.Alike.normal r hr hnr⟩
  | .cond c y n, _, .cond hc hy hn, ⟨hnc, hny, hnn⟩ =>
      ⟨Expr.Alike.normal c hc hnc, Expr.Alike.normal y hy hny, Expr.Alike.normal n hn hnn⟩

theorem Exprs.Alike.normal : (es : Exprs) → ∀ {es' : Exprs}, es.Alike es' → es.Normal → es'.Normal
  | .nil, _, .nil, _ => trivial
  | .cons e es, _, .cons he hes, ⟨hne, hnes⟩ =>
      ⟨Expr.Alike.normal e he hne, Exprs.Alike.normal es hes hnes⟩

theorem Fields.Alike.normal : (fs : Fields) → ∀ {fs' : Fields}, fs.Alike fs' → fs.Normal →
    fs'.Normal
  | .nil, _, .nil, _ => trivial
  | .cons _ e fs, _, .cons _ he hfs, ⟨hne, hnfs⟩ =>
      ⟨Expr.Alike.normal e he hne, Fields.Alike.normal fs hfs hnfs⟩

theorem Args.Alike.normal : (args : Args) → ∀ {args' : Args}, args.Alike args' → args.Normal →
    args'.Normal
  | .nil, _, .nil, _ => trivial
  | .group e es rest, _, .group he hes hrest, ⟨hne, hnes, hnrest, hstops⟩ =>
      ⟨Expr.Alike.normal e he hne, Exprs.Alike.normal es hes hnes,
        Args.Alike.normal rest hrest hnrest, (Exprs.Alike.lastOr es hes he).stops
          (.of_forall₂ (List.rel_append (Args.Alike.lexemes rest hrest) (.cons (.refl _) .nil)))
          hstops⟩

end

/-! ## Expressions that could end earlier -/

theorem Expr.Alike.isTarget_eq {e e' : Expr} (h : e.Alike e') : e'.isTarget = e.isTarget := by
  cases h with
  | literal h => cases h <;> rfl
  | _ => rfl

theorem Exprs.Alike.areTargets_eq : (es : Exprs) → ∀ {es' : Exprs}, es.Alike es' →
    es'.areTargets = es.areTargets
  | .nil, _, .nil => rfl
  | .cons _ es, _, .cons he hes =>
      congrArg₂ (· && ·) he.isTarget_eq (Exprs.Alike.areTargets_eq es hes)

theorem Args.Alike.areTargets_eq {args args' : Args} (h : args.Alike args') :
    args'.areTargets = args.areTargets := by
  cases h with
  | nil => rfl
  | group he hes hrest =>
      cases hrest with
      | nil => exact congrArg₂ (· && ·) he.isTarget_eq (Exprs.Alike.areTargets_eq _ hes)
      | group _ _ _ => rfl

theorem rel_map {α β : Type} {R : α → α → Prop} {S : β → β → Prop} {f g : α → β} {a b : Option α}
    (h : Option.Rel R a b) (hfg : ∀ x y, R x y → S (f x) (g y)) :
    Option.Rel S (a.map f) (b.map g) := by
  cases h with
  | none => exact .none
  | some h => exact .some (hfg _ _ h)

theorem exists_of_rel_some {α : Type} {R : α → α → Prop} {a : α} {o : Option α}
    (h : Option.Rel R (some a) o) : ∃ b, o = some b ∧ R a b := by
  cases h with
  | some h => exact ⟨_, rfl, h⟩

theorem eq_none_of_rel {α : Type} {R : α → α → Prop} {o : Option α} (h : Option.Rel R none o) :
    o = none := by
  cases h with
  | none => rfl

/-- Expressions that are alike could end at the same place. -/
theorem Expr.Alike.beforeEquation? {e e' : Expr} {next next' : Option BinaryOp} (h : e.Alike e')
    (hnext : next' = some .equal ↔ next = some .equal) :
    Option.Rel Expr.Alike (e.beforeEquation? next) (e'.beforeEquation? next') := by
  fun_induction Expr.beforeEquation? next e generalizing e' next' with
  | case1 next f args hargs =>
      cases h with
      | call hf hargs' =>
          rw [Bool.and_eq_true, beq_iff_eq] at hargs
          rw [Expr.beforeEquation?, hargs'.areTargets_eq, hargs.1, hnext.mpr hargs.2]
          exact .some (.name hf)
  | case2 next f args hargs =>
      cases h with
      | call hf hargs' =>
          rw [Bool.and_eq_true, beq_iff_eq] at hargs
          rw [Expr.beforeEquation?, hargs'.areTargets_eq, if_neg]
          · exact .none
          · rwa [Bool.and_eq_true, beq_iff_eq, hnext]
  | case3 next op operand ih =>
      cases h with
      | unary hop h => exact rel_map (ih h hnext) fun _ _ => .unary hop
  | case4 next l op r e₁ he ih =>
      cases h with
      | @binary _ l' _ r' _ op' hl hop hr =>
          -- the left operand could end earlier, and the one it is like, too
          have hrel := @ih l' (some op') hl (by simpa using hop.eq_equal_iff)
          rw [he] at hrel
          obtain ⟨e₂, he₂, halike⟩ := exists_of_rel_some hrel
          rw [Expr.beforeEquation?, he₂]
          exact .some halike
  | case5 next l op r he ihl ihr =>
      cases h with
      | @binary _ l' _ r' _ op' hl hop hr =>
          have hrel := @ihl l' (some op') hl (by simpa using hop.eq_equal_iff)
          rw [he] at hrel
          rw [Expr.beforeEquation?, eq_none_of_rel hrel]
          exact rel_map (ihr hr hnext) fun _ _ => .binary hl hop
  | case6 next c y n ih =>
      cases h with
      | cond hc hy hn => exact rel_map (ih hn hnext) fun _ _ => .cond hc hy
  | case7 next e hcall hunary hbinary hcond =>
      cases h with
      | call hf hargs => exact (hcall _ _ rfl).elim
      | unary op h => exact (hunary _ _ rfl).elim
      | binary op hl hr => exact (hbinary _ _ _ rfl).elim
      | cond hc hy hn => exact (hcond _ _ _ rfl).elim
      | _ => exact .none

/-! ## Other tokens -/

mutual

theorem Literal.exists_alike : (l : Literal) → ∀ {ls : List Leaf},
    List.Forall₂ Leaf.Alike l.tree.leaves ls → ∃ l' : Literal, l.Alike l' ∧ l'.tree.leaves = ls
  | .number t, ls, h => by
      simp only [Literal.tree, Tree.leaves, Tree.leavesAll, List.append_nil,
        List.forall₂_cons_left_iff, List.forall₂_nil_left_iff, Leaf.alike_number_iff] at h
      obtain ⟨_, _, ⟨t', rfl⟩, rfl, rfl⟩ := h
      exact ⟨.number t', .number t t', rfl⟩
  | .bool true, ls, h => by
      obtain rfl := by simpa [Literal.tree, Tree.leaves, Tree.leavesAll,
        List.forall₂_cons_left_iff] using h
      exact ⟨.bool true, .bool true, rfl⟩
  | .bool false, ls, h => by
      obtain rfl := by simpa [Literal.tree, Tree.leaves, Tree.leavesAll,
        List.forall₂_cons_left_iff] using h
      exact ⟨.bool false, .bool false, rfl⟩
  | .array es, ls, h => by
      simp only [Literal.tree, Tree.leaves, Tree.leavesAll, Tree.leavesAll_append, List.append_nil,
        List.cons_append, List.nil_append, List.forall₂_cons_left_iff, forall₂_append_left_iff,
        List.forall₂_nil_left_iff, Leaf.alike_symbol_iff] at h
      obtain ⟨_, _, rfl, ⟨us, _, hus, ⟨_, _, rfl, rfl, rfl⟩, rfl⟩, rfl⟩ := h
      obtain ⟨es', hes, rfl⟩ := Exprs.exists_alike es hus
      exact ⟨.array es', .array hes, by simp [Literal.tree, Tree.leaves, Tree.leavesAll]⟩

theorem Expr.exists_alike : (e : Expr) → ∀ {ls : List Leaf},
    List.Forall₂ Leaf.Alike e.tree.leaves ls → ∃ e' : Expr, e.Alike e' ∧ e'.tree.leaves = ls
  | .literal l, ls, h => by
      obtain ⟨l', hl, rfl⟩ := Literal.exists_alike l (by
        simpa [Expr.tree, Tree.operand, Tree.leaves, Tree.leavesAll] using h)
      exact ⟨.literal l', .literal hl, by simp [Expr.tree, Tree.operand, Tree.leaves, Tree.leavesAll]⟩
  | .name n, ls, h => by
      simp only [Expr.tree, Tree.operand, Tree.leaves, Tree.leavesAll, List.append_nil,
        List.forall₂_cons_left_iff, List.forall₂_nil_left_iff, Leaf.alike_name_iff] at h
      obtain ⟨_, _, ⟨n', rfl, hn⟩, rfl, rfl⟩ := h
      exact ⟨.name n', .name hn, rfl⟩
  | .paren o e, ls, h => by
      simp only [Expr.tree, Tree.operand, Tree.leaves, Tree.leavesAll, List.append_nil,
        List.cons_append, List.nil_append, List.forall₂_cons_left_iff, forall₂_append_left_iff,
        List.forall₂_nil_left_iff, Leaf.alike_symbol_iff] at h
      obtain ⟨_, _, rfl, ⟨us, _, hus, ⟨_, _, rfl, rfl, rfl⟩, rfl⟩, rfl⟩ := h
      obtain ⟨e', he, rfl⟩ := Expr.exists_alike e hus
      exact ⟨.paren o e', .paren o he, by
        simp [Expr.tree, Tree.operand, Tree.leaves, Tree.leavesAll]⟩
  | .tuple o e f es, ls, h => by
      simp only [Expr.tree, Tree.operand, Tree.leaves, Tree.leavesAll, Tree.leavesAll_append,
        List.append_nil, List.cons_append, List.nil_append, List.forall₂_cons_left_iff,
        forall₂_append_left_iff, List.forall₂_nil_left_iff, Leaf.alike_symbol_iff] at h
      obtain ⟨_, _, rfl, ⟨us, _, hus, ⟨_, _, rfl, ⟨vs, _, hvs, ⟨ws, _, hws, ⟨_, _, rfl, rfl, rfl⟩, rfl⟩,
        rfl⟩, rfl⟩, rfl⟩, rfl⟩ := h
      obtain ⟨e', he, rfl⟩ := Expr.exists_alike e hus
      obtain ⟨f', hf, rfl⟩ := Expr.exists_alike f hvs
      obtain ⟨es', hes, rfl⟩ := Exprs.exists_alike_more es hws
      exact ⟨.tuple o e' f' es', .tuple o he hf hes, by
        simp [Expr.tree, Tree.operand, Tree.leaves, Tree.leavesAll]⟩
  | .record n e fs, ls, h => by
      simp only [Expr.tree, Tree.operand, Tree.leaves, Tree.leavesAll, Tree.leavesAll_append,
        List.append_nil, List.cons_append, List.nil_append, List.forall₂_cons_left_iff,
        forall₂_append_left_iff, List.forall₂_nil_left_iff, Leaf.alike_symbol_iff,
        Leaf.alike_name_iff] at h
      obtain ⟨_, _, rfl, ⟨_, _, ⟨n', rfl, hn⟩, ⟨_, _, rfl, ⟨us, _, hus, ⟨vs, _, hvs,
        ⟨_, _, rfl, rfl, rfl⟩, rfl⟩, rfl⟩, rfl⟩, rfl⟩, rfl⟩ := h
      obtain ⟨e', he, rfl⟩ := Expr.exists_alike e hus
      obtain ⟨fs', hfs, rfl⟩ := Fields.exists_alike_more fs hvs
      exact ⟨.record n' e' fs', .record hn he hfs, by
        simp [Expr.tree, Tree.operand, Tree.leaves, Tree.leavesAll]⟩
  | .call f args, ls, h => by
      simp only [Expr.tree, Tree.operand, Tree.leaves, Tree.leavesAll, Tree.leavesAll_append,
        List.append_nil, List.cons_append, List.nil_append, List.forall₂_cons_left_iff,
        forall₂_append_left_iff, List.forall₂_nil_left_iff, Leaf.alike_symbol_iff,
        Leaf.alike_name_iff] at h
      obtain ⟨_, _, ⟨f', rfl, hf⟩, ⟨_, _, rfl, ⟨us, _, hus, ⟨_, _, rfl, rfl, rfl⟩, rfl⟩, rfl⟩, rfl⟩ := h
      obtain ⟨args', hargs, rfl⟩ := Args.exists_alike args hus
      exact ⟨.call f' args', .call hf hargs, by
        simp [Expr.tree, Tree.operand, Tree.leaves, Tree.leavesAll]⟩
  | .unary op e, ls, h => by
      simp only [Expr.tree, Tree.operand, Tree.leaves, Tree.leavesAll, List.append_nil,
        List.cons_append, List.nil_append, List.forall₂_cons_left_iff,
        UnaryOp.alike_leaf_iff] at h
      obtain ⟨_, us, ⟨op', hop, rfl⟩, hus, rfl⟩ := h
      obtain ⟨e', he, rfl⟩ := Expr.exists_alike e hus
      exact ⟨.unary op' e', .unary hop he, by
        simp [Expr.tree, Tree.operand, Tree.leaves, Tree.leavesAll]⟩
  | .binary l op r, ls, h => by
      simp only [Expr.tree, Tree.operand, Tree.leaves, Tree.leavesAll, List.append_nil,
        List.cons_append, List.nil_append, List.forall₂_cons_left_iff, forall₂_append_left_iff,
        BinaryOp.alike_leaf_iff] at h
      obtain ⟨us, _, hus, ⟨_, vs, ⟨op', hop, rfl⟩, hvs, rfl⟩, rfl⟩ := h
      obtain ⟨l', hl, rfl⟩ := Expr.exists_alike l hus
      obtain ⟨r', hr, rfl⟩ := Expr.exists_alike r hvs
      exact ⟨.binary l' op' r', .binary hl hop hr, by
        simp [Expr.tree, Tree.operand, Tree.leaves, Tree.leavesAll]⟩
  | .cond c y n, ls, h => by
      simp only [Expr.tree, Tree.leaves, Tree.leavesAll, List.append_nil,
        List.cons_append, List.nil_append, List.forall₂_cons_left_iff, forall₂_append_left_iff,
        Leaf.alike_keyword_iff] at h
      obtain ⟨_, _, rfl, ⟨us, _, hus, ⟨_, _, rfl, ⟨vs, _, hvs, ⟨_, ws, rfl, hws, rfl⟩, rfl⟩, rfl⟩, rfl⟩,
        rfl⟩ := h
      obtain ⟨c', hc, rfl⟩ := Expr.exists_alike c hus
      obtain ⟨y', hy, rfl⟩ := Expr.exists_alike y hvs
      obtain ⟨n', hn, rfl⟩ := Expr.exists_alike n hws
      exact ⟨.cond c' y' n', .cond hc hy hn, by simp [Expr.tree, Tree.leaves, Tree.leavesAll]⟩

theorem Exprs.exists_alike : (es : Exprs) → ∀ {ls : List Leaf},
    List.Forall₂ Leaf.Alike (Tree.leavesAll es.trees) ls →
    ∃ es' : Exprs, es.Alike es' ∧ Tree.leavesAll es'.trees = ls
  | .nil, ls, h => by
      obtain rfl := List.forall₂_nil_left_iff.mp h
      exact ⟨.nil, .nil, rfl⟩
  | .cons e es, ls, h => by
      obtain ⟨us, vs, hus, hvs, rfl⟩ := forall₂_append_left_iff.mp h
      obtain ⟨e', he, rfl⟩ := Expr.exists_alike e hus
      obtain ⟨es', hes, rfl⟩ := Exprs.exists_alike_more es hvs
      exact ⟨.cons e' es', .cons he hes, rfl⟩

theorem Exprs.exists_alike_more : (es : Exprs) → ∀ {ls : List Leaf},
    List.Forall₂ Leaf.Alike (Tree.leavesAll es.more) ls →
    ∃ es' : Exprs, es.Alike es' ∧ Tree.leavesAll es'.more = ls
  | .nil, ls, h => by
      obtain rfl := List.forall₂_nil_left_iff.mp h
      exact ⟨.nil, .nil, rfl⟩
  | .cons e es, ls, h => by
      simp only [Exprs.more, Tree.leavesAll, Tree.leaves, List.cons_append, List.nil_append,
        List.forall₂_cons_left_iff, forall₂_append_left_iff, Leaf.alike_symbol_iff] at h
      obtain ⟨_, _, rfl, ⟨us, vs, hus, hvs, rfl⟩, rfl⟩ := h
      obtain ⟨e', he, rfl⟩ := Expr.exists_alike e hus
      obtain ⟨es', hes, rfl⟩ := Exprs.exists_alike_more es hvs
      exact ⟨.cons e' es', .cons he hes, rfl⟩

theorem Fields.exists_alike_more : (fs : Fields) → ∀ {ls : List Leaf},
    List.Forall₂ Leaf.Alike (Tree.leavesAll fs.more) ls →
    ∃ fs' : Fields, fs.Alike fs' ∧ Tree.leavesAll fs'.more = ls
  | .nil, ls, h => by
      obtain rfl := List.forall₂_nil_left_iff.mp h
      exact ⟨.nil, .nil, rfl⟩
  | .cons n e fs, ls, h => by
      simp only [Fields.more, Tree.leavesAll, Tree.leaves, List.cons_append, List.nil_append,
        List.forall₂_cons_left_iff, forall₂_append_left_iff, Leaf.alike_symbol_iff,
        Leaf.alike_name_iff] at h
      obtain ⟨_, _, rfl, ⟨_, _, ⟨n', rfl, hn⟩, ⟨_, _, rfl, ⟨us, vs, hus, hvs, rfl⟩, rfl⟩, rfl⟩, rfl⟩ := h
      obtain ⟨e', he, rfl⟩ := Expr.exists_alike e hus
      obtain ⟨fs', hfs, rfl⟩ := Fields.exists_alike_more fs hvs
      exact ⟨.cons n' e' fs', .cons hn he hfs, rfl⟩

theorem Args.exists_alike : (args : Args) → ∀ {ls : List Leaf},
    List.Forall₂ Leaf.Alike (Tree.leavesAll args.trees) ls →
    ∃ args' : Args, args.Alike args' ∧ Tree.leavesAll args'.trees = ls
  | .nil, ls, h => by
      obtain rfl := List.forall₂_nil_left_iff.mp h
      exact ⟨.nil, .nil, rfl⟩
  | .group e es rest, ls, h => by
      simp only [Args.trees, Tree.leavesAll, Tree.leavesAll_append, forall₂_append_left_iff] at h
      obtain ⟨us, _, hus, ⟨vs, ws, hvs, hws, rfl⟩, rfl⟩ := h
      obtain ⟨e', he, rfl⟩ := Expr.exists_alike e hus
      obtain ⟨es', hes, rfl⟩ := Exprs.exists_alike_more es hvs
      obtain ⟨rest', hrest, rfl⟩ := Args.exists_alike rest hws
      exact ⟨.group e' es' rest', .group he hes hrest, by
        simp [Args.trees, Tree.leavesAll]⟩

end

/-! ## Other lexemes -/

mutual

theorem Literal.state_notMem_leaves (s : StateName) : (l : Literal) → .state s ∉ l.tree.leaves
  | .number _ | .bool true | .bool false => by simp [Literal.tree, Tree.leaves, Tree.leavesAll]
  | .array es => by
      simp [Literal.tree, Tree.leaves, Tree.leavesAll, Exprs.state_notMem_leaves s es]

/-- No token of an expression names a state. -/
theorem Expr.state_notMem_leaves (s : StateName) : (e : Expr) → .state s ∉ e.tree.leaves
  | .literal l => by
      simp [Expr.tree, Tree.operand, Tree.leaves, Tree.leavesAll, Literal.state_notMem_leaves s l]
  | .name _ => by simp [Expr.tree, Tree.operand, Tree.leaves, Tree.leavesAll]
  | .paren _ e => by
      simp [Expr.tree, Tree.operand, Tree.leaves, Tree.leavesAll, Expr.state_notMem_leaves s e]
  | .tuple _ e f es => by
      simp [Expr.tree, Tree.operand, Tree.leaves, Tree.leavesAll, Expr.state_notMem_leaves s e,
        Expr.state_notMem_leaves s f, Exprs.state_notMem_leaves_more s es]
  | .record _ e fs => by
      simp [Expr.tree, Tree.operand, Tree.leaves, Tree.leavesAll, Expr.state_notMem_leaves s e,
        Fields.state_notMem_leaves_more s fs]
  | .call _ args => by
      simp [Expr.tree, Tree.operand, Tree.leaves, Tree.leavesAll, Args.state_notMem_leaves s args]
  | .unary op e => by
      cases op <;> simp [Expr.tree, Tree.operand, Tree.leaves, Tree.leavesAll, UnaryOp.leaf,
        Expr.state_notMem_leaves s e]
  | .binary l op r => by
      cases op <;> simp [Expr.tree, Tree.operand, Tree.leaves, Tree.leavesAll, BinaryOp.leaf,
        Expr.state_notMem_leaves s l, Expr.state_notMem_leaves s r]
  | .cond c y n => by
      simp [Expr.tree, Tree.leaves, Tree.leavesAll, Expr.state_notMem_leaves s c,
        Expr.state_notMem_leaves s y, Expr.state_notMem_leaves s n]

theorem Exprs.state_notMem_leaves (s : StateName) : (es : Exprs) →
    .state s ∉ Tree.leavesAll es.trees
  | .nil => by simp [Exprs.trees, Tree.leavesAll]
  | .cons e es => by
      simp [Exprs.trees, Tree.leavesAll, Expr.state_notMem_leaves s e,
        Exprs.state_notMem_leaves_more s es]

theorem Exprs.state_notMem_leaves_more (s : StateName) : (es : Exprs) →
    .state s ∉ Tree.leavesAll es.more
  | .nil => by simp [Exprs.more, Tree.leavesAll]
  | .cons e es => by
      simp [Exprs.more, Tree.leaves, Tree.leavesAll, Expr.state_notMem_leaves s e,
        Exprs.state_notMem_leaves_more s es]

theorem Fields.state_notMem_leaves_more (s : StateName) : (fs : Fields) →
    .state s ∉ Tree.leavesAll fs.more
  | .nil => by simp [Fields.more, Tree.leavesAll]
  | .cons _ e fs => by
      simp [Fields.more, Tree.leaves, Tree.leavesAll, Expr.state_notMem_leaves s e,
        Fields.state_notMem_leaves_more s fs]

theorem Args.state_notMem_leaves (s : StateName) : (args : Args) →
    .state s ∉ Tree.leavesAll args.trees
  | .nil => by simp [Args.trees, Tree.leavesAll]
  | .group e es rest => by
      simp [Args.trees, Tree.leavesAll, Expr.state_notMem_leaves s e,
        Exprs.state_notMem_leaves_more s es, Args.state_notMem_leaves s rest]

end

/-- A token of one lexeme that names no state can be written with any lexeme like it. -/
theorem Leaf.exists_alike {l : Leaf} (hstate : ∀ s, l ≠ .state s) {x y : Lexeme}
    (hl : l.lexemes = [x]) (h : x.Alike y) : ∃ l' : Leaf, l.Alike l' ∧ l'.lexemes = [y] := by
  cases l with
  | state s => exact absurd rfl (hstate s)
  | name n =>
      obtain rfl : .word n = x := by simpa using hl
      cases h with
      | word h => exact ⟨.name _, .name h, rfl⟩
  | variant t =>
      obtain rfl : .capital t = x := by simpa using hl
      cases h with
      | capital _ t' => exact ⟨.variant t', .variant t t', rfl⟩
  | number t =>
      obtain rfl : .number t = x := by simpa using hl
      cases h with
      | number _ t' => exact ⟨.number t', .number t t', rfl⟩
  | keyword k =>
      obtain rfl : .kw k = x := by simpa using hl
      obtain rfl := (h.eq_kw_iff k).mpr rfl
      exact ⟨.keyword k, .refl _, rfl⟩
  | symbol s =>
      obtain rfl : .symbol s = x := by simpa using hl
      cases h with
      | @symbol _ t h => exact ⟨.symbol t, .symbol h, rfl⟩

/-- Whether a parenthesis stands apart is the same in lexemes that are alike. -/
theorem Lexeme.Alike.eq_of_shown_eq {l x y : Lexeme} (hx : l.Alike x) (hy : l.Alike y)
    (h : x.shown = y.shown) : x = y := by
  cases hx <;> cases hy <;> first | rfl | exact h

theorem Lexeme.eq_of_map_shown_eq {ls xs ys : List Lexeme} (hx : List.Forall₂ Alike ls xs)
    (hy : List.Forall₂ Alike ls ys) (h : xs.map shown = ys.map shown) : xs = ys := by
  induction hx generalizing ys with
  | nil =>
      cases hy with
      | nil => rfl
  | cons hl _ ih =>
      cases hy with
      | cons hl' hls' =>
          obtain ⟨hhead, htail⟩ := List.cons.inj h
          rw [hl.eq_of_shown_eq hl' hhead, ih hls' htail]

/-- Whatever lexemes like its own an expression is written with, there is such an expression. -/
theorem Expr.exists_alike_of_lexemes (e : Expr) {ts : List Lexeme}
    (h : List.Forall₂ Lexeme.Alike e.lexemes ts) : ∃ e' : Expr, e.Alike e' ∧ e'.lexemes = ts := by
  have hunits : ∀ f : Expr, f.tree.leaves.map Leaf.lexemes = (Units.ofLexemes f.lexemes).shown :=
    fun f => by simpa [Tree.unitsAll, Tree.leavesAll] using f.unitsAll_tree_cons []
  obtain ⟨ls, hls, hts⟩ : ∃ ls, List.Forall₂ Leaf.Alike e.tree.leaves ls ∧
      ls.map Leaf.lexemes = (Units.ofLexemes ts).shown := by
    have hstate : ∀ l ∈ e.tree.leaves, ∀ s, l ≠ .state s := by
      rintro l hl s rfl
      exact e.state_notMem_leaves s hl
    have he := hunits e
    generalize e.tree.leaves = ls at hstate he ⊢
    generalize e.lexemes = us at h he
    induction h generalizing ls with
    | nil =>
        obtain rfl : ls = [] := by simpa using he
        exact ⟨[], .nil, rfl⟩
    | @cons x y us ts hl _ ih =>
        cases ls with
        | nil => simp at he
        | cons l ls =>
            obtain ⟨hstate, hstates⟩ := List.forall_mem_cons.mp hstate
            obtain ⟨hhead, htail⟩ := List.cons.inj he
            obtain ⟨l', hl', hlexemes⟩ := Leaf.exists_alike hstate hhead hl.shown
            obtain ⟨ls', hls', hts⟩ := ih ls hstates htail
            exact ⟨l' :: ls', .cons hl' hls', by simp [hlexemes, hts]⟩
  obtain ⟨e', he, rfl⟩ := e.exists_alike hls
  refine ⟨e', he, Lexeme.eq_of_map_shown_eq he.lexemes h ?_⟩
  have := congrArg List.flatten ((hunits e').symm.trans hts)
  simpa [Units.flatten_shown] using this

end Heptagon
