import Heptagon.Proofs.Expr.Regrouping
import Heptagon.Proofs.Grammar.Canonical

/-!
# Expressions with canonical trees

The tree of a plain expression is canonical only if the expression is normal
(`Expr.normal_of_canonical`), that is, what the reader takes.  What the tree
says about the first and the last token of an argument decides where the
argument stops (`Expr.stops_of_divides`).
-/

namespace Heptagon

/-! ## How the tree of an expression starts and ends -/

namespace Expr

theorem endsInName_tree : (e : Expr) → e.endsInName = true → e.tree.EndsInName
  | .name n, _ => ⟨n, rfl⟩
  | .unary op e, h => by
      obtain ⟨n, hn⟩ := e.endsInName_tree h
      refine ⟨n, ?_⟩
      rw [← hn, ← e.getLast?_leaves_append [op.leaf]]
      simp [tree, Tree.operand, Tree.leaves]
  | .binary l op r, h => by
      obtain ⟨n, hn⟩ := r.endsInName_tree h
      refine ⟨n, ?_⟩
      rw [← hn, ← r.getLast?_leaves_append (l.tree.leaves ++ [op.leaf])]
      simp [tree, Tree.operand, Tree.leaves]
  | .cond c y m, h => by
      obtain ⟨n, hn⟩ := m.endsInName_tree h
      refine ⟨n, ?_⟩
      rw [← hn, ← m.getLast?_leaves_append (.keyword .if_ :: (c.tree.leaves ++
        .keyword .then_ :: (y.tree.leaves ++ [.keyword .else_])))]
      simp [tree, Tree.leaves]

/-- A tree that is written with a symbol first starts with the leaf of it. -/
theorem head?_leaves {e : Expr} {s : Symbol} {ts : List Lexeme}
    (h : e.lexemes = .symbol s :: ts) : e.tree.leaves.head? = some (.symbol s) := by
  have hhead := congrArg List.head? e.map_lexemes_leaves
  rw [List.head?_map, h] at hhead
  obtain ⟨l, hl, hlexemes⟩ := Option.map_eq_some_iff.mp hhead
  rw [hl]
  cases l with
  | symbol s' => simpa using hlexemes
  | state n => cases n <;> simp [StateName.lexemes] at hlexemes
  | _ => simp at hlexemes

/-- An expression stops before another one that does not go on with it. -/
theorem stops_of_divides {e f : Expr} (hf : f.Plain) (h : e.tree.Divides f.tree)
    (us : List Lexeme) : e.Stops (f.lexemes ++ us) := by
  obtain ⟨hsign, hparen⟩ := h e.label_tree f.label_tree
  obtain ⟨l, ts, hts, hl⟩ := f.exists_lexemes_eq_cons
  have hhead : ∀ s, l = .symbol s → f.tree.leaves.head? = some (.symbol s) := by
    rintro s rfl
    exact head?_leaves hts
  rw [hts, List.cons_append]
  refine ⟨BinaryOp.take?_cons_eq_none_iff.mpr ?_, fun hname hl => ?_⟩
  · have hplain := Plain.head f hf l (by simp [hts])
    cases hop : BinaryOp.ofLexeme? l with
    | none => rfl
    | some op =>
        obtain rfl := BinaryOp.eq_lexeme_of_ofLexeme? hop
        cases op with
        | minus => exact absurd (hhead _ rfl) (by simp_all)
        | minusDot => exact absurd (hhead _ rfl) (by simp_all)
        | _ => simp_all [BinaryOp.lexeme, Lexeme.startsExpr]
  · exact hparen (e.endsInName_tree hname) (hhead _ (by simpa using hl))

end Expr

/-! ## Normal expressions -/

/-- The last of some expressions is the last tree of their row. -/
theorem Exprs.exists_eq_append_lastOr (e : Expr) :
    (es : Exprs) → ∃ ts, e.tree :: es.more = ts ++ [(es.lastOr e).tree]
  | .nil => ⟨[], rfl⟩
  | .cons f fs => by
      obtain ⟨ts, hts⟩ := exists_eq_append_lastOr f fs
      exact ⟨e.tree :: .sym .comma :: ts, by simp [more, lastOr, hts]⟩

mutual

theorem Literal.normal_of_canonical : (l : Literal) → l.Plain →
    l.tree.Derives Tree.Canonical → l.Normal
  | .number _, _, _ => trivial
  | .bool _, _, _ => trivial
  | .array .nil, _, _ => trivial
  | .array (.cons e es), h, hd => by
      have hparts := (hd.children _ List.mem_cons_self).children
      simp only [Exprs.trees, List.mem_cons, List.mem_append, List.cons_append] at hparts
      exact ⟨Expr.normal_of_canonical e h.1 (hparts _ (by simp)),
        Exprs.normal_of_canonical es h.2 fun t ht => hparts t (by simp [ht])⟩

/-- A plain expression is normal if its tree is canonical. -/
theorem Expr.normal_of_canonical : (e : Expr) → e.Plain → e.tree.Derives Tree.Canonical → e.Normal
  | .literal l, h, hd => Literal.normal_of_canonical l h (hd.parts.2 _ List.mem_cons_self)
  | .name n, h, _ => Word.isOperand_of_isPlain h
  | .paren o e, h, hd => Expr.normal_of_canonical e h.2 (hd.parts.2 _ (by simp))
  | .tuple o e f es, ⟨_, he, hf, hes⟩, hd => by
      have hparts := (hd.parts.2 _ List.mem_cons_self).children
      exact ⟨Expr.normal_of_canonical e he (hparts _ (by simp)),
        Expr.normal_of_canonical f hf (hparts _ (by simp)),
        Exprs.normal_of_canonical es hes fun t ht => hparts t (by simp [ht])⟩
  | .record n e fs, ⟨_, he, hfs⟩, hd => by
      have hparts := (hd.parts.2 _ List.mem_cons_self).children
      exact ⟨Expr.normal_of_canonical e he (hparts _ (by simp)),
        Fields.normal_of_canonical fs hfs fun t ht => hparts t (by simp [ht])⟩
  | .call f args, ⟨hf, hargs⟩, hd => by
      have hcall := hd.parts.2 _ List.mem_cons_self
      have hchain : (args.trees ++ [Tree.sym .parenClose]).IsChain Tree.Divides :=
        (List.isChain_cons.mp (List.isChain_cons.mp (hcall.self.arguments rfl)).2).2
      exact ⟨Word.isOperand_of_isPlain hf, Args.normal_of_canonical args hargs
        (fun t ht => hcall.children t (by simp [ht])) (List.isChain_append.mp hchain).1⟩
  | .unary op e, h, hd => by
      obtain ⟨hgroups, hparts⟩ := hd.parts
      exact ⟨by simpa using hgroups.operands rfl rfl, Expr.normal_of_canonical e h (hparts _ (by simp))⟩
  | .binary l op r, ⟨hl, hr⟩, hd => by
      obtain ⟨hgroups, hparts⟩ := hd.parts
      obtain ⟨hright, hleft⟩ := hgroups.operands rfl rfl
      exact ⟨by simpa using hleft, by simpa using hright,
        Expr.normal_of_canonical l hl (hparts _ (by simp)),
        Expr.normal_of_canonical r hr (hparts _ (by simp))⟩
  | .cond c y n, ⟨hc, hy, hn⟩, hd => by
      have hparts := (hd.children _ List.mem_cons_self).children
      exact ⟨Expr.normal_of_canonical c hc (hparts _ (by simp)),
        Expr.normal_of_canonical y hy (hparts _ (by simp)),
        Expr.normal_of_canonical n hn (hparts _ (by simp))⟩

theorem Exprs.normal_of_canonical : (es : Exprs) → es.Plain →
    (∀ t ∈ es.more, t.Derives Tree.Canonical) → es.Normal
  | .nil, _, _ => trivial
  | .cons e es, h, hd => ⟨Expr.normal_of_canonical e h.1 (hd _ (by simp [Exprs.more])),
      Exprs.normal_of_canonical es h.2 fun t ht => hd t (by simp [Exprs.more, ht])⟩

theorem Fields.normal_of_canonical : (fs : Fields) → fs.Plain →
    (∀ t ∈ fs.more, t.Derives Tree.Canonical) → fs.Normal
  | .nil, _, _ => trivial
  | .cons n e fs, h, hd => ⟨Expr.normal_of_canonical e h.2.1 (hd _ (by simp [Fields.more])),
      Fields.normal_of_canonical fs h.2.2 fun t ht => hd t (by simp [Fields.more, ht])⟩

theorem Args.normal_of_canonical : (args : Args) → args.Plain →
    (∀ t ∈ args.trees, t.Derives Tree.Canonical) → args.trees.IsChain Tree.Divides → args.Normal
  | .nil, _, _, _ => trivial
  | .group e es rest, ⟨he, hes, hrest⟩, hd, hchain => by
      obtain ⟨ts, hts⟩ := es.exists_eq_append_lastOr e
      have hrow : (Args.group e es rest).trees = ts ++ [(es.lastOr e).tree] ++ rest.trees := by
        rw [← hts]
        rfl
      rw [hrow] at hchain
      obtain ⟨-, hchain', hmeet⟩ := List.isChain_append.mp hchain
      refine ⟨Expr.normal_of_canonical e he (hd _ (by simp [Args.trees])),
        Exprs.normal_of_canonical es hes fun t ht => hd t (by simp [Args.trees, ht]),
        Args.normal_of_canonical rest hrest (fun t ht => hd t (by simp [Args.trees, ht])) hchain', ?_⟩
      -- the last expression of the group, and what comes after it
      cases rest with
      | nil => exact .of_cons rfl (by simp)
      | group f fs rest =>
          have hdivides := hmeet (es.lastOr e).tree (by simp) f.tree (by simp [Args.trees])
          rw [Args.lexemes, List.append_assoc]
          exact Expr.stops_of_divides hrest.1 hdivides _

end

end Heptagon
