import Heptagon.Proofs.Swap.Standing

/-!
# A swap in an expression

An expression after the swap of a part of it can stand wherever the expression
can.  So what is normal stays so (`Expr.exists_turned`).  Only an argument that
follows another one without a comma may not start with a new parenthesis if the
other one ends in a name, which would be called then.
-/

namespace Heptagon

/-! ## The tokens of an expression -/

theorem Tree.map_shown_eq_leavesAll {ts : List Tree} {us : List Lexeme}
    (h : unitsAll ts = (Units.ofLexemes us).shown) :
    us.map Lexeme.shown = (leavesAll ts).flatMap Leaf.lexemes := by
  have := congrArg List.flatten h
  rwa [Units.flatten_shown, Units.flatten_ofLexemes, unitsAll, ← List.flatMap_def, eq_comm] at this

theorem Exprs.map_shown_more_eq_leaves (es : Exprs) :
    es.moreLexemes.map Lexeme.shown = (Tree.leavesAll es.more).flatMap Leaf.lexemes :=
  Tree.map_shown_eq_leavesAll es.unitsAll_more

/-- The last token of some expressions after a first one is that of the last one. -/
theorem Exprs.getLast?_leaves : (es : Exprs) → ∀ e : Expr,
    (e.tree.leaves ++ Tree.leavesAll es.more).getLast? = (es.lastOr e).tree.leaves.getLast?
  | .nil, e => by simp [more, lastOr]
  | .cons f fs, e => by
      rw [lastOr, ← getLast?_leaves fs f, more, Tree.leavesAll_cons, Tree.leavesAll_cons,
        ← List.append_assoc, List.getLast?_append_of_ne_nil]
      simp [f.leaves_ne_nil]

/-! ## Expressions -/

/-- The second expression is normal and can stand for the first one, and its text is that of the
first one after the swap. -/
structure Expr.Turned (w : Swap) (ls : List Leaf) (e e' : Expr) : Prop where
  normal : e'.Normal
  standsFor : e'.StandsFor e
  lexemes : Lexeme.Turns w ls e.lexemes e'.lexemes

theorem Expr.exists_turned_here {w : Swap} (e : Expr) (h : e.Normal) (hold : w.old = e.tree) :
    ∃ e' : Expr, e'.tree = w.new ∧ e.Turned w [] e' := by
  obtain ⟨e', htree, hnormal, hstands, htext⟩ := w.exists_new e hold h
  exact ⟨e', htree, hnormal, hstands, .here htext⟩

theorem Exprs.standsFor_lastOr {e e' : Expr} (h : e'.StandsFor e) (es : Exprs) :
    (es.lastOr e').StandsFor (es.lastOr e) := by
  cases es with
  | nil => exact h
  | cons => exact .refl _

/-- What follows an expression goes on with it no more than before, unless it starts with a new
parenthesis and the expression ends in a name. -/
theorem Expr.Stops.of_turns {e : Expr} {w : Swap} {ls : List Leaf} {ts ts' us : List Lexeme}
    (h : e.Stops (ts ++ us)) (hw : Lexeme.Turns w ls ts ts')
    (hname : w.opens = true → ls = [] → e.endsInName = false) : e.Stops (ts' ++ us) := by
  obtain ⟨y, ys, rfl⟩ := List.exists_cons_of_ne_nil hw.ne_nil
  rcases hw.head? with ⟨hopens, hls, hhead⟩ | hhead
  · obtain rfl : y = .symbol .parenOpen := by simpa using hhead
    exact ⟨rfl, fun h => by simp [hname hopens hls] at h⟩
  · obtain ⟨xs, rfl⟩ : ∃ xs, ts = y :: xs := by
      cases ts with
      | nil => simp at hhead
      | cons x xs => exact ⟨xs, by simpa using hhead.symm⟩
    exact h.congr rfl

/-- Arguments that follow others without a comma are not called by them. -/
theorem Exprs.endsInName_eq_false {e : Expr} {es : Exprs} {ls : List Leaf}
    (h : Leaf.NoCallee (e.tree.leaves ++ (Tree.leavesAll es.more ++ ls))) (hls : ls = []) :
    (es.lastOr e).endsInName = false := by
  refine Bool.eq_false_iff.mpr fun hname => ?_
  obtain ⟨n, hn⟩ := Expr.endsInName_tree _ hname
  exact h n (by rw [hls, List.append_nil, es.getLast?_leaves, hn])

mutual

theorem Literal.exists_turned {w : Swap} : (l : Literal) → l.Normal →
    ∀ {ls : List Leaf} {t' : Tree},
    w.Allows ls → w.Turns ls l.tree t' → ∃ es' : Exprs, (Literal.array es').tree = t' ∧
      es'.Normal ∧ Lexeme.Turns w ls l.lexemes (Literal.array es').lexemes
  | .number _, _, _, _, _, h | .bool true, _, _, _, _, h | .bool false, _, _, _, _, h => by
      simp [Literal.tree, Swap.turns_node_iff] at h
  | .array es, hes, ls, t', hls, h => by
      simp [Literal.tree, Swap.turns_node_iff, Tree.leaves, and_assoc] at h
      obtain ⟨ms, rfl, us, h, rfl⟩ := h
      obtain ⟨es', rfl, hnormal, hlexemes⟩ := Exprs.exists_turned es hes hls.of_cons h
      exact ⟨es', rfl, hnormal, (hlexemes.append_right _).cons rfl⟩

/-- The tree of a normal expression after a swap is the tree of one. -/
theorem Expr.exists_turned {w : Swap} : (e : Expr) → e.Normal → ∀ {ls : List Leaf} {t' : Tree},
    w.Allows ls → w.Turns ls e.tree t' → ∃ e' : Expr, e'.tree = t' ∧ e.Turned w ls e'
  | .literal l, hl, ls, t', hls, h => by
      simp [Expr.tree, Tree.operand, Swap.turns_node_iff] at h
      obtain ⟨hold, rfl, rfl⟩ | ⟨u, h, rfl⟩ := h
      · exact Expr.exists_turned_here (.literal l) hl hold
      · obtain ⟨es', rfl, hnormal, hlexemes⟩ := Literal.exists_turned l hl hls h
        exact ⟨.literal (.array es'), rfl, hnormal, .of_closed rfl rfl rfl rfl fun _ => rfl,
          hlexemes⟩
  | .name n, hn, ls, t', hls, h => by
      simp [Expr.tree, Tree.operand, Swap.turns_node_iff] at h
      obtain ⟨hold, rfl, rfl⟩ := h
      exact Expr.exists_turned_here (.name n) hn hold
  | .paren o e, he, ls, t', hls, h => by
      simp [Expr.tree, Tree.operand, Swap.turns_node_iff, Tree.leaves, and_assoc] at h
      obtain ⟨hold, rfl, rfl⟩ | ⟨ms, rfl, u, h, rfl⟩ := h
      · exact Expr.exists_turned_here (.paren o e) he hold
      · obtain ⟨e', rfl, he'⟩ := Expr.exists_turned e he hls.of_cons h
        exact ⟨.paren o e', rfl, he'.normal, .paren _ _ _,
          (he'.lexemes.append_right _).cons (by simp)⟩
  | .tuple o e f es, ⟨he, hf, hes⟩, ls, t', hls, h => by
      simp [Expr.tree, Tree.operand, Swap.turns_node_iff, Tree.leaves, or_and_right, and_or_left,
        exists_or, and_assoc] at h
      obtain ⟨hold, rfl, rfl⟩ | ⟨ms, rfl, u, h, rfl⟩ | ⟨ms, rfl, u, h, rfl⟩ |
        ⟨ms, rfl, us, h, rfl⟩ := h
      · exact Expr.exists_turned_here (.tuple o e f es) ⟨he, hf, hes⟩ hold
      · obtain ⟨e', rfl, he'⟩ := Expr.exists_turned e he hls.of_cons h
        exact ⟨.tuple o e' f es, rfl, ⟨he'.normal, hf, hes⟩,
          .of_closed rfl rfl rfl rfl fun _ => rfl,
          (he'.lexemes.append_right _).cons (by simp)⟩
      · obtain ⟨f', rfl, hf'⟩ := Expr.exists_turned f hf hls.of_cons.of_append.of_cons h
        exact ⟨.tuple o e f' es, rfl, ⟨he, hf'.normal, hes⟩,
          .of_closed rfl rfl rfl rfl fun _ => rfl,
          (((hf'.lexemes.append_right _).cons rfl).append_left e.map_shown_eq_leaves).cons
            (by simp)⟩
      · obtain ⟨es', rfl, hes', -, -, hlexemes⟩ :=
          Exprs.exists_turned_more es hes hls.of_cons.of_append.of_cons.of_append h
        exact ⟨.tuple o e f es', rfl, ⟨he, hf, hes'⟩, .of_closed rfl rfl rfl rfl fun _ => rfl,
          ((((hlexemes.append_right _).append_left f.map_shown_eq_leaves).cons rfl).append_left
            e.map_shown_eq_leaves).cons (by simp)⟩
  | .record n e fs, ⟨he, hfs⟩, ls, t', hls, h => by
      simp [Expr.tree, Tree.operand, Swap.turns_node_iff, Tree.leaves, or_and_right, and_or_left,
        exists_or, and_assoc] at h
      obtain ⟨hold, rfl, rfl⟩ | ⟨ms, rfl, u, h, rfl⟩ | ⟨ms, rfl, us, h, rfl⟩ := h
      · exact Expr.exists_turned_here (.record n e fs) ⟨he, hfs⟩ hold
      · obtain ⟨e', rfl, he'⟩ := Expr.exists_turned e he hls.of_cons.of_cons.of_cons h
        exact ⟨.record n e' fs, rfl, ⟨he'.normal, hfs⟩, .of_closed rfl rfl rfl rfl fun _ => rfl,
          (((he'.lexemes.append_right _).cons rfl).cons rfl).cons rfl⟩
      · obtain ⟨fs', rfl, hfs', hlexemes⟩ :=
          Fields.exists_turned_more fs hfs hls.of_cons.of_cons.of_cons.of_append h
        exact ⟨.record n e fs', rfl, ⟨he, hfs'⟩, .of_closed rfl rfl rfl rfl fun _ => rfl,
          ((((hlexemes.append_right _).append_left e.map_shown_eq_leaves).cons rfl).cons rfl).cons
            rfl⟩
  | .call f args, ⟨hf, hargs⟩, ls, t', hls, h => by
      simp [Expr.tree, Tree.operand, Swap.turns_node_iff, Tree.leaves, and_assoc] at h
      obtain ⟨hold, rfl, rfl⟩ | ⟨ms, rfl, us, h, rfl⟩ := h
      · exact Expr.exists_turned_here (.call f args) ⟨hf, hargs⟩ hold
      · obtain ⟨args', rfl, hargs', htargets, hlexemes⟩ :=
          Args.exists_turned args hargs hls.of_cons.of_cons h
        exact ⟨.call f args', rfl, ⟨hf, hargs'⟩, .call htargets,
          ((hlexemes.append_right _).cons rfl).cons rfl⟩
  | .unary op e, ⟨hbinary, he⟩, ls, t', hls, h => by
      simp [Expr.tree, Tree.operand, Swap.turns_node_iff, Tree.leaves, and_assoc] at h
      obtain ⟨hold, rfl, rfl⟩ | ⟨ms, rfl, u, h, rfl⟩ := h
      · exact Expr.exists_turned_here (.unary op e) ⟨hbinary, he⟩ hold
      · obtain ⟨e', rfl, he'⟩ := Expr.exists_turned e he hls.of_cons h
        exact ⟨.unary op e', rfl, ⟨he'.standsFor.isBinary_eq_false hbinary, he'.normal⟩,
          he'.standsFor.unary op, he'.lexemes.cons (by simp)⟩
  | .binary l op r, ⟨hcond, hbinary, hl, hr⟩, ls, t', hls, h => by
      simp [Expr.tree, Tree.operand, Swap.turns_node_iff, Tree.leaves, or_and_right, exists_or,
        and_assoc] at h
      obtain ⟨hold, rfl, rfl⟩ | ⟨u, h, rfl⟩ | ⟨ms, rfl, u, h, rfl⟩ := h
      · exact Expr.exists_turned_here (.binary l op r) ⟨hcond, hbinary, hl, hr⟩ hold
      · obtain ⟨l', rfl, hl'⟩ := Expr.exists_turned l hl hls h
        exact ⟨.binary l' op r, rfl,
          ⟨hl'.standsFor.endsInCond_eq_false hcond, hbinary, hl'.normal, hr⟩,
          hl'.standsFor.binary_left op r, hl'.lexemes.append_right _⟩
      · obtain ⟨r', rfl, hr'⟩ := Expr.exists_turned r hr hls.of_append.of_cons h
        exact ⟨.binary l op r', rfl,
          ⟨hcond, hr'.standsFor.isBinary_eq_false hbinary, hl, hr'.normal⟩,
          hr'.standsFor.binary_right l op,
          (hr'.lexemes.cons (by simp)).append_left l.map_shown_eq_leaves⟩
  | .cond c y n, ⟨hc, hy, hn⟩, ls, t', hls, h => by
      simp [Expr.tree, Swap.turns_node_iff, Tree.leaves, or_and_right, and_or_left, exists_or,
        and_assoc] at h
      obtain ⟨hold, rfl, rfl⟩ | ⟨ms, rfl, u, h, rfl⟩ | ⟨ms, rfl, u, h, rfl⟩ |
        ⟨ms, rfl, u, h, rfl⟩ := h
      · exact Expr.exists_turned_here (.cond c y n) ⟨hc, hy, hn⟩ hold
      · obtain ⟨c', rfl, hc'⟩ := Expr.exists_turned c hc hls.of_cons h
        exact ⟨.cond c' y n, rfl, ⟨hc'.normal, hy, hn⟩, (Expr.StandsFor.refl n).cond_last _ _ _ _,
          (hc'.lexemes.append_right _).cons rfl⟩
      · obtain ⟨y', rfl, hy'⟩ := Expr.exists_turned y hy hls.of_cons.of_append.of_cons h
        exact ⟨.cond c y' n, rfl, ⟨hc, hy'.normal, hn⟩, (Expr.StandsFor.refl n).cond_last _ _ _ _,
          (((hy'.lexemes.append_right _).cons rfl).append_left c.map_shown_eq_leaves).cons rfl⟩
      · obtain ⟨n', rfl, hn'⟩ :=
          Expr.exists_turned n hn hls.of_cons.of_append.of_cons.of_append.of_cons h
        exact ⟨.cond c y n', rfl, ⟨hc, hy, hn'.normal⟩, hn'.standsFor.cond_last _ _ _ _,
          ((((hn'.lexemes.cons rfl).append_left y.map_shown_eq_leaves).cons rfl).append_left
            c.map_shown_eq_leaves).cons rfl⟩

theorem Exprs.exists_turned {w : Swap} : (es : Exprs) → es.Normal →
    ∀ {ls : List Leaf} {ts' : List Tree}, w.Allows ls → w.TurnsAll ls es.trees ts' →
    ∃ es' : Exprs, es'.trees = ts' ∧ es'.Normal ∧ Lexeme.Turns w ls es.lexemes es'.lexemes
  | .nil, _, _, _, _, h => by simp [Exprs.trees] at h
  | .cons e es, ⟨he, hes⟩, ls, ts', hls, h => by
      simp only [Exprs.trees, Tree.turnsAll_cons] at h
      obtain ⟨u, h, rfl⟩ | ⟨ms, us, rfl, h, rfl⟩ := h
      · obtain ⟨e', rfl, he'⟩ := Expr.exists_turned e he hls h
        exact ⟨.cons e' es, rfl, ⟨he'.normal, hes⟩, he'.lexemes.append_right _⟩
      · obtain ⟨es', rfl, hes', -, -, hlexemes⟩ :=
          Exprs.exists_turned_more es hes hls.of_append h
        exact ⟨.cons e es', rfl, ⟨he, hes'⟩, hlexemes.append_left e.map_shown_eq_leaves⟩

theorem Exprs.exists_turned_more {w : Swap} : (es : Exprs) → es.Normal →
    ∀ {ls : List Leaf} {ts' : List Tree}, w.Allows ls → w.TurnsAll ls es.more ts' →
    ∃ es' : Exprs, es'.more = ts' ∧ es'.Normal ∧ (es'.areTargets = true → es.areTargets = true) ∧
      (∀ e, (es'.lastOr e).StandsFor (es.lastOr e)) ∧
      Lexeme.Turns w ls es.moreLexemes es'.moreLexemes
  | .nil, _, _, _, _, h => by simp [Exprs.more] at h
  | .cons e es, ⟨he, hes⟩, ls, ts', hls, h => by
      simp [Exprs.more, Tree.leaves, or_and_right, and_or_left, exists_or, and_assoc] at h
      obtain ⟨ms, rfl, u, h, rfl⟩ | ⟨ms, rfl, us, h, rfl⟩ := h
      · obtain ⟨e', rfl, he'⟩ := Expr.exists_turned e he hls.of_cons h
        refine ⟨.cons e' es, rfl, ⟨he'.normal, hes⟩, fun htargets => ?_,
          fun _ => es.standsFor_lastOr he'.standsFor, (he'.lexemes.append_right _).cons rfl⟩
        obtain ⟨htarget, htargets⟩ := Bool.and_eq_true_iff.mp htargets
        exact Bool.and_eq_true_iff.mpr ⟨he'.standsFor.target htarget, htargets⟩
      · obtain ⟨es', rfl, hes', hmono, hlast, hlexemes⟩ :=
          Exprs.exists_turned_more es hes hls.of_cons.of_append h
        refine ⟨.cons e es', rfl, ⟨he, hes'⟩, fun htargets => ?_, fun _ => hlast e,
          (hlexemes.append_left e.map_shown_eq_leaves).cons rfl⟩
        obtain ⟨htarget, htargets⟩ := Bool.and_eq_true_iff.mp htargets
        exact Bool.and_eq_true_iff.mpr ⟨htarget, hmono htargets⟩

theorem Fields.exists_turned_more {w : Swap} : (fs : Fields) → fs.Normal →
    ∀ {ls : List Leaf} {ts' : List Tree}, w.Allows ls → w.TurnsAll ls fs.more ts' →
    ∃ fs' : Fields, fs'.more = ts' ∧ fs'.Normal ∧
      Lexeme.Turns w ls fs.moreLexemes fs'.moreLexemes
  | .nil, _, _, _, _, h => by simp [Fields.more] at h
  | .cons n e fs, ⟨he, hfs⟩, ls, ts', hls, h => by
      simp [Fields.more, Tree.leaves, or_and_right, and_or_left, exists_or, and_assoc] at h
      obtain ⟨ms, rfl, u, h, rfl⟩ | ⟨ms, rfl, us, h, rfl⟩ := h
      · obtain ⟨e', rfl, he'⟩ := Expr.exists_turned e he hls.of_cons.of_cons.of_cons h
        exact ⟨.cons n e' fs, rfl, ⟨he'.normal, hfs⟩,
          (((he'.lexemes.append_right _).cons rfl).cons rfl).cons rfl⟩
      · obtain ⟨fs', rfl, hfs', hlexemes⟩ :=
          Fields.exists_turned_more fs hfs hls.of_cons.of_cons.of_cons.of_append h
        exact ⟨.cons n e fs', rfl, ⟨he, hfs'⟩,
          (((hlexemes.append_left e.map_shown_eq_leaves).cons rfl).cons rfl).cons rfl⟩

theorem Args.exists_turned {w : Swap} : (args : Args) → args.Normal →
    ∀ {ls : List Leaf} {ts' : List Tree}, w.Allows ls → w.TurnsAll ls args.trees ts' →
    ∃ args' : Args, args'.trees = ts' ∧ args'.Normal ∧
      (args'.areTargets = true → args.areTargets = true) ∧
      Lexeme.Turns w ls args.lexemes args'.lexemes
  | .nil, _, _, _, _, h => by simp [Args.trees] at h
  | .group e es rest, ⟨he, hes, hrest, hstops⟩, ls, ts', hls, h => by
      simp [Args.trees, or_and_right, and_or_left, exists_or, and_assoc] at h
      obtain ⟨u, h, rfl⟩ | ⟨ms, rfl, us, h, rfl⟩ | ⟨ms, rfl, us, h, rfl⟩ := h
      · obtain ⟨e', rfl, he'⟩ := Expr.exists_turned e he hls h
        refine ⟨.group e' es rest, rfl, ⟨he'.normal, hes, hrest,
          (es.standsFor_lastOr he'.standsFor).stops hstops⟩, fun htargets => ?_,
          he'.lexemes.append_right _⟩
        cases rest with
        | nil =>
            obtain ⟨htarget, htargets⟩ := Bool.and_eq_true_iff.mp htargets
            exact Bool.and_eq_true_iff.mpr ⟨he'.standsFor.target htarget, htargets⟩
        | group f fs rest => exact htargets
      · obtain ⟨es', rfl, hes', hmono, hlast, hlexemes⟩ :=
          Exprs.exists_turned_more es hes hls.of_append h
        refine ⟨.group e es' rest, rfl, ⟨he, hes', hrest, (hlast e).stops hstops⟩,
          fun htargets => ?_, (hlexemes.append_right _).append_left e.map_shown_eq_leaves⟩
        cases rest with
        | nil =>
            obtain ⟨htarget, htargets⟩ := Bool.and_eq_true_iff.mp htargets
            exact Bool.and_eq_true_iff.mpr ⟨htarget, hmono htargets⟩
        | group f fs rest => exact htargets
      · obtain ⟨rest', rfl, hrest', -, hlexemes⟩ :=
          Args.exists_turned rest hrest hls.of_append.of_append h
        refine ⟨.group e es rest', rfl, ⟨he, hes, hrest', ?_⟩, fun htargets => ?_,
          (hlexemes.append_left es.map_shown_more_eq_leaves).append_left e.map_shown_eq_leaves⟩
        · exact hstops.of_turns hlexemes fun hopens => Exprs.endsInName_eq_false (hls hopens)
        · cases rest' with
          | nil => exact absurd rfl hlexemes.ne_nil
          | group f fs rest => exact absurd htargets (by simp [Args.areTargets])

end

end Heptagon
