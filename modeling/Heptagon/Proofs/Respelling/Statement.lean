import Heptagon.Proofs.Respelling.Declaration
import Heptagon.Proofs.Statement.Regrouping

/-!
# Statements in another spelling

Statements that are alike have the same structure, and their names, numbers and
states differ in spelling only.  Their units and trees are alike, and whatever
other tokens the leaves are replaced by, they are the leaves of a statement
that is like it.
-/

namespace Heptagon

/-! ## Equations -/

inductive Target.Alike : Target → Target → Prop
  | single {n n' : Name} (h : n.Alike n') : Alike (.single n) (.single n')
  | several (o : Opening) {n n' : Name} {ns ns' : List Name} (hn : n.Alike n')
      (hns : List.Forall₂ Word.Alike ns ns') : Alike (.several o n ns) (.several o n' ns')

namespace Target

variable {t t' : Target}

theorem Alike.lexemes (h : t.Alike t') : List.Forall₂ Lexeme.Alike t.lexemes t'.lexemes := by
  cases h with
  | single h => exact .cons (.word h) .nil
  | several o hn hns =>
      refine .cons (.opening o) (.cons (.word hn) (List.rel_append ?_ (.cons (.refl _) .nil)))
      exact List.rel_flatten (List.rel_flatMap hns fun _ _ hn =>
        .cons (.cons (.refl _) .nil) (.cons (.cons (.word hn) .nil) .nil))

theorem Alike.trees (h : t.Alike t') : List.Forall₂ Tree.Alike t.trees t'.trees := by
  cases h with
  | single h => exact .cons (.leaf (.name h)) .nil
  | several o hn hns =>
      exact .cons (.refl _) (.cons (.leaf (.name hn))
        (List.rel_append (Name.alike_more hns) (.cons (.refl _) .nil)))

theorem Alike.isAmong_eq (h : t.Alike t') (ks : List Keyword) : t'.isAmong ks = t.isAmong ks := by
  cases h with
  | single h => cases h <;> rfl
  | several o hn hns => rfl

theorem exists_alike {ls : List Leaf} (h : List.Forall₂ Leaf.Alike (Tree.leavesAll t.trees) ls) :
    ∃ t' : Target, t.Alike t' ∧ Tree.leavesAll t'.trees = ls := by
  cases t with
  | single n =>
      simp only [trees, Tree.leaves, Tree.leavesAll, List.append_nil, List.forall₂_cons_left_iff,
        List.forall₂_nil_left_iff, Leaf.alike_name_iff] at h
      obtain ⟨_, _, ⟨n', rfl, hn⟩, rfl, rfl⟩ := h
      exact ⟨.single n', .single hn, rfl⟩
  | several o n ns =>
      simp only [trees, Tree.leaves, Tree.leavesAll, Tree.leavesAll_append, List.append_nil,
        List.cons_append, List.nil_append, List.forall₂_cons_left_iff, forall₂_append_left_iff,
        List.forall₂_nil_left_iff, Leaf.alike_symbol_iff, Leaf.alike_name_iff] at h
      obtain ⟨_, _, rfl, ⟨_, _, ⟨n', rfl, hn⟩, ⟨us, _, hus, ⟨_, _, rfl, rfl, rfl⟩, rfl⟩, rfl⟩, rfl⟩ := h
      obtain ⟨ns', hns, rfl⟩ := Name.exists_alike_more hus
      exact ⟨.several o n' ns', .several o hn hns, by simp [trees, Tree.leaves, Tree.leavesAll]⟩

end Target

structure Equation.Alike (e e' : Equation) : Prop where
  target : e.target.Alike e'.target
  value : e.value.Alike e'.value

namespace Equation

variable {e e' : Equation} {es es' : List Equation}

theorem Alike.lexemes (h : e.Alike e') : List.Forall₂ Lexeme.Alike e.lexemes e'.lexemes :=
  List.rel_append h.target.lexemes (.cons (.refl _) (Expr.Alike.lexemes _ h.value))

theorem Alike.tree (h : e.Alike e') : e.tree.Alike e'.tree :=
  .node (List.rel_append h.target.trees
    (.cons (.refl _) (.cons (Expr.Alike.tree _ h.value) .nil)))

theorem Alike.normal (h : e.Alike e') (hnormal : e.Normal) : e'.Normal :=
  Expr.Alike.normal _ h.value hnormal

theorem Alike.lastOr (h : e.Alike e') (hes : List.Forall₂ Equation.Alike es es') :
    (lastOr e es).Alike (lastOr e' es') := by
  induction hes generalizing e e' with
  | nil => exact h
  | cons hf _ ih => exact ih hf

theorem exists_alike {ls : List Leaf} (h : List.Forall₂ Leaf.Alike e.tree.leaves ls) :
    ∃ e' : Equation, e.Alike e' ∧ e'.tree.leaves = ls := by
  simp only [tree, Tree.leaves, Tree.leavesAll, Tree.leavesAll_append, List.append_nil,
    List.cons_append, List.nil_append, List.forall₂_cons_left_iff, forall₂_append_left_iff,
    Leaf.alike_symbol_iff] at h
  obtain ⟨us, _, hus, ⟨_, vs, rfl, hvs, rfl⟩, rfl⟩ := h
  obtain ⟨t, ht, rfl⟩ := Target.exists_alike hus
  obtain ⟨v, hv, rfl⟩ := Expr.exists_alike _ hvs
  exact ⟨⟨t, v⟩, ⟨ht, hv⟩, by simp [tree, Tree.leaves, Tree.leavesAll]⟩

end Equation

structure Equations.Alike (es es' : Equations) : Prop where
  first : es.first.Alike es'.first
  others : List.Forall₂ Equation.Alike es.others es'.others
  semicolon : es'.semicolon = es.semicolon

namespace Equations

variable {es es' : Equations}

theorem Alike.lexemes (h : es.Alike es') : List.Forall₂ Lexeme.Alike es.lexemes es'.lexemes := by
  rw [Equations.lexemes, Equations.lexemes, h.semicolon]
  refine List.rel_append h.first.lexemes (List.rel_append ?_ (List.forall₂_same.mpr fun l _ => .refl l))
  exact List.rel_flatMap h.others fun _ _ he => .cons (.refl _) he.lexemes

theorem Alike.tree (h : es.Alike es') : es.tree.Alike es'.tree := by
  rw [Equations.tree, Equations.tree, h.semicolon]
  exact .node (.cons h.first.tree (List.rel_append
    (List.rel_flatMap h.others fun _ _ he => .cons (.refl _) (.cons he.tree .nil))
    (Tree.Rel.reflAll _)))

theorem exists_alike {ls : List Leaf} (h : List.Forall₂ Leaf.Alike es.tree.leaves ls) :
    ∃ es' : Equations, es.Alike es' ∧ es'.tree.leaves = ls := by
  simp only [tree, Tree.leaves, Tree.leavesAll, Tree.leavesAll_append, forall₂_append_left_iff] at h
  obtain ⟨us, _, hus, ⟨vs, ws, hvs, hws, rfl⟩, rfl⟩ := h
  obtain ⟨f, hf, rfl⟩ := Equation.exists_alike hus
  obtain ⟨fs, hfs, rfl⟩ := Tree.exists_forall₂_flatMap (R := Equation.Alike) (fun e ls h => by
    simp only [Tree.leaves, Tree.leavesAll, List.append_nil, List.cons_append, List.nil_append,
      List.forall₂_cons_left_iff, Leaf.alike_symbol_iff] at h
    obtain ⟨_, ls, rfl, hls, rfl⟩ := h
    obtain ⟨e', he, rfl⟩ := Equation.exists_alike hls
    exact ⟨e', he, by simp [Tree.leaves, Tree.leavesAll]⟩) hvs
  obtain rfl := Tree.eq_of_alike_semicolonIf hws
  exact ⟨⟨f, fs, es.semicolon⟩, ⟨hf, hfs, rfl⟩, by simp [tree, Tree.leaves, Tree.leavesAll]⟩

end Equations

/-! ## Transitions -/

structure Transition.Alike (t t' : Transition) : Prop where
  strong : t'.strong = t.strong
  guard : t.guard.Alike t'.guard
  goal : t.goal.Normal → t'.goal.Normal

namespace Transition

variable {trs trs' : List Transition} {us us' : Units}

/-- Another transition may follow the goal of a transition. -/
theorem followsState_of_head? (trs : List Transition)
    (h : ∀ l ∈ us.flatten.head?, l.followsState) :
    ∀ l ∈ (trs.flatMap units ++ us).flatten.head?, l.followsState := by
  cases trs with
  | nil => exact h
  | cons t trs =>
      rintro l hl
      obtain rfl : _ = l := by simpa [units] using hl
      cases t.strong <;> rfl

theorem alike_units (h : List.Forall₂ Transition.Alike trs trs')
    (hfollows : ∀ l ∈ us.flatten.head?, l.followsState) (hus : us.Alike us') :
    Units.Alike (trs.flatMap units ++ us) (trs'.flatMap units ++ us') := by
  induction h with
  | nil => exact hus
  | @cons t t' trs trs' ht _ ih =>
      simp only [List.flatMap_cons, units, List.cons_append, List.append_assoc, List.nil_append,
        ht.strong]
      exact .one (.refl _) (.ofLexemes_append (Expr.Alike.lexemes _ ht.guard)
        (.one (.refl _) (.state (followsState_of_head? trs hfollows) ih)))

theorem Alike.tree {t t' : Transition} (h : t.Alike t') : t.tree.Alike t'.tree := by
  rw [Transition.tree, Transition.tree, h.strong]
  exact .node (.cons (.refl _) (.cons (Expr.Alike.tree _ h.guard) (.cons (.refl _)
    (.cons (.leaf (.state h.goal)) .nil))))

theorem exists_alike {t : Transition} {ls : List Leaf}
    (h : List.Forall₂ Leaf.Alike t.tree.leaves ls) :
    ∃ t' : Transition, t.Alike t' ∧ t'.tree.leaves = ls := by
  simp only [tree, Tree.leaves, Tree.leavesAll, List.append_nil, List.cons_append, List.nil_append,
    List.forall₂_cons_left_iff, forall₂_append_left_iff, List.forall₂_nil_left_iff,
    Leaf.alike_keyword_iff, Leaf.alike_state_iff] at h
  obtain ⟨_, _, rfl, ⟨us, _, hus, ⟨_, _, rfl, ⟨_, _, ⟨s, rfl, hs⟩, rfl, rfl⟩, rfl⟩, rfl⟩, rfl⟩ := h
  obtain ⟨e, he, rfl⟩ := Expr.exists_alike _ hus
  exact ⟨⟨t.strong, e, s⟩, ⟨rfl, he, hs⟩, by simp [tree, Tree.leaves, Tree.leavesAll]⟩

theorem exists_alike_map {ls : List Leaf}
    (h : List.Forall₂ Leaf.Alike (Tree.leavesAll (trs.map tree)) ls) :
    ∃ trs', List.Forall₂ Transition.Alike trs trs' ∧ Tree.leavesAll (trs'.map tree) = ls := by
  simp only [← List.flatMap_pure_eq_map] at h ⊢
  refine Tree.exists_forall₂_flatMap (fun t ls h => ?_) h
  obtain ⟨t', ht, rfl⟩ := exists_alike (t := t) (by simpa [Tree.leavesAll] using h)
  exact ⟨t', ht, by simp [Tree.leavesAll]⟩

/-- Transitions that are alike fit in front of the same word. -/
theorem fit_alike (h : List.Forall₂ Transition.Alike trs trs') {t : Lexeme}
    (ht : t = .kw .state ∨ t = .kw .end_) {ts ts' : List Lexeme} (hfit : Fit trs (t :: ts)) :
    Fit trs' (t :: ts') := by
  induction h with
  | nil => exact hfit
  | @cons tr tr' trs trs' htr _ ih =>
      obtain ⟨hguard, hgoal, -, hfit⟩ := hfit
      refine ⟨Expr.Alike.normal _ htr.guard hguard, htr.goal hgoal, ?_, ih hfit⟩
      obtain ⟨l, vs, hvs, hl⟩ := exists_head trs' ts' ht
      rw [hvs]
      refine .of_head vs ?_
      rintro u rfl
      simp at hl

end Transition

/-! ## Statements -/

mutual

/-- Two statements differ in the spelling of their names, numbers and states only. -/
inductive Statement.Alike : Statement → Statement → Prop
  | equations {es es' : Equations} (h : es.Alike es') :
      Statement.Alike (.equations es) (.equations es')
  | automaton {l l' : Option Locals} {states states' : States} (hl : Option.Rel Locals.Alike l l')
      (hstates : States.Alike states states') :
      Statement.Alike (.automaton l states) (.automaton l' states')
  | switch {n n' : Name} {cs cs' : Cases} (hn : n.Alike n') (hcs : Cases.Alike cs cs') :
      Statement.Alike (.switch n cs) (.switch n' cs')
  | present {bs bs' : Branches} (h : Branches.Alike bs bs') :
      Statement.Alike (.present bs) (.present bs')
  | reset {ss ss' : Statements} {e e' : Expr} (hss : Statements.Alike ss ss') (he : e.Alike e') :
      Statement.Alike (.reset ss e) (.reset ss' e')

inductive Statements.Alike : Statements → Statements → Prop
  | nil : Statements.Alike .nil .nil
  | cons {s s' : Statement} {ss ss' : Statements} (hs : Statement.Alike s s')
      (hss : Statements.Alike ss ss') : Statements.Alike (.cons s ss) (.cons s' ss')

inductive States.Alike : States → States → Prop
  | nil : States.Alike .nil .nil
  | cons {n n' : StateName} {l l' : Option Locals} {ss ss' : Statements}
      {trs trs' : List Transition} {tail tail' : States} (hn : n.Normal → n'.Normal)
      (hl : Option.Rel Locals.Alike l l') (hss : Statements.Alike ss ss')
      (htrs : List.Forall₂ Transition.Alike trs trs') (htail : States.Alike tail tail') :
      States.Alike (.cons n l ss trs tail) (.cons n' l' ss' trs' tail')

inductive Cases.Alike : Cases → Cases → Prop
  | nil : Cases.Alike .nil .nil
  | cons (t t' : Text) {s s' : Statement} {ss ss' : Statements} {tail tail' : Cases}
      (hs : Statement.Alike s s') (hss : Statements.Alike ss ss') (htail : Cases.Alike tail tail') :
      Cases.Alike (.cons t s ss tail) (.cons t' s' ss' tail')

inductive Branches.Alike : Branches → Branches → Prop
  | nil : Branches.Alike .nil .nil
  | otherwise {s s' : Statement} (h : Statement.Alike s s') :
      Branches.Alike (.otherwise s) (.otherwise s')
  | cons {e e' : Expr} {s s' : Statement} {tail tail' : Branches} (he : e.Alike e')
      (hs : Statement.Alike s s') (htail : Branches.Alike tail tail') :
      Branches.Alike (.cons e s tail) (.cons e' s' tail')

end

/-! ## Units -/

theorem States.followsState_of_head? (states : States) {us : Units}
    (h : ∀ l ∈ us.flatten.head?, l.followsState) :
    ∀ l ∈ (states.units ++ us).flatten.head?, l.followsState := by
  cases states with
  | nil => exact h
  | cons n l ss trs tail =>
      rintro l hl
      obtain rfl : _ = l := by simpa [units] using hl
      rfl

mutual

theorem Statement.Alike.units : (s : Statement) → ∀ {s' : Statement}, s.Alike s' →
    ∀ {us us' : Units}, us.Alike us' → Units.Alike (s.units ++ us) (s'.units ++ us')
  | .equations es, _, .equations h, _, _, hus => .ofLexemes_append h.lexemes hus
  | .automaton l states, _, .automaton hl hstates, us, us', hus => by
      simp only [Statement.units, List.cons_append, List.append_assoc, List.nil_append]
      exact .one (.kw _) (Locals.Alike.unitsOf hl
        (States.Alike.units states hstates (by simp [Lexeme.followsState]) (.one (.kw _) hus)))
  | .switch _ cs, _, .switch hn hcs, us, us', hus => by
      simp only [Statement.units, List.cons_append, List.append_assoc, List.nil_append]
      exact .one (.kw _) (.one (.word hn) (Cases.Alike.units cs hcs (.one (.kw _) hus)))
  | .present bs, _, .present h, us, us', hus => by
      simp only [Statement.units, List.cons_append, List.append_assoc, List.nil_append]
      exact .one (.kw _) (Branches.Alike.units bs h (.one (.kw _) hus))
  | .reset ss e, _, .reset hss he, us, us', hus => by
      simp only [Statement.units, List.cons_append, List.append_assoc]
      exact .one (.kw _) (Statements.Alike.units ss hss
        (.one (.kw _) (.ofLexemes_append (Expr.Alike.lexemes e he) hus)))

theorem Statements.Alike.units : (ss : Statements) → ∀ {ss' : Statements}, ss.Alike ss' →
    ∀ {us us' : Units}, us.Alike us' → Units.Alike (ss.units ++ us) (ss'.units ++ us')
  | .nil, _, .nil, _, _, hus => hus
  | .cons s ss, _, .cons hs hss, us, us', hus => by
      simp only [Statements.units, List.append_assoc]
      exact Statement.Alike.units s hs (Statements.Alike.units ss hss hus)

theorem States.Alike.units : (states : States) → ∀ {states' : States}, states.Alike states' →
    ∀ {us us' : Units}, (∀ l ∈ us.flatten.head?, l.followsState) → us.Alike us' →
    Units.Alike (states.units ++ us) (states'.units ++ us')
  | .nil, _, .nil, _, _, _, hus => hus
  | .cons n l ss trs tail, _, .cons _ hl hss htrs htail, us, us', hfollows, hus => by
      simp only [States.units, List.cons_append, List.append_assoc]
      refine .one (.kw _) (.state ?_ (Locals.Alike.unitsOf hl (.one (.kw _)
        (Statements.Alike.units ss hss (Transition.alike_units htrs
          (tail.followsState_of_head? hfollows) (States.Alike.units tail htail hfollows hus))))))
      cases l <;> simp [Locals.unitsOf, Locals.units, Lexeme.followsState]

theorem Cases.Alike.units : (cs : Cases) → ∀ {cs' : Cases}, cs.Alike cs' →
    ∀ {us us' : Units}, us.Alike us' → Units.Alike (cs.units ++ us) (cs'.units ++ us')
  | .nil, _, .nil, _, _, hus => hus
  | .cons _ s ss tail, _, .cons t t' hs hss htail, us, us', hus => by
      simp only [Cases.units, List.cons_append, List.append_assoc]
      exact .one (.refl _) (.one (.capital t t') (.one (.kw _) (Statement.Alike.units s hs
        (Statements.Alike.units ss hss (Cases.Alike.units tail htail hus)))))

theorem Branches.Alike.units : (bs : Branches) → ∀ {bs' : Branches}, bs.Alike bs' →
    ∀ {us us' : Units}, us.Alike us' → Units.Alike (bs.units ++ us) (bs'.units ++ us')
  | .nil, _, .nil, _, _, hus => hus
  | .otherwise s, _, .otherwise h, _, _, hus =>
      .one (.kw _) (.one (.kw _) (Statement.Alike.units s h hus))
  | .cons e s tail, _, .cons he hs htail, us, us', hus => by
      simp only [Branches.units, List.cons_append, List.append_assoc]
      exact .one (.refl _) (.ofLexemes_append (Expr.Alike.lexemes e he) (.one (.kw _)
        (Statement.Alike.units s hs (Branches.Alike.units tail htail hus))))

end

/-! ## Trees -/

mutual

theorem Statement.Alike.tree : (s : Statement) → ∀ {s' : Statement}, s.Alike s' →
    s.tree.Alike s'.tree
  | .equations _, _, .equations h => h.tree
  | .automaton _ states, _, .automaton hl hstates =>
      .node (.cons (.refl _) (List.rel_append (List.rel_append (Locals.Alike.trees hl)
        (States.Alike.trees states hstates)) (.cons (.refl _) .nil)))
  | .switch _ cs, _, .switch hn hcs =>
      .node (.cons (.refl _) (.cons (.leaf (.name hn))
        (List.rel_append (Cases.Alike.trees cs hcs) (.cons (.refl _) .nil))))
  | .present bs, _, .present h =>
      .node (.cons (.refl _) (List.rel_append (Branches.Alike.trees bs h) (.cons (.refl _) .nil)))
  | .reset ss e, _, .reset hss he =>
      .node (.cons (.refl _) (List.rel_append (Statements.Alike.trees ss hss)
        (.cons (.refl _) (.cons (Expr.Alike.tree e he) .nil))))

theorem Statements.Alike.trees : (ss : Statements) → ∀ {ss' : Statements}, ss.Alike ss' →
    List.Forall₂ Tree.Alike ss.trees ss'.trees
  | .nil, _, .nil => .nil
  | .cons s ss, _, .cons hs hss =>
      .cons (Statement.Alike.tree s hs) (Statements.Alike.trees ss hss)

theorem States.Alike.trees : (states : States) → ∀ {states' : States}, states.Alike states' →
    List.Forall₂ Tree.Alike states.trees states'.trees
  | .nil, _, .nil => .nil
  | .cons _ _ ss _ tail, _, .cons hn hl hss htrs htail =>
      .cons (.node (.cons (.refl _) (.cons (.leaf (.state hn)) (List.rel_append
        (Locals.Alike.trees hl) (.cons (.refl _) (List.rel_append (Statements.Alike.trees ss hss)
          (List.rel_map (fun _ _ h => h.tree) htrs)))))))
        (States.Alike.trees tail htail)

theorem Cases.Alike.trees : (cs : Cases) → ∀ {cs' : Cases}, cs.Alike cs' →
    List.Forall₂ Tree.Alike cs.trees cs'.trees
  | .nil, _, .nil => .nil
  | .cons _ s ss tail, _, .cons t t' hs hss htail =>
      .cons (.refl _) (.cons (.leaf (.variant t t')) (.cons (.refl _)
        (.cons (Statement.Alike.tree s hs)
          (List.rel_append (Statements.Alike.trees ss hss) (Cases.Alike.trees tail htail)))))

theorem Branches.Alike.trees : (bs : Branches) → ∀ {bs' : Branches}, bs.Alike bs' →
    List.Forall₂ Tree.Alike bs.trees bs'.trees
  | .nil, _, .nil => .nil
  | .otherwise s, _, .otherwise h =>
      .cons (.refl _) (.cons (.refl _) (.cons (Statement.Alike.tree s h) .nil))
  | .cons e s tail, _, .cons he hs htail =>
      .cons (.refl _) (.cons (Expr.Alike.tree e he) (.cons (.refl _)
        (.cons (Statement.Alike.tree s hs) (Branches.Alike.trees tail htail))))

end

/-! ## Other tokens -/

mutual

theorem Statement.exists_alike : (s : Statement) → ∀ {ls : List Leaf},
    List.Forall₂ Leaf.Alike s.tree.leaves ls → ∃ s' : Statement, s.Alike s' ∧ s'.tree.leaves = ls
  | .equations es, ls, h => by
      obtain ⟨es', hes, rfl⟩ := Equations.exists_alike h
      exact ⟨.equations es', .equations hes, rfl⟩
  | .automaton l states, ls, h => by
      simp only [Statement.tree, Tree.leaves, Tree.leavesAll, Tree.leavesAll_append,
        List.append_nil, List.append_assoc, List.cons_append, List.nil_append,
        List.forall₂_cons_left_iff, forall₂_append_left_iff, List.forall₂_nil_left_iff,
        Leaf.alike_keyword_iff] at h
      obtain ⟨_, _, rfl, ⟨us, _, hus, ⟨vs, _, hvs, ⟨_, _, rfl, rfl, rfl⟩, rfl⟩, rfl⟩, rfl⟩ := h
      obtain ⟨l', hl, rfl⟩ := Locals.exists_alike hus
      obtain ⟨states', hstates, rfl⟩ := States.exists_alike states hvs
      exact ⟨.automaton l' states', .automaton hl hstates, by
        simp [Statement.tree, Tree.leaves, Tree.leavesAll]⟩
  | .switch n cs, ls, h => by
      simp only [Statement.tree, Tree.leaves, Tree.leavesAll, Tree.leavesAll_append,
        List.append_nil, List.cons_append, List.nil_append, List.forall₂_cons_left_iff,
        forall₂_append_left_iff, List.forall₂_nil_left_iff, Leaf.alike_keyword_iff,
        Leaf.alike_name_iff] at h
      obtain ⟨_, _, rfl, ⟨_, _, ⟨n', rfl, hn⟩, ⟨us, _, hus, ⟨_, _, rfl, rfl, rfl⟩, rfl⟩, rfl⟩, rfl⟩ := h
      obtain ⟨cs', hcs, rfl⟩ := Cases.exists_alike cs hus
      exact ⟨.switch n' cs', .switch hn hcs, by simp [Statement.tree, Tree.leaves, Tree.leavesAll]⟩
  | .present bs, ls, h => by
      simp only [Statement.tree, Tree.leaves, Tree.leavesAll, Tree.leavesAll_append,
        List.append_nil, List.cons_append, List.nil_append, List.forall₂_cons_left_iff,
        forall₂_append_left_iff, List.forall₂_nil_left_iff, Leaf.alike_keyword_iff] at h
      obtain ⟨_, _, rfl, ⟨us, _, hus, ⟨_, _, rfl, rfl, rfl⟩, rfl⟩, rfl⟩ := h
      obtain ⟨bs', hbs, rfl⟩ := Branches.exists_alike bs hus
      exact ⟨.present bs', .present hbs, by simp [Statement.tree, Tree.leaves, Tree.leavesAll]⟩
  | .reset ss e, ls, h => by
      simp only [Statement.tree, Tree.leaves, Tree.leavesAll, Tree.leavesAll_append,
        List.append_nil, List.cons_append, List.nil_append, List.forall₂_cons_left_iff,
        forall₂_append_left_iff, Leaf.alike_keyword_iff] at h
      obtain ⟨_, _, rfl, ⟨us, _, hus, ⟨_, vs, rfl, hvs, rfl⟩, rfl⟩, rfl⟩ := h
      obtain ⟨ss', hss, rfl⟩ := Statements.exists_alike ss hus
      obtain ⟨e', he, rfl⟩ := Expr.exists_alike e hvs
      exact ⟨.reset ss' e', .reset hss he, by simp [Statement.tree, Tree.leaves, Tree.leavesAll]⟩

theorem Statements.exists_alike : (ss : Statements) → ∀ {ls : List Leaf},
    List.Forall₂ Leaf.Alike (Tree.leavesAll ss.trees) ls →
    ∃ ss' : Statements, ss.Alike ss' ∧ Tree.leavesAll ss'.trees = ls
  | .nil, ls, h => by
      obtain rfl := List.forall₂_nil_left_iff.mp h
      exact ⟨.nil, .nil, rfl⟩
  | .cons s ss, ls, h => by
      obtain ⟨us, vs, hus, hvs, rfl⟩ := forall₂_append_left_iff.mp h
      obtain ⟨s', hs, rfl⟩ := Statement.exists_alike s hus
      obtain ⟨ss', hss, rfl⟩ := Statements.exists_alike ss hvs
      exact ⟨.cons s' ss', .cons hs hss, rfl⟩

theorem States.exists_alike : (states : States) → ∀ {ls : List Leaf},
    List.Forall₂ Leaf.Alike (Tree.leavesAll states.trees) ls →
    ∃ states' : States, states.Alike states' ∧ Tree.leavesAll states'.trees = ls
  | .nil, ls, h => by
      obtain rfl := List.forall₂_nil_left_iff.mp h
      exact ⟨.nil, .nil, rfl⟩
  | .cons n l ss trs tail, ls, h => by
      simp only [States.trees, Tree.leaves, Tree.leavesAll, Tree.leavesAll_append,
        List.append_assoc, List.cons_append, List.nil_append, List.forall₂_cons_left_iff,
        forall₂_append_left_iff, Leaf.alike_keyword_iff, Leaf.alike_state_iff] at h
      obtain ⟨_, _, rfl, ⟨_, _, ⟨n', rfl, hn⟩, ⟨us, _, hus, ⟨_, _, rfl, ⟨vs, _, hvs, ⟨ws, xs, hws, hxs,
        rfl⟩, rfl⟩, rfl⟩, rfl⟩, rfl⟩, rfl⟩ := h
      obtain ⟨l', hl, rfl⟩ := Locals.exists_alike hus
      obtain ⟨ss', hss, rfl⟩ := Statements.exists_alike ss hvs
      obtain ⟨trs', htrs, rfl⟩ := Transition.exists_alike_map hws
      obtain ⟨tail', htail, rfl⟩ := States.exists_alike tail hxs
      exact ⟨.cons n' l' ss' trs' tail', .cons hn hl hss htrs htail, by
        simp [States.trees, Tree.leaves, Tree.leavesAll]⟩

theorem Cases.exists_alike : (cs : Cases) → ∀ {ls : List Leaf},
    List.Forall₂ Leaf.Alike (Tree.leavesAll cs.trees) ls →
    ∃ cs' : Cases, cs.Alike cs' ∧ Tree.leavesAll cs'.trees = ls
  | .nil, ls, h => by
      obtain rfl := List.forall₂_nil_left_iff.mp h
      exact ⟨.nil, .nil, rfl⟩
  | .cons t s ss tail, ls, h => by
      simp only [Cases.trees, Tree.leaves, Tree.leavesAll, Tree.leavesAll_append, List.cons_append,
        List.nil_append, List.forall₂_cons_left_iff, forall₂_append_left_iff,
        Leaf.alike_keyword_iff, Leaf.alike_symbol_iff, Leaf.alike_variant_iff] at h
      obtain ⟨_, _, rfl, ⟨_, _, ⟨t', rfl⟩, ⟨_, _, rfl, ⟨us, _, hus, ⟨vs, ws, hvs, hws, rfl⟩, rfl⟩, rfl⟩,
        rfl⟩, rfl⟩ := h
      obtain ⟨s', hs, rfl⟩ := Statement.exists_alike s hus
      obtain ⟨ss', hss, rfl⟩ := Statements.exists_alike ss hvs
      obtain ⟨tail', htail, rfl⟩ := Cases.exists_alike tail hws
      exact ⟨.cons t' s' ss' tail', .cons t t' hs hss htail, by
        simp [Cases.trees, Tree.leaves, Tree.leavesAll]⟩

theorem Branches.exists_alike : (bs : Branches) → ∀ {ls : List Leaf},
    List.Forall₂ Leaf.Alike (Tree.leavesAll bs.trees) ls →
    ∃ bs' : Branches, bs.Alike bs' ∧ Tree.leavesAll bs'.trees = ls
  | .nil, ls, h => by
      obtain rfl := List.forall₂_nil_left_iff.mp h
      exact ⟨.nil, .nil, rfl⟩
  | .otherwise s, ls, h => by
      simp only [Branches.trees, Tree.leaves, Tree.leavesAll, List.append_nil, List.cons_append,
        List.nil_append, List.forall₂_cons_left_iff, Leaf.alike_keyword_iff] at h
      obtain ⟨_, _, rfl, ⟨_, us, rfl, hus, rfl⟩, rfl⟩ := h
      obtain ⟨s', hs, rfl⟩ := Statement.exists_alike s hus
      exact ⟨.otherwise s', .otherwise hs, by simp [Branches.trees, Tree.leaves, Tree.leavesAll]⟩
  | .cons e s tail, ls, h => by
      simp only [Branches.trees, Tree.leaves, Tree.leavesAll, List.cons_append, List.nil_append,
        List.forall₂_cons_left_iff, forall₂_append_left_iff, Leaf.alike_keyword_iff,
        Leaf.alike_symbol_iff] at h
      obtain ⟨_, _, rfl, ⟨us, _, hus, ⟨_, _, rfl, ⟨vs, ws, hvs, hws, rfl⟩, rfl⟩, rfl⟩, rfl⟩ := h
      obtain ⟨e', he, rfl⟩ := Expr.exists_alike e hus
      obtain ⟨s', hs, rfl⟩ := Statement.exists_alike s hvs
      obtain ⟨tail', htail, rfl⟩ := Branches.exists_alike tail hws
      exact ⟨.cons e' s' tail', .cons he hs htail, by
        simp [Branches.trees, Tree.leaves, Tree.leavesAll]⟩

end

end Heptagon
