import Heptagon.Proofs.Expr.Meeting
import Heptagon.Proofs.Statement.Regrouping

/-!
# Where statements meet

No name at the end of a statement calls the targets of the next one, with one
exception: the signal of a `reset` has no semicolon of its own, so it ends where
the first possible equation starts if a semicolon comes later
(`Statement.parted`).
-/

namespace Heptagon

variable {ts us : List Lexeme} {vs : List Tree}

/-! ## Declarations -/

/-- A tree is as wide as the text that its tokens are written with. -/
theorem Tree.drop_width (t : Tree) (us : Units) (h : unitsAll [t] = us.shown) (ts : List Lexeme) :
    (us.flatten ++ ts).drop t.width = ts := by
  have hwidth := Tree.widthAll_eq_length [t]
  rw [h, Units.flatten_shown, List.length_map, widthAll, widthAll, Nat.add_zero] at hwidth
  rw [hwidth, List.drop_left]

theorem Name.joinsAll_more (ns : List Name) (hvs : Tree.JoinsAll us vs) :
    Tree.JoinsAll ((moreUnits ns).flatten ++ us) (more ns ++ vs) := by
  induction ns with
  | nil => exact hvs
  | cons n ns ih => simpa [more, moreUnits] using ih

theorem Ty.joins (t : Ty) (ts : List Lexeme) : t.tree.Joins ts := by
  induction t generalizing ts with
  | base b => simp [tree]
  | named n => simp [tree]
  | array t s ih => cases s <;> simp [tree, Size.tree, ih]

theorem Clock.joins (c : Clock) (ts : List Lexeme) : c.tree.Joins ts := by
  have hall : ∀ (ss : List Sampling) ts, Tree.JoinsAll ts (ss.flatMap Sampling.trees) := by
    intro ss
    induction ss with
    | nil => simp
    | cons s ss ih => simp [Sampling.trees, ih]
  have h := hall (c.first :: c.others)
  simp [tree, -List.flatMap_cons, h]

theorem VarGroup.joins (g : VarGroup) (ts : List Lexeme) :
    g.tree.Joins (g.units.flatten ++ ts) := by
  have htype : g.type.tree.isJoint = false := by cases g.type <;> rfl
  have hrest : Tree.JoinsAll (.symbol .colon :: (g.type.units ++ Clock.unitsOf g.clock).flatten ++ ts)
      (.sym .colon :: g.type.tree :: (g.clock.map Clock.tree).toList) := by
    cases g.clock <;> simp [Tree.joinsAll_cons_of_isJoint htype, Ty.joins, Clock.joins]
  simpa [tree, units] using Name.joinsAll_more g.others hrest

theorem Declaration.joins {d : Declaration} (h : d.Normal) (ts : List Lexeme) :
    d.tree.Joins (d.units.flatten ++ ts) := by
  cases d with
  | plain g => simpa [tree, units] using g.joins ts
  | last g i =>
      have hg := g.joins (.symbol .equal :: (i.units.flatten ++ ts))
      have hdrop := Tree.drop_width g.tree g.units (by simp)
        (.symbol .equal :: (i.units.flatten ++ ts))
      cases i with
      | name n => simpa [tree, units, hdrop, Init.tree] using hg
      | literal l =>
          have hl := l.joins h.2 ts
          simp only [Init.units, Units.flatten_ofLexemes] at hg hdrop
          simpa [tree, units, Init.units, hdrop, Init.tree] using ⟨hg, hl⟩

theorem Declaration.joinsAll_cons {d : Declaration} (h : d.Normal) (hvs : Tree.JoinsAll us vs) :
    Tree.JoinsAll (d.units.flatten ++ us) (d.tree :: vs) := by
  have hjoint : d.tree.isJoint = false := by cases d <;> rfl
  rw [Tree.joinsAll_cons_of_isJoint hjoint, Tree.drop_width d.tree d.units (by simp)]
  exact ⟨joins h us, hvs⟩

theorem Declaration.joinsAll_more {ds : List Declaration} (h : ∀ d ∈ ds, d.Normal)
    (hvs : Tree.JoinsAll us vs) :
    Tree.JoinsAll ((moreUnits ds).flatten ++ us) (more ds ++ vs) := by
  induction ds with
  | nil => exact hvs
  | cons d ds ih =>
      obtain ⟨hd, hds⟩ := List.forall_mem_cons.mp h
      simpa [more, moreUnits] using joinsAll_cons hd (ih hds)

theorem Tree.joinsAll_semicolonIf (b : Bool) (ts : List Lexeme) :
    Tree.JoinsAll ts (semicolonIf b) := by
  cases b <;> simp [semicolonIf]

theorem Params.joins {p : Params} (h : p.Normal) (ts : List Lexeme) :
    p.tree.Joins (p.units.flatten ++ ts) := by
  cases p with
  | empty o => simp [tree]
  | list o d ds semicolon =>
      obtain ⟨hd, hds⟩ := List.forall_mem_cons.mp h
      have hends := Tree.joinsAll_semicolonIf semicolon
        ((Units.semicolonIf semicolon).flatten ++ .symbol .parenClose :: ts)
      simpa [tree, units] using Declaration.joinsAll_cons hd (Declaration.joinsAll_more hds hends)

theorem Locals.joinsAll_trees {l : Option Locals} (h : ∀ l' ∈ l, l'.Normal)
    (hvs : Tree.JoinsAll us vs) : Tree.JoinsAll ((unitsOf l).flatten ++ us) (trees l ++ vs) := by
  cases l with
  | none => exact hvs
  | some l =>
      have h := h l rfl
      have hends : Tree.JoinsAll (.symbol .semicolon :: us) [.sym .semicolon] := by simp
      have hall := Declaration.joinsAll_cons h.first
        (Declaration.joinsAll_more (fun d hd => (h.others d hd).1) hends)
      have hjoint : l.tree.isJoint = false := rfl
      have hdrop := Tree.drop_width l.tree l.units
        (by simpa [trees, unitsOf] using unitsAll_trees (some l)) us
      simp only [unitsOf, trees, Option.map_some, Option.toList_some, List.cons_append,
        List.nil_append]
      rw [Tree.joinsAll_cons_of_isJoint hjoint, hdrop]
      exact ⟨by simpa [tree, units] using hall, hvs⟩

/-! ## Equations -/

theorem Equation.joinsAll_cons {e : Equation} (h : e.Normal) (hvs : Tree.JoinsAll us vs) :
    Tree.JoinsAll (e.lexemes ++ us) (e.tree :: vs) := by
  have hdrop := Tree.drop_width e.tree (.ofLexemes e.lexemes) (by simp) us
  rw [Units.flatten_ofLexemes] at hdrop
  rw [Tree.joinsAll_cons_of_isJoint rfl, hdrop]
  refine ⟨?_, hvs⟩
  obtain ⟨target, value⟩ := e
  have hvalue := value.joins h us
  cases target with
  | single n => simpa [tree, lexemes, Target.trees, Target.lexemes] using hvalue
  | several o n ns =>
      have hrest : Tree.JoinsAll (.symbol .parenClose :: .symbol .equal :: (value.lexemes ++ us))
          [.sym .parenClose, .sym .equal, value.tree] := by simpa using hvalue
      simpa [tree, lexemes, Target.trees, Target.lexemes] using Name.joinsAll_more ns hrest

theorem Equation.joinsAll_more {es : List Equation} (h : ∀ e ∈ es, e.Normal)
    (hvs : Tree.JoinsAll us vs) : Tree.JoinsAll (moreLexemes es ++ us)
      (es.flatMap (fun e => [.sym .semicolon, e.tree]) ++ vs) := by
  induction es with
  | nil => exact hvs
  | cons e es ih =>
      obtain ⟨he, hes⟩ := List.forall_mem_cons.mp h
      simpa [moreLexemes] using joinsAll_cons he (ih hes)

theorem Equations.joins {es : Equations} (hfirst : es.first.Normal)
    (hothers : ∀ e ∈ es.others, e.Normal) (ts : List Lexeme) :
    es.tree.Joins (es.lexemes ++ ts) := by
  have hends := Tree.joinsAll_semicolonIf es.semicolon ((Units.semicolonIf es.semicolon).flatten ++ ts)
  simpa [tree, lexemes] using
    Equation.joinsAll_cons hfirst (Equation.joinsAll_more hothers hends)

theorem Transition.joinsAll_map {trs : List Transition} (h : Fit trs ts)
    (hvs : Tree.JoinsAll ts vs) :
    Tree.JoinsAll ((trs.flatMap units).flatten ++ ts) (trs.map tree ++ vs) := by
  induction trs with
  | nil => exact hvs
  | cons t trs ih =>
      obtain ⟨hguard, -, -, hfit⟩ := h
      have hguard := t.guard.joins hguard (.kw .then_ :: (t.goal.lexemes ++
        ((trs.flatMap units).flatten ++ ts)))
      have hdrop := Tree.drop_width t.tree t.units
        (by simpa using Transition.unitsAll_map_tree [t]) ((trs.flatMap units).flatten ++ ts)
      simp only [List.flatMap_cons, List.flatten_append, List.append_assoc, List.map_cons,
        List.cons_append]
      rw [Tree.joinsAll_cons_of_isJoint rfl, hdrop]
      refine ⟨?_, ih hfit⟩
      simpa [tree, units] using hguard

/-! ## Signals -/

/-- An equation in front of which a signal ends early has a semicolon. -/
theorem Equations.semicolon_of_signals {es : Equations} {e whole : Expr} {us : List Lexeme}
    (hnormal : whole.Normal) (hbefore : whole.beforeEquation? none = some e)
    (hwhole : whole.lexemes ++ .symbol .semicolon :: us = e.lexemes ++ (es.lexemes ++ ts))
    (hfits : es.Fits false ts) : es.semicolon = true := by
  by_contra hsemicolon
  have hsemicolon : es.semicolon = false := by simpa using hsemicolon
  have hothers := hfits.single rfl
  obtain ⟨hstops, hends⟩ := hfits.stops hsemicolon
  obtain ⟨n, ns, tail, ht, ⟨-, hnext⟩ | ⟨v, hv, rfl⟩⟩ := Expr.exists_equation hnormal hbefore
  · simp at hnext
  rw [hothers, Equation.lastOr] at hstops
  rw [ht, List.append_assoc, List.append_cancel_left_eq] at hwhole
  have hread : Equation.take? ((⟨.several .plain n ns, v⟩ : Equation).lexemes ++
      .symbol .semicolon :: us) = some (⟨.several .plain n ns, v⟩, .symbol .semicolon :: us) :=
    Equation.take?_eq_some_iff.mpr ⟨rfl, hv, .of_cons rfl (by simp)⟩
  have hread' := Equation.take?_eq_some_iff.mpr ⟨rfl, hfits.first, hstops⟩
  have hlexemes : es.lexemes = es.first.lexemes := by
    simp [lexemes, hothers, hsemicolon, Equation.moreLexemes, Units.semicolonIf]
  rw [← hlexemes, ← hwhole] at hread'
  rw [Equation.lexemes] at hread
  rw [hread] at hread'
  obtain ⟨-, rfl⟩ := Prod.mk.inj (Option.some.inj hread')
  simp [Ends] at hends

/-! ## Statements -/

/-- Whether targets hold a word that cannot be an argument is up to their names. -/
theorem Lexeme.holdsOperators_names (found : Bool) (n : Name) (ns : List Name)
    (us : List Lexeme) :
    holdsOperators found (.word n :: ((Name.moreUnits ns).flatten ++
      .symbol .parenClose :: .symbol .equal :: us)) =
        (found || (n :: ns).any holdsOperators.needsOperand) := by
  induction ns generalizing found n with
  | nil => simp [Name.moreUnits, holdsOperators]
  | cons m ns ih =>
      have := ih (found || holdsOperators.needsOperand n) m
      simpa [Name.moreUnits, holdsOperators, Bool.or_assoc] using this

theorem Lexeme.exists_keyword_of_needsOperand {w : Word}
    (h : holdsOperators.needsOperand w = true) :
    ∃ k ∈ [Keyword.if_, .not, .pre, .last], w = .keyword k := by
  cases w with
  | plain t => simp [holdsOperators.needsOperand] at h
  | keyword k =>
      refine ⟨k, ?_, rfl⟩
      revert h
      cases k <;> decide

/-- The names in parentheses are the first tokens. -/
theorem Target.takeWhile_leaves (o : Opening) (n : Name) (ns : List Name) (ls : List Leaf) :
    (Tree.leavesAll (Target.several o n ns).trees ++ ls).takeWhile (· ≠ .symbol .parenClose) =
      .symbol .parenOpen :: .name n :: Tree.leavesAll (Name.more ns) := by
  have hmore : ∀ l ∈ Tree.leavesAll (Name.more ns), l ≠ .symbol .parenClose := by
    induction ns with
    | nil => simp [Name.more]
    | cons m ns ih => simpa [Name.more, Tree.leaves] using ih
  rw [trees]
  simp only [Tree.leavesAll_cons, Tree.leavesAll_append, Tree.leaves, Tree.leavesAll_nil,
    List.append_nil, List.append_assoc, List.cons_append, List.nil_append]
  rw [List.takeWhile_cons_of_pos (by simp), List.takeWhile_cons_of_pos (by simp),
    List.takeWhile_append_of_pos (by simpa using hmore), List.takeWhile_cons_of_neg (by simp),
    List.append_nil]

theorem Name.mem_leavesAll_more {ns : List Name} {n : Name} (h : n ∈ ns) :
    .name n ∈ Tree.leavesAll (more ns) := by
  induction ns with
  | nil => simp at h
  | cons m ns ih =>
      rcases List.mem_cons.mp h with rfl | h
      · simp [more, Tree.leaves]
      · have := ih h
        simp only [more, List.flatMap_cons, Tree.leavesAll_append] at this ⊢
        exact List.mem_append_right _ this

/-- A statement that starts with a parenthesis is an equation for several variables. -/
theorem Statement.exists_several (s : Statement) (h : s.tree.StartsInParen) :
    ∃ es o n ns, s = .equations es ∧ es.first.target = .several o n ns := by
  cases s with
  | equations es =>
      obtain ⟨⟨target, value⟩, others, semicolon⟩ := es
      cases target with
      | single n =>
          simp [Tree.StartsInParen, tree, Equations.tree, Equation.tree, Target.trees,
            Tree.leaves] at h
      | several o n ns => exact ⟨_, o, n, ns, rfl, rfl⟩
  | _ => simp [Tree.StartsInParen, tree, Tree.leaves] at h

/-- A name at the end of a statement belongs to an expression. -/
theorem Statement.exists_expr_of_endsInName (s : Statement) {ts : List Lexeme} (h : s.Fits false ts)
    (hname : s.tree.EndsInName) :
    (∃ e : Expr, e.tree.EndsInName ∧ e.Stops ts) ∨
      ∃ body e, s = .reset body e ∧ e.tree.EndsInName ∧ e.Signals ts := by
  obtain ⟨m, hm⟩ := hname
  cases s with
  | equations es =>
      have hothers := h.single rfl
      cases hsemicolon : es.semicolon with
      | true =>
          simp [tree, Equations.tree, hothers, hsemicolon, Tree.semicolonIf, Tree.leaves,
            List.getLast?_append] at hm
      | false =>
          have hstops := (h.stops hsemicolon).1
          rw [hothers, Equation.lastOr] at hstops
          refine .inl ⟨es.first.value, ⟨m, ?_⟩, hstops⟩
          rw [← es.first.value.getLast?_leaves_append
            (Tree.leavesAll es.first.target.trees ++ [.symbol .equal])]
          simpa [tree, Equations.tree, hothers, hsemicolon, Tree.semicolonIf, Tree.leaves,
            Equation.tree] using hm
  | reset body e =>
      refine .inr ⟨body, e, rfl, ⟨m, ?_⟩, h.2⟩
      rw [← e.getLast?_leaves_append
        (.keyword .reset :: (Tree.leavesAll body.trees ++ [.keyword .every]))]
      simpa [tree, Tree.leaves] using hm
  | _ => simp [tree, Tree.leaves, List.getLast?_append, List.getLast?_cons] at hm

/-- A name at the end of a statement does not call the targets of the next one, unless the
statement is a `reset` and the next one has a semicolon. -/
theorem Statement.parted {s s' : Statement} (h : s.Fits false (s'.units.flatten ++ ts))
    (h' : s'.Fits false ts) (hname : s.tree.EndsInName) (hparen : s'.tree.StartsInParen) :
    s.tree.Parted s'.tree (s'.units.flatten ++ ts) := by
  obtain ⟨es, o, n, ns, rfl, htarget⟩ := s'.exists_several hparen
  have hexpression : s.tree.label ≠ .named .expression := by
    cases s <;> simp [tree, Tree.label, Equations.tree]
  refine ⟨fun hlabel => absurd hlabel hexpression, fun _ => ?_⟩
  have hunits : (Statement.equations es).units.flatten ++ ts = es.lexemes ++ ts := by
    simp [units]
  obtain ⟨vs, hvs⟩ : ∃ vs, es.lexemes ++ ts = o.lexeme :: .word n ::
      ((Name.moreUnits ns).flatten ++ .symbol .parenClose :: .symbol .equal :: vs) :=
    ⟨es.first.value.lexemes ++ (Equation.moreLexemes es.others ++
      ((Units.semicolonIf es.semicolon).flatten ++ ts)),
      by simp [Equations.lexemes, Equation.lexemes, htarget, Target.lexemes]⟩
  rw [hunits] at h ⊢
  -- whatever ends in front of the parenthesis leaves it apart
  have hapart : ∀ e : Expr, e.tree.EndsInName → e.Stops (es.lexemes ++ ts) →
      ∃ us, es.lexemes ++ ts = .apart :: us ∧ (Lexeme.holdsOperators false us = true →
        Leaf.HoldOperator (Statement.equations es).tree.leaves) := by
    intro e he hstops
    have hhead := hstops.paren (e.endsInName_of_leaves he)
    rw [hvs] at hhead ⊢
    obtain rfl : o = .apart := by
      cases o with
      | plain => simp [Opening.lexeme] at hhead
      | apart => rfl
    refine ⟨_, rfl, fun hholds => ?_⟩
    rw [Lexeme.holdsOperators_names, Bool.false_or, List.any_eq_true] at hholds
    obtain ⟨m, hm, hneeds⟩ := hholds
    obtain ⟨k, hk, rfl⟩ := Lexeme.exists_keyword_of_needsOperand hneeds
    refine ⟨k, hk, ?_⟩
    have hleaves : (Statement.equations es).tree.leaves =
        Tree.leavesAll (Target.several .apart n ns).trees ++ (.symbol .equal :: (es.first.value.tree.leaves ++
          Tree.leavesAll (es.others.flatMap (fun e => [.sym .semicolon, e.tree]) ++
            Tree.semicolonIf es.semicolon))) := by
      simp [tree, Equations.tree, Equation.tree, htarget, Tree.leaves]
    rw [hleaves, Target.takeWhile_leaves]
    rcases List.mem_cons.mp hm with rfl | hm
    · simp
    · simp [Name.mem_leavesAll_more hm]
  rcases s.exists_expr_of_endsInName h hname with ⟨e, he, hstops⟩ | ⟨body, e, rfl, he, hsignals⟩
  · exact .inl (hapart e he hstops)
  · rcases hsignals with ⟨-, hstops, -⟩ | ⟨whole, us, hnormal, -, hwhole, hbefore⟩
    · exact .inl (hapart e he hstops)
    · have hsemicolon := Equations.semicolon_of_signals hnormal hbefore hwhole h'
      refine .inr ⟨rfl, ?_⟩
      simp [tree, Equations.tree, Tree.leaves, hsemicolon, Tree.semicolonIf, List.getLast?_append]

@[simp] theorem Statement.drop_width (s : Statement) (ts : List Lexeme) :
    (s.units.flatten ++ ts).drop s.tree.width = ts :=
  Tree.drop_width s.tree s.units (by simp) ts

/-- A statement and those after it. -/
theorem Statements.joinsAll_cons {s : Statement} {ss : Statements} {b : Body}
    (hs : s.Fits false (ss.units.flatten ++ ts)) (hss : ss.Fits b ts)
    (hfirst : s.tree.Joins (s.units.flatten ++ (ss.units.flatten ++ ts)))
    (hrest : Tree.JoinsAll (ss.units.flatten ++ ts) (ss.trees ++ vs))
    (hjoint : ∀ v ∈ vs.head?, v.isJoint = false) :
    Tree.JoinsAll (s.units.flatten ++ (ss.units.flatten ++ ts)) (s.tree :: (ss.trees ++ vs)) := by
  refine ⟨hfirst, fun v hv hmeets hname hparen => ?_, by rwa [s.drop_width]⟩
  rw [s.drop_width]
  cases ss with
  | nil => simp [Tree.meets_eq_false_right (hjoint v hv)] at hmeets
  | cons s' ss =>
      obtain rfl : s'.tree = v := by simpa [trees] using hv
      simp only [units, List.flatten_append, List.append_assoc] at hs ⊢
      exact Statement.parted hs hss.2.1 hname hparen

mutual

/-- No name in a statement calls what meets it. -/
theorem Statement.joins (s : Statement) {alone : Bool} {ts : List Lexeme} (h : s.Fits alone ts) :
    s.tree.Joins (s.units.flatten ++ ts) := by
  cases s with
  | equations es =>
      simpa [Statement.tree, Statement.units] using
        Equations.joins h.first (fun e he => (h.others e he).1) ts
  | automaton locals states =>
      have hend : Tree.JoinsAll (.kw .end_ :: ts) [.kw .end_] := by simp
      have hstates := States.joinsAll_trees states h.2 hend
      simpa [Statement.tree, Statement.units] using Locals.joinsAll_trees h.1 hstates
  | switch x cs =>
      have hend : Tree.JoinsAll (.kw .end_ :: ts) [.kw .end_] := by simp
      have hcases := Cases.joinsAll_trees cs h hend (by simp)
      simpa [Statement.tree, Statement.units] using hcases
  | present bs =>
      have hend : Tree.JoinsAll (.kw .end_ :: ts) [.kw .end_] := by simp
      have hbranches := Branches.joinsAll_trees bs h hend (by simp)
      simpa [Statement.tree, Statement.units] using hbranches
  | reset body e =>
      have he := e.joins h.2.normal ts
      have hevery : Tree.JoinsAll (.kw .every :: (e.lexemes ++ ts)) [.kw .every, e.tree] := by
        simpa using he
      have hbody := Statements.joinsAll_trees body h.1 hevery (by simp)
      simpa [Statement.tree, Statement.units] using hbody

theorem Statements.joinsAll_trees (ss : Statements) {b : Body} {ts : List Lexeme}
    {vs : List Tree} (h : ss.Fits b ts) (hvs : Tree.JoinsAll ts vs)
    (hjoint : ∀ v ∈ vs.head?, v.isJoint = false) :
    Tree.JoinsAll (ss.units.flatten ++ ts) (ss.trees ++ vs) := by
  cases ss with
  | nil => exact hvs
  | cons s ss =>
      obtain ⟨-, hs, hss⟩ := h
      have hrest := Statements.joinsAll_trees ss hss hvs hjoint
      simpa [Statements.units, Statements.trees] using
        Statements.joinsAll_cons hs hss (Statement.joins s hs) hrest hjoint

theorem States.joinsAll_trees (states : States) {ts : List Lexeme} {vs : List Tree}
    (h : states.Fits ts) (hvs : Tree.JoinsAll ts vs) :
    Tree.JoinsAll (states.units.flatten ++ ts) (states.trees ++ vs) := by
  cases states with
  | nil => exact hvs
  | cons name locals body trs tail =>
      obtain ⟨-, hlocals, hbody, htrs, htail⟩ := h
      have hrest := States.joinsAll_trees tail htail hvs
      have htransitions := Transition.joinsAll_map htrs Tree.joinsAll_nil
      have hjoint : ∀ v ∈ (trs.map Transition.tree ++ []).head?, v.isJoint = false := by
        cases trs with
        | nil => simp
        | cons t trs =>
            rintro v hv
            obtain rfl : t.tree = v := by simpa using hv
            rfl
      have hstatements := Statements.joinsAll_trees body hbody htransitions hjoint
      have hdo : Tree.JoinsAll (.kw .do_ :: (body.units.flatten ++
          ((trs.flatMap Transition.units).flatten ++ (tail.units.flatten ++ ts))))
          (.kw .do_ :: (body.trees ++ (trs.map Transition.tree ++ []))) := by
        simpa using hstatements
      have hinside := Locals.joinsAll_trees hlocals hdo
      -- the next state starts behind all lexemes of this one
      have hdrop := Tree.drop_width (.node .automatonState (.kw .state ::
          .leaf (.state name) :: (Locals.trees locals ++ .kw .do_ ::
            (body.trees ++ trs.map Transition.tree))))
        ([.kw .state] :: name.lexemes :: (Locals.unitsOf locals ++ [.kw .do_] ::
          (body.units ++ trs.flatMap Transition.units)))
        (by simp) (tail.units.flatten ++ ts)
      simp only [States.units, States.trees, List.flatten_cons, List.flatten_append,
        List.append_assoc, List.cons_append, List.nil_append] at hdrop ⊢
      rw [Tree.joinsAll_cons_of_isJoint rfl, hdrop]
      refine ⟨?_, hrest⟩
      simpa using hinside

theorem Cases.joinsAll_trees (cs : Cases) {ts : List Lexeme} {vs : List Tree} (h : cs.Fits ts)
    (hvs : Tree.JoinsAll ts vs) (hjoint : ∀ v ∈ vs.head?, v.isJoint = false) :
    Tree.JoinsAll (cs.units.flatten ++ ts) (cs.trees ++ vs) := by
  cases cs with
  | nil => exact hvs
  | cons t s ss tail =>
      obtain ⟨hs, hss, htail⟩ := h
      have hhead : ∀ v ∈ (tail.trees ++ vs).head?, v.isJoint = false := by
        cases tail with
        | nil => exact hjoint
        | cons t' s' ss' tail' => simp [Cases.trees]
      have hrest := Statements.joinsAll_trees ss hss (Cases.joinsAll_trees tail htail hvs hjoint) hhead
      have hall := Statements.joinsAll_cons hs hss (Statement.joins s hs) hrest hhead
      simpa [Cases.units, Cases.trees] using hall

theorem Branches.joinsAll_trees (bs : Branches) {ts : List Lexeme} {vs : List Tree}
    (h : bs.Fits ts) (hvs : Tree.JoinsAll ts vs) (hjoint : ∀ v ∈ vs.head?, v.isJoint = false) :
    Tree.JoinsAll (bs.units.flatten ++ ts) (bs.trees ++ vs) := by
  cases bs with
  | nil => exact hvs
  | otherwise s =>
      have hs := Statement.joins s h
      have hmeets : ∀ v ∈ vs.head?, s.tree.meets v = false := fun v hv =>
        Tree.meets_eq_false_right (hjoint v hv) s.tree
      have hall : Tree.JoinsAll (s.units.flatten ++ ts) (s.tree :: vs) :=
        ⟨hs, fun v hv h => by simp [hmeets v hv] at h, by rwa [s.drop_width]⟩
      simpa [Branches.units, Branches.trees] using hall
  | cons e s tail =>
      obtain ⟨he, hs, htail⟩ := h
      have hrest := Branches.joinsAll_trees tail htail hvs hjoint
      have hhead : ∀ v ∈ (tail.trees ++ vs).head?, s.tree.meets v = false := by
        cases tail with
        | nil => exact fun v hv => Tree.meets_eq_false_right (hjoint v hv) s.tree
        | otherwise s' => simp [Branches.trees]
        | cons e' s' tail' => simp [Branches.trees]
      have hall : Tree.JoinsAll (s.units.flatten ++ (tail.units.flatten ++ ts))
          (s.tree :: (tail.trees ++ vs)) :=
        ⟨Statement.joins s hs, fun v hv h => by simp [hhead v hv] at h, by rwa [s.drop_width]⟩
      have he := e.joins he (.kw .do_ :: (s.units.flatten ++ (tail.units.flatten ++ ts)))
      simpa [Branches.units, Branches.trees] using ⟨he, hall⟩

end

end Heptagon
