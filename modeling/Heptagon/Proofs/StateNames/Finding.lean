import Heptagon.Proofs.Statement.Meeting
import Heptagon.Proofs.StateNames.Marks

/-!
# The names of states in statements and programs

In a list of statements the frames follow the statements as they are read.  The
frame that expects more of an expression stays where a statement ends without a
semicolon, and there it does what the frame below it would do
(`Frame.marks_more`).
-/

namespace Heptagon

open Frame

section

variable {k : List Frame} {ts : List Lexeme} {b : Body}

/-! ## Equations -/

/-- In front of a statement, it makes no difference whether more of an expression is expected. -/
theorem Frame.marks_more (h : BinaryOp.take? ts = none) :
    marks (more :: statements b :: k) ts = marks (statements b :: k) ts := by
  cases ts with
  | nil => rfl
  | cons l ts =>
      have hop := BinaryOp.take?_cons_eq_none_iff.mp h
      by_cases hparen : l.isParen = true
      · have hcloses : b.closes l = false := by
          unfold Lexeme.isParen at hparen
          split at hparen <;> first | (cases b <;> rfl) | simp at hparen
        have hstatement : statement l = [within, more] := by
          unfold Lexeme.isParen at hparen
          split at hparen <;> first | rfl | simp at hparen
        have hsemicolon : l ≠ .symbol .semicolon := by
          rintro rfl
          simp [Lexeme.isParen] at hparen
        have hmore : more.step l = some (.token, [within, more]) := by simp [step, hop, hparen]
        have hnext : (statements b).step l = some (.token, [within, more, statements b]) := by
          simp [step, hcloses, hsemicolon, hstatement]
        rw [marks_cons hmore, marks_cons hnext]
        rfl
      · refine marks_pop fun x hx => ?_
        obtain rfl := Option.some.inj hx
        simp [step, hop, hparen]

/-- What is to come after the first lexeme of an equation is the rest of it. -/
theorem Equation.marks_equation {e : Equation} (h : e.Normal) {x : Lexeme} {xs : List Lexeme}
    (hx : e.lexemes = x :: xs) :
    Mark.token :: marks (equation x ++ k) (xs ++ ts) = e.tree.marks ++ marks (more :: k) ts := by
  obtain ⟨target, value⟩ := e
  have hequal : ∀ us, marks (more :: k) (.symbol .equal :: us) =
      .token :: marks (operand :: k) us := fun _ => rfl
  cases target with
  | single n =>
      obtain ⟨rfl, rfl⟩ := List.cons.inj hx
      simp [Frame.equation, Lexeme.isParen, Equation.tree, Target.trees, hequal,
        Expr.marks_operand value h]
  | several o n ns =>
      obtain ⟨rfl, rfl⟩ := List.cons.inj hx
      have hname : ∀ us, marks (within :: more :: k) (.word n :: us) =
          .token :: marks (within :: more :: k) us := fun _ => rfl
      have hclose : ∀ us, marks (within :: more :: k) (.symbol .parenClose :: us) =
          .token :: marks (more :: k) us := fun _ => rfl
      have hnames := fun us => @Name.marks_inside (more :: k) us _ (.inl rfl) ns
      simp [Frame.equation, Equation.tree, Target.trees, hname, hnames, hclose, hequal,
        Expr.marks_operand value h]

/-- A statement of equations starts with the target of the first one. -/
theorem Equations.statement_eq {es : Equations}
    (h : es.first.target.isAmong [.automaton, .switch, .present, .reset] = false) {x : Lexeme}
    {xs : List Lexeme} (hx : es.first.lexemes = x :: xs) : Frame.statement x = Frame.equation x := by
  obtain ⟨⟨target, value⟩, others, semicolon⟩ := es
  cases target with
  | single n =>
      obtain ⟨rfl, -⟩ := List.cons.inj hx
      cases n with
      | plain t => rfl
      | keyword k =>
          cases k <;> first | rfl | simp [Target.isAmong] at h
  | several o n ns =>
      obtain ⟨rfl, -⟩ := List.cons.inj hx
      cases o <;> rfl

/-- Where other statements may follow, an equation is passed over with its semicolon. -/
theorem Equations.marks_first {es : Equations} (h : es.Fits false ts) :
    marks (Frame.first :: statements b :: k) (es.lexemes ++ ts) =
      es.tree.marks ++ marks (statements b :: k) ts := by
  obtain ⟨x, xs, hx⟩ := es.first.exists_lexemes_eq_cons
  have hothers := h.single rfl
  have hstart : ∀ us, marks (Frame.first :: statements b :: k) (x :: us) =
      .token :: marks (equation x ++ statements b :: k) us := fun us => by
    rw [marks_cons (f := Frame.first) rfl, Equations.statement_eq h.starts hx]
  have hend : marks (more :: statements b :: k) ((Units.semicolonIf es.semicolon).flatten ++ ts) =
      Tree.marksAll (Tree.semicolonIf es.semicolon) ++ marks (statements b :: k) ts := by
    cases hsemicolon : es.semicolon with
    | true => cases b <;> rfl
    | false => exact marks_more (h.stops hsemicolon).1.operator
  rw [Equations.lexemes, hothers, hx]
  simp only [Equation.moreLexemes, List.flatMap_nil, List.nil_append, List.cons_append,
    List.append_assoc]
  rw [hstart, Equation.marks_equation h.first hx, hend]
  simp [Equations.tree, hothers]

/-- Up to the end of a branch all equations are passed over. -/
theorem Equation.marks_more {e : Equation} (h : e.Normal) {es : List Equation}
    (hes : ∀ e' ∈ es, e'.Normal ∧ e'.target.isAmong [.default, .end_] = false)
    {semicolon : Bool} (hts : ∃ t us, ts = t :: us ∧ Branches.closes t = true) {x : Lexeme}
    {xs : List Lexeme} (hx : e.lexemes = x :: xs) :
    Mark.token :: marks (equation x ++ equations :: k)
      (xs ++ (Equation.moreLexemes es ++ ((Units.semicolonIf semicolon).flatten ++ ts))) =
      e.tree.marks ++ (Tree.marksAll (es.flatMap fun e => [.sym .semicolon, e.tree]) ++
        (Tree.marksAll (Tree.semicolonIf semicolon) ++ marks k ts)) := by
  obtain ⟨t, us, rfl, ht⟩ := hts
  induction es generalizing e x xs with
  | nil =>
      have hmore : more.step t = none := by
        unfold Branches.closes at ht
        split at ht <;> first | rfl | simp at ht
      have hequations : equations.step t = none := by
        unfold Branches.closes at ht
        split at ht <;> first | rfl | simp at ht
      have hend : marks (more :: equations :: k)
          ((Units.semicolonIf semicolon).flatten ++ t :: us) =
          Tree.marksAll (Tree.semicolonIf semicolon) ++ marks k (t :: us) := by
        cases semicolon with
        | true => exact congrArg (Mark.token :: ·) (marks_pop_cons (f := next) (by simp [step, ht]))
        | false => exact (marks_pop_cons hmore).trans (marks_pop_cons hequations)
      rw [Equation.marks_equation h hx]
      simp only [Equation.moreLexemes, List.flatMap_nil, List.nil_append, hend, Tree.marksAll_nil]
  | cons e' es ih =>
      obtain ⟨⟨he', hamong⟩, hes⟩ := List.forall_mem_cons.mp hes
      obtain ⟨y, ys, hy⟩ := e'.exists_lexemes_eq_cons
      have hcloses : Branches.closes y = false :=
        (Branches.closes_head (by rw [hy]; rfl)).trans hamong
      have hnext : ∀ vs, marks (more :: equations :: k) (.symbol .semicolon :: y :: vs) =
          .token :: .token :: marks (equation y ++ equations :: k) vs := fun vs => by
        have hy : marks (next :: k) (y :: vs) =
            .token :: marks (equation y ++ equations :: k) vs := by
          have hnext : next.step y = some (.token, equation y ++ [equations]) := by
            simp [step, hcloses]
          simp [marks_cons hnext]
        exact congrArg (Mark.token :: ·) hy
      have ih := ih he' hes hy
      rw [Equation.marks_equation h hx]
      simp only [Equation.moreLexemes, List.flatMap_cons, hy, List.cons_append, List.append_assoc]
        at ih ⊢
      rw [hnext, ih]
      simp

theorem Equations.marks_alone {es : Equations} (h : es.Fits true ts)
    (hts : ∃ t us, ts = t :: us ∧ Branches.closes t = true) :
    marks (alone :: k) (es.lexemes ++ ts) = es.tree.marks ++ marks k ts := by
  obtain ⟨x, xs, hx⟩ := es.first.exists_lexemes_eq_cons
  have hstart : ∀ us, marks (alone :: k) (x :: us) =
      .token :: marks (equation x ++ equations :: k) us := fun us => by
    rw [marks_cons (f := alone) rfl, Equations.statement_eq h.starts hx]
    simp
  have hall := @Equation.marks_more k ts _ h.first _ h.others es.semicolon hts _ _ hx
  rw [Equations.lexemes, hx]
  simp only [List.cons_append, List.append_assoc]
  rw [hstart, hall]
  simp [Equations.tree]

/-! ## Signals and transitions -/

/-- No operator follows a signal. -/
theorem Expr.Signals.operator {e : Expr} (h : e.Signals ts) : BinaryOp.take? ts = none := by
  rcases h with ⟨-, hstops, -⟩ | ⟨whole, us, hnormal, -, hlexemes, hbefore⟩
  · exact hstops.operator
  · obtain ⟨n, ns, tail, ht, -⟩ := Expr.exists_equation hnormal hbefore
    rw [ht, List.append_assoc, List.append_cancel_left_eq] at hlexemes
    rw [← hlexemes]
    rfl

theorem Transition.marks_transitions {trs : List Transition} (h : Fit trs ts) :
    marks (transitions :: k) ((trs.flatMap units).flatten ++ ts) =
      Tree.marksAll (trs.map tree) ++ marks k ts := by
  induction trs with
  | nil =>
      refine marks_pop fun l hl => ?_
      have hunless : l ≠ .kw .unless_ := fun heq => h.1 (heq ▸ hl)
      have huntil : l ≠ .kw .until_ := fun heq => h.2 (heq ▸ hl)
      unfold step
      split <;> simp_all
  | cons t trs ih =>
      obtain ⟨hguard, -, hstops, hfit⟩ := h
      have hstart : ∀ us, marks (transitions :: k)
          (.kw (if t.strong then .unless_ else .until_) :: us) =
          .token :: marks (operand :: any :: state :: transitions :: k) us := fun us => by
        cases t.strong <;> rfl
      have hthen : ∀ us, marks (more :: any :: state :: transitions :: k) (.kw .then_ :: us) =
          .token :: marks (state :: transitions :: k) us := fun _ => rfl
      have hgoal := StateName.marks_expected hstops (transitions :: k)
      simp [Transition.units, Transition.tree, hstart, Expr.marks_operand t.guard hguard, hthen,
        hgoal, ih hfit]

/-! ## Statements -/

/-- The statement of a branch is one with its equations after it. -/
theorem Frame.marks_alone : marks (alone :: k) ts = marks (Frame.first :: equations :: k) ts := by
  cases ts with
  | nil => rfl
  | cons l ts => simp [marks, go, step]

/-- In a list of statements one is expected where the list does not end. -/
theorem Frame.marks_statements {l : Lexeme} (hcloses : b.closes l = false)
    (hsemicolon : l ≠ .symbol .semicolon) :
    marks (statements b :: k) (l :: ts) = marks (Frame.first :: statements b :: k) (l :: ts) := by
  simp [marks, go, step, hcloses, hsemicolon]

/-- What is to come after a statement that is not made of equations. -/
def Statement.behind : Statement → List Frame
  | .reset _ _ => [more]
  | _ => []

/-- The statement is passed over in front of some lexemes, unless it is made of equations, which
are not passed over everywhere in the same way. -/
def Statement.Passed (s : Statement) (ts : List Lexeme) : Prop :=
  (∀ es, s ≠ .equations es) → ∀ k, marks (Frame.first :: k) (s.units.flatten ++ ts) =
    s.tree.marks ++ marks (s.behind ++ k) ts

theorem Statement.Passed.first {s : Statement} (h : s.Passed ts) (hfits : s.Fits false ts) :
    marks (Frame.first :: statements b :: k) (s.units.flatten ++ ts) =
      s.tree.marks ++ marks (statements b :: k) ts := by
  cases s with
  | equations es => simpa [Statement.units, Statement.tree] using Equations.marks_first hfits
  | automaton locals states => exact h (by simp) _
  | switch x cases => exact h (by simp) _
  | present branches => exact h (by simp) _
  | reset body e =>
      rw [h (by simp)]
      exact congrArg (_ ++ ·) (marks_more hfits.2.operator)

theorem Statement.Passed.alone {s : Statement} (h : s.Passed ts) (hfits : s.Fits true ts)
    (hts : ∃ t us, ts = t :: us ∧ Branches.closes t = true) :
    marks (alone :: k) (s.units.flatten ++ ts) = s.tree.marks ++ marks k ts := by
  have hpop : marks (Frame.equations :: k) ts = marks k ts ∧
      marks (more :: Frame.equations :: k) ts = marks k ts := by
    obtain ⟨t, us, rfl, ht⟩ := hts
    have hmore : more.step t = none := by
      unfold Branches.closes at ht
      split at ht <;> first | rfl | simp at ht
    have hequations : Frame.equations.step t = none := by
      unfold Branches.closes at ht
      split at ht <;> first | rfl | simp at ht
    exact ⟨marks_pop_cons hequations, (marks_pop_cons hmore).trans (marks_pop_cons hequations)⟩
  cases s with
  | equations es => simpa [Statement.units, Statement.tree] using Equations.marks_alone hfits hts
  | automaton locals states => rw [marks_alone, h (by simp), ← hpop.1]; rfl
  | switch x cases => rw [marks_alone, h (by simp), ← hpop.1]; rfl
  | present branches => rw [marks_alone, h (by simp), ← hpop.1]; rfl
  | reset body e => rw [marks_alone, h (by simp), ← hpop.2]; rfl

theorem Statement.exists_units_eq_cons (s : Statement) :
    ∃ l ts, s.units.flatten = l :: ts ∧ l ≠ .symbol .semicolon := by
  cases s with
  | equations es =>
      obtain ⟨⟨target, value⟩, others, semicolon⟩ := es
      rw [units, Units.flatten_ofLexemes]
      cases target with
      | single n => exact ⟨.word n, _, rfl, by simp⟩
      | several o n ns => exact ⟨o.lexeme, _, rfl, by cases o <;> simp [Opening.lexeme]⟩
  | automaton locals states => exact ⟨.kw .automaton, _, rfl, by simp⟩
  | switch x cases => exact ⟨.kw .switch, _, rfl, by simp⟩
  | present branches => exact ⟨.kw .present, _, rfl, by simp⟩
  | reset body e => exact ⟨.kw .reset, _, rfl, by simp⟩

theorem States.closes_head {states : States} {l : Lexeme}
    (hts : ts.head? = some (.kw .end_)) (hl : l ∈ (states.units.flatten ++ ts).head?) :
    Locals.closes l = true := by
  cases states with
  | nil =>
      obtain rfl := Option.some.inj (hts.symm.trans hl)
      rfl
  | cons name locals body transitions tail =>
      obtain rfl := Option.some.inj hl
      rfl

theorem Branches.exists_closes (branches : Branches) (hts : ts.head? = some (.kw .end_)) :
    ∃ t us, branches.units.flatten ++ ts = t :: us ∧ Branches.closes t = true := by
  cases branches with
  | nil =>
      obtain ⟨us, rfl⟩ := List.head?_eq_some_iff.mp hts
      exact ⟨_, us, rfl, rfl⟩
  | otherwise s => exact ⟨_, _, rfl, rfl⟩
  | cons e s tail => exact ⟨_, _, rfl, rfl⟩

mutual

theorem Statement.passed (s : Statement) {alone : Bool} {ts : List Lexeme} (h : s.Fits alone ts) :
    s.Passed ts := by
  intro hs k
  cases s with
  | equations es => exact absurd rfl (hs es)
  | automaton locals states =>
      have hstart : ∀ us, marks (Frame.first :: k) (.kw .automaton :: us) =
          .token :: marks (Frame.locals :: Frame.states :: any :: k) us := fun _ => rfl
      have hlocals := @Locals.marks_locals (states.units.flatten ++ .kw .end_ :: ts) _ h.1
        (fun _ => States.closes_head rfl) (Frame.states :: any :: k)
      have hstates := States.marks_states states h.2 rfl (any :: k)
      have hend : marks (any :: k) (.kw .end_ :: ts) = .token :: marks k ts := rfl
      simp [Statement.units, Statement.tree, hstart, hlocals, hstates, hend, Statement.behind]
  | switch x cases =>
      have hstart : ∀ us, marks (Frame.first :: k) (.kw .switch :: .word x :: us) =
          .token :: .token :: marks (Frame.cases :: any :: k) us := fun _ => rfl
      have hcases := Cases.marks_cases cases h rfl (any :: k)
      have hend : marks (any :: k) (.kw .end_ :: ts) = .token :: marks k ts := rfl
      simp [Statement.units, Statement.tree, hstart, hcases, hend, Statement.behind]
  | present branches =>
      have hstart : ∀ us, marks (Frame.first :: k) (.kw .present :: us) =
          .token :: marks (Frame.branches :: any :: k) us := fun _ => rfl
      have hbranches := Branches.marks_branches branches h rfl (any :: k)
      have hend : marks (any :: k) (.kw .end_ :: ts) = .token :: marks k ts := rfl
      simp [Statement.units, Statement.tree, hstart, hbranches, hend, Statement.behind]
  | reset body e =>
      have hstart : ∀ us, marks (Frame.first :: k) (.kw .reset :: us) =
          .token :: marks (statements .reset :: any :: operand :: k) us := fun _ => rfl
      have hbody := Statements.marks_statements body h.1 (any :: operand :: k)
      have hevery : ∀ us, marks (any :: operand :: k) (.kw .every :: us) =
          .token :: marks (operand :: k) us := fun _ => rfl
      have he := Expr.marks_operand e h.2.normal k ts
      simp [Statement.units, Statement.tree, hstart, hbody, hevery, he, Statement.behind]

theorem Statements.marks_statements (ss : Statements) {b : Body} {ts : List Lexeme}
    (h : ss.Fits b ts) (k : List Frame) :
    marks (statements b :: k) (ss.units.flatten ++ ts) =
      Tree.marksAll ss.trees ++ marks k ts := by
  cases ss with
  | nil =>
      obtain ⟨t, us, rfl, ht⟩ := h
      exact marks_pop_cons (by simp [step, ht])
  | cons s ss =>
      obtain ⟨hcloses, hs, hss⟩ := h
      obtain ⟨l, us, hl, hsemicolon⟩ := s.exists_units_eq_cons
      have hstart : ∀ vs, marks (statements b :: k) (s.units.flatten ++ vs) =
          marks (Frame.first :: statements b :: k) (s.units.flatten ++ vs) := by
        rw [hl]
        exact fun vs => Frame.marks_statements (hcloses l (by rw [hl]; rfl)) hsemicolon
      simp [Statements.units, Statements.trees, hstart, (Statement.passed s hs).first hs,
        Statements.marks_statements ss hss k]

theorem States.marks_states (states : States) {ts : List Lexeme} (h : states.Fits ts)
    (hts : ts.head? = some (.kw .end_)) (k : List Frame) :
    marks (Frame.states :: k) (states.units.flatten ++ ts) =
      Tree.marksAll states.trees ++ marks k ts := by
  cases states with
  | nil =>
      obtain ⟨us, rfl⟩ := List.head?_eq_some_iff.mp hts
      exact marks_pop_cons rfl
  | cons name locals body transitions tail =>
      obtain ⟨-, hlocals, hbody, htransitions, htail⟩ := h
      have hstops : ∀ us, name.Stops ((Locals.unitsOf locals).flatten ++ .kw .do_ :: us) := by
        intro us
        cases name <;> cases locals <;> simp [StateName.Stops, Locals.unitsOf, Locals.units]
      have hstart : ∀ us, marks (Frame.states :: k) (.kw .state :: us) =
          .token :: marks (state :: Frame.locals :: any :: statements .state ::
            Frame.transitions :: Frame.states :: k) us := fun _ => rfl
      have hname := fun us => StateName.marks_expected (hstops us) (Frame.locals :: any ::
        statements .state :: Frame.transitions :: Frame.states :: k)
      have hlocals := fun us => @Locals.marks_locals (.kw .do_ :: us) _ hlocals
        (fun l hl => by obtain rfl := Option.some.inj hl; rfl)
        (any :: statements .state :: Frame.transitions :: Frame.states :: k)
      have hdo : ∀ us, marks (any :: statements .state :: Frame.transitions :: Frame.states :: k)
          (.kw .do_ :: us) = .token :: marks (statements .state :: Frame.transitions ::
            Frame.states :: k) us := fun _ => rfl
      have hbody := Statements.marks_statements body hbody (Frame.transitions :: Frame.states :: k)
      have htransitions := Transition.marks_transitions (k := Frame.states :: k) htransitions
      have htail := States.marks_states tail htail hts k
      simp [States.units, States.trees, hstart, hname, hlocals, hdo, hbody, htransitions, htail]

theorem Cases.marks_cases (cases_ : Cases) {ts : List Lexeme} (h : cases_.Fits ts)
    (hts : ts.head? = some (.kw .end_)) (k : List Frame) :
    marks (Frame.cases :: k) (cases_.units.flatten ++ ts) =
      Tree.marksAll cases_.trees ++ marks k ts := by
  cases cases_ with
  | nil =>
      obtain ⟨us, rfl⟩ := List.head?_eq_some_iff.mp hts
      exact marks_pop_cons rfl
  | cons t s ss tail =>
      obtain ⟨hs, hss, htail⟩ := h
      have hstart : ∀ us, marks (Frame.cases :: k) (.symbol .bar :: .capital t :: .kw .do_ :: us) =
          .token :: .token :: .token ::
            marks (Frame.first :: statements .case :: Frame.cases :: k) us := fun _ => rfl
      simp [Cases.units, Cases.trees, hstart, (Statement.passed s hs).first hs,
        Statements.marks_statements ss hss (Frame.cases :: k), Cases.marks_cases tail htail hts k]

theorem Branches.marks_branches (branches : Branches) {ts : List Lexeme} (h : branches.Fits ts)
    (hts : ts.head? = some (.kw .end_)) (k : List Frame) :
    marks (Frame.branches :: k) (branches.units.flatten ++ ts) =
      Tree.marksAll branches.trees ++ marks k ts := by
  cases branches with
  | nil =>
      obtain ⟨us, rfl⟩ := List.head?_eq_some_iff.mp hts
      exact marks_pop_cons rfl
  | otherwise s =>
      have hstart : ∀ us, marks (Frame.branches :: k) (.kw .default :: .kw .do_ :: us) =
          .token :: .token :: marks (Frame.alone :: k) us := fun _ => rfl
      have hcloses := Branches.exists_closes .nil hts
      simp [Branches.units, Branches.trees, hstart, (Statement.passed s h).alone h hcloses]
  | cons e s tail =>
      obtain ⟨he, hs, htail⟩ := h
      have hstart : ∀ us, marks (Frame.branches :: k) (.symbol .bar :: us) =
          .token :: marks (operand :: any :: Frame.alone :: Frame.branches :: k) us := fun _ => rfl
      have hguard := fun us => Expr.marks_operand e he (any :: Frame.alone :: Frame.branches :: k) us
      have hdo : ∀ us, marks (more :: any :: Frame.alone :: Frame.branches :: k) (.kw .do_ :: us) =
          .token :: marks (Frame.alone :: Frame.branches :: k) us := fun _ => rfl
      have hcloses := Branches.exists_closes tail hts
      simp [Branches.units, Branches.trees, hstart, hguard, hdo,
        (Statement.passed s hs).alone hs hcloses, Branches.marks_branches tail htail hts k]

end

/-! ## Programs -/

theorem Generic.marks_generic (g : Option Generic) (p : Params) (k : List Frame)
    (ts : List Lexeme) :
    marks (Frame.generic :: Frame.params :: k)
      ((Generic.unitsOf g).flatten ++ (p.units.flatten ++ ts)) =
      Tree.marksAll ((g.map Generic.trees).getD []) ++ (p.tree.marks ++ marks k ts) := by
  cases g with
  | none =>
      have hpop : marks (Frame.generic :: Frame.params :: k) (p.units.flatten ++ ts) =
          marks (Frame.params :: k) (p.units.flatten ++ ts) := by
        cases p with
        | empty o => cases o <;> rfl
        | list o d ds semicolon => cases o <;> rfl
      simpa [Generic.unitsOf, hpop] using Params.marks_params p k ts
  | some g =>
      have hstart : ∀ us, marks (Frame.generic :: Frame.params :: k)
          (.symbol .angleOpen :: .word g.name :: .symbol .colon :: us) =
          .token :: .token :: .token :: marks (within :: Frame.params :: k) us := fun _ => rfl
      have htype := Ty.marks_inside (k := Frame.params :: k) (.inl rfl) g.type
        (.symbol .angleClose :: (p.units.flatten ++ ts))
      have hclose : ∀ us, marks (within :: Frame.params :: k) (.symbol .angleClose :: us) =
          .token :: marks (Frame.params :: k) us := fun _ => rfl
      simp [Generic.unitsOf, Generic.units, Generic.trees, hstart, htype, hclose,
        Params.marks_params]

theorem Component.marks_definitions {c : Component} (h : c.Fits ts) :
    marks (Frame.definitions :: k) ((Definition.component c).units.flatten ++ ts) =
      Tree.marksAll c.trees ++ marks (Frame.definitions :: k) ts := by
  have hstart : ∀ us, marks (Frame.definitions :: k)
      (.kw (if c.hasMemory then .node else .fun_) :: .word c.name :: us) =
      .token :: .token :: marks (Frame.generic :: Frame.params :: any :: Frame.params ::
        Frame.locals :: any :: statements .block :: any :: Frame.definitions :: k) us := fun us => by
    cases c.hasMemory <;> rfl
  have hinputs := Generic.marks_generic c.generic c.inputs (any :: Frame.params :: Frame.locals ::
    any :: statements .block :: any :: Frame.definitions :: k)
  have hreturns : ∀ us, marks (any :: Frame.params :: Frame.locals :: any :: statements .block ::
      any :: Frame.definitions :: k) (.kw .returns :: us) = .token :: marks (Frame.params ::
        Frame.locals :: any :: statements .block :: any :: Frame.definitions :: k) us :=
    fun _ => rfl
  have houtputs := Params.marks_params c.outputs
    (Frame.locals :: any :: statements .block :: any :: Frame.definitions :: k)
  have hlocals := fun us => @Locals.marks_locals (.kw .let_ :: us) _ h.locals
    (fun l hl => by obtain rfl := Option.some.inj hl; rfl)
    (any :: statements .block :: any :: Frame.definitions :: k)
  have hlet : ∀ us, marks (any :: statements .block :: any :: Frame.definitions :: k)
      (.kw .let_ :: us) = .token :: marks (statements .block :: any :: Frame.definitions :: k) us :=
    fun _ => rfl
  have hbody := Statements.marks_statements c.body h.body (any :: Frame.definitions :: k)
  have htel : marks (any :: Frame.definitions :: k) (.kw .tel :: ts) =
      .token :: marks (Frame.definitions :: k) ts := rfl
  simp [Definition.units, Component.units, Component.trees, hstart, hinputs, hreturns, houtputs,
    hlocals, hlet, hbody, htel]

theorem FieldType.marks_within (fs : List FieldType) (ts : List Lexeme) :
    marks (within :: k) ((FieldType.moreUnits fs).flatten ++ ts) =
      Tree.marksAll (fs.flatMap fun f => .sym .semicolon :: f.trees) ++
        marks (within :: k) ts := by
  induction fs with
  | nil => rfl
  | cons f fs ih =>
      have hstart : ∀ us, marks (within :: k)
          (.symbol .semicolon :: .word f.name :: .symbol .colon :: us) =
          .token :: .token :: .token :: marks (within :: k) us := fun _ => rfl
      have hunits : FieldType.moreUnits (f :: fs) =
          [.symbol .semicolon] :: (f.units ++ FieldType.moreUnits fs) := rfl
      simp [hunits, FieldType.units, FieldType.trees, hstart, Ty.marks_inside (.inl rfl), ih]

theorem Definition.marks_type (variants : List Text) (ts : List Lexeme) :
    marks (Frame.type :: k) ((variantUnits variants).flatten ++ ts) =
      Tree.marksAll (variants.flatMap fun t => [.sym .bar, .leaf (.variant t)]) ++
        marks (Frame.type :: k) ts := by
  induction variants with
  | nil => rfl
  | cons t variants ih =>
      have hstart : ∀ us, marks (Frame.type :: k) (.symbol .bar :: .capital t :: us) =
          .token :: .token :: marks (Frame.type :: k) us := fun _ => rfl
      have hunits : variantUnits (t :: variants) =
          [.symbol .bar] :: [.capital t] :: variantUnits variants := rfl
      simp [hunits, hstart, ih]

theorem Definition.exists_units_eq_cons (d : Definition) :
    ∃ kw ts, d.units.flatten = .kw kw :: ts := by
  cases d <;> exact ⟨_, _, rfl⟩

theorem Definition.marks_definitions {d : Definition} (h : d.Fits ts)
    (hts : ∀ l ∈ ts.head?, ∃ kw, l = .kw kw) :
    marks (Frame.definitions :: k) (d.units.flatten ++ ts) =
      Tree.marksAll d.trees ++ marks (Frame.definitions :: k) ts := by
  have hstart : ∀ n us, marks (Frame.definitions :: k)
      (.kw .type :: .word n :: .symbol .equal :: us) =
      .token :: .token :: .token :: marks (Frame.type :: Frame.definitions :: k) us :=
    fun _ _ => rfl
  cases d with
  | component c => exact Component.marks_definitions h
  | record n f fs =>
      have hopen : ∀ us, marks (Frame.type :: Frame.definitions :: k)
          (.symbol .braceOpen :: .word f.name :: .symbol .colon :: us) =
          .token :: .token :: .token :: marks (within :: Frame.definitions :: k) us := fun _ => rfl
      have hclose : marks (within :: Frame.definitions :: k) (.symbol .braceClose :: ts) =
          .token :: marks (Frame.definitions :: k) ts := rfl
      simp [Definition.units, Definition.trees, FieldType.units, FieldType.trees, hstart, hopen,
        Ty.marks_inside (.inl rfl), FieldType.marks_within, hclose]
  | enumeration n bar t variants =>
      have hbar : ∀ us, marks (Frame.type :: Frame.definitions :: k)
          ((Units.barIf bar).flatten ++ .capital t :: us) =
          Tree.marksAll (Tree.barIf bar) ++
            .token :: marks (Frame.type :: Frame.definitions :: k) us := by
        cases bar <;> exact fun _ => rfl
      have hpop : marks (Frame.type :: Frame.definitions :: k) ts =
          marks (Frame.definitions :: k) ts := by
        refine marks_pop fun l hl => ?_
        obtain ⟨kw, rfl⟩ := hts l hl
        rfl
      simp [Definition.units, Definition.trees, hstart, hbar, Definition.marks_type, hpop]

/-- The stack finds the names of states in every program that is read. -/
theorem Program.marks_units {p : Program} (h : p.Fits) :
    marks [Frame.definitions] p.units.flatten = Tree.marksAll (p.flatMap Definition.trees) := by
  induction p with
  | nil => rfl
  | cons d p ih =>
      have hhead : ∀ l ∈ (Program.units p).flatten.head?, ∃ kw, l = .kw kw := by
        intro l hl
        cases p with
        | nil => cases hl
        | cons d' p =>
            obtain ⟨kw, us, hus⟩ := d'.exists_units_eq_cons
            have hunits : (Program.units (d' :: p)).flatten =
                d'.units.flatten ++ (Program.units p).flatten := by simp [Program.units]
            rw [hunits, hus] at hl
            exact ⟨kw, (Option.some.inj hl).symm⟩
      have hunits : (Program.units (d :: p)).flatten =
          d.units.flatten ++ (Program.units p).flatten := by simp [Program.units]
      rw [hunits, Definition.marks_definitions h.1 hhead, ih h.2]
      simp

end

end Heptagon
