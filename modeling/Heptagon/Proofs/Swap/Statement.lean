import Heptagon.Proofs.Swap.Declaration
import Heptagon.Proofs.Statement.Signals

/-!
# A swap in a statement

A statement after the swap of an expression of it is what is read in front of
the same text, and what is before it goes on with it as before
(`Statement.exists_turned`).
-/

namespace Heptagon

variable {w : Swap} {t' : Tree} {ls : List Leaf} {ts : List Lexeme} {ts' : List Tree}

theorem Units.Turns.head? {us us' : Units} (h : Turns w ls us us') (ts : List Lexeme) :
    (us'.flatten ++ ts).head? = (us.flatten ++ ts).head? := by
  obtain ⟨front, back, e, e', ms, ls', hus, hus', -, -, ⟨l, hl, -⟩, -⟩ := h
  obtain ⟨x, xs, rfl⟩ : ∃ x xs, front = x :: xs := by
    cases front with
    | nil => simp at hl
    | cons x xs => exact ⟨x, xs, rfl⟩
  simp [hus, hus']

/-! ## Equations -/

@[simp] theorem Target.not_turnsAll_trees (t : Target) : ¬ w.TurnsAll ls t.trees ts' := by
  cases t <;> simp [trees]

/-- The second equation can stand where the first one does. -/
structure Equation.Becomes (e e' : Equation) : Prop where
  target : e'.target = e.target
  normal : e.Normal → e'.Normal
  value : e'.value.StandsFor e.value

namespace Equation

variable {e e' : Equation} {es es' : List Equation}

theorem Becomes.refl (e : Equation) : e.Becomes e := ⟨rfl, id, .refl _⟩

theorem Becomes.lastOr (h : e.Becomes e') (hes : List.Forall₂ Becomes es es') :
    (lastOr e es).Becomes (lastOr e' es') := by
  induction hes generalizing e e' with
  | nil => exact h
  | cons hf _ ih => exact ih hf

@[simp] theorem unitsAll_trees (t : Target) :
    Tree.unitsAll t.trees = (Units.ofLexemes t.lexemes).shown := by
  cases t <;> simp [Target.trees, Target.lexemes]

theorem exists_turned (he : e.Normal) (hls : w.Allows ls) (h : w.Turns ls e.tree t') :
    ∃ e' : Equation, e'.tree = t' ∧ e.Becomes e' ∧
      Units.Turns w ls (.ofLexemes e.lexemes) (.ofLexemes e'.lexemes) := by
  simp [tree, Swap.turns_node_iff, Tree.leaves, and_assoc] at h
  obtain ⟨ms, rfl, u, h, rfl⟩ := h
  obtain ⟨v, rfl, hv⟩ := Expr.exists_turned e.value he hls.of_append.of_cons h
  refine ⟨⟨e.target, v⟩, rfl, ⟨rfl, fun _ => hv.normal, hv.standsFor⟩, ?_⟩
  have hunits : Units.Turns w (.symbol .equal :: ms) _ _ :=
    .of_turned he hv (l := .symbol .equal) rfl rfl
  simpa [lexemes] using hunits.append_left (unitsAll_trees e.target)

theorem exists_turned_more (hes : ∀ e ∈ es, e.Normal) (hls : w.Allows ls)
    (h : w.TurnsAll ls (es.flatMap fun e => [.sym .semicolon, e.tree]) ts') :
    ∃ es' : List Equation, (es'.flatMap fun e => [.sym .semicolon, e.tree]) = ts' ∧
      List.Forall₂ Becomes es es' ∧
      Units.Turns w ls (.ofLexemes (moreLexemes es)) (.ofLexemes (moreLexemes es')) := by
  have hmore (es : List Equation) : Units.ofLexemes (moreLexemes es) =
      es.flatMap fun e => Units.ofLexemes (.symbol .semicolon :: e.lexemes) := by
    simp [moreLexemes, Units.ofLexemes, List.map_flatMap]
  simp only [hmore]
  refine Tree.exists_turned_flatMap Becomes.refl (by simp) (fun e he ls us hls h => ?_) hls h
  simp [Tree.leaves] at h
  obtain ⟨ms, rfl, u, h, rfl⟩ := h
  obtain ⟨e', rfl, he', hunits⟩ := exists_turned (hes e he) hls.of_cons h
  exact ⟨e', rfl, he', hunits.cons rfl⟩

end Equation

theorem Equations.exists_turned {es : Equations} {alone : Bool} (hes : es.Fits alone ts)
    (hls : w.Allows ls) (h : w.Turns ls es.tree t') :
    ∃ es' : Equations, es'.tree = t' ∧ es.first.Becomes es'.first ∧
      List.Forall₂ Equation.Becomes es.others es'.others ∧ es'.semicolon = es.semicolon ∧
      Units.Turns w ls (.ofLexemes es.lexemes) (.ofLexemes es'.lexemes) := by
  obtain ⟨e, others, semicolon⟩ := es
  have hsame : List.Forall₂ Equation.Becomes others others :=
    List.forall₂_same.mpr fun e _ => .refl e
  simp [tree, Swap.turns_node_iff, or_and_right, exists_or, and_assoc] at h
  obtain ⟨u, h, rfl⟩ | ⟨ms, rfl, us, h, rfl⟩ := h
  · obtain ⟨e', rfl, he', hunits⟩ := Equation.exists_turned hes.first hls h
    refine ⟨⟨e', others, semicolon⟩, rfl, he', hsame, rfl, ?_⟩
    simpa [lexemes] using hunits.append_right _
  · obtain ⟨others', rfl, hothers', hunits⟩ :=
      Equation.exists_turned_more (fun e he => (hes.others e he).1) hls.of_append h
    refine ⟨⟨e, others', semicolon⟩, rfl, .refl e, hothers', rfl, ?_⟩
    have hunread : Tree.unitsAll [e.tree] = (Units.ofLexemes e.lexemes).shown := by simp
    simpa [lexemes] using (hunits.append_right _).append_tree hunread

/-- Equations that others become are what is read in front of the same text. -/
theorem Equations.Fits.of_becomes {es es' : Equations} {alone : Bool} (h : es.Fits alone ts)
    (hfirst : es.first.Becomes es'.first)
    (hothers : List.Forall₂ Equation.Becomes es.others es'.others)
    (hsemicolon : es'.semicolon = es.semicolon) : es'.Fits alone ts where
  first := hfirst.normal h.first
  others := forall_mem_of_forall₂ hothers
    (P := fun e => e.Normal ∧ e.target.isAmong [.default, .end_] = false)
    (fun _ _ he hP => ⟨he.normal hP.1, he.target ▸ hP.2⟩) h.others
  starts := hfirst.target ▸ h.starts
  single := fun halone => by
    rw [h.single halone] at hothers
    exact List.forall₂_nil_left_iff.mp hothers
  closed := fun halone hs => h.closed halone (hsemicolon ▸ hs)
  stops := fun hs => by
    obtain ⟨hstops, hends⟩ := h.stops (hsemicolon ▸ hs)
    exact ⟨(hfirst.lastOr hothers).value.stops hstops, hends⟩

/-! ## Transitions -/

/-- The second transition can stand where the first one does. -/
structure Transition.Becomes (t t' : Transition) : Prop where
  strong : t'.strong = t.strong
  goal : t'.goal = t.goal
  normal : t.guard.Normal → t'.guard.Normal

namespace Transition

variable {trs trs' : List Transition}

theorem Becomes.refl (t : Transition) : t.Becomes t := ⟨rfl, rfl, id⟩

theorem Fit.guard_normal (h : Fit trs ts) : ∀ t ∈ trs, t.guard.Normal := by
  induction trs with
  | nil => simp
  | cons t trs ih => exact List.forall_mem_cons.mpr ⟨h.1, ih h.2.2.2⟩

theorem exists_turned (htrs : Fit trs ts) (hls : w.Allows ls)
    (h : w.TurnsAll ls (trs.map tree) ts') :
    ∃ trs' : List Transition, trs'.map tree = ts' ∧ List.Forall₂ Becomes trs trs' ∧
      Units.Turns w ls (trs.flatMap units) (trs'.flatMap units) := by
  simp only [List.map_eq_flatMap] at h ⊢
  refine Tree.exists_turned_flatMap Becomes.refl (fun t => ?_) (fun t ht ls us hls h => ?_) hls h
  · simpa using unitsAll_map_tree [t]
  · simp [tree, Swap.turns_node_iff, Tree.leaves, and_assoc] at h
    obtain ⟨ms, rfl, u, h, rfl⟩ := h
    have hguard := htrs.guard_normal t ht
    obtain ⟨guard, rfl, hturned⟩ := Expr.exists_turned t.guard hguard hls.of_cons h
    refine ⟨⟨t.strong, guard, t.goal⟩, rfl, ⟨rfl, rfl, fun _ => hturned.normal⟩, ?_⟩
    have hunits : Units.Turns w (.keyword (if t.strong then .unless_ else .until_) :: ms) _ _ :=
      .of_turned hguard hturned (l := .kw (if t.strong then .unless_ else .until_)) rfl rfl
    exact hunits.append_right _

/-- Transitions that others become are read in front of a text that starts in the same way. -/
theorem Fit.of_becomes (h : List.Forall₂ Becomes trs trs') {us : List Lexeme}
    (hhead : us.head? = ts.head?) (hfit : Fit trs ts) : Fit trs' us := by
  induction h with
  | nil => exact hfit.congr hhead
  | @cons t t' trs trs' ht htrs ih =>
      obtain ⟨hguard, hgoal, hstops, hfit⟩ := hfit
      refine ⟨ht.normal hguard, ht.goal ▸ hgoal, ht.goal ▸ hstops.congr ?_, ih hfit⟩
      cases htrs with
      | nil => exact hhead
      | cons hu _ => simp [units, hu.strong]

end Transition

/-! ## Statements -/

/-- What follows a changed text starts as what followed it, if no parenthesis starts it. -/
theorem Units.Turns.followsAs {us us' : Units} (h : Turns w ls us us') {ts : List Lexeme}
    (hparen : (us.flatten ++ ts).head? ≠ some (.symbol .parenOpen)) :
    Lexeme.FollowsAs (us.flatten ++ ts) (us'.flatten ++ ts) :=
  .of_head (h.head? ts) hparen

mutual

/-- The tree of a statement after a swap is the tree of one that is read in front of
the same text. -/
theorem Statement.exists_turned {w : Swap} : (s : Statement) → ∀ {alone : Bool} {ts : List Lexeme},
    s.Fits alone ts → ∀ {ls : List Leaf} {t' : Tree}, w.Allows ls → w.Turns ls s.tree t' →
    ∃ s' : Statement, s'.tree = t' ∧ s'.Fits alone ts ∧
      (alone = false → Lexeme.FollowsAs (s.units.flatten ++ ts) (s'.units.flatten ++ ts)) ∧
      Units.Turns w ls s.units s'.units
  | .equations es, alone, ts, hfits, ls, t', hls, h => by
      obtain ⟨es', rfl, hfirst, hothers, hsemicolon, hunits⟩ := Equations.exists_turned hfits hls h
      refine ⟨.equations es', rfl, hfits.of_becomes hfirst hothers hsemicolon, ?_, hunits⟩
      rintro rfl
      have hnil : es.others = [] → es'.others = [] := fun hnil => by
        rw [hnil] at hothers
        exact List.forall₂_nil_left_iff.mp hothers
      simpa [Statement.units] using Equations.followsAs hfits hfirst.target
        (hfirst.normal hfits.first) hnil hsemicolon ts
  | .automaton locals states, alone, ts, ⟨hlocals, hfits⟩, ls, t', hls, h => by
      simp [Statement.tree, Swap.turns_node_iff, Tree.leaves, or_and_right, and_or_left, exists_or,
        and_assoc] at h
      obtain ⟨ms, rfl, us, h, rfl⟩ | ⟨ms, rfl, us, h, rfl⟩ := h
      · obtain ⟨locals', rfl, hlocals', hunits⟩ := Locals.exists_turned hlocals hls.of_cons h
        have hunits := (hunits.append_right (states.units ++ [[.kw .end_]])).cons
          (u := [.kw .automaton]) (m := .keyword .automaton) rfl
        exact ⟨.automaton locals' states, by simp [Statement.tree], ⟨hlocals', hfits⟩,
          fun _ => hunits.followsAs (by simp), hunits⟩
      · obtain ⟨states', rfl, hfits', hunits⟩ :=
          States.exists_turned states hfits hls.of_cons.of_append h
        have hunits := ((hunits.append_right [[.kw .end_]]).append_left
          (Locals.unitsAll_trees locals)).cons (u := [.kw .automaton]) (m := .keyword .automaton)
            rfl
        exact ⟨.automaton locals states', by simp [Statement.tree], ⟨hlocals, hfits'⟩,
          fun _ => hunits.followsAs (by simp), hunits⟩
  | .switch x cs, alone, ts, hfits, ls, t', hls, h => by
      simp [Statement.tree, Swap.turns_node_iff, Tree.leaves, and_assoc] at h
      obtain ⟨ms, rfl, us, h, rfl⟩ := h
      obtain ⟨cs', rfl, hfits', hunits⟩ := Cases.exists_turned cs hfits hls.of_cons.of_cons h
      have hunits := ((hunits.append_right [[.kw .end_]]).cons (u := [.word x])
        (m := .name x) rfl).cons (u := [.kw .switch]) (m := .keyword .switch) rfl
      exact ⟨.switch x cs', rfl, hfits', fun _ => hunits.followsAs (by simp), hunits⟩
  | .present bs, alone, ts, hfits, ls, t', hls, h => by
      simp [Statement.tree, Swap.turns_node_iff, Tree.leaves, and_assoc] at h
      obtain ⟨ms, rfl, us, h, rfl⟩ := h
      obtain ⟨bs', rfl, hfits', hunits⟩ := Branches.exists_turned bs hfits hls.of_cons h
      have hunits := (hunits.append_right [[.kw .end_]]).cons (u := [.kw .present])
        (m := .keyword .present) rfl
      exact ⟨.present bs', rfl, hfits', fun _ => hunits.followsAs (by simp), hunits⟩
  | .reset ss e, alone, ts, ⟨hfits, hsignals⟩, ls, t', hls, h => by
      simp [Statement.tree, Swap.turns_node_iff, Tree.leaves, or_and_right, and_or_left, exists_or,
        and_assoc] at h
      obtain ⟨ms, rfl, us, h, rfl⟩ | ⟨ms, rfl, u, h, rfl⟩ := h
      · obtain ⟨ss', rfl, hfits', -, hunits⟩ := Statements.exists_turned ss hfits hls.of_cons h
        have hunits := (hunits.append_right ([.kw .every] :: Units.ofLexemes e.lexemes)).cons
          (u := [.kw .reset]) (m := .keyword .reset) rfl
        exact ⟨.reset ss' e, rfl, ⟨hfits', hsignals⟩, fun _ => hunits.followsAs (by simp), hunits⟩
      · obtain ⟨e', rfl, he'⟩ :=
          Expr.exists_turned e hsignals.normal hls.of_cons.of_append.of_cons h
        have hsignal : Units.Turns w (.keyword .every :: ms) _ _ :=
          .of_turned hsignals.normal he' (l := .kw .every) rfl rfl
        have hunits := (hsignal.append_left ss.unitsAll_trees).cons (u := [.kw .reset])
          (m := .keyword .reset) rfl
        exact ⟨.reset ss e', rfl, ⟨Statements.Fits.of_followsAs ss (.cons (by simp) _ _) hfits,
          hsignals.of_standsFor he'.normal he'.standsFor.name (he'.standsFor.before none)⟩,
          fun _ => hunits.followsAs (by simp), hunits⟩

theorem Statements.exists_turned {w : Swap} : (ss : Statements) → ∀ {b : Body} {ts : List Lexeme},
    ss.Fits b ts → ∀ {ls : List Leaf} {ts' : List Tree}, w.Allows ls →
    w.TurnsAll ls ss.trees ts' → ∃ ss' : Statements, ss'.trees = ts' ∧ ss'.Fits b ts ∧
      Lexeme.FollowsAs (ss.units.flatten ++ ts) (ss'.units.flatten ++ ts) ∧
      Units.Turns w ls ss.units ss'.units
  | .nil, _, _, _, _, _, _, h => by simp [Statements.trees] at h
  | .cons s ss, b, ts, ⟨hopen, hfirst, hfits⟩, ls, ts', hls, h => by
      simp [Statements.trees] at h
      obtain ⟨u, h, rfl⟩ | ⟨ms, rfl, us, h, rfl⟩ := h
      · obtain ⟨s', rfl, hfirst', hfollows, hunits⟩ := Statement.exists_turned s hfirst hls h
        refine ⟨.cons s' ss, rfl, ⟨fun t ht => hopen t ?_, hfirst', hfits⟩, ?_,
          hunits.append_right _⟩
        · simpa using (hunits.head? []).symm.trans (by simpa using ht)
        · simpa [Statements.units] using hfollows rfl
      · obtain ⟨ss', rfl, hfits', hfollows, hunits⟩ :=
          Statements.exists_turned ss hfits hls.of_append h
        refine ⟨.cons s ss', rfl, ⟨hopen, Statement.Fits.of_followsAs s hfollows (by simp) hfirst,
          hfits'⟩, ?_, hunits.append_tree (by simp)⟩
        simpa [Statements.units] using hfirst.followsAs (ss'.units.flatten ++ ts)

theorem States.exists_turned {w : Swap} : (states : States) → ∀ {ts : List Lexeme},
    states.Fits (.kw .end_ :: ts) → ∀ {ls : List Leaf} {ts' : List Tree}, w.Allows ls →
    w.TurnsAll ls states.trees ts' → ∃ states' : States, states'.trees = ts' ∧
      states'.Fits (.kw .end_ :: ts) ∧ Units.Turns w ls states.units states'.units
  | .nil, _, _, _, _, _, h => by simp [States.trees] at h
  | .cons name locals body trs tail, ts, ⟨hname, hlocals, hbody, htrs, htail⟩, ls, ts', hls, h => by
      simp [States.trees, Swap.turns_node_iff, Tree.leaves, or_and_right, and_or_left, exists_or,
        and_assoc] at h
      have hparen := States.head?_ne_parenOpen trs tail ts
      obtain (⟨ms, rfl, us, h, rfl⟩ | ⟨ms, rfl, us, h, rfl⟩ | ⟨ms, rfl, us, h, rfl⟩) |
        ⟨ms, rfl, us, h, rfl⟩ := h
      · obtain ⟨locals', rfl, hlocals', hunits⟩ :=
          Locals.exists_turned hlocals hls.of_cons.of_cons h
        exact ⟨.cons name locals' body trs tail, rfl, ⟨hname, hlocals', hbody, htrs, htail⟩,
          ((hunits.append_right _).cons (by simp)).cons rfl⟩
      · obtain ⟨body', rfl, hbody', -, hunits⟩ :=
          Statements.exists_turned body hbody hls.of_cons.of_cons.of_append.of_cons h
        exact ⟨.cons name locals body' trs tail, rfl, ⟨hname, hlocals, hbody', htrs, htail⟩,
          ((((hunits.append_right _).cons rfl).append_left (Locals.unitsAll_trees locals)).cons
            (by simp)).cons rfl⟩
      · obtain ⟨trs', rfl, htrs', hunits⟩ := Transition.exists_turned htrs
          hls.of_cons.of_cons.of_append.of_cons.of_append h
        exact ⟨.cons name locals body trs' tail, rfl, ⟨hname, hlocals,
          Statements.Fits.of_followsAs body (hunits.followsAs hparen) hbody,
          .of_becomes htrs' rfl htrs, htail⟩,
          (((((hunits.append_right _).append_left body.unitsAll_trees).cons rfl).append_left
            (Locals.unitsAll_trees locals)).cons (by simp)).cons rfl⟩
      · obtain ⟨tail', rfl, htail', hunits⟩ := States.exists_turned tail htail
          hls.of_cons.of_cons.of_append.of_cons.of_append.of_append h
        have hhead := hunits.head? (.kw .end_ :: ts)
        exact ⟨.cons name locals body trs tail', rfl, ⟨hname, hlocals,
          Statements.Fits.of_followsAs body
            (.of_head (by rw [List.head?_append, hhead, ← List.head?_append]) hparen) hbody,
          htrs.congr hhead, htail'⟩,
          (((((hunits.append_left (Transition.unitsAll_map_tree trs)).append_left
            body.unitsAll_trees).cons rfl).append_left (Locals.unitsAll_trees locals)).cons
              (by simp)).cons rfl⟩

theorem Cases.exists_turned {w : Swap} : (cs : Cases) → ∀ {ts : List Lexeme},
    cs.Fits (.kw .end_ :: ts) → ∀ {ls : List Leaf} {ts' : List Tree}, w.Allows ls →
    w.TurnsAll ls cs.trees ts' → ∃ cs' : Cases, cs'.trees = ts' ∧
      cs'.Fits (.kw .end_ :: ts) ∧ Units.Turns w ls cs.units cs'.units
  | .nil, _, _, _, _, _, h => by simp [Cases.trees] at h
  | .cons t s ss tail, ts, ⟨hfirst, hothers, htail⟩, ls, ts', hls, h => by
      simp [Cases.trees, Tree.leaves, or_and_right, and_or_left, exists_or, and_assoc] at h
      obtain ⟨ms, rfl, u, h, rfl⟩ | ⟨ms, rfl, us, h, rfl⟩ | ⟨ms, rfl, us, h, rfl⟩ := h
      · obtain ⟨s', rfl, hfirst', -, hunits⟩ :=
          Statement.exists_turned s hfirst hls.of_cons.of_cons.of_cons h
        exact ⟨.cons t s' ss tail, rfl, ⟨hfirst', hothers, htail⟩,
          (((hunits.append_right _).cons rfl).cons rfl).cons rfl⟩
      · obtain ⟨ss', rfl, hothers', hfollows, hunits⟩ :=
          Statements.exists_turned ss hothers hls.of_cons.of_cons.of_cons.of_append h
        exact ⟨.cons t s ss' tail, rfl, ⟨Statement.Fits.of_followsAs s hfollows (by simp) hfirst,
          hothers', htail⟩,
          ((((hunits.append_right _).append_tree (by simp)).cons rfl).cons rfl).cons rfl⟩
      · obtain ⟨tail', rfl, htail', hunits⟩ :=
          Cases.exists_turned tail htail hls.of_cons.of_cons.of_cons.of_append.of_append h
        have hfollows := hunits.followsAs (tail.head?_ne_parenOpen ts)
        exact ⟨.cons t s ss tail', rfl,
          ⟨Statement.Fits.of_followsAs s (hothers.followsAs hfollows) (by simp) hfirst,
            Statements.Fits.of_followsAs ss hfollows hothers, htail'⟩,
          ((((hunits.append_left ss.unitsAll_trees).append_tree (by simp)).cons rfl).cons rfl).cons
            rfl⟩

theorem Branches.exists_turned {w : Swap} : (bs : Branches) → ∀ {ts : List Lexeme},
    bs.Fits (.kw .end_ :: ts) → ∀ {ls : List Leaf} {ts' : List Tree}, w.Allows ls →
    w.TurnsAll ls bs.trees ts' → ∃ bs' : Branches, bs'.trees = ts' ∧
      bs'.Fits (.kw .end_ :: ts) ∧ Units.Turns w ls bs.units bs'.units
  | .nil, _, _, _, _, _, h => by simp [Branches.trees] at h
  | .otherwise s, ts, hfits, ls, ts', hls, h => by
      simp [Branches.trees, Tree.leaves, and_assoc] at h
      obtain ⟨ms, rfl, u, h, rfl⟩ := h
      obtain ⟨s', rfl, hfits', -, hunits⟩ := Statement.exists_turned s hfits hls.of_cons.of_cons h
      exact ⟨.otherwise s', rfl, hfits', (hunits.cons rfl).cons rfl⟩
  | .cons e s tail, ts, ⟨hguard, hfirst, htail⟩, ls, ts', hls, h => by
      simp [Branches.trees, Tree.leaves, or_and_right, and_or_left, exists_or, and_assoc] at h
      obtain ⟨ms, rfl, u, h, rfl⟩ | ⟨ms, rfl, u, h, rfl⟩ | ⟨ms, rfl, us, h, rfl⟩ := h
      · obtain ⟨e', rfl, he'⟩ := Expr.exists_turned e hguard hls.of_cons h
        have hunits : Units.Turns w (.symbol .bar :: ms) _ _ :=
          .of_turned hguard he' (l := .symbol .bar) rfl rfl
        exact ⟨.cons e' s tail, rfl, ⟨he'.normal, hfirst, htail⟩, hunits.append_right _⟩
      · obtain ⟨s', rfl, hfirst', -, hunits⟩ :=
          Statement.exists_turned s hfirst hls.of_cons.of_append.of_cons h
        exact ⟨.cons e s' tail, rfl, ⟨hguard, hfirst', htail⟩,
          (((hunits.append_right _).cons rfl).append_tree (by simp [e.unitsAll_tree_cons])).cons
            rfl⟩
      · obtain ⟨tail', rfl, htail', hunits⟩ :=
          Branches.exists_turned tail htail hls.of_cons.of_append.of_cons.of_append h
        refine ⟨.cons e s tail', rfl, ⟨hguard, Statement.Fits.of_followsAs s
          (hunits.followsAs (tail.head?_ne_parenOpen ts)) (fun _ => ?_) hfirst, htail'⟩,
          (((hunits.append_tree (by simp)).cons rfl).append_tree
            (by simp [e.unitsAll_tree_cons])).cons rfl⟩
        obtain ⟨t, us, hus, hclose⟩ := tail'.exists_head ts
        exact ⟨t, us, hus, hclose⟩

end

end Heptagon
