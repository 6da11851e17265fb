import Heptagon.Proofs.Expr.Canonical
import Heptagon.Proofs.Statement.Regrouping

/-!
# Statements with canonical trees

Plain statements whose trees are canonical are what the reader takes in front of
what closes them (`Statements.fits_of_canonical`).  Each statement stops before
the next one (`Statement.Stops`), since that starts with a word that is no
operator, or with a parenthesis which no name calls.
-/

namespace Heptagon

open Tree (Canonical)

/-! ## Declarations -/

theorem Init.normal_of_canonical {i : Init} (h : i.Plain) (hd : i.tree.Derives Canonical) :
    i.Normal := by
  cases i with
  | name n =>
      cases n with
      | plain t => simp [Normal]
      | keyword k => simp [Init.Plain, Word.isPlain] at h
  | literal l => exact l.normal_of_canonical h hd

theorem Declaration.normal_of_canonical {d : Declaration} (h : d.Plain)
    (hd : d.tree.Derives Canonical) : d.Normal ∧ d.closesLocals = false := by
  cases d with
  | plain g =>
      obtain ⟨t, ht⟩ := VarGroup.Plain.exists_first h
      refine ⟨⟨by simp [ht], VarGroup.normal_of_plain h⟩, ?_⟩
      rw [closesLocals, ht]
      rfl
  | last g i =>
      have hparts := (hd.children _ List.mem_cons_self).children
      exact ⟨⟨VarGroup.normal_of_plain h.1, i.normal_of_canonical h.2 (hparts _ (by simp))⟩, rfl⟩

theorem Declaration.mem_more {d : Declaration} {ds : List Declaration} (h : d ∈ ds) :
    d.tree ∈ more ds :=
  List.mem_flatMap.mpr ⟨d, h, by simp⟩

theorem Params.normal_of_canonical {p : Params} (h : p.Plain) (hd : p.tree.Derives Canonical) :
    p.Normal := by
  cases p with
  | empty o => trivial
  | list o d ds semicolon =>
      have hparts := (hd.children _ (List.mem_cons_of_mem _ List.mem_cons_self)).children
      refine List.forall_mem_cons.mpr ⟨?_, fun d' hd' => ?_⟩
      · exact (d.normal_of_canonical (h.2 d (by simp)) (hparts _ (by simp))).1
      · have hmem := Declaration.mem_more hd'
        exact (d'.normal_of_canonical (h.2 d' (by simp [hd'])) (hparts _ (by simp [hmem]))).1

theorem Locals.normal_of_canonical {l : Option Locals} (h : ∀ m ∈ l, m.Plain)
    (hd : ∀ t ∈ trees l, t.Derives Canonical) : ∀ m ∈ l, m.Normal := by
  rintro m rfl
  have hplain := h m rfl
  have htree := hd m.tree (by simp [trees])
  have hparts := (htree.children _ (List.mem_cons_of_mem _ List.mem_cons_self)).children
  refine ⟨(m.first.normal_of_canonical (hplain _ (by simp)) (hparts _ (by simp))).1, fun d hd' => ?_⟩
  have hmem := Declaration.mem_more hd'
  exact d.normal_of_canonical (hplain d (by simp [hd'])) (hparts _ (by simp [hmem]))

/-! ## Where statements stop -/

/-- Nothing that may follow belongs to the statement. -/
structure Statement.Stops (s : Statement) (ts : List Lexeme) : Prop where
  operator : BinaryOp.take? ts = none
  paren : s.tree.EndsInName → ts.head? ≠ some (.symbol .parenOpen)
  semicolon : ts.head? ≠ some (.symbol .semicolon)

namespace Statement

variable {s s' : Statement} {ts : List Lexeme}

@[simp] theorem isStatement_tree (s : Statement) : s.tree.isStatement = true := by
  cases s <;> rfl

theorem Stops.of_cons {l : Lexeme} (hop : BinaryOp.ofLexeme? l = none)
    (hparen : l ≠ .symbol .parenOpen) (hsemicolon : l ≠ .symbol .semicolon) :
    s.Stops (l :: ts) :=
  ⟨BinaryOp.take?_cons_eq_none_iff.mpr hop, fun _ => by simpa using hparen,
    by simpa using hsemicolon⟩

theorem Stops.ends (h : s.Stops ts) (alone : Bool) : Equations.Ends alone ts := by
  cases alone with
  | true =>
      rintro t us rfl
      exact h.semicolon rfl
  | false => simpa [Equations.Ends] using h.semicolon

/-- How a plain statement starts: with what closes no list and goes on with nothing. -/
theorem exists_head (h : s.Plain) : ∃ l us, s.units.flatten = l :: us ∧
    BinaryOp.ofLexeme? l = none ∧ l ≠ .symbol .semicolon ∧ (∀ b : Body, b.closes l = false) ∧
    (l = .symbol .parenOpen → s.tree.StartsInParen) := by
  cases s with
  | equations es =>
      obtain ⟨⟨target, value⟩, others, semicolon⟩ := es
      have htarget := (h _ List.mem_cons_self).target
      cases target with
      | single n =>
          cases n with
          | plain t =>
              refine ⟨.word (.plain t), _, rfl, rfl, by simp, fun b => by cases b <;> rfl, by simp⟩
          | keyword k => simp [Target.Plain, Word.isPlain] at htarget
      | several o n ns =>
          obtain ⟨rfl, -⟩ := htarget
          exact ⟨.symbol .parenOpen, _, rfl, rfl, by simp, fun b => by cases b <;> rfl,
            fun _ => rfl⟩
  | automaton | switch | present | reset =>
      exact ⟨_, _, rfl, rfl, by simp, fun b => by cases b <;> rfl, by simp⟩

/-- A statement stops before another one that does not go on with it. -/
theorem stops_of_severs (h : s'.Plain) (hsevers : s.tree.Severs s'.tree) (ts : List Lexeme) :
    s.Stops (s'.units.flatten ++ ts) := by
  obtain ⟨l, us, hus, hop, hsemicolon, -, hparen⟩ := exists_head h
  rw [hus, List.cons_append]
  refine ⟨BinaryOp.take?_cons_eq_none_iff.mpr hop, fun hname hl => ?_, by simpa using hsemicolon⟩
  exact hsevers s.isStatement_tree s'.isStatement_tree hname (hparen (by simpa using hl))

end Statement

/-! ## Equations -/

theorem Equation.fits_of_canonical {e : Equation} (h : e.Plain) (hd : e.tree.Derives Canonical)
    (ks : List Keyword) : e.Normal ∧ e.target.isAmong ks = false :=
  ⟨e.value.normal_of_canonical h.value (hd.children _ (by simp)), h.target.leads.isAmong ks⟩

/-- The last of some equations is the last tree of their row. -/
theorem Equation.exists_eq_append_lastOr (e : Equation) : (es : List Equation) →
    ∃ ts, e.tree :: es.flatMap (fun e => [Tree.sym .semicolon, e.tree]) = ts ++ [(lastOr e es).tree]
  | [] => ⟨[], rfl⟩
  | f :: fs => by
      obtain ⟨ts, hts⟩ := exists_eq_append_lastOr f fs
      exact ⟨e.tree :: .sym .semicolon :: ts, by simpa [lastOr] using hts⟩

/-- Equations without a semicolon at their end end in a name if their last value does. -/
theorem Equations.endsInName_tree {es : Equations} (hsemicolon : es.semicolon = false)
    (h : (Equation.lastOr es.first es.others).value.endsInName = true) : es.tree.EndsInName := by
  obtain ⟨ts, hts⟩ := Equation.exists_eq_append_lastOr es.first es.others
  obtain ⟨n, hn⟩ := Expr.endsInName_tree _ h
  refine ⟨n, ?_⟩
  rw [tree, hsemicolon, Tree.semicolonIf, List.append_nil, hts, Tree.leaves, Tree.leavesAll_append,
    ← hn]
  generalize Equation.lastOr es.first es.others = e
  rw [← e.value.getLast?_leaves_append
    (Tree.leavesAll ts ++ (Tree.leavesAll e.target.trees ++ [.symbol .equal]))]
  simp [Equation.tree, Tree.leaves]

/-- A list that holds one equation is one with nothing after it. -/
theorem Equations.others_of_isSingle {es : Equations} (h : es.tree.IsSingle) : es.others = [] := by
  obtain ⟨first, others, semicolon⟩ := es
  cases others with
  | nil => rfl
  | cons e es =>
      simp [Equations.tree, Tree.IsSingle, Equation.tree, Tree.label, List.countP_cons] at h

theorem Equations.fits_of_canonical {es : Equations} {alone : Bool} {ts : List Lexeme}
    (h : es.Plain) (hd : es.tree.Derives Canonical) (hsingle : alone = false → es.tree.IsSingle)
    (hcloses : alone = true → ∃ t us, ts = t :: us ∧ Branches.closes t = true)
    (hstops : (Statement.equations es).Stops ts) : es.Fits alone ts := by
  have hparts : ∀ e ∈ es.first :: es.others, e.tree.Derives Canonical := by
    refine List.forall_mem_cons.mpr ⟨hd.children _ (by simp), fun e he => hd.children _ ?_⟩
    simp only [List.mem_cons, List.mem_append, List.mem_flatMap]
    exact .inr (.inl ⟨e, he, by simp⟩)
  have hfits := fun e he => Equation.fits_of_canonical (h e he) (hparts e he)
  exact
    { first := (hfits es.first (by simp) []).1
      others := fun e he => hfits e (by simp [he]) _
      starts := (hfits es.first (by simp) _).2
      single := fun halone => others_of_isSingle (hsingle halone)
      closed := fun halone _ => hcloses halone
      stops := fun hsemicolon =>
        ⟨⟨hstops.operator, fun hname => hstops.paren (endsInName_tree hsemicolon hname)⟩,
          hstops.ends alone⟩ }

/-! ## Signals and transitions -/

theorem Statement.endsInName_reset {body : Statements} {e : Expr} (h : e.endsInName = true) :
    (reset body e).tree.EndsInName := by
  obtain ⟨n, hn⟩ := e.endsInName_tree h
  refine ⟨n, ?_⟩
  rw [← hn, ← e.getLast?_leaves_append
    (.keyword .reset :: (Tree.leavesAll body.trees ++ [.keyword .every]))]
  simp [tree, Tree.leaves]

/-- A signal stops where its statement does. -/
theorem Statement.Stops.signals {body : Statements} {e : Expr} {ts : List Lexeme}
    (h : (reset body e).Stops ts) (he : e.Normal) : e.Signals ts :=
  .inl ⟨he, ⟨h.operator, fun hname => h.paren (endsInName_reset hname)⟩, h.semicolon⟩

/-- Transitions with canonical trees fit in front of what follows them in a state. -/
theorem Transition.fit_of_canonical {trs : List Transition} (h : ∀ t ∈ trs, t.Plain)
    (hd : ∀ t ∈ trs.map tree, t.Derives Canonical) {t : Lexeme} (us : List Lexeme)
    (ht : t = .kw .state ∨ t = .kw .end_) : Fit trs (t :: us) := by
  induction trs with
  | nil => rcases ht with rfl | rfl <;> simp [Fit]
  | cons tr trs ih =>
      obtain ⟨htr, htrs⟩ := List.forall_mem_cons.mp h
      obtain ⟨hdtr, hdtrs⟩ := List.forall_mem_cons.mp hd
      refine ⟨tr.guard.normal_of_canonical htr.guard (hdtr.children _ (by simp)), htr.goal, ?_,
        ih htrs hdtrs⟩
      obtain ⟨l, vs, hvs, hl⟩ := exists_head trs us ht
      rw [hvs]
      refine .of_head vs ?_
      rintro u rfl
      simp at hl

/-! ## All statements -/

/-- A statement in a list stops before what comes next in the list or closes it. -/
theorem Statements.stops_of_canonical {s : Statement} {ss : Statements} (h : ss.Plain)
    (hchain : (s.tree :: ss.trees).IsChain Tree.Severs) {b : Body} {t : Lexeme}
    (hclose : b.closes t = true) (us : List Lexeme) : s.Stops (ss.units.flatten ++ t :: us) := by
  cases ss with
  | nil =>
      obtain ⟨hop, hparen, hsemicolon⟩ := Body.not_continues hclose
      exact .of_cons hop hparen hsemicolon
  | cons s' ss =>
      have hstops := Statement.stops_of_severs h.1 (List.isChain_cons_cons.mp hchain).1
        (ss.units.flatten ++ t :: us)
      simpa [units] using hstops

mutual

/-- A plain statement is what the reader takes if its tree is canonical. -/
theorem Statement.fits_of_canonical : (s : Statement) → s.Plain → s.tree.Derives Canonical →
    ∀ {alone : Bool} {ts : List Lexeme}, (alone = false → s.tree.IsSingle) →
    (alone = true → ∃ t us, ts = t :: us ∧ Branches.closes t = true) → s.Stops ts →
    s.Fits alone ts
  | .equations es, h, hd, _, _, hsingle, hcloses, hstops =>
      Equations.fits_of_canonical h hd hsingle hcloses hstops
  | .automaton locals states, h, hd, _, ts, _, _, _ =>
      ⟨Locals.normal_of_canonical h.1 fun t ht => hd.children t (by simp [ht]),
        States.fits_of_canonical states h.2 (fun t ht => hd.children t (by simp [ht])) ts⟩
  | .switch x cs, h, hd, _, ts, _, _, _ => by
      obtain ⟨-, -, hsingle, hchain⟩ := hd.self
      specialize hsingle rfl
      have hchain := (List.isChain_cons.mp (List.isChain_cons.mp (hchain rfl)).2).2
      exact Cases.fits_of_canonical cs h.2 (fun t ht => hd.children t (by simp [ht]))
        (fun t ht => hsingle t (by simp [ht])) (List.isChain_append.mp hchain).1 ts
  | .present bs, h, hd, _, ts, _, _, _ =>
      Branches.fits_of_canonical bs h (fun t ht => hd.children t (by simp [ht])) ts
  | .reset body e, h, hd, _, ts, _, _, hstops => by
      obtain ⟨-, -, hsingle, hchain⟩ := hd.self
      specialize hsingle rfl
      have hchain := (List.isChain_cons.mp (hchain rfl)).2
      exact ⟨Statements.fits_of_canonical body h.1 (fun t ht => hd.children t (by simp [ht]))
          (fun t ht => hsingle t (by simp [ht])) (List.isChain_append.mp hchain).1 rfl _,
        hstops.signals (e.normal_of_canonical h.2 (hd.children _ (by simp)))⟩

/-- Plain statements are what the reader takes in front of what closes them if their trees are
canonical. -/
theorem Statements.fits_of_canonical : (ss : Statements) → ss.Plain →
    (∀ t ∈ ss.trees, t.Derives Canonical) → (∀ t ∈ ss.trees, t.IsSingle) →
    ss.trees.IsChain Tree.Severs → ∀ {b : Body} {t : Lexeme}, b.closes t = true → ∀ us,
    ss.Fits b (t :: us)
  | .nil, _, _, _, _, _, t, hclose, us => ⟨t, us, rfl, hclose⟩
  | .cons s ss, h, hd, hsingle, hchain, b, t, hclose, us => by
      obtain ⟨hds, hdss⟩ := List.forall_mem_cons.mp hd
      obtain ⟨hs, hss⟩ := List.forall_mem_cons.mp hsingle
      obtain ⟨l, vs, hvs, -, -, hopen, -⟩ := s.exists_head h.1
      refine ⟨fun u hu => ?_, ?_, ?_⟩
      · obtain rfl : l = u := by simpa [hvs] using hu
        exact hopen b
      · exact Statement.fits_of_canonical s h.1 hds (fun _ => hs) (by simp)
          (ss.stops_of_canonical h.2 hchain hclose us)
      · exact Statements.fits_of_canonical ss h.2 hdss hss (List.isChain_cons.mp hchain).2 hclose us

theorem States.fits_of_canonical : (states : States) → states.Plain →
    (∀ t ∈ states.trees, t.Derives Canonical) → ∀ us, states.Fits (.kw .end_ :: us)
  | .nil, _, _, us => by simp [States.Fits]
  | .cons name locals body trs tail, h, hd, us => by
      obtain ⟨hname, hlocals, hbody, htrs, htail⟩ := h
      obtain ⟨hdstate, hdtail⟩ := List.forall_mem_cons.mp hd
      obtain ⟨-, -, hsingle, hchain⟩ := hdstate.self
      specialize hsingle rfl
      have hchain := (List.isChain_cons.mp (List.isChain_cons.mp (hchain rfl)).2).2
      have hchain := (List.isChain_cons.mp (List.isChain_append.mp hchain).2.1).2
      obtain ⟨t, vs, hvs, ht⟩ := tail.exists_head us
      obtain ⟨l, ws, hws, hl⟩ := Transition.exists_head trs vs ht
      have hclose : Body.state.closes l = true := by
        simp only [List.mem_cons, List.not_mem_nil, or_false] at hl
        rcases hl with rfl | rfl | rfl | rfl <;> rfl
      have hparts := hdstate.children
      refine ⟨hname, Locals.normal_of_canonical hlocals fun t ht => hparts t (by simp [ht]), ?_, ?_,
        States.fits_of_canonical tail htail hdtail us⟩
      · rw [hvs, hws]
        exact Statements.fits_of_canonical body hbody (fun t ht => hparts t (by simp [ht]))
          (fun t ht => hsingle t (by simp [ht])) (List.isChain_append.mp hchain).1 hclose ws
      · rw [hvs]
        exact Transition.fit_of_canonical htrs (fun t ht => hparts t (by simp_all)) vs ht

theorem Cases.fits_of_canonical : (cs : Cases) → cs.Plain →
    (∀ t ∈ cs.trees, t.Derives Canonical) → (∀ t ∈ cs.trees, t.IsSingle) →
    cs.trees.IsChain Tree.Severs → ∀ us, cs.Fits (.kw .end_ :: us)
  | .nil, _, _, _, _, us => by simp [Cases.Fits]
  | .cons v s ss tail, h, hd, hsingle, hchain, us => by
      obtain ⟨hs, hss, htail⟩ := h
      have hchain : (s.tree :: ss.trees ++ tail.trees).IsChain Tree.Severs :=
        (List.isChain_cons.mp (List.isChain_cons.mp (List.isChain_cons.mp hchain).2).2).2
      obtain ⟨hcase, hrest, -⟩ := List.isChain_append.mp hchain
      obtain ⟨l, vs, hvs, hclose⟩ := tail.exists_head us
      refine ⟨?_, ?_, ?_⟩
      · rw [hvs]
        exact Statement.fits_of_canonical s hs (hd _ (by simp [Cases.trees]))
          (fun _ => hsingle _ (by simp [Cases.trees])) (by simp)
          (ss.stops_of_canonical hss hcase hclose vs)
      · rw [hvs]
        exact Statements.fits_of_canonical ss hss (fun t ht => hd t (by simp [Cases.trees, ht]))
          (fun t ht => hsingle t (by simp [Cases.trees, ht])) (List.isChain_cons.mp hcase).2 hclose vs
      · exact Cases.fits_of_canonical tail htail (fun t ht => hd t (by simp [Cases.trees, ht]))
          (fun t ht => hsingle t (by simp [Cases.trees, ht])) hrest us

theorem Branches.fits_of_canonical : (bs : Branches) → bs.Plain →
    (∀ t ∈ bs.trees, t.Derives Canonical) → ∀ us, bs.Fits (.kw .end_ :: us)
  | .nil, _, _, us => by simp [Branches.Fits]
  | .otherwise s, h, hd, us =>
      Statement.fits_of_canonical s h (hd _ (by simp [Branches.trees])) (by simp)
        (fun _ => ⟨_, us, rfl, rfl⟩) (.of_cons rfl (by simp) (by simp))
  | .cons e s tail, h, hd, us => by
      obtain ⟨he, hs, htail⟩ := h
      obtain ⟨l, vs, hvs, hclose⟩ := tail.exists_head us
      obtain ⟨hop, hparen, hsemicolon⟩ := Branches.not_continues hclose
      refine ⟨e.normal_of_canonical he (hd _ (by simp [Branches.trees])), ?_, ?_⟩
      · rw [hvs]
        exact Statement.fits_of_canonical s hs (hd _ (by simp [Branches.trees])) (by simp)
          (fun _ => ⟨l, vs, rfl, hclose⟩) (.of_cons hop hparen hsemicolon)
      · exact Branches.fits_of_canonical tail htail
          (fun t ht => hd t (by simp [Branches.trees, ht])) us

end

end Heptagon
