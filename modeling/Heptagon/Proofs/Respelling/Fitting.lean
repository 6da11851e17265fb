import Heptagon.Proofs.Respelling.Statement

/-!
# Statements in another spelling that are read

A statement is what is read in front of some lexemes if one that is like it is
in front of others, and these begin alike (`Statement.Alike.fits`).  For the
signal of a `reset` it is not enough that the first lexemes are alike: where it
ends may be decided by a whole equation after it (`Lexeme.FollowAlike`).
-/

namespace Heptagon

variable {ts ts' : List Lexeme}

/-! ## What follows -/

/-- Two texts continue what stands before them in the same way: they begin alike, and if the one
goes on with an equation in parentheses and a semicolon, the other goes on with one like it. -/
structure Lexeme.FollowAlike (ts ts' : List Lexeme) : Prop where
  head : HeadAlike ts ts'
  equation : ∀ (e : Equation) (us : List Lexeme), e.Normal →
    e.lexemes.head? = some (.symbol .parenOpen) → ts = e.lexemes ++ .symbol .semicolon :: us →
    ∃ (e' : Equation) (us' : List Lexeme), e.Alike e' ∧ ts' = e'.lexemes ++ .symbol .semicolon :: us'

/-- No equation in parentheses starts with another lexeme. -/
theorem Lexeme.FollowAlike.of_head (h : HeadAlike ts ts')
    (hts : ts.head? ≠ some (.symbol .parenOpen)) : FollowAlike ts ts' where
  head := h
  equation := by
    rintro e us - hparen rfl
    obtain ⟨t, vs, hvs⟩ := e.exists_lexemes_eq_cons
    rw [hvs] at hparen hts
    exact absurd hparen hts

theorem Body.closes_eq {l l' : Lexeme} (h : l.Alike l') (b : Body) : b.closes l' = b.closes l := by
  cases h with
  | word h => cases h <;> cases b <;> rfl
  | capital t t' => cases b <;> rfl
  | number t t' => cases b <;> rfl
  | symbol h =>
      exact Symbol.congr_of_undotted (fun s => b.closes (.symbol s))
        (fun s => by cases b <;> cases s <;> rfl) h
  | apart => rfl

theorem Branches.closes_eq {l l' : Lexeme} (h : l.Alike l') : closes l' = closes l := by
  cases h with
  | word h => cases h <;> rfl
  | symbol h =>
      exact Symbol.congr_of_undotted (fun s => closes (.symbol s)) (fun s => by cases s <;> rfl) h
  | _ => rfl

/-! ## Signals -/

namespace Expr

/-- Normal expressions with the same lexemes are the same. -/
theorem eq_of_lexemes_eq {e f : Expr} (he : e.Normal) (hf : f.Normal) (h : e.lexemes = f.lexemes) :
    e = f := by
  have hstops : ∀ g : Expr, g.Stops [] := fun g => ⟨rfl, by simp⟩
  have htake := take?_eq_some_iff.mpr ⟨rfl, he, hstops e⟩
  rw [List.append_nil, h, ← f.lexemes.append_nil, take?_eq_some_iff.mpr ⟨rfl, hf, hstops f⟩] at htake
  exact (congrArg Prod.fst (Option.some.inj htake)).symm

/-- The signal of a `reset` ends where one that is like it does. -/
theorem Alike.signals {e e' : Expr} (h : e.Alike e') (hts : Lexeme.FollowAlike ts ts')
    (hsignals : e.Signals ts) : e'.Signals ts' := by
  have hlexemes := Alike.lexemes e h
  rcases hsignals with ⟨hnormal, hstops, hsemicolon⟩ | ⟨whole, us, hwhole, -, heq, hbefore⟩
  · exact .inl ⟨Alike.normal e h hnormal, h.stops hts.head hstops,
      fun hhead => hsemicolon ((hts.head.head?_eq_symbol_iff rfl).mp hhead)⟩
  · -- the equation that ends the signal is in the other text, too
    obtain ⟨n, ns, tail, hsplit, hnext⟩ := exists_equation hwhole hbefore
    obtain ⟨v, hv, rfl⟩ : ∃ v : Expr, v.Normal ∧ tail = .symbol .equal :: v.lexemes := by
      simpa using hnext
    have hequation : whole.lexemes = e.lexemes ++ Equation.lexemes ⟨.several .plain n ns, v⟩ := hsplit
    rw [hequation, List.append_assoc] at heq
    obtain ⟨f, us', hf, rfl⟩ := hts.equation ⟨.several .plain n ns, v⟩ us hv rfl
      (List.append_cancel_left heq).symm
    -- so the whole of both is an expression there, which could end earlier
    obtain ⟨whole', halike, hwhole'⟩ := whole.exists_alike_of_lexemes
      (by rw [hequation]; exact List.rel_append hlexemes hf.lexemes)
    have hrel : Option.Rel Expr.Alike (whole.beforeEquation? none) (whole'.beforeEquation? none) :=
      halike.beforeEquation? .rfl
    rw [hbefore] at hrel
    obtain ⟨g, hbefore', hg⟩ := exists_of_rel_some hrel
    have hnormal' := Alike.normal whole halike hwhole
    obtain ⟨ws, hws⟩ := lexemes_of_beforeEquation? hbefore'
    have hsame : g.lexemes = e'.lexemes := List.append_inj_left (hws.symm.trans hwhole')
      ((Alike.lexemes e hg).length_eq.symm.trans hlexemes.length_eq)
    have hnormal := Alike.normal e h (normal_of_beforeEquation? hwhole hbefore).1
    obtain rfl := eq_of_lexemes_eq (normal_of_beforeEquation? hnormal' hbefore').1 hnormal hsame
    exact .inr ⟨whole', us', hnormal', .of_cons rfl (by simp), by rw [hwhole', List.append_assoc],
      hbefore'⟩

end Expr

/-! ## Equations -/

theorem Equations.Alike.fits {es es' : Equations} {alone : Bool} (h : es.Alike es')
    (hts : Lexeme.HeadAlike ts ts')
    (hcloses : alone = true → ∃ t us, ts' = t :: us ∧ Branches.closes t = true)
    (hfits : es.Fits alone ts) : es'.Fits alone ts' where
  first := h.first.normal hfits.first
  others := forall_mem_of_forall₂ h.others
    (P := fun e => e.Normal ∧ e.target.isAmong [.default, .end_] = false)
    (fun _ _ he hP => ⟨he.normal hP.1, (he.target.isAmong_eq _).trans hP.2⟩) hfits.others
  starts := (h.first.target.isAmong_eq _).trans hfits.starts
  single := fun halone => by
    have hothers := h.others
    rw [hfits.single halone] at hothers
    exact List.forall₂_nil_left_iff.mp hothers
  closed := fun halone _ => hcloses halone
  stops := fun hsemicolon => by
    obtain ⟨hstops, hends⟩ := hfits.stops (h.semicolon ▸ hsemicolon)
    refine ⟨(h.first.lastOr h.others).value.stops hts hstops, ?_⟩
    cases alone with
    | true =>
        rintro t us rfl
        obtain ⟨_, _, heq, hclose⟩ := hcloses rfl
        obtain ⟨rfl, -⟩ := List.cons.inj heq
        simp [Branches.closes] at hclose
    | false => exact fun hhead => hends ((hts.head?_eq_symbol_iff rfl).mp hhead)

/-! ## Statements -/

theorem Statement.Alike.head {s s' : Statement} (h : s.Alike s') :
    Lexeme.HeadAlike (s.units.flatten ++ ts) (s'.units.flatten ++ ts') := by
  cases h with
  | equations h =>
      obtain ⟨⟨t, us, hus⟩, ⟨t', us', hus'⟩⟩ :=
        And.intro (Equations.first _).exists_lexemes_eq_cons (Equations.first _).exists_lexemes_eq_cons
      have hlexemes := h.first.lexemes
      rw [hus, hus'] at hlexemes
      cases hlexemes with
      | cons hl _ =>
          simp only [Statement.units, Units.flatten_ofLexemes, Equations.lexemes, hus, hus']
          exact .cons hl _ _
  | _ => exact .cons (.refl _) _ _

/-- If a statement that fits and its semicolon are an equation in parentheses, so are those like
them. -/
theorem Statement.Alike.follow {s s' : Statement} (h : s.Alike s') (hfits : s.Fits false ts)
    (ts' : List Lexeme) :
    Lexeme.FollowAlike (s.units.flatten ++ ts) (s'.units.flatten ++ ts') := by
  cases h with
  | @equations es es' h =>
      refine ⟨(Statement.Alike.equations h).head, fun e us he _ heq => ?_⟩
      obtain ⟨first, others, semicolon⟩ := es
      obtain ⟨first', others', semicolon'⟩ := es'
      obtain ⟨hfirst, hothers, hsemicolon⟩ := h
      obtain rfl : others = [] := hfits.single rfl
      obtain rfl : others' = [] := List.forall₂_nil_left_iff.mp hothers
      obtain rfl : semicolon' = semicolon := hsemicolon
      have htake := Equation.take?_eq_some_iff.mpr ⟨rfl, he,
        (.of_cons rfl (by simp) : e.value.Stops (.symbol .semicolon :: us))⟩
      rw [← heq] at htake
      cases semicolon' with
      | true =>
          have hstops : first.value.Stops (.symbol .semicolon :: ts) := .of_cons rfl (by simp)
          have htake' := Equation.take?_eq_some_iff.mpr ⟨rfl, hfits.first, hstops⟩
          obtain ⟨rfl, rfl⟩ : first = e ∧ ts = us := by
            simpa [Statement.units, Equations.lexemes, Equation.moreLexemes, Units.semicolonIf,
              htake'] using htake
          exact ⟨first', ts', hfirst, by
            simp [Statement.units, Equations.lexemes, Equation.moreLexemes, Units.semicolonIf]⟩
      | false =>
          obtain ⟨hstops, hends⟩ := hfits.stops rfl
          have htake' := Equation.take?_eq_some_iff.mpr ⟨rfl, hfits.first, hstops⟩
          obtain ⟨rfl, rfl⟩ : first = e ∧ ts = .symbol .semicolon :: us := by
            simpa [Statement.units, Equations.lexemes, Equation.moreLexemes, Units.semicolonIf,
              htake'] using htake
          exact absurd rfl hends
  | _ => exact .of_head (.cons (.refl _) _ _) (by simp [Statement.units])

theorem Statements.Alike.follow {b : Body} {ss ss' : Statements} (h : ss.Alike ss')
    (hts : Lexeme.HeadAlike ts ts') (hfits : ss.Fits b ts) :
    Lexeme.FollowAlike (ss.units.flatten ++ ts) (ss'.units.flatten ++ ts') := by
  cases h with
  | nil =>
      obtain ⟨t, us, rfl, hclose⟩ := hfits
      exact .of_head hts (by simpa [Statements.units] using (Body.not_continues hclose).2.1)
  | @cons _ _ _ ss' hs hss =>
      obtain ⟨-, hfits, -⟩ := hfits
      have hfollow := hs.follow hfits (ss'.units.flatten ++ ts')
      simpa [Statements.units] using hfollow

/-! ## Lists with an end -/

/-- What closes the body of a state is the same word for states that are alike. -/
theorem States.Alike.exists_head {states states' : States} (h : states.Alike states')
    (ts ts' : List Lexeme) : ∃ t us us', states.units.flatten ++ .kw .end_ :: ts = t :: us ∧
      states'.units.flatten ++ .kw .end_ :: ts' = t :: us' ∧ (t = .kw .state ∨ t = .kw .end_) := by
  cases h with
  | nil => exact ⟨_, _, _, rfl, rfl, .inr rfl⟩
  | cons => exact ⟨_, _, _, rfl, rfl, .inl rfl⟩

theorem Cases.Alike.exists_head {cs cs' : Cases} (h : cs.Alike cs') (ts ts' : List Lexeme) :
    ∃ t us us', cs.units.flatten ++ .kw .end_ :: ts = t :: us ∧
      cs'.units.flatten ++ .kw .end_ :: ts' = t :: us' ∧ Body.case.closes t = true := by
  cases h with
  | nil => exact ⟨_, _, _, rfl, rfl, rfl⟩
  | cons => exact ⟨_, _, _, rfl, rfl, rfl⟩

theorem Branches.Alike.exists_head {bs bs' : Branches} (h : bs.Alike bs') (ts ts' : List Lexeme) :
    ∃ t us us', bs.units.flatten ++ .kw .end_ :: ts = t :: us ∧
      bs'.units.flatten ++ .kw .end_ :: ts' = t :: us' ∧ Branches.closes t = true := by
  cases h with
  | nil => exact ⟨_, _, _, rfl, rfl, rfl⟩
  | otherwise => exact ⟨_, _, _, rfl, rfl, rfl⟩
  | cons => exact ⟨_, _, _, rfl, rfl, rfl⟩

theorem Transition.alike_head {trs trs' : List Transition} (h : List.Forall₂ Transition.Alike trs trs')
    (hts : Lexeme.HeadAlike ts ts') :
    Lexeme.HeadAlike ((trs.flatMap units).flatten ++ ts) ((trs'.flatMap units).flatten ++ ts') := by
  cases h with
  | nil => exact hts
  | cons ht _ =>
      simp only [List.flatMap_cons, units, ht.strong]
      exact .cons (.refl _) _ _

/-! ## Statements that fit -/

mutual

/-- A statement is what is read in front of some lexemes if one that is like it is in front of
lexemes that begin alike. -/
theorem Statement.Alike.fits : (s : Statement) → ∀ {s' : Statement}, s.Alike s' →
    ∀ {alone : Bool} {ts ts' : List Lexeme}, Lexeme.FollowAlike ts ts' →
    (alone = true → ∃ t us, ts' = t :: us ∧ Branches.closes t = true) →
    s.Fits alone ts → s'.Fits alone ts'
  | .equations _, _, .equations h, _, _, _, hts, hcloses, hfits => h.fits hts.head hcloses hfits
  | .automaton _ states, _, .automaton hl hstates, _, _, ts', _, _, ⟨hlocals, hfits⟩ =>
      ⟨forall_mem_of_rel hl (fun _ _ h => h.normal) hlocals, States.Alike.fits states hstates ts' hfits⟩
  | .switch _ cs, _, .switch _ hcs, _, _, ts', _, _, hfits => Cases.Alike.fits cs hcs ts' hfits
  | .present bs, _, .present h, _, _, ts', _, _, hfits => Branches.Alike.fits bs h ts' hfits
  | .reset ss _, _, .reset hss he, _, _, _, hts, _, ⟨hfits, hsignals⟩ =>
      ⟨Statements.Alike.fits ss hss (.cons (.refl _) _ _) hfits, he.signals hts hsignals⟩

theorem Statements.Alike.fits : (ss : Statements) → ∀ {ss' : Statements}, ss.Alike ss' →
    ∀ {b : Body} {ts ts' : List Lexeme}, Lexeme.HeadAlike ts ts' → ss.Fits b ts → ss'.Fits b ts'
  | .nil, _, .nil, b, _, ts', hts, ⟨t, us, hus, hclose⟩ => by
      subst hus
      cases ts' with
      | nil => cases hts
      | cons t' us' =>
          cases hts with
          | some h => exact ⟨t', us', rfl, (b.closes_eq h).trans hclose⟩
  | .cons s ss, .cons s' ss', .cons hs hss, b, ts, ts', hts, ⟨hopen, hfirst, hfits⟩ => by
      refine ⟨fun t' ht' => ?_, Statement.Alike.fits s hs (hss.follow hts hfits) (by simp) hfirst,
        Statements.Alike.fits ss hss hts hfits⟩
      have hhead : Lexeme.HeadAlike (s.units.flatten ++ []) (s'.units.flatten ++ []) := hs.head
      rw [List.append_nil, List.append_nil, Lexeme.HeadAlike, Option.mem_def.mp ht'] at hhead
      generalize ho : s.units.flatten.head? = o at hhead
      cases hhead with
      | some h => exact (b.closes_eq h).trans (hopen _ ho)

theorem States.Alike.fits : (states : States) → ∀ {states' : States}, states.Alike states' →
    ∀ {ts : List Lexeme} (ts' : List Lexeme), states.Fits (.kw .end_ :: ts) →
    states'.Fits (.kw .end_ :: ts')
  | .nil, _, .nil, _, _, _ => by simp [States.Fits]
  | .cons _ _ ss trs tail, _, .cons hn hl hss htrs htail, ts, ts', hfits => by
      obtain ⟨hname, hlocals, hbody, htransitions, htailfits⟩ := hfits
      obtain ⟨t, us, us', hus, hus', ht⟩ := htail.exists_head ts ts'
      rw [hus] at hbody htransitions
      refine ⟨hn hname, forall_mem_of_rel hl (fun _ _ h => h.normal) hlocals, ?_, ?_,
        States.Alike.fits tail htail ts' htailfits⟩
      · rw [hus']
        exact Statements.Alike.fits ss hss (Transition.alike_head htrs (.cons (.refl _) _ _)) hbody
      · rw [hus']
        exact Transition.fit_alike htrs ht htransitions

theorem Cases.Alike.fits : (cs : Cases) → ∀ {cs' : Cases}, cs.Alike cs' →
    ∀ {ts : List Lexeme} (ts' : List Lexeme), cs.Fits (.kw .end_ :: ts) →
    cs'.Fits (.kw .end_ :: ts')
  | .nil, _, .nil, _, _, _ => by simp [Cases.Fits]
  | .cons _ s ss tail, _, .cons _ _ hs hss htail, ts, ts', hfits => by
      obtain ⟨hfirst, hothers, htailfits⟩ := hfits
      obtain ⟨t, us, us', hus, hus', -⟩ := htail.exists_head ts ts'
      rw [hus] at hfirst hothers
      have hhead : Lexeme.HeadAlike (t :: us) (t :: us') := .cons (.refl _) _ _
      refine ⟨?_, ?_, Cases.Alike.fits tail htail ts' htailfits⟩
      · rw [hus']
        exact Statement.Alike.fits s hs (hss.follow hhead hothers) (by simp) hfirst
      · rw [hus']
        exact Statements.Alike.fits ss hss hhead hothers

theorem Branches.Alike.fits : (bs : Branches) → ∀ {bs' : Branches}, bs.Alike bs' →
    ∀ {ts : List Lexeme} (ts' : List Lexeme), bs.Fits (.kw .end_ :: ts) →
    bs'.Fits (.kw .end_ :: ts')
  | .nil, _, .nil, _, _, _ => by simp [Branches.Fits]
  | .otherwise s, _, .otherwise h, _, ts', hfits =>
      Statement.Alike.fits s h (.of_head (.cons (.refl _) _ _) (by simp))
        (fun _ => ⟨_, ts', rfl, rfl⟩) hfits
  | .cons _ s tail, _, .cons he hs htail, ts, ts', hfits => by
      obtain ⟨hguard, hfirst, htailfits⟩ := hfits
      obtain ⟨t, us, us', hus, hus', hclose⟩ := htail.exists_head ts ts'
      rw [hus] at hfirst
      refine ⟨Expr.Alike.normal _ he hguard, ?_, Branches.Alike.fits tail htail ts' htailfits⟩
      rw [hus']
      exact Statement.Alike.fits s hs
        (.of_head (.cons (.refl _) _ _) (by simpa using (Branches.not_continues hclose).2.1))
        (fun _ => ⟨t, us', rfl, hclose⟩) hfirst

end

end Heptagon
