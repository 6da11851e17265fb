import Heptagon.Proofs.Statement.Regrouping

/-!
# Where a signal ends

The signal of a `reset` ends where the reader of expressions does, unless a
semicolon follows.  Then it ends in a name, and an equation comes after it whose
targets could be the arguments of that name (`Expr.signals_iff`).

So it is up to the beginning of what follows, or to this equation as a whole,
what the signal is (`Lexeme.FollowsAs`).
-/

namespace Heptagon

variable {ts us : List Lexeme}

/-- The targets could be arguments. -/
def Target.CouldBeArgs (t : Target) : Prop :=
  ∃ args : Args, args.Normal ∧ args.areTargets = true ∧
    t.lexemes = .symbol .parenOpen :: (args.lexemes ++ [.symbol .parenClose])

/-- The text starts with an equation and a semicolon, and the targets could be arguments. -/
def Lexeme.StartsEquation (ts : List Lexeme) : Prop :=
  ∃ (e : Equation) (us : List Lexeme), e.target.CouldBeArgs ∧ e.Normal ∧
    ts = e.lexemes ++ .symbol .semicolon :: us

namespace Expr

variable {e e' : Expr}

/-- A name that is called at the end of an expression could end it, if nothing before could. -/
theorem beforeEquation?_callLast {args : Args} (hargs : args.areTargets = true) :
    (e : Expr) → e.endsInName = true → e.beforeEquation? none = none →
      (callLast args e).beforeEquation? (some .equal) = some e
  | .name f, _, _ => by simp [callLast, beforeEquation?, hargs]
  | .unary s e, hname, hnone => by
      have hnone : e.beforeEquation? none = none := by simpa [beforeEquation?] using hnone
      simp [callLast, beforeEquation?, beforeEquation?_callLast hargs e hname hnone]
  | .binary l op r, hname, hnone => by
      cases hl : l.beforeEquation? (some op) with
      | some f => simp [beforeEquation?, hl] at hnone
      | none =>
          have hnone : r.beforeEquation? none = none := by simpa [beforeEquation?, hl] using hnone
          simp [callLast, beforeEquation?, hl, beforeEquation?_callLast hargs r hname hnone]
  | .cond c y n, hname, hnone => by
      have hnone : n.beforeEquation? none = none := by simpa [beforeEquation?] using hnone
      simp [callLast, beforeEquation?, beforeEquation?_callLast hargs n hname hnone]

/-- A signal ends where the reader of expressions does, or in front of an equation. -/
theorem signals_iff : e.Signals ts ↔ e.Normal ∧
    ((e.Stops ts ∧ ts.head? ≠ some (.symbol .semicolon)) ∨
      (e.endsInName = true ∧ e.beforeEquation? none = none ∧ Lexeme.StartsEquation ts)) := by
  constructor
  · rintro (⟨hnormal, hstops, hhead⟩ | ⟨whole, us, hwhole, -, htext, hbefore⟩)
    · exact ⟨hnormal, .inl ⟨hstops, hhead⟩⟩
    · obtain ⟨hname, hnone, args, tail, hargs, htargets, htail, hnext⟩ := exists_call hwhole hbefore
      obtain ⟨v, hv, rfl⟩ : ∃ v : Expr, v.Normal ∧ tail = .symbol .equal :: v.lexemes := by
        simpa using hnext
      obtain ⟨n, ns, hnames⟩ := args.exists_names htargets
      refine ⟨(normal_of_beforeEquation? hwhole hbefore).1, .inr ⟨hname, hnone,
        ⟨.several .plain n ns, v⟩, us, ⟨args, hargs, htargets, ?_⟩, hv, ?_⟩⟩
      · simp [Target.lexemes, Opening.lexeme, hnames]
      · rw [htail, List.append_assoc, List.append_cancel_left_eq] at htext
        rw [← htext]
        simp [Equation.lexemes, Target.lexemes, Opening.lexeme, hnames]
  · rintro ⟨hnormal, ⟨hstops, hhead⟩ |
      ⟨hname, hnone, f, us, ⟨args, hargs, htargets, htarget⟩, hf, rfl⟩⟩
    · exact .inl ⟨hnormal, hstops, hhead⟩
    · refine .inr ⟨join .equal f.value (callLast args e), us,
        normal_join hf _ (normal_callLast hargs e hnormal), .of_cons rfl (by simp), ?_,
        beforeEquation?_join _ _ (beforeEquation?_callLast htargets e hname hnone) none⟩
      simp [lexemes_callLast _ e hname, Equation.lexemes, htarget, BinaryOp.lexeme]

end Expr

/-! ## What follows -/

/-- The second text goes on with what is before it as the first one does: it starts with the same
lexeme, and with an equation after which a signal could end if the first one does. -/
structure Lexeme.FollowsAs (ts ts' : List Lexeme) : Prop where
  head : ts'.head? = ts.head?
  equation : StartsEquation ts → StartsEquation ts'

namespace Lexeme.FollowsAs

variable {ts' : List Lexeme}

/-- Only a parenthesis starts an equation that could go on with a signal. -/
theorem of_head (hhead : ts'.head? = ts.head?) (hparen : ts.head? ≠ some (.symbol .parenOpen)) :
    FollowsAs ts ts' where
  head := hhead
  equation := by
    rintro ⟨e, vs, ⟨args, -, -, htarget⟩, -, rfl⟩
    exact absurd (by simp [Equation.lexemes, htarget]) hparen

theorem cons {l : Lexeme} (hl : l ≠ .symbol .parenOpen) (us us' : List Lexeme) :
    FollowsAs (l :: us) (l :: us') :=
  of_head rfl (by simpa using hl)

/-- A text that goes on in another way behind one of its lexemes. -/
theorem append_cons {us : List Lexeme} {l : Lexeme} {vs : List Lexeme}
    (hparen : (us ++ l :: vs).head? ≠ some (.symbol .parenOpen)) (vs' : List Lexeme) :
    FollowsAs (us ++ l :: vs) (us ++ l :: vs') :=
  of_head (by simp [List.head?_append]) hparen

end Lexeme.FollowsAs

/-- An expression that stops in front of a text does so in front of one that goes on as it. -/
theorem Expr.Stops.of_followsAs {e : Expr} {ts' : List Lexeme} (h : e.Stops ts)
    (hts : Lexeme.FollowsAs ts ts') : e.Stops ts' :=
  h.congr hts.head.symm

/-- What is a signal in front of a text is one in front of what goes on as it. -/
theorem Expr.Signals.of_followsAs {e : Expr} {ts' : List Lexeme} (h : e.Signals ts)
    (hts : Lexeme.FollowsAs ts ts') : e.Signals ts' := by
  obtain ⟨hnormal, h⟩ := signals_iff.mp h
  refine signals_iff.mpr ⟨hnormal, ?_⟩
  rcases h with ⟨hstops, hhead⟩ | ⟨hname, hnone, hequation⟩
  · exact .inl ⟨hstops.of_followsAs hts, hts.head ▸ hhead⟩
  · exact .inr ⟨hname, hnone, hts.equation hequation⟩

/-- What can stand for a signal is one itself. -/
theorem Expr.Signals.of_standsFor {e e' : Expr} (h : e.Signals ts) (hnormal : e'.Normal)
    (hname : e'.endsInName = true → e.endsInName = true)
    (hbefore : e.beforeEquation? none = none → e'.beforeEquation? none = none) :
    e'.Signals ts := by
  obtain ⟨-, ⟨hstops, hhead⟩ | ⟨-, hnone, hequation⟩⟩ := signals_iff.mp h
  · exact .inl ⟨hnormal, ⟨hstops.operator, fun h => hstops.paren (hname h)⟩, hhead⟩
  · cases hname' : e'.endsInName with
    | true => exact signals_iff.mpr ⟨hnormal, .inr ⟨hname', hbefore hnone, hequation⟩⟩
    | false =>
        obtain ⟨f, us, ⟨args, -, -, htarget⟩, -, rfl⟩ := hequation
        refine .inl ⟨hnormal, ⟨?_, fun h => by simp [hname'] at h⟩, ?_⟩
        · rw [Equation.lexemes, htarget]
          rfl
        · simp [Equation.lexemes, htarget]

/-! ## Statements -/

theorem Target.exists_lexemes_eq_cons (t : Target) : ∃ l us, t.lexemes = l :: us := by
  cases t <;> exact ⟨_, _, rfl⟩

/-- An equation and its semicolon decide what follows a signal; only the value may change. -/
theorem Equations.followsAs {es es' : Equations} (hfits : es.Fits false ts)
    (htarget : es'.first.target = es.first.target) (hnormal : es'.first.Normal)
    (hothers : es.others = [] → es'.others = []) (hsemicolon : es'.semicolon = es.semicolon)
    (ts' : List Lexeme) : Lexeme.FollowsAs (es.lexemes ++ ts) (es'.lexemes ++ ts') where
  head := by
    obtain ⟨l, us, hus⟩ := es.first.target.exists_lexemes_eq_cons
    simp [lexemes, Equation.lexemes, htarget, hus]
  equation := by
    rintro ⟨e, us, hargs, he, heq⟩
    obtain ⟨first, others, semicolon⟩ := es
    obtain ⟨first', others', semicolon'⟩ := es'
    obtain rfl : others = [] := hfits.single rfl
    obtain rfl : others' = [] := hothers rfl
    obtain rfl : semicolon' = semicolon := hsemicolon
    have htake := Equation.take?_eq_some_iff.mpr ⟨rfl, he,
      (.of_cons rfl (by simp) : e.value.Stops (.symbol .semicolon :: us))⟩
    rw [← heq] at htake
    -- the equation ends where the one after the signal does, so it has the semicolon
    cases semicolon' with
    | true =>
        have hstops : first.value.Stops (.symbol .semicolon :: ts) := .of_cons rfl (by simp)
        have htake' := Equation.take?_eq_some_iff.mpr ⟨rfl, hfits.first, hstops⟩
        obtain ⟨rfl, -⟩ : first = e ∧ ts = us := by
          simpa [lexemes, Equation.moreLexemes, Units.semicolonIf, htake'] using htake
        exact ⟨first', ts', by rwa [← htarget] at hargs, hnormal, by
          simp [lexemes, Equation.moreLexemes, Units.semicolonIf]⟩
    | false =>
        obtain ⟨hstops, hends⟩ := hfits.stops rfl
        have htake' := Equation.take?_eq_some_iff.mpr ⟨rfl, hfits.first, hstops⟩
        obtain ⟨-, rfl⟩ : first = e ∧ ts = .symbol .semicolon :: us := by
          simpa [lexemes, Equation.moreLexemes, Units.semicolonIf, htake'] using htake
        exact absurd rfl hends

/-- What follows a statement makes no difference to what is before it. -/
theorem Statement.Fits.followsAs {s : Statement} (h : s.Fits false ts) (ts' : List Lexeme) :
    Lexeme.FollowsAs (s.units.flatten ++ ts) (s.units.flatten ++ ts') := by
  cases s with
  | equations es =>
      have := Equations.followsAs h rfl h.first id rfl ts'
      simpa [units] using this
  | automaton | switch | present | reset => exact .cons (by simp) _ _

theorem Statements.Fits.followsAs {b : Body} {ss : Statements} {ts' : List Lexeme}
    (h : ss.Fits b ts) (hts : Lexeme.FollowsAs ts ts') :
    Lexeme.FollowsAs (ss.units.flatten ++ ts) (ss.units.flatten ++ ts') := by
  cases ss with
  | nil => exact hts
  | cons s ss =>
      have := h.2.1.followsAs (ss.units.flatten ++ ts')
      simpa [units] using this

/-- Only the first lexeme decides whether the name of a state goes on. -/
theorem StateName.Stops.congr {s : StateName} {ts' : List Lexeme} (h : s.Stops ts)
    (hhead : ts'.head? = ts.head?) : s.Stops ts' := by
  cases s with
  | small w =>
      rintro t us rfl
      cases ts with
      | nil => simp at hhead
      | cons l ts =>
          obtain rfl : .capital t = l := by simpa using hhead
          exact h t ts rfl
  | capital | mixed => trivial

theorem Transition.Fit.congr {trs : List Transition} {ts' : List Lexeme} (h : Fit trs ts)
    (hhead : ts'.head? = ts.head?) : Fit trs ts' := by
  induction trs with
  | nil => exact ⟨hhead ▸ h.1, hhead ▸ h.2⟩
  | cons t trs ih =>
      obtain ⟨hguard, hgoal, hstops, hfit⟩ := h
      exact ⟨hguard, hgoal, hstops.congr (by simp [List.head?_append, hhead]), ih hfit⟩

/-- What closes the body of a state is no parenthesis. -/
theorem States.head?_ne_parenOpen (trs : List Transition) (states : States) (us : List Lexeme) :
    ((trs.flatMap Transition.units).flatten ++ (states.units.flatten ++ .kw .end_ :: us)).head? ≠
      some (.symbol .parenOpen) := by
  obtain ⟨t, vs, hvs, ht⟩ := states.exists_head us
  obtain ⟨l, ws, hws, hl⟩ := Transition.exists_head trs vs ht
  rw [hvs, hws]
  rintro heq
  obtain rfl : l = .symbol .parenOpen := by simpa using heq
  simp at hl

theorem Cases.head?_ne_parenOpen (cs : Cases) (us : List Lexeme) :
    (cs.units.flatten ++ .kw .end_ :: us).head? ≠ some (.symbol .parenOpen) := by
  obtain ⟨t, vs, hvs, ht⟩ := cs.exists_head us
  rw [hvs]
  simpa using (Body.not_continues ht).2.1

theorem Branches.head?_ne_parenOpen (bs : Branches) (us : List Lexeme) :
    (bs.units.flatten ++ .kw .end_ :: us).head? ≠ some (.symbol .parenOpen) := by
  obtain ⟨t, vs, hvs, ht⟩ := bs.exists_head us
  rw [hvs]
  simpa using (Branches.not_continues ht).2.1

mutual

/-- A statement that fits in front of a text fits in front of one that goes on as it. -/
theorem Statement.Fits.of_followsAs : (s : Statement) → ∀ {alone : Bool} {ts ts' : List Lexeme},
    Lexeme.FollowsAs ts ts' → (alone = true → ∃ t us, ts' = t :: us ∧ Branches.closes t = true) →
    s.Fits alone ts → s.Fits alone ts'
  | .equations es, alone, ts, ts', hts, hcloses, hfits => by
      refine { hfits with closed := fun halone _ => hcloses halone, stops := fun hsemicolon => ?_ }
      obtain ⟨hstops, hends⟩ := hfits.stops hsemicolon
      refine ⟨hstops.of_followsAs hts, ?_⟩
      cases alone with
      | true =>
          rintro t us rfl
          obtain ⟨_, _, heq, hclose⟩ := hcloses rfl
          obtain ⟨rfl, -⟩ := List.cons.inj heq
          simp [Branches.closes] at hclose
      | false => exact fun hhead => hends (hts.head ▸ hhead)
  | .automaton _ states, _, _, ts', _, _, ⟨hlocals, hfits⟩ =>
      ⟨hlocals, States.Fits.of_end states ts' hfits⟩
  | .switch _ cs, _, _, ts', _, _, hfits => Cases.Fits.of_end cs ts' hfits
  | .present bs, _, _, ts', _, _, hfits => Branches.Fits.of_end bs ts' hfits
  | .reset ss _, _, _, _, hts, _, ⟨hfits, hsignals⟩ =>
      ⟨Statements.Fits.of_followsAs ss (.cons (by simp) _ _) hfits, hsignals.of_followsAs hts⟩

theorem Statements.Fits.of_followsAs : (ss : Statements) → ∀ {b : Body} {ts ts' : List Lexeme},
    Lexeme.FollowsAs ts ts' → ss.Fits b ts → ss.Fits b ts'
  | .nil, b, _, ts', hts, ⟨t, us, hus, hclose⟩ => by
      subst hus
      cases ts' with
      | nil => simpa using hts.head
      | cons t' us' =>
          obtain rfl : t' = t := by simpa using hts.head
          exact ⟨t', us', rfl, hclose⟩
  | .cons s ss, b, ts, ts', hts, ⟨hopen, hfirst, hfits⟩ =>
      ⟨hopen, Statement.Fits.of_followsAs s (hfits.followsAs hts) (by simp) hfirst,
        Statements.Fits.of_followsAs ss hts hfits⟩

/-- What follows the end of an automaton makes no difference to its states. -/
theorem States.Fits.of_end : (states : States) → ∀ {ts : List Lexeme} (ts' : List Lexeme),
    states.Fits (.kw .end_ :: ts) → states.Fits (.kw .end_ :: ts')
  | .nil, _, _, _ => by simp [States.Fits]
  | .cons _ _ ss trs tail, ts, ts', ⟨hname, hlocals, hbody, htrs, htail⟩ => by
      refine ⟨hname, hlocals, Statements.Fits.of_followsAs ss ?_ hbody,
        htrs.congr (by simp [List.head?_append]), States.Fits.of_end tail ts' htail⟩
      have hparen := States.head?_ne_parenOpen trs tail ts
      rw [← List.append_assoc] at hparen ⊢
      rw [← List.append_assoc]
      exact .append_cons hparen ts'

theorem Cases.Fits.of_end : (cs : Cases) → ∀ {ts : List Lexeme} (ts' : List Lexeme),
    cs.Fits (.kw .end_ :: ts) → cs.Fits (.kw .end_ :: ts')
  | .nil, _, _, _ => by simp [Cases.Fits]
  | .cons _ s ss tail, ts, ts', ⟨hfirst, hothers, htail⟩ =>
      have hts := Lexeme.FollowsAs.append_cons (tail.head?_ne_parenOpen ts) ts'
      ⟨Statement.Fits.of_followsAs s (hothers.followsAs hts) (by simp) hfirst,
        Statements.Fits.of_followsAs ss hts hothers, Cases.Fits.of_end tail ts' htail⟩

theorem Branches.Fits.of_end : (bs : Branches) → ∀ {ts : List Lexeme} (ts' : List Lexeme),
    bs.Fits (.kw .end_ :: ts) → bs.Fits (.kw .end_ :: ts')
  | .nil, _, _, _ => by simp [Branches.Fits]
  | .otherwise s, _, ts', hfits =>
      Statement.Fits.of_followsAs s (.cons (by simp) _ _) (fun _ => ⟨_, ts', rfl, rfl⟩) hfits
  | .cons _ s tail, ts, ts', ⟨hguard, hfirst, htail⟩ => by
      refine ⟨hguard, Statement.Fits.of_followsAs s (.append_cons (tail.head?_ne_parenOpen ts) ts')
        (fun _ => ?_) hfirst, Branches.Fits.of_end tail ts' htail⟩
      obtain ⟨t, us, hus, hclose⟩ := tail.exists_head ts'
      exact ⟨t, us, hus, hclose⟩

end

end Heptagon
