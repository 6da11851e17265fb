import Heptagon.Proofs.Declaration.Reading
import Heptagon.Proofs.Statement.Written

/-!
# What the readers of statements take

`Statements.take?_eq_some_iff` says what the body of a component is: the
statements that the text starts with and that fit in front of the rest of it.
As for expressions, one direction is an induction on the number of steps, the
other one an induction on the statements.
-/

namespace Heptagon

variable {ts rest : List Lexeme}

/-! ## Equations -/

theorem Target.of_take? {t : Target} (h : take? ts = some (t, rest)) : ts = t.lexemes ++ rest := by
  unfold take? at h
  split at h
  · obtain ⟨rfl, rfl⟩ := by simpa using h
    rfl
  · simp only [Option.bind_eq_bind, Option.bind_eq_some_iff, Prod.exists, Option.pure_def,
      Option.some.injEq, Prod.mk.injEq, Opening.take?_eq_some_iff, Name.take?_eq_some_iff,
      Lexeme.skip_eq_some_iff] at h
    obtain ⟨o, ts₁, rfl, first, ts₂, rfl, ts₃, hclose, rfl, rfl⟩ := h
    have hothers := Name.eq_of_takeMore ts₂ (Prod.eta _).symm
    rw [hclose] at hothers
    simpa [lexemes] using hothers

theorem Target.take?_lexemes (t : Target) (us : List Lexeme) :
    take? (t.lexemes ++ us) = some (t, us) := by
  cases t with
  | single n => rfl
  | several o n ns =>
      have hnames := Name.takeMore_units ns (.symbol .parenClose :: us) (by simp)
      cases o <;> simp [lexemes, Opening.lexeme, take?, Opening.take?, Name.take?, hnames,
        Lexeme.skip]

theorem Equation.take?_eq_some_iff {e : Equation} :
    take? ts = some (e, rest) ↔ ts = e.lexemes ++ rest ∧ e.Normal ∧ e.value.Stops rest := by
  constructor
  · intro h
    simp only [take?, Option.bind_eq_bind, Option.bind_eq_some_iff, Prod.exists, Option.pure_def,
      Option.some.injEq, Prod.mk.injEq, Lexeme.skip_eq_some_iff, Expr.take?_eq_some_iff] at h
    obtain ⟨target, ts₁, htarget, ts₂, rfl, value, ts₃, ⟨rfl, hnormal, hstops⟩, rfl, rfl⟩ := h
    exact ⟨by rw [Target.of_take? htarget]; simp [lexemes], hnormal, hstops⟩
  · rintro ⟨rfl, hnormal, hstops⟩
    have hvalue := Expr.take?_eq_some_iff.mpr ⟨rfl, hnormal, hstops⟩
    simp [lexemes, take?, Target.take?_lexemes, Lexeme.skip, hvalue]

theorem Equations.takeOne_eq_some_iff {es : Equations} :
    takeOne ts = some (es, rest) ↔ ts = es.lexemes ++ rest ∧ es.first.Normal ∧ es.others = [] ∧
      (es.semicolon = false → es.first.value.Stops rest ∧
        rest.head? ≠ some (.symbol .semicolon)) := by
  constructor
  · intro h
    simp only [takeOne, Option.bind_eq_bind, Option.bind_eq_some_iff, Prod.exists,
      Equation.take?_eq_some_iff] at h
    obtain ⟨e, us, ⟨rfl, hnormal, hstops⟩, h⟩ := h
    split at h
    · obtain ⟨rfl, rfl⟩ := by simpa using h
      simpa [lexemes, Equation.moreLexemes, Units.semicolonIf] using hnormal
    · next hsemicolon =>
        obtain ⟨rfl, rfl⟩ := by simpa using h
        refine ⟨by simp [lexemes, Equation.moreLexemes, Units.semicolonIf], hnormal, rfl,
          fun _ => ⟨hstops, fun hhead => ?_⟩⟩
        cases us with
        | nil => simp at hhead
        | cons l us =>
            obtain rfl : l = .symbol .semicolon := by simpa using hhead
            exact hsemicolon _ rfl
  · rintro ⟨rfl, hnormal, hothers, hstops⟩
    obtain ⟨first, others, semicolon⟩ := es
    obtain rfl : others = [] := hothers
    -- without a semicolon the last expression must be seen to end
    cases semicolon with
    | true =>
        have hfirst := Equation.take?_eq_some_iff.mpr
          ⟨rfl, hnormal, (.of_cons rfl (by simp) : Expr.Stops _ (.symbol .semicolon :: rest))⟩
        simp [takeOne, lexemes, Equation.moreLexemes, Units.semicolonIf, hfirst]
    | false =>
        obtain ⟨hstops, hhead⟩ := hstops rfl
        have hfirst := Equation.take?_eq_some_iff.mpr ⟨rfl, hnormal, hstops⟩
        simp only [takeOne, lexemes, Equation.moreLexemes, Units.semicolonIf, List.flatMap_nil,
          List.flatten_nil, List.append_nil, hfirst, Option.bind_eq_bind, Option.bind_some]
        split
        · simp at hhead
        · rfl

/-- The equations after the first one are what is read in front of some lexemes. -/
structure Equations.Follow (es : List Equation) (semicolon : Bool) (ts : List Lexeme) : Prop where
  normal : ∀ e ∈ es, e.Normal ∧ e.target.isAmong [.default, .end_] = false
  closed : semicolon = true → ∃ t us, ts = t :: us ∧ Branches.closes t = true
  stops : ∀ first : Equation, semicolon = false →
    first.value.Stops (Equation.moreLexemes es ++ ts) →
      (Equation.lastOr first es).value.Stops ts ∧ Ends true ts

theorem Branches.closes_head {e : Equation} {t : Lexeme} (h : e.lexemes.head? = some t) :
    Branches.closes t = e.target.isAmong [.default, .end_] := by
  obtain ⟨target, value⟩ := e
  cases target with
  | single n =>
      obtain rfl : .word n = t := by simpa [Equation.lexemes, Target.lexemes] using h
      cases n with
      | plain s => rfl
      | keyword k => cases k <;> rfl
  | several o n ns =>
      obtain rfl : o.lexeme = t := by simpa [Equation.lexemes, Target.lexemes] using h
      cases o <;> rfl

theorem Equation.exists_lexemes_eq_cons (e : Equation) : ∃ t us, e.lexemes = t :: us := by
  obtain ⟨target, value⟩ := e
  cases target <;> exact ⟨_, _, rfl⟩

theorem Equations.of_takeMore {n : Nat} {es : List Equation} {semicolon : Bool}
    (hn : ts.length ≤ n) (h : takeMore n ts = some ((es, semicolon), rest)) :
    ts = Equation.moreLexemes es ++ ((Units.semicolonIf semicolon).flatten ++ rest) ∧
      Follow es semicolon rest := by
  induction n generalizing ts es with
  | zero =>
      obtain rfl : ts = [] := List.length_eq_zero_iff.mp (Nat.le_zero.mp hn)
      obtain ⟨⟨rfl, rfl⟩, rfl⟩ : ([] = es ∧ false = semicolon) ∧ [] = rest := by
        simpa [takeMore] using h
      exact ⟨rfl, by simp, by simp, fun first _ hstops => ⟨hstops, by simp [Ends]⟩⟩
  | succ n ih =>
      unfold takeMore at h
      split at h
      · next m t us heq =>
          obtain rfl := Nat.succ.inj heq
          split at h
          · next hclose =>
              obtain ⟨⟨rfl, rfl⟩, rfl⟩ : ([] = es ∧ true = semicolon) ∧ t :: us = rest := by
                simpa using h
              exact ⟨rfl, by simp, fun _ => ⟨t, us, rfl, hclose⟩, by simp⟩
          · next hclose =>
              simp only [Option.bind_eq_bind, Option.bind_eq_some_iff, Prod.exists,
                Option.pure_def, Option.some.injEq, Prod.mk.injEq,
                Equation.take?_eq_some_iff] at h
              obtain ⟨e, ts₁, ⟨hts, hnormal, hstops⟩, es', semicolon', ts₂, hmore,
                ⟨rfl, rfl⟩, rfl⟩ := h
              have hlength := congrArg List.length hts
              simp only [List.length_cons, List.length_append] at hlength hn
              obtain ⟨l, vs, hvs⟩ := e.exists_lexemes_eq_cons
              obtain ⟨rfl, hfollow⟩ := ih
                (by rw [hvs] at hlength; simp only [List.length_cons] at hlength; omega) hmore
              obtain rfl : t = l := by
                rw [hvs] at hts
                exact (List.cons.inj hts).1
              have hamong : e.target.isAmong [.default, .end_] = false := by
                rw [← Branches.closes_head (t := t) (by rw [hvs]; rfl)]
                simpa using hclose
              refine ⟨by rw [hts]; simp [Equation.moreLexemes],
                List.forall_mem_cons.mpr ⟨⟨hnormal, hamong⟩, hfollow.normal⟩, hfollow.closed,
                fun first hsemicolon _ => hfollow.stops e hsemicolon ?_⟩
              simpa [hsemicolon, Units.semicolonIf] using hstops
      · next ts _ _ hclose =>
          obtain ⟨⟨rfl, rfl⟩, rfl⟩ : ([] = es ∧ false = semicolon) ∧ ts = rest := by
            simpa using h
          exact ⟨rfl, by simp, by simp, fun first _ hstops => ⟨hstops, by
            simpa [Ends] using fun t us => hclose n t us rfl⟩⟩

/-- What comes after an equation of a branch ends its value. -/
theorem Equations.stops_of_last (first : Equation) (es : List Equation) (semicolon : Bool)
    (h : semicolon = false → (Equation.lastOr first es).value.Stops ts) :
    first.value.Stops (Equation.moreLexemes es ++ ((Units.semicolonIf semicolon).flatten ++ ts)) := by
  cases es with
  | nil =>
      cases semicolon with
      | true => exact .of_cons rfl (by simp)
      | false => exact h rfl
  | cons e es => exact .of_cons rfl (by simp)

theorem Equations.takeMore_lexemes {n : Nat} (first : Equation) {es : List Equation}
    {semicolon : Bool} (hnormal : ∀ e ∈ es, e.Normal ∧ e.target.isAmong [.default, .end_] = false)
    (hclosed : semicolon = true → ∃ t us, ts = t :: us ∧ Branches.closes t = true)
    (hstops : semicolon = false → (Equation.lastOr first es).value.Stops ts ∧ Ends true ts)
    (hn : (Equation.moreLexemes es ++ (Units.semicolonIf semicolon).flatten).length ≤ n) :
    takeMore n (Equation.moreLexemes es ++ ((Units.semicolonIf semicolon).flatten ++ ts)) =
      some ((es, semicolon), ts) := by
  induction es generalizing n first with
  | nil =>
      cases semicolon with
      | true =>
          obtain ⟨t, us, rfl, hclose⟩ := hclosed rfl
          obtain ⟨n, rfl⟩ : ∃ m, n = m + 1 := ⟨n - 1, by
            simp only [Equation.moreLexemes, Units.semicolonIf, List.flatMap_nil,
              List.flatten_cons, List.length_append, List.length_cons] at hn
            omega⟩
          simp [Equation.moreLexemes, Units.semicolonIf, takeMore, hclose]
      | false =>
          have hends : ∀ t us, ts ≠ .symbol .semicolon :: t :: us := by
            simpa [Ends] using (hstops rfl).2
          exact takeMore.eq_2 n ts (fun _ t us _ => hends t us)
  | cons e es ih =>
      obtain ⟨⟨he, hamong⟩, hes⟩ := List.forall_mem_cons.mp hnormal
      simp only [Equation.moreLexemes, List.flatMap_cons, List.length_append, List.length_cons,
        List.cons_append] at hn
      obtain ⟨n, rfl⟩ : ∃ m, n = m + 1 := ⟨n - 1, by omega⟩
      have hmore := ih (n := n) e hes hstops
        (by simp only [Equation.moreLexemes, List.length_append]; omega)
      have he := Equation.take?_eq_some_iff.mpr ⟨rfl, he,
        stops_of_last e es semicolon fun h => (hstops h).1⟩
      obtain ⟨t, us, hus⟩ := e.exists_lexemes_eq_cons
      have hclose : Branches.closes t = false := by
        rw [Branches.closes_head (e := e) (t := t) (by rw [hus]; rfl), hamong]
      simp only [hus, List.cons_append] at he
      simp only [Equation.moreLexemes] at he hmore
      simp [Equation.moreLexemes, hus, takeMore, hclose, he, hmore]

theorem Equations.takeAll_eq_some_iff {es : Equations} :
    takeAll ts = some (es, rest) ↔ ts = es.lexemes ++ rest ∧ es.first.Normal ∧
      (∀ e ∈ es.others, e.Normal ∧ e.target.isAmong [.default, .end_] = false) ∧
      (es.semicolon = true → ∃ t us, rest = t :: us ∧ Branches.closes t = true) ∧
      (es.semicolon = false →
        (Equation.lastOr es.first es.others).value.Stops rest ∧ Ends true rest) := by
  constructor
  · intro h
    simp only [takeAll, Option.bind_eq_bind, Option.bind_eq_some_iff, Prod.exists,
      Equation.take?_eq_some_iff, Option.pure_def, Option.some.injEq, Prod.mk.injEq] at h
    obtain ⟨e, us, ⟨rfl, hnormal, hstops⟩, es, semicolon, us', hmore, rfl, rfl⟩ := h
    obtain ⟨rfl, hfollow⟩ := of_takeMore (Nat.le_refl _) hmore
    refine ⟨by simp [lexemes], hnormal, hfollow.normal, hfollow.closed, fun hsemicolon => ?_⟩
    obtain rfl : semicolon = false := hsemicolon
    exact hfollow.stops e rfl (by simpa [Units.semicolonIf] using hstops)
  · rintro ⟨rfl, hnormal, hothers, hclosed, hstops⟩
    have hfirst := Equation.take?_eq_some_iff.mpr ⟨rfl, hnormal,
      stops_of_last es.first es.others es.semicolon fun h => (hstops h).1⟩
    have hmore := takeMore_lexemes _ hothers hclosed hstops
      (n := (Equation.moreLexemes es.others ++
        ((Units.semicolonIf es.semicolon).flatten ++ rest)).length)
      (by simp only [List.length_append]; omega)
    rw [lexemes, List.append_assoc, List.append_assoc]
    simp only [takeAll, hfirst, hmore, Option.bind_eq_bind, Option.bind_some, Option.pure_def]

/-! ## Signals -/

/-- What comes before a possible equation is the beginning of the expression. -/
theorem Expr.lexemes_of_beforeEquation? {next : Option BinaryOp} {whole e : Expr}
    (h : whole.beforeEquation? next = some e) : ∃ us, whole.lexemes = e.lexemes ++ us := by
  fun_induction beforeEquation? next whole generalizing e with
  | case1 next f args hargs =>
      obtain rfl := by simpa [hargs] using h
      exact ⟨_, rfl⟩
  | case2 => simp at h
  | case3 next op operand ih =>
      obtain ⟨e, he, rfl⟩ := Option.map_eq_some_iff.mp h
      obtain ⟨us, hus⟩ := ih he
      exact ⟨us, by simp [lexemes, hus]⟩
  | case4 next l op r e' hl ih =>
      obtain rfl : e' = e := by simpa using h
      obtain ⟨us, hus⟩ := ih hl
      exact ⟨us ++ op.lexeme :: r.lexemes, by simp [lexemes, hus]⟩
  | case5 next l op r hl _ ih =>
      obtain ⟨e, he, rfl⟩ := Option.map_eq_some_iff.mp h
      obtain ⟨us, hus⟩ := ih he
      exact ⟨us, by simp [lexemes, hus]⟩
  | case6 next c y n ih =>
      obtain ⟨e, he, rfl⟩ := Option.map_eq_some_iff.mp h
      obtain ⟨us, hus⟩ := ih he
      exact ⟨us, by simp [lexemes, hus]⟩
  | case7 => simp at h

/-- What comes before a possible equation is grouped as the reader groups it. -/
theorem Expr.normal_of_beforeEquation? {next : Option BinaryOp} {whole e : Expr}
    (hnormal : whole.Normal) (h : whole.beforeEquation? next = some e) :
    e.Normal ∧ (whole.isBinary = false → e.isBinary = false) := by
  fun_induction beforeEquation? next whole generalizing e with
  | case1 next f args hargs =>
      obtain rfl := by simpa [hargs] using h
      exact ⟨hnormal.1, fun _ => rfl⟩
  | case2 => simp at h
  | case3 next op operand ih =>
      obtain ⟨e, he, rfl⟩ := Option.map_eq_some_iff.mp h
      obtain ⟨hbinary, hoperand⟩ := hnormal
      exact ⟨⟨(ih hoperand he).2 hbinary, (ih hoperand he).1⟩, fun _ => rfl⟩
  | case4 next l op r e' hl ih =>
      obtain rfl : e' = e := by simpa using h
      exact ⟨(ih hnormal.2.2.1 hl).1, by simp [isBinary]⟩
  | case5 next l op r hl _ ih =>
      obtain ⟨e, he, rfl⟩ := Option.map_eq_some_iff.mp h
      obtain ⟨hcond, hbinary, hl, hr⟩ := hnormal
      exact ⟨⟨hcond, (ih hr he).2 hbinary, hl, (ih hr he).1⟩, by simp [isBinary]⟩
  | case6 next c y n ih =>
      obtain ⟨e, he, rfl⟩ := Option.map_eq_some_iff.mp h
      obtain ⟨hc, hy, hn⟩ := hnormal
      exact ⟨⟨hc, hy, (ih hn he).1⟩, fun _ => rfl⟩
  | case7 => simp at h

theorem Expr.Signals.normal {e : Expr} (h : e.Signals ts) : e.Normal := by
  rcases h with ⟨hnormal, -, -⟩ | ⟨whole, us, hnormal, -, -, hbefore⟩
  · exact hnormal
  · exact (normal_of_beforeEquation? hnormal hbefore).1

theorem Expr.takeSignal?_eq_some_iff {e : Expr} :
    takeSignal? ts = some (e, rest) ↔ ts = e.lexemes ++ rest ∧ e.Signals rest := by
  constructor
  · intro h
    simp only [takeSignal?, Option.bind_eq_bind, Option.bind_eq_some_iff, Prod.exists,
      take?_eq_some_iff] at h
    obtain ⟨whole, us, ⟨rfl, hnormal, hstops⟩, h⟩ := h
    split at h
    -- before a semicolon, an equation in what was read ends the signal
    · next vs =>
        simp only [Option.bind_eq_some_iff, Option.pure_def, Option.some.injEq,
          Prod.mk.injEq] at h
        obtain ⟨e, hbefore, rfl, rfl⟩ := h
        obtain ⟨ws, hws⟩ := lexemes_of_beforeEquation? hbefore
        have hsplit : whole.lexemes ++ .symbol .semicolon :: vs =
            e.lexemes ++ (ws ++ .symbol .semicolon :: vs) := by simp [hws]
        have hdrop : (whole.lexemes ++ .symbol .semicolon :: vs).drop e.tree.width =
            ws ++ .symbol .semicolon :: vs := by
          rw [width_tree, hsplit, List.drop_left]
        rw [hdrop]
        exact ⟨hsplit, .inr ⟨whole, vs, hnormal, hstops, hsplit, hbefore⟩⟩
    · next hsemicolon =>
        obtain ⟨rfl, rfl⟩ := by simpa using h
        refine ⟨rfl, .inl ⟨hnormal, hstops, fun hhead => ?_⟩⟩
        obtain ⟨us', rfl⟩ := List.head?_eq_some_iff.mp hhead
        exact hsemicolon _ rfl
  · rintro ⟨rfl, ⟨hnormal, hstops, hhead⟩ | ⟨whole, us, hnormal, hstops, hwhole, hbefore⟩⟩
    · have htake := take?_eq_some_iff.mpr ⟨rfl, hnormal, hstops⟩
      simp only [takeSignal?, htake, Option.bind_eq_bind, Option.bind_some]
      split
      · simp at hhead
      · rfl
    · have htake := take?_eq_some_iff.mpr ⟨rfl, hnormal, hstops⟩
      rw [hwhole] at htake
      simp [takeSignal?, htake, hbefore, width_tree]

/-! ## Transitions -/

theorem Transition.of_takeMore {n : Nat} {trs : List Transition}
    (h : takeMore n ts = some (trs, rest)) :
    ts = (trs.flatMap units).flatten ++ rest ∧ Fit trs rest := by
  induction n generalizing ts trs with
  | zero => simp [takeMore] at h
  | succ n ih =>
      rw [takeMore.eq_def] at h
      split at h
      · simp at *
      · next m us hn =>
          obtain rfl := Nat.succ.inj hn
          simp only [Option.bind_eq_bind, Option.bind_eq_some_iff, Prod.exists, Option.pure_def,
            Option.some.injEq, Prod.mk.injEq, Expr.take?_eq_some_iff, Lexeme.skip_eq_some_iff,
            StateName.take?_eq_some_iff] at h
          obtain ⟨guard, ts₁, ⟨rfl, hguard, -⟩, ts₂, rfl, goal, ts₃, ⟨rfl, hgoal, hstops⟩, others,
            ts₄, hothers, rfl, rfl⟩ := h
          obtain ⟨rfl, hfit⟩ := ih hothers
          exact ⟨by simp [units], hguard, hgoal, hstops, hfit⟩
      · next m us hn =>
          obtain rfl := Nat.succ.inj hn
          simp only [Option.bind_eq_bind, Option.bind_eq_some_iff, Prod.exists, Option.pure_def,
            Option.some.injEq, Prod.mk.injEq, Expr.take?_eq_some_iff, Lexeme.skip_eq_some_iff,
            StateName.take?_eq_some_iff] at h
          obtain ⟨guard, ts₁, ⟨rfl, hguard, -⟩, ts₂, rfl, goal, ts₃, ⟨rfl, hgoal, hstops⟩, others,
            ts₄, hothers, rfl, rfl⟩ := h
          obtain ⟨rfl, hfit⟩ := ih hothers
          exact ⟨by simp [units], hguard, hgoal, hstops, hfit⟩
      · next ts _ _ m hn hunless huntil =>
          obtain ⟨rfl, rfl⟩ : [] = trs ∧ ts = rest := by simpa using h
          refine ⟨rfl, fun hhead => ?_, fun hhead => ?_⟩
          · obtain ⟨us, rfl⟩ := List.head?_eq_some_iff.mp hhead
            exact hunless _ rfl
          · obtain ⟨us, rfl⟩ := List.head?_eq_some_iff.mp hhead
            exact huntil _ rfl

theorem Transition.takeMore_units {n : Nat} {trs : List Transition} (h : Fit trs ts)
    (hn : trs.length < n) : takeMore n ((trs.flatMap units).flatten ++ ts) = some (trs, ts) := by
  induction trs generalizing n with
  | nil =>
      obtain ⟨n, rfl⟩ : ∃ m, n = m + 1 := ⟨n - 1, by omega⟩
      exact takeMore.eq_4 ts n (by rintro us rfl; simp [Fit] at h) (by rintro us rfl; simp [Fit] at h)
  | cons t trs ih =>
      obtain ⟨n, rfl⟩ : ∃ m, n = m + 1 := ⟨n - 1, by omega⟩
      obtain ⟨hguard, hgoal, hstops, hfit⟩ := h
      have hmore := ih hfit (n := n) (by simpa using hn)
      have hguard := Expr.take?_eq_some_iff.mpr ⟨rfl, hguard, (.of_cons rfl (by simp) :
        Expr.Stops _ (.kw .then_ :: (t.goal.lexemes ++ ((trs.flatMap units).flatten ++ ts))))⟩
      have hgoal := StateName.take?_eq_some_iff.mpr ⟨rfl, hgoal, hstops⟩
      obtain ⟨strong, guard, goal⟩ := t
      cases strong <;> simp [units, takeMore, hguard, Lexeme.skip, hgoal, hmore]

theorem Transition.length_le_flatMap_units (trs : List Transition) :
    trs.length ≤ (trs.flatMap units).flatten.length := by
  induction trs with
  | nil => simp
  | cons t trs ih =>
      simp only [List.flatMap_cons, List.flatten_append, List.length_append, List.length_cons]
      have : 1 ≤ (units t).flatten.length := by simp [units]
      omega

/-! ## What is taken as a statement is written and fits -/

/-- The readers of statements take what they are said to take, in a given number of steps. -/
structure Statement.ReadsAt (n : Nat) : Prop where
  statement : ∀ {alone ts s rest}, Statement.takeIn n alone ts = some (s, rest) →
    ts = s.units.flatten ++ rest ∧ s.Fits alone rest
  statements : ∀ {b ts ss rest}, Statements.takeIn n b ts = some (ss, rest) →
    ts = ss.units.flatten ++ rest ∧ ss.Fits b rest
  states : ∀ {ts states rest}, States.takeIn n ts = some (states, rest) →
    ts = states.units.flatten ++ rest ∧ states.Fits rest
  cases : ∀ {ts cs rest}, Cases.takeIn n ts = some (cs, rest) →
    ts = cs.units.flatten ++ rest ∧ cs.Fits rest
  branches : ∀ {ts bs rest}, Branches.takeIn n ts = some (bs, rest) →
    ts = bs.units.flatten ++ rest ∧ bs.Fits rest

/-- The equations of a statement start with a word that starts no other statement. -/
theorem Equations.isAmong_eq_false {es : Equations}
    (h : ∀ k ∈ [.automaton, .switch, .present, .reset], ∀ us, es.lexemes ++ rest ≠ .kw k :: us) :
    es.first.target.isAmong [.automaton, .switch, .present, .reset] = false := by
  obtain ⟨⟨target, value⟩, others, semicolon⟩ := es
  cases target with
  | several o n ns => rfl
  | single n =>
      cases n with
      | plain t => rfl
      | keyword k =>
          rw [← Bool.not_eq_true]
          intro hamong
          exact h k (by simpa [Target.isAmong] using hamong) _ rfl

namespace Statement.ReadsAt

variable {n : Nat}

theorem zero : ReadsAt 0 := by
  constructor <;> intros <;> simp_all [Statement.takeIn, Statements.takeIn, States.takeIn,
    Cases.takeIn, Branches.takeIn]

theorem equations {alone : Bool} {es : Equations}
    (hne : ∀ k ∈ [.automaton, .switch, .present, .reset], ∀ us, ts ≠ .kw k :: us)
    (htake : (if alone then Equations.takeAll ts else Equations.takeOne ts) = some (es, rest)) :
    ts = es.lexemes ++ rest ∧ es.Fits alone rest := by
  cases alone with
  | true =>
      obtain ⟨rfl, hfirst, hothers, hclosed, hstops⟩ := Equations.takeAll_eq_some_iff.mp htake
      exact ⟨rfl, hfirst, hothers, Equations.isAmong_eq_false hne, by simp, fun _ => hclosed,
        hstops⟩
  | false =>
      obtain ⟨rfl, hfirst, hothers, hstops⟩ := Equations.takeOne_eq_some_iff.mp htake
      refine ⟨rfl, hfirst, by simp [hothers], Equations.isAmong_eq_false hne, fun _ => hothers,
        by simp, ?_⟩
      rw [hothers]
      exact hstops

theorem statement_succ (h : ReadsAt n) {alone : Bool} {s : Statement}
    (htake : Statement.takeIn (n + 1) alone ts = some (s, rest)) :
    ts = s.units.flatten ++ rest ∧ s.Fits alone rest := by
  rw [Statement.takeIn.eq_def] at htake
  split at htake
  · simp at *
  · next m _ us hn =>
      obtain rfl := Nat.succ.inj hn
      simp only [Option.bind_eq_bind, Option.bind_eq_some_iff, Prod.exists, Option.pure_def,
        Option.some.injEq, Prod.mk.injEq, Lexeme.skip_eq_some_iff] at htake
      obtain ⟨locals, ts₁, hlocals, states, ts₂, hstates, ts₃, rfl, rfl, rfl⟩ := htake
      obtain ⟨rfl, nlocals⟩ := Locals.of_take? hlocals
      obtain ⟨rfl, fstates⟩ := h.states hstates
      exact ⟨by simp [Statement.units], nlocals, fstates⟩
  · next m _ us hn =>
      obtain rfl := Nat.succ.inj hn
      simp only [Option.bind_eq_bind, Option.bind_eq_some_iff, Prod.exists, Option.pure_def,
        Option.some.injEq, Prod.mk.injEq, Lexeme.skip_eq_some_iff, Name.take?_eq_some_iff] at htake
      obtain ⟨x, ts₁, rfl, cs, ts₂, hcases, ts₃, rfl, rfl, rfl⟩ := htake
      obtain ⟨rfl, fcases⟩ := h.cases hcases
      exact ⟨by simp [Statement.units], fcases⟩
  · next m _ us hn =>
      obtain rfl := Nat.succ.inj hn
      simp only [Option.bind_eq_bind, Option.bind_eq_some_iff, Prod.exists, Option.pure_def,
        Option.some.injEq, Prod.mk.injEq, Lexeme.skip_eq_some_iff] at htake
      obtain ⟨bs, ts₁, hbranches, ts₂, rfl, rfl, rfl⟩ := htake
      obtain ⟨rfl, fbranches⟩ := h.branches hbranches
      exact ⟨by simp [Statement.units], fbranches⟩
  · next m _ us hn =>
      obtain rfl := Nat.succ.inj hn
      simp only [Option.bind_eq_bind, Option.bind_eq_some_iff, Prod.exists, Option.pure_def,
        Option.some.injEq, Prod.mk.injEq, Lexeme.skip_eq_some_iff,
        Expr.takeSignal?_eq_some_iff] at htake
      obtain ⟨body, ts₁, hbody, ts₂, rfl, e, ts₃, ⟨rfl, hsignal⟩, rfl, rfl⟩ := htake
      obtain ⟨rfl, fbody⟩ := h.statements hbody
      exact ⟨by simp [Statement.units], fbody, hsignal⟩
  · next alone ts _ _ _ m hn hautomaton hswitch hpresent hreset =>
      obtain ⟨es, hes, rfl⟩ : ∃ es, (if alone then Equations.takeAll ts else Equations.takeOne ts) =
          some (es, rest) ∧ .equations es = s := by
        cases alone <;>
          simpa [Option.bind_eq_some_iff] using htake
      obtain ⟨rfl, fes⟩ := equations (by
        intro k hk us
        simp only [List.mem_cons, List.not_mem_nil, or_false] at hk
        rcases hk with rfl | rfl | rfl | rfl
        · exact hautomaton us
        · exact hswitch us
        · exact hpresent us
        · exact hreset us) hes
      exact ⟨by simp [Statement.units], fes⟩

theorem statements_succ (h : ReadsAt n) {b : Body} {ss : Statements}
    (htake : Statements.takeIn (n + 1) b ts = some (ss, rest)) :
    ts = ss.units.flatten ++ rest ∧ ss.Fits b rest := by
  cases ts with
  | nil => simp [Statements.takeIn] at htake
  | cons t us =>
      rw [Statements.takeIn] at htake
      split at htake
      · next hclose =>
          obtain ⟨rfl, rfl⟩ : Statements.nil = ss ∧ t :: us = rest := by simpa using htake
          exact ⟨rfl, t, us, rfl, hclose⟩
      · next hclose =>
          simp only [Option.bind_eq_bind, Option.bind_eq_some_iff, Prod.exists, Option.pure_def,
            Option.some.injEq, Prod.mk.injEq] at htake
          obtain ⟨s, ts₁, hs, tail, ts₂, htail, rfl, rfl⟩ := htake
          obtain ⟨heq, fs⟩ := h.statement hs
          obtain ⟨rfl, ftail⟩ := h.statements htail
          refine ⟨by rw [heq]; simp [Statements.units], fun t' ht' => ?_, fs, ftail⟩
          obtain ⟨vs, hvs⟩ := List.head?_eq_some_iff.mp ht'
          obtain rfl : t = t' := by
            rw [hvs] at heq
            exact (List.cons.inj heq).1
          simpa using hclose

theorem states_succ (h : ReadsAt n) {states : States}
    (htake : States.takeIn (n + 1) ts = some (states, rest)) :
    ts = states.units.flatten ++ rest ∧ states.Fits rest := by
  rw [States.takeIn.eq_def] at htake
  split at htake
  · simp at *
  · next m us hn =>
      obtain rfl := Nat.succ.inj hn
      simp only [Option.bind_eq_bind, Option.bind_eq_some_iff, Prod.exists, Option.pure_def,
        Option.some.injEq, Prod.mk.injEq, Lexeme.skip_eq_some_iff,
        StateName.take?_eq_some_iff] at htake
      obtain ⟨name, ts₁, ⟨rfl, hname, -⟩, locals, ts₂, hlocals, ts₃, rfl, body, ts₄, hbody, trs, ts₅,
        htrs, tail, ts₆, htail, rfl, rfl⟩ := htake
      obtain ⟨rfl, nlocals⟩ := Locals.of_take? hlocals
      obtain ⟨rfl, fbody⟩ := h.statements hbody
      obtain ⟨rfl, ftrs⟩ := Transition.of_takeMore htrs
      obtain ⟨rfl, ftail⟩ := h.states htail
      exact ⟨by simp [States.units], hname, nlocals, fbody, ftrs, ftail⟩
  · next ts _ _ _ hn hstate =>
      obtain ⟨rfl, rfl⟩ : States.nil = states ∧ ts = rest := by simpa using htake
      refine ⟨rfl, fun hhead => ?_⟩
      obtain ⟨us, rfl⟩ := List.head?_eq_some_iff.mp hhead
      exact hstate _ rfl

theorem cases_succ (h : ReadsAt n) {cs : Cases}
    (htake : Cases.takeIn (n + 1) ts = some (cs, rest)) :
    ts = cs.units.flatten ++ rest ∧ cs.Fits rest := by
  rw [Cases.takeIn.eq_def] at htake
  split at htake
  · simp at *
  · next m t us hn =>
      obtain rfl := Nat.succ.inj hn
      simp only [Option.bind_eq_bind, Option.bind_eq_some_iff, Prod.exists, Option.pure_def,
        Option.some.injEq, Prod.mk.injEq] at htake
      obtain ⟨first, ts₁, hfirst, others, ts₂, hothers, tail, ts₃, htail, rfl, rfl⟩ := htake
      obtain ⟨rfl, ffirst⟩ := h.statement hfirst
      obtain ⟨rfl, fothers⟩ := h.statements hothers
      obtain ⟨rfl, ftail⟩ := h.cases htail
      exact ⟨by simp [Cases.units], ffirst, fothers, ftail⟩
  · next ts _ _ _ hn hcase =>
      obtain ⟨rfl, rfl⟩ : Cases.nil = cs ∧ ts = rest := by simpa using htake
      exact ⟨rfl, fun t us => hcase t us⟩

theorem branches_succ (h : ReadsAt n) {bs : Branches}
    (htake : Branches.takeIn (n + 1) ts = some (bs, rest)) :
    ts = bs.units.flatten ++ rest ∧ bs.Fits rest := by
  rw [Branches.takeIn.eq_def] at htake
  split at htake
  · simp at *
  · next m us hn =>
      obtain rfl := Nat.succ.inj hn
      simp only [Option.bind_eq_bind, Option.bind_eq_some_iff, Prod.exists, Option.pure_def,
        Option.some.injEq, Prod.mk.injEq, Lexeme.skip_eq_some_iff,
        Expr.take?_eq_some_iff] at htake
      obtain ⟨guard, ts₁, ⟨rfl, hguard, -⟩, ts₂, rfl, s, ts₃, hs, tail, ts₄, htail, rfl, rfl⟩ := htake
      obtain ⟨rfl, fs⟩ := h.statement hs
      obtain ⟨rfl, ftail⟩ := h.branches htail
      exact ⟨by simp [Branches.units], hguard, fs, ftail⟩
  · next m us hn =>
      obtain rfl := Nat.succ.inj hn
      simp only [Option.bind_eq_bind, Option.bind_eq_some_iff, Prod.exists, Option.pure_def,
        Option.some.injEq, Prod.mk.injEq] at htake
      obtain ⟨s, ts₁, hs, rfl, rfl⟩ := htake
      obtain ⟨rfl, fs⟩ := h.statement hs
      exact ⟨by simp [Branches.units], fs⟩
  · next ts _ _ _ hn hbar hdefault =>
      obtain ⟨rfl, rfl⟩ : Branches.nil = bs ∧ ts = rest := by simpa using htake
      refine ⟨rfl, fun hhead => ?_, fun us => hdefault us⟩
      obtain ⟨us, rfl⟩ := List.head?_eq_some_iff.mp hhead
      exact hbar _ rfl

/-- The readers of statements take what they are said to take. -/
theorem all (n : Nat) : ReadsAt n := by
  induction n with
  | zero => exact zero
  | succ n ih =>
      exact ⟨ih.statement_succ, ih.statements_succ, ih.states_succ, ih.cases_succ,
        ih.branches_succ⟩

end Statement.ReadsAt

/-! ## What fits is taken -/

theorem Statement.one_le_length_units (s : Statement) : 1 ≤ s.units.flatten.length := by
  cases s with
  | equations es =>
      obtain ⟨t, us, hus⟩ := es.first.exists_lexemes_eq_cons
      simp only [Statement.units, Units.flatten_ofLexemes, Equations.lexemes, hus,
        List.length_append, List.length_cons]
      omega
  | automaton locals states => simp [Statement.units]
  | switch x cs => simp [Statement.units]
  | present bs => simp [Statement.units]
  | reset body e => simp [Statement.units]

theorem Statement.takeIn_equations {n : Nat} {alone : Bool} {es : Equations}
    (h : es.Fits alone ts) :
    takeIn (n + 1) alone (es.lexemes ++ ts) = some (.equations es, ts) := by
  have hstarts : ∀ k ∈ [.automaton, .switch, .present, .reset], ∀ us,
      es.lexemes ++ ts ≠ .kw k :: us := by
    intro k hk us heq
    have hstart := h.starts
    obtain ⟨⟨target, value⟩, others, semicolon⟩ := es
    cases target with
    | several o n ns =>
        simp only [Equations.lexemes, Equation.lexemes, Target.lexemes, List.cons_append,
          List.cons.injEq] at heq
        cases o <;> simp [Opening.lexeme] at heq
    | single n =>
        simp only [Equations.lexemes, Equation.lexemes, Target.lexemes, List.cons_append,
          List.nil_append, List.cons.injEq, Lexeme.word.injEq] at heq
        obtain ⟨rfl, -⟩ := heq
        simp only [Target.isAmong, List.contains_eq_mem, decide_eq_false_iff_not] at hstart
        exact hstart hk
  rw [takeIn.eq_6 _ _ _ (hstarts _ (by simp)) (hstarts _ (by simp)) (hstarts _ (by simp))
    (hstarts _ (by simp))]
  cases alone with
  | true =>
      have htake := Equations.takeAll_eq_some_iff.mpr
        ⟨rfl, h.first, h.others, h.closed rfl, h.stops⟩
      simp [htake]
  | false =>
      have hothers := h.single rfl
      have htake := Equations.takeOne_eq_some_iff.mpr ⟨rfl, h.first, hothers, fun hsemicolon => by
        simpa [hothers, Equation.lastOr, Equations.Ends] using h.stops hsemicolon⟩
      simp [htake]

/-- The states of an automaton, or the word that ends it, close its local variables. -/
theorem States.exists_closes (states : States) (us : List Lexeme) :
    ∃ t vs, states.units.flatten ++ .kw .end_ :: us = t :: vs ∧ Locals.closes t = true := by
  cases states with
  | nil => exact ⟨_, _, rfl, rfl⟩
  | cons name locals body trs tail => exact ⟨_, _, rfl, rfl⟩

mutual

/-- A statement that fits is taken, in every number of steps that is large enough. -/
theorem Statement.takeIn_units : (s : Statement) → ∀ {n alone ts}, s.Fits alone ts →
    2 * s.units.flatten.length ≤ n →
      Statement.takeIn n alone (s.units.flatten ++ ts) = some (s, ts)
  | .equations es, n, alone, ts, h, hn => by
      have hlength := (Statement.equations es).one_le_length_units
      obtain ⟨n, rfl⟩ : ∃ m, n = m + 1 := ⟨n - 1, by omega⟩
      simpa [Statement.units] using Statement.takeIn_equations (n := n) h
  | .automaton locals states, n, alone, ts, h, hn => by
      obtain ⟨hlocals, hstates⟩ := h
      simp only [Statement.units, List.flatten_cons, List.flatten_append, List.length_append,
        List.length_cons, List.length_nil] at hn
      obtain ⟨n, rfl⟩ : ∃ m, n = m + 1 := ⟨n - 1, by omega⟩
      obtain ⟨t, vs, hvs, ht⟩ := states.exists_closes ts
      have hlocals := Locals.take?_units hlocals ht vs
      have hstates := States.takeIn_units states hstates (n := n) (by omega)
      rw [← hvs] at hlocals
      simp [Statement.units, Statement.takeIn, hlocals, hstates, Lexeme.skip]
  | .switch x cs, n, alone, ts, h, hn => by
      simp only [Statement.units, List.flatten_cons, List.flatten_append, List.length_append,
        List.length_cons, List.length_nil] at hn
      obtain ⟨n, rfl⟩ : ∃ m, n = m + 1 := ⟨n - 1, by omega⟩
      have hcases := Cases.takeIn_units cs h (n := n) (by omega)
      simp [Statement.units, Statement.takeIn, Name.take?, hcases, Lexeme.skip]
  | .present bs, n, alone, ts, h, hn => by
      simp only [Statement.units, List.flatten_cons, List.flatten_append, List.length_append,
        List.length_cons, List.length_nil] at hn
      obtain ⟨n, rfl⟩ : ∃ m, n = m + 1 := ⟨n - 1, by omega⟩
      have hbranches := Branches.takeIn_units bs h (n := n) (by omega)
      simp [Statement.units, Statement.takeIn, hbranches, Lexeme.skip]
  | .reset body e, n, alone, ts, h, hn => by
      obtain ⟨hbody, hsignal⟩ := h
      simp only [Statement.units, List.flatten_cons, List.flatten_append, List.length_append,
        List.length_cons, List.length_nil] at hn
      obtain ⟨n, rfl⟩ : ∃ m, n = m + 1 := ⟨n - 1, by omega⟩
      have hbody := Statements.takeIn_units body hbody (n := n) (by omega)
      have hsignal := Expr.takeSignal?_eq_some_iff.mpr ⟨rfl, hsignal⟩
      simp [Statement.units, Statement.takeIn, hbody, hsignal, Lexeme.skip]

theorem Statements.takeIn_units : (ss : Statements) → ∀ {n b ts}, ss.Fits b ts →
    2 * ss.units.flatten.length + 1 ≤ n →
      Statements.takeIn n b (ss.units.flatten ++ ts) = some (ss, ts)
  | .nil, n, b, ts, h, hn => by
      obtain ⟨t, us, rfl, hclose⟩ := h
      obtain ⟨n, rfl⟩ : ∃ m, n = m + 1 := ⟨n - 1, by omega⟩
      simp [Statements.units, Statements.takeIn, hclose]
  | .cons s ss, n, b, ts, h, hn => by
      obtain ⟨hopen, hs, hss⟩ := h
      simp only [Statements.units, List.flatten_append, List.length_append] at hn
      obtain ⟨n, rfl⟩ : ∃ m, n = m + 1 := ⟨n - 1, by omega⟩
      have hlength := s.one_le_length_units
      have hs := Statement.takeIn_units s hs (n := n) (by omega)
      have hss := Statements.takeIn_units ss hss (n := n) (by omega)
      obtain ⟨t, us, hus⟩ : ∃ t us, s.units.flatten = t :: us := by
        cases hunits : s.units.flatten with
        | nil => simp [hunits] at hlength
        | cons t us => exact ⟨t, us, rfl⟩
      have hclose : b.closes t = false := hopen t (by simp [hus])
      simp only [Statements.units, List.flatten_append, List.append_assoc, hus,
        List.cons_append] at hs ⊢
      simp [Statements.takeIn, hclose, hs, hss]

theorem States.takeIn_units : (states : States) → ∀ {n ts}, states.Fits ts →
    2 * states.units.flatten.length + 1 ≤ n →
      States.takeIn n (states.units.flatten ++ ts) = some (states, ts)
  | .nil, n, ts, h, hn => by
      obtain ⟨n, rfl⟩ : ∃ m, n = m + 1 := ⟨n - 1, by omega⟩
      exact States.takeIn.eq_3 ts n (by rintro us rfl; exact h rfl)
  | .cons name locals body trs tail, n, ts, h, hn => by
      obtain ⟨hname, hlocals, hbody, htrs, htail⟩ := h
      simp only [States.units, List.flatten_cons, List.flatten_append, List.length_append,
        List.length_cons, List.length_nil] at hn
      obtain ⟨n, rfl⟩ : ∃ m, n = m + 1 := ⟨n - 1, by omega⟩
      have htail := States.takeIn_units tail htail (n := n) (by omega)
      have hlength := Transition.length_le_flatMap_units trs
      have htrs := Transition.takeMore_units htrs
        (n := ((trs.flatMap Transition.units).flatten ++ (tail.units.flatten ++ ts)).length + 1)
        (by simp only [List.length_append]; omega)
      have hbody := Statements.takeIn_units body hbody (n := n) (by omega)
      have hlocals := Locals.take?_units hlocals (t := .kw .do_) rfl (body.units.flatten ++
        ((trs.flatMap Transition.units).flatten ++ (tail.units.flatten ++ ts)))
      have hname' : name.Stops ((Locals.unitsOf locals).flatten ++ .kw .do_ ::
          (body.units.flatten ++ ((trs.flatMap Transition.units).flatten ++
            (tail.units.flatten ++ ts)))) := by
        cases locals with
        | none => exact .of_head _ (by simp)
        | some l => exact .of_head (l := .kw .var) _ (by simp)
      have hname := StateName.take?_eq_some_iff.mpr ⟨rfl, hname, hname'⟩
      rw [States.units]
      simp only [List.flatten_cons, List.flatten_append, List.append_assoc, List.cons_append,
        List.nil_append, States.takeIn, hname, hlocals, hbody, htrs, htail, Lexeme.skip, if_true,
        Option.bind_eq_bind, Option.bind_some, Option.pure_def]

theorem Cases.takeIn_units : (cs : Cases) → ∀ {n ts}, cs.Fits ts →
    2 * cs.units.flatten.length + 1 ≤ n →
      Cases.takeIn n (cs.units.flatten ++ ts) = some (cs, ts)
  | .nil, n, ts, h, hn => by
      obtain ⟨n, rfl⟩ : ∃ m, n = m + 1 := ⟨n - 1, by omega⟩
      exact Cases.takeIn.eq_3 ts n (fun t us => h t us)
  | .cons t s ss tail, n, ts, h, hn => by
      obtain ⟨hs, hss, htail⟩ := h
      simp only [Cases.units, List.flatten_cons, List.flatten_append, List.length_append,
        List.length_cons, List.length_nil] at hn
      obtain ⟨n, rfl⟩ : ∃ m, n = m + 1 := ⟨n - 1, by omega⟩
      have hs := Statement.takeIn_units s hs (n := n) (by omega)
      have hss := Statements.takeIn_units ss hss (n := n) (by omega)
      have htail := Cases.takeIn_units tail htail (n := n) (by omega)
      simp [Cases.units, Cases.takeIn, hs, hss, htail]

theorem Branches.takeIn_units : (bs : Branches) → ∀ {n ts}, bs.Fits ts →
    2 * bs.units.flatten.length + 1 ≤ n →
      Branches.takeIn n (bs.units.flatten ++ ts) = some (bs, ts)
  | .nil, n, ts, h, hn => by
      obtain ⟨n, rfl⟩ : ∃ m, n = m + 1 := ⟨n - 1, by omega⟩
      exact Branches.takeIn.eq_4 ts n (by rintro us rfl; exact h.1 rfl) (fun us => h.2 us)
  | .otherwise s, n, ts, h, hn => by
      simp only [Branches.units, List.flatten_cons, List.length_append, List.length_cons,
        List.length_nil] at hn
      obtain ⟨n, rfl⟩ : ∃ m, n = m + 1 := ⟨n - 1, by omega⟩
      have hs := Statement.takeIn_units s h (n := n) (by omega)
      simp [Branches.units, Branches.takeIn, hs]
  | .cons e s tail, n, ts, h, hn => by
      obtain ⟨he, hs, htail⟩ := h
      simp only [Branches.units, List.flatten_cons, List.flatten_append, List.length_append,
        List.length_cons, List.length_nil] at hn
      obtain ⟨n, rfl⟩ : ∃ m, n = m + 1 := ⟨n - 1, by omega⟩
      have hguard := Expr.take?_eq_some_iff.mpr ⟨rfl, he, (.of_cons rfl (by simp) :
        Expr.Stops _ (.kw .do_ :: (s.units.flatten ++ (tail.units.flatten ++ ts))))⟩
      have hs := Statement.takeIn_units s hs (n := n) (by omega)
      have htail := Branches.takeIn_units tail htail (n := n) (by omega)
      simp [Branches.units, Branches.takeIn, hguard, hs, htail, Lexeme.skip]

end

/-- The body of a component is taken exactly if it fits in front of what follows it. -/
theorem Statements.take?_eq_some_iff {ss : Statements} :
    take? ts = some (ss, rest) ↔ ts = ss.units.flatten ++ rest ∧ ss.Fits .block rest := by
  constructor
  · exact (Statement.ReadsAt.all _).statements
  · rintro ⟨rfl, hfits⟩
    refine ss.takeIn_units hfits ?_
    simp only [Statement.steps, List.length_append]
    omega

end Heptagon
