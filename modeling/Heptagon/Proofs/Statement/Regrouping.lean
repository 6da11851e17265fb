import Heptagon.Proofs.Declaration.Regrouping
import Heptagon.Proofs.Statement.Reading

/-!
# Regrouping statements

Every list of plain statements has the text of one that is read
(`Statements.exists_fits`).  It is put together from its end, one statement
before those that are read already:

* a list of equations becomes a statement for each of them;
* an equation or the signal of a `reset` that ends in a name goes on with an
  equation for names in parentheses after it, and becomes one with it;
* if a semicolon follows then, a signal ends where the first possible equation
  starts (`Expr.exists_equation`), which need not be where it ended before.

What comes first in the list is never such a part of something else, so its
targets are plain.
-/

namespace Heptagon

variable {ts us : List Lexeme}

/-! ## Expressions before equations -/

def Exprs.ofNames : List Name → Exprs
  | [] => .nil
  | n :: ns => .cons (.name n) (ofNames ns)

/-- Names as the arguments of a call. -/
def Args.ofNames (n : Name) (ns : List Name) : Args := .group (.name n) (.ofNames ns) .nil

theorem Exprs.moreLexemes_ofNames (ns : List Name) :
    (Exprs.ofNames ns).moreLexemes = (Name.moreUnits ns).flatten := by
  induction ns with
  | nil => rfl
  | cons n ns ih =>
      rw [ofNames, moreLexemes, ih]
      rfl

theorem Exprs.normal_ofNames {ns : List Name} (h : ∀ n ∈ ns, n.isPlain) :
    (Exprs.ofNames ns).Normal := by
  induction ns with
  | nil => trivial
  | cons n ns ih =>
      obtain ⟨hn, hns⟩ := List.forall_mem_cons.mp h
      exact ⟨Word.isOperand_of_isPlain hn, ih hns⟩

theorem Exprs.areTargets_ofNames (ns : List Name) : (Exprs.ofNames ns).areTargets = true := by
  induction ns with
  | nil => rfl
  | cons n ns ih => simpa [ofNames, areTargets, Expr.isTarget] using ih

/-- What could be a target is written like a name. -/
theorem Expr.exists_name : (e : Expr) → e.isTarget = true → ∃ n : Name, e.lexemes = [.word n]
  | .name n, _ => ⟨n, rfl⟩
  | .literal (.bool true), _ => ⟨.keyword .true_, rfl⟩
  | .literal (.bool false), _ => ⟨.keyword .false_, rfl⟩

theorem Exprs.exists_names : (es : Exprs) → es.areTargets = true →
    ∃ ns : List Name, es.moreLexemes = (Name.moreUnits ns).flatten
  | .nil, _ => ⟨[], rfl⟩
  | .cons e es, h => by
      obtain ⟨he, hes⟩ := Bool.and_eq_true_iff.mp h
      obtain ⟨n, hn⟩ := e.exists_name he
      obtain ⟨ns, hns⟩ := exists_names es hes
      exact ⟨n :: ns, by simp [moreLexemes, hn, hns, Name.moreUnits]⟩

/-- Arguments that could be targets are written like them. -/
theorem Args.exists_names : (args : Args) → args.areTargets = true →
    ∃ (n : Name) (ns : List Name), args.lexemes = .word n :: (Name.moreUnits ns).flatten
  | .group e es .nil, h => by
      obtain ⟨he, hes⟩ := Bool.and_eq_true_iff.mp h
      obtain ⟨n, hn⟩ := e.exists_name he
      obtain ⟨ns, hns⟩ := es.exists_names hes
      exact ⟨n, ns, by simp [lexemes, hn, hns]⟩

namespace Expr

/-- What comes before a possible equation ends in a name and could not end earlier.  It goes on with
arguments for this name, and with an equality sign that is its own or follows it. -/
theorem exists_call {next : Option BinaryOp} {whole e : Expr} (hnormal : whole.Normal)
    (h : whole.beforeEquation? next = some e) :
    e.endsInName = true ∧ e.beforeEquation? none = none ∧
      ∃ (args : Args) (tail : List Lexeme), args.Normal ∧ args.areTargets = true ∧
        whole.lexemes =
          e.lexemes ++ .symbol .parenOpen :: (args.lexemes ++ .symbol .parenClose :: tail) ∧
        ((tail = [] ∧ next = some .equal) ∨
          ∃ v : Expr, v.Normal ∧ tail = .symbol .equal :: v.lexemes) := by
  fun_induction beforeEquation? next whole generalizing e with
  | case1 next f args hargs =>
      obtain rfl := by simpa [hargs] using h
      obtain ⟨htargets, hnext⟩ := by simpa using hargs
      exact ⟨rfl, rfl, args, [], hnormal.2, htargets, by simp [lexemes], .inl ⟨rfl, hnext⟩⟩
  | case2 => simp at h
  | case3 next op operand ih =>
      obtain ⟨e, he, rfl⟩ := Option.map_eq_some_iff.mp h
      obtain ⟨hname, hnone, args, tail, hargs, htargets, htail, hnext⟩ := ih hnormal.2 he
      exact ⟨hname, by simp [beforeEquation?, hnone], args, tail, hargs, htargets,
        by simp [lexemes, htail], hnext⟩
  | case4 next l op r e' hl ih =>
      obtain rfl : e' = e := by simpa using h
      obtain ⟨-, -, hnl, hnr⟩ := hnormal
      obtain ⟨hname, hnone, args, tail, hargs, htargets, htail, hnext⟩ := ih hnl hl
      refine ⟨hname, hnone, args, tail ++ op.lexeme :: r.lexemes, hargs, htargets,
        by simp [lexemes, htail], .inr ?_⟩
      -- the equality sign is the operator, or the left operand has one behind the call
      rcases hnext with ⟨rfl, hop⟩ | ⟨v, hv, rfl⟩
      · obtain rfl := Option.some.inj hop
        exact ⟨r, hnr, rfl⟩
      · exact ⟨join op r v, normal_join hnr v hv, by simp⟩
  | case5 next l op r hl _ ih =>
      obtain ⟨e, he, rfl⟩ := Option.map_eq_some_iff.mp h
      obtain ⟨hname, hnone, args, tail, hargs, htargets, htail, hnext⟩ := ih hnormal.2.2.2 he
      exact ⟨hname, by simp [beforeEquation?, hl, hnone], args, tail, hargs, htargets,
        by simp [lexemes, htail], hnext⟩
  | case6 next c y no ih =>
      obtain ⟨e, he, rfl⟩ := Option.map_eq_some_iff.mp h
      obtain ⟨hname, hnone, args, tail, hargs, htargets, htail, hnext⟩ := ih hnormal.2.2 he
      exact ⟨hname, by simp [beforeEquation?, hnone], args, tail, hargs, htargets,
        by simp [lexemes, htail], hnext⟩
  | case7 => simp at h

/-- An expression that could end earlier goes on with targets, and with an equality sign that is
its own or follows it. -/
theorem exists_equation {next : Option BinaryOp} {whole e : Expr} (hnormal : whole.Normal)
    (h : whole.beforeEquation? next = some e) :
    ∃ (n : Name) (ns : List Name) (tail : List Lexeme),
      whole.lexemes = e.lexemes ++ ((Target.several .plain n ns).lexemes ++ tail) ∧
        ((tail = [] ∧ next = some .equal) ∨
          ∃ v : Expr, v.Normal ∧ tail = .symbol .equal :: v.lexemes) := by
  obtain ⟨-, -, args, tail, -, htargets, htail, hnext⟩ := exists_call hnormal h
  obtain ⟨n, ns, hnames⟩ := args.exists_names htargets
  exact ⟨n, ns, tail, by simp [htail, hnames, Target.lexemes, Opening.lexeme], hnext⟩

/-- Where an expression could end earlier, so can a chain that it starts. -/
theorem beforeEquation?_extend {l e : Expr} {op : BinaryOp}
    (h : l.beforeEquation? (some op) = some e) :
    (r : Expr) → ∀ next, (l.extend op r).beforeEquation? next = some e
  | .binary rl rop rr, next => by
      simp [extend, beforeEquation?, beforeEquation?_extend h rl (some rop)]
  | .literal _, _ | .name _, _ | .paren _ _, _ | .tuple _ _ _ _, _ | .record _ _ _, _ | .call _ _, _
  | .unary _ _, _ | .cond _ _ _, _ => by
      simp [extend, beforeEquation?, h]

/-- Where an expression could end earlier, so can whatever goes on with it. -/
theorem beforeEquation?_join {op : BinaryOp} (r : Expr) :
    (l : Expr) → ∀ {e : Expr}, l.beforeEquation? (some op) = some e →
      ∀ next, (join op r l).beforeEquation? next = some e
  | .cond c y n, e, h, next => by
      obtain ⟨f, hf, rfl⟩ := Option.map_eq_some_iff.mp h
      simp [join, beforeEquation?, beforeEquation?_join r n hf next]
  | .unary s a, e, h, next => by
      rw [join]
      split
      · obtain ⟨f, hf, rfl⟩ := Option.map_eq_some_iff.mp h
        simp [beforeEquation?, beforeEquation?_join r a hf next]
      · exact beforeEquation?_extend h r next
  | .binary a o b, e, h, next => by
      rw [join]
      split
      · cases ha : a.beforeEquation? (some o) with
        | some f => simpa [beforeEquation?, ha] using h
        | none =>
            obtain ⟨f, hf, rfl⟩ := Option.map_eq_some_iff.mp
              (show (b.beforeEquation? (some op)).map _ = some e by simpa [beforeEquation?, ha] using h)
            simp [beforeEquation?, ha, beforeEquation?_join r b hf next]
      · exact beforeEquation?_extend h r next
  | .literal _, _, h, next | .name _, _, h, next | .paren _ _, _, h, next
  | .tuple _ _ _ _, _, h, next | .record _ _ _, _, h, next | .call _ _, _, h, next =>
      beforeEquation?_extend h r next

/-- Names that become arguments could be the targets of an equation. -/
theorem isSome_beforeEquation?_callLast (n : Name) (ns : List Name) :
    (e : Expr) → e.endsInName = true →
      ((callLast (.ofNames n ns) e).beforeEquation? (some .equal)).isSome
  | .name f, _ => by
      have := Exprs.areTargets_ofNames ns
      simp [callLast, beforeEquation?, Args.ofNames, Args.areTargets, isTarget, this]
  | .unary s e, h => by
      have := isSome_beforeEquation?_callLast n ns e h
      simpa [callLast, beforeEquation?] using this
  | .binary l op r, h => by
      have := isSome_beforeEquation?_callLast n ns r h
      cases hl : l.beforeEquation? (some op) with
      | some e => simp [callLast, beforeEquation?, hl]
      | none => simpa [callLast, beforeEquation?, hl] using this
  | .cond c y no, h => by
      have := isSome_beforeEquation?_callLast n ns no h
      simpa [callLast, beforeEquation?] using this

/-- The expression that ends in a name and an equation for several names as one. -/
def absorb (e : Expr) (n : Name) (ns : List Name) (value : Expr) : Expr :=
  join .equal value (e.callLast (.ofNames n ns))

variable {e v : Expr} {n : Name} {ns : List Name}

theorem lexemes_absorb (n : Name) (ns : List Name) (v : Expr) (hname : e.endsInName = true) :
    (e.absorb n ns v).lexemes =
      e.lexemes ++ Equation.lexemes ⟨.several .plain n ns, v⟩ := by
  simp [absorb, lexemes_callLast _ e hname, Args.ofNames, Args.lexemes, lexemes,
    Exprs.moreLexemes_ofNames, Equation.lexemes, Target.lexemes, Opening.lexeme, BinaryOp.lexeme]

theorem normal_absorb (he : e.Normal) (hv : v.Normal) (hnames : ∀ m ∈ n :: ns, m.isPlain) :
    (e.absorb n ns v).Normal := by
  obtain ⟨hn, hns⟩ := List.forall_mem_cons.mp hnames
  refine normal_join hv _ (normal_callLast (normal_group _ ?_ (Exprs.normal_ofNames hns)) e he)
  exact Word.isOperand_of_isPlain hn

/-- What is absorbed decides where the expression stops. -/
theorem Stops.absorb (h : v.Stops ts) : (e.absorb n ns v).Stops ts :=
  ⟨h.operator, fun hname => h.paren ((endsInName_join _ _ _).symm.trans hname)⟩

theorem isSome_beforeEquation?_absorb (n : Name) (ns : List Name) (v : Expr)
    (hname : e.endsInName = true) :
    ((e.absorb n ns v).beforeEquation? none).isSome := by
  obtain ⟨f, hf⟩ := Option.isSome_iff_exists.mp (isSome_beforeEquation?_callLast n ns e hname)
  exact Option.isSome_iff_exists.mpr ⟨f, beforeEquation?_join v _ hf none⟩

/-- If a semicolon follows what a signal takes in, the signal ends before an equation in it. -/
theorem exists_signal (he : e.Normal) (hv : v.Normal) (hnames : ∀ m ∈ n :: ns, m.isPlain)
    (hname : e.endsInName = true) :
    ∃ (e' : Expr) (m : Name) (ms : List Name) (v' : Expr), v'.Normal ∧
      e'.lexemes ++ Equation.lexemes ⟨.several .plain m ms, v'⟩ =
        e.lexemes ++ Equation.lexemes ⟨.several .plain n ns, v⟩ ∧
      ∀ us, e'.Signals
        (Equation.lexemes ⟨.several .plain m ms, v'⟩ ++ .symbol .semicolon :: us) := by
  have hwhole : (e.absorb n ns v).Normal := normal_absorb he hv hnames
  have hlexemes := lexemes_absorb n ns v hname
  obtain ⟨e', hbefore⟩ := Option.isSome_iff_exists.mp
    (isSome_beforeEquation?_absorb n ns v hname)
  obtain ⟨m, ms, tail, hsplit, hnext⟩ := exists_equation hwhole hbefore
  rcases hnext with ⟨-, hnext⟩ | ⟨v', hv', htail⟩
  · simp at hnext
  · subst htail
    have hequation : e'.lexemes ++ Equation.lexemes ⟨.several .plain m ms, v'⟩ =
        e.lexemes ++ Equation.lexemes ⟨.several .plain n ns, v⟩ := hsplit.symm.trans hlexemes
    refine ⟨e', m, ms, v', hv', hequation, fun us => .inr ?_⟩
    refine ⟨e.absorb n ns v, us, hwhole, .of_cons rfl (by simp), ?_, hbefore⟩
    rw [hlexemes, ← hequation, List.append_assoc]

end Expr

/-! ## One statement before others -/

/-- The target is no single word spelled like a keyword. -/
def Target.Leads (t : Target) : Prop := ∀ k, t ≠ .single (.keyword k)

theorem Target.Plain.leads {t : Target} (h : t.Plain) : t.Leads := by
  rintro k rfl
  simp [Target.Plain, Word.isPlain] at h

theorem Target.leads_several (o : Opening) (n : Name) (ns : List Name) : (several o n ns).Leads := by
  intro k h
  cases h

theorem Target.Leads.isAmong {t : Target} (h : t.Leads) (ks : List Keyword) :
    t.isAmong ks = false := by
  cases t with
  | several o n ns => rfl
  | single n =>
      cases n with
      | plain t => rfl
      | keyword k => exact absurd rfl (h k)

/-- What closes a list of statements is no operator and no parenthesis. -/
theorem Body.not_continues {b : Body} {t : Lexeme} (h : b.closes t = true) :
    BinaryOp.ofLexeme? t = none ∧ t ≠ .symbol .parenOpen ∧ t ≠ .symbol .semicolon := by
  unfold Body.closes at h
  split at h <;> simp [BinaryOp.ofLexeme?] at h ⊢

/-- A statement that starts with an opening parenthesis or a name closes no list. -/
theorem Target.Leads.closes_head {t : Target} (h : t.Leads) (b : Body) :
    ∀ l ∈ (t.lexemes ++ ts).head?, b.closes l = false := by
  intro l hl
  cases t with
  | several o n ns =>
      obtain rfl : o.lexeme = l := by simpa [lexemes] using hl
      cases b <;> cases o <;> rfl
  | single n =>
      obtain rfl : .word n = l := by simpa [lexemes] using hl
      cases n with
      | plain t => cases b <;> rfl
      | keyword k => exact absurd rfl (h k)

/-- A single equation in a list of statements. -/
theorem Equations.fits_one {e : Equation} {semicolon : Bool} (htarget : e.target.Leads)
    (hvalue : e.value.Normal)
    (hstops : semicolon = false → e.value.Stops ts ∧ ts.head? ≠ some (.symbol .semicolon)) :
    Equations.Fits false ⟨e, [], semicolon⟩ ts where
  first := hvalue
  others := by simp
  starts := htarget.isAmong _
  single := fun _ => rfl
  closed := by simp
  stops := fun h => ⟨(hstops h).1, by simpa [Ends] using (hstops h).2⟩

namespace Statements

/-- The targets of an equation in front are plain. -/
def HeadPlain : Statements → Prop
  | .cons (.equations es) _ => es.first.target.Plain
  | _ => True

/-- How statements in front of some lexemes start: with what goes on with nothing before it, or
with an equation for names in parentheses. -/
inductive Front (ts : List Lexeme) (ss : Statements) : Prop
  | closed {l : Lexeme} {us : List Lexeme} (hus : ss.units.flatten ++ ts = l :: us)
      (hop : BinaryOp.ofLexeme? l = none) (hparen : l ≠ .symbol .parenOpen)
      (hsemicolon : l ≠ .symbol .semicolon) : Front ts ss
  | several {n : Name} {ns : List Name} {v : Expr} {semicolon : Bool} {tail : Statements}
      (hnames : ∀ m ∈ n :: ns, m.isPlain)
      (hss : ss = .cons (.equations ⟨⟨.several .plain n ns, v⟩, [], semicolon⟩) tail) : Front ts ss

variable {b : Body} {ss : Statements} {t : Lexeme}

theorem Fits.front (h : ss.Fits b ts) (hplain : ss.HeadPlain) : ss.Front ts := by
  cases ss with
  | nil =>
      obtain ⟨t, us, rfl, hclose⟩ := h
      obtain ⟨hop, hparen, hsemicolon⟩ := Body.not_continues hclose
      exact .closed rfl hop hparen hsemicolon
  | cons s tail =>
      cases s with
      | equations es =>
          obtain ⟨-, hes, -⟩ := h
          obtain ⟨⟨target, v⟩, others, semicolon⟩ := es
          obtain rfl : others = [] := hes.single rfl
          cases target with
          | single n =>
              cases n with
              | keyword k => simp [HeadPlain, Target.Plain, Word.isPlain] at hplain
              | plain t => exact .closed rfl rfl (by simp) (by simp)
          | several o n ns =>
              obtain ⟨rfl, hnames⟩ := hplain
              exact .several hnames rfl
      | automaton | switch | present | reset => exact .closed rfl rfl (by simp) (by simp)

/-- No list of statements goes on with an expression that does not end in a name. -/
theorem Front.stops (h : ss.Front ts) {e : Expr} (hname : e.endsInName = false) :
    e.Stops (ss.units.flatten ++ ts) ∧
      (ss.units.flatten ++ ts).head? ≠ some (.symbol .semicolon) := by
  cases h with
  | closed hus hop hparen hsemicolon =>
      rw [hus]
      exact ⟨.of_cons hop hparen, by simpa using hsemicolon⟩
  | several hnames hss =>
      rw [hss]
      exact ⟨⟨rfl, fun h => by simp [hname] at h⟩, by
        simp [units, Statement.units, Equations.lexemes, Equation.lexemes, Target.lexemes,
          Opening.lexeme]⟩

theorem fits_cons_equations {es : Equations} (hleads : es.first.target.Leads)
    (hes : es.Fits false (ss.units.flatten ++ ts)) (h : ss.Fits b ts) :
    (cons (.equations es) ss).Fits b ts := by
  refine ⟨fun l hl => ?_, hes, h⟩
  have hunits : (Statement.equations es).units.flatten = es.first.target.lexemes ++
      (.symbol .equal :: (es.first.value.lexemes ++ (Equation.moreLexemes es.others ++
        (Units.semicolonIf es.semicolon).flatten))) := by
    simp [Statement.units, Equations.lexemes, Equation.lexemes]
  rw [hunits] at hl
  exact hleads.closes_head b l hl

/-- An equation before other statements is one more of them, or takes in the first of them. -/
theorem exists_cons_equation {e : Equation} (semicolon : Bool) (htarget : e.target.Plain)
    (hvalue : e.value.Normal) (h : ss.Fits b ts) (hplain : ss.HeadPlain) :
    ∃ s' ss', (cons s' ss').units =
        Units.ofLexemes (Equations.lexemes ⟨e, [], semicolon⟩) ++ ss.units ∧
      (cons s' ss').Fits b ts ∧ (cons s' ss').HeadPlain := by
  have hone : (semicolon = false → e.value.Stops (ss.units.flatten ++ ts) ∧
      (ss.units.flatten ++ ts).head? ≠ some (.symbol .semicolon)) →
        (cons (.equations ⟨e, [], semicolon⟩) ss).Fits b ts := fun hstops =>
    fits_cons_equations htarget.leads (Equations.fits_one htarget.leads hvalue hstops) h
  cases semicolon with
  | true => exact ⟨_, ss, rfl, hone (by simp), htarget⟩
  | false =>
      have hfront := h.front hplain
      cases hname : e.value.endsInName with
      | false => exact ⟨_, ss, rfl, hone fun _ => hfront.stops hname, htarget⟩
      | true =>
          cases hfront with
          | closed hus hop hparen hsemicolon =>
              refine ⟨_, ss, rfl, hone fun _ => ?_, htarget⟩
              rw [hus]
              exact ⟨.of_cons hop hparen, by simpa using hsemicolon⟩
          -- its value is called with the names and compared with what they are equated to
          | @several n ns v semicolon tail hnames hss =>
              subst hss
              obtain ⟨-, hfirst, htail⟩ := h
              refine ⟨.equations ⟨⟨e.target, e.value.absorb n ns v⟩, [], semicolon⟩, tail, ?_,
                fits_cons_equations htarget.leads ?_ htail, htarget⟩
              · simp [units, Statement.units, Equations.lexemes, Equation.lexemes,
                  Expr.lexemes_absorb n ns v hname, Equation.moreLexemes, Units.semicolonIf]
              · refine Equations.fits_one htarget.leads
                  (Expr.normal_absorb hvalue hfirst.first hnames) fun hsemicolon => ?_
                obtain ⟨hstops, hends⟩ := hfirst.stops hsemicolon
                exact ⟨hstops.absorb, by simpa [Equations.Ends] using hends⟩

theorem units_cons_one (e : Equation) (semicolon : Bool) (tail : Statements) :
    (cons (.equations ⟨e, [], semicolon⟩) tail).units =
      Units.ofLexemes e.lexemes ++ (Units.semicolonIf semicolon ++ tail.units) := by
  cases semicolon <;>
    simp [units, Statement.units, Equations.lexemes, Equation.moreLexemes, Units.semicolonIf]

theorem fits_cons_reset {body : Statements} {e : Expr}
    (hbody : body.Fits .reset (.kw .every :: (e.lexemes ++ (ss.units.flatten ++ ts))))
    (hsignals : e.Signals (ss.units.flatten ++ ts)) (h : ss.Fits b ts) :
    (cons (.reset body e) ss).Fits b ts := by
  refine ⟨fun t ht => ?_, ⟨hbody, hsignals⟩, h⟩
  obtain rfl : .kw .reset = t := by simpa [Statement.units] using ht
  cases b <;> rfl

/-- A `reset` whose signal ends in a name, before an equation for names in parentheses: the signal
takes in the equation, and if a semicolon follows then, an equation in what it takes in becomes a
statement. -/
theorem exists_cons_reset_several {body tail : Statements} {e v : Expr} {n : Name} {ns : List Name}
    {semicolon : Bool} (he : e.Normal) (hname : e.endsInName = true)
    (hnames : ∀ m ∈ n :: ns, m.isPlain)
    (hss : ss = .cons (.equations ⟨⟨.several .plain n ns, v⟩, [], semicolon⟩) tail)
    (hbody : body.Fits .reset (.kw .every :: (e.lexemes ++ (ss.units.flatten ++ ts))))
    (h : ss.Fits b ts) :
    ∃ s' ss', (cons s' ss').units = (Statement.reset body e).units ++ ss.units ∧
      (cons s' ss').Fits b ts ∧ (cons s' ss').HeadPlain := by
  subst hss
  obtain ⟨-, hfirst, htail⟩ := h
  rw [units_cons_one] at hbody ⊢
  cases semicolon with
  | false =>
      have hwhole := Expr.normal_absorb he hfirst.first hnames
      have hlexemes := Expr.lexemes_absorb n ns v hname
      obtain ⟨hstops, hends⟩ := hfirst.stops rfl
      have hsemicolon : (tail.units.flatten ++ ts).head? ≠ some (.symbol .semicolon) := by
        simpa [Equations.Ends] using hends
      refine ⟨.reset body (e.absorb n ns v), tail, ?_, fits_cons_reset ?_
        (.inl ⟨hwhole, hstops.absorb, hsemicolon⟩) htail, trivial⟩
      · simp [units, Statement.units, hlexemes, Units.semicolonIf]
      · simpa [hlexemes, Units.semicolonIf] using hbody
  | true =>
      obtain ⟨e', m, ms, v', hv', hequation, hsignals⟩ :=
        Expr.exists_signal he hfirst.first hnames hname
      have hleads := Target.leads_several .plain m ms
      have hunits := congrArg Units.ofLexemes hequation
      simp only [Units.ofLexemes_append] at hunits
      refine ⟨.reset body e', .cons (.equations ⟨⟨.several .plain m ms, v'⟩, [], true⟩) tail, ?_,
        fits_cons_reset ?_ ?_ (fits_cons_equations hleads
          (Equations.fits_one hleads hv' (by simp)) htail), trivial⟩
      · rw [units, units_cons_one]
        simp only [Statement.units, List.cons_append, List.append_assoc]
        rw [← List.append_assoc (Units.ofLexemes e'.lexemes), hunits, List.append_assoc]
      · rw [units_cons_one]
        have hsplit := congrArg (· ++ (.symbol .semicolon :: (tail.units.flatten ++ ts))) hequation
        simp only [List.append_assoc] at hsplit
        simpa [Units.semicolonIf, hsplit] using hbody
      · rw [units_cons_one]
        simpa [Units.semicolonIf] using hsignals (tail.units.flatten ++ ts)

/-- A `reset` before other statements is one more of them, or its signal takes in the first of
them. -/
theorem exists_cons_reset {body : Statements} {e : Expr} (he : e.Normal)
    (hbody : body.Fits .reset (.kw .every :: (e.lexemes ++ (ss.units.flatten ++ ts))))
    (h : ss.Fits b ts) (hplain : ss.HeadPlain) :
    ∃ s' ss', (cons s' ss').units = (Statement.reset body e).units ++ ss.units ∧
      (cons s' ss').Fits b ts ∧ (cons s' ss').HeadPlain := by
  have hone : e.Stops (ss.units.flatten ++ ts) ∧
      (ss.units.flatten ++ ts).head? ≠ some (.symbol .semicolon) →
        (cons (.reset body e) ss).Fits b ts := fun hstops =>
    fits_cons_reset hbody (.inl ⟨he, hstops⟩) h
  have hfront := h.front hplain
  cases hname : e.endsInName with
  | false => exact ⟨_, ss, rfl, hone (hfront.stops hname), trivial⟩
  | true =>
      cases hfront with
      | closed hus hop hparen hsemicolon =>
          refine ⟨_, ss, rfl, hone ?_, trivial⟩
          rw [hus]
          exact ⟨.of_cons hop hparen, by simpa using hsemicolon⟩
      | several hnames hss => exact exists_cons_reset_several he hname hnames hss hbody h

end Statements

/-! ## Equations -/

theorem Equation.exists_normal {e : Equation} (h : e.Plain) :
    ∃ e' : Equation, e'.target = e.target ∧ e'.Normal ∧ e'.lexemes = e.lexemes := by
  obtain ⟨v, hv, hlexemes⟩ := e.value.exists_normal h.value
  exact ⟨⟨e.target, v⟩, rfl, hv, by simp [lexemes, hlexemes]⟩

theorem Equation.exists_normal_more {es : List Equation} (h : ∀ e ∈ es, e.Plain) (ks : List Keyword) :
    ∃ es' : List Equation, (∀ e ∈ es', e.Normal ∧ e.target.isAmong ks = false) ∧
      moreLexemes es' = moreLexemes es := by
  induction es with
  | nil => exact ⟨[], by simp, rfl⟩
  | cons e es ih =>
      obtain ⟨he, hes⟩ := List.forall_mem_cons.mp h
      obtain ⟨e', htarget, he', hlexemes⟩ := exists_normal he
      obtain ⟨es', hes', hmore⟩ := ih hes
      have hamong : e'.target.isAmong ks = false := htarget ▸ he.target.leads.isAmong ks
      refine ⟨e' :: es', List.forall_mem_cons.mpr ⟨⟨he', hamong⟩, hes'⟩, ?_⟩
      rw [moreLexemes, moreLexemes, List.flatMap_cons, List.flatMap_cons, hlexemes]
      rw [moreLexemes, moreLexemes] at hmore
      rw [hmore]

/-- What closes a branch is no operator and no parenthesis. -/
theorem Branches.not_continues {t : Lexeme} (h : closes t = true) :
    BinaryOp.ofLexeme? t = none ∧ t ≠ .symbol .parenOpen ∧ t ≠ .symbol .semicolon := by
  unfold closes at h
  split at h <;> simp [BinaryOp.ofLexeme?] at h ⊢

/-- Plain equations fill a branch. -/
theorem Equations.exists_fits_alone {es : Equations} (h : es.Plain) {t : Lexeme}
    (hclose : Branches.closes t = true) :
    ∃ es' : Equations, es'.lexemes = es.lexemes ∧ es'.Fits true (t :: us) := by
  obtain ⟨hfirst, hothers⟩ := List.forall_mem_cons.mp h
  obtain ⟨e, htarget, he, hlexemes⟩ := Equation.exists_normal hfirst
  obtain ⟨others, hothers', hmore⟩ := Equation.exists_normal_more hothers [.default, .end_]
  obtain ⟨hop, hparen, hsemicolon⟩ := Branches.not_continues hclose
  refine ⟨⟨e, others, es.semicolon⟩, by simp [lexemes, hlexemes, hmore], ?_⟩
  exact
    { first := he
      others := hothers'
      starts := htarget ▸ hfirst.target.leads.isAmong _
      single := by simp
      closed := fun _ _ => ⟨t, us, rfl, hclose⟩
      stops := fun _ => ⟨.of_cons hop hparen, fun _ _ heq => hsemicolon (List.cons.inj heq).1⟩ }

namespace Statements

variable {b : Body} {ss : Statements}

/-- Each of some equations before other statements becomes a statement, or goes on with the first
of the others. -/
theorem exists_cons_equations {es : Equations} (hes : es.Plain) (h : ss.Fits b ts)
    (hplain : ss.HeadPlain) :
    ∃ s' ss', (cons s' ss').units = Units.ofLexemes es.lexemes ++ ss.units ∧
      (cons s' ss').Fits b ts ∧ (cons s' ss').HeadPlain := by
  obtain ⟨first, others, semicolon⟩ := es
  induction others generalizing first with
  | nil =>
      obtain ⟨e, htarget, he, hlexemes⟩ := Equation.exists_normal (hes first (by simp))
      have htarget : e.target.Plain := htarget ▸ (hes first (by simp)).target
      have := exists_cons_equation semicolon htarget he h hplain
      simpa [Equations.lexemes, hlexemes] using this
  | cons f fs ih =>
      obtain ⟨hfirst, hothers⟩ := List.forall_mem_cons.mp hes
      obtain ⟨e, htarget, he, hlexemes⟩ := Equation.exists_normal hfirst
      have htarget : e.target.Plain := htarget ▸ hfirst.target
      obtain ⟨s', ss', hunits, hfits, hhead⟩ := ih f hothers
      have := exists_cons_equation true htarget he hfits hhead
      simpa [hunits, Equations.lexemes, hlexemes, Equation.moreLexemes, Units.semicolonIf] using this

end Statements

/-! ## Statements -/

/-- Whether the statement has a word of its own that closes it. -/
def Statement.isControl : Statement → Bool
  | .automaton _ _ | .switch _ _ | .present _ => true
  | _ => false

/-- What is inside a statement can be read in front of some lexemes. -/
inductive Statement.Readable (ts : List Lexeme) : Statement → Prop
  | equations (es : Equations) : Readable ts (.equations es)
  | control {s : Statement} (s' : Statement) (hunits : s'.units = s.units)
      (hcontrol : s'.isControl = true) (hfits : ∀ alone, s'.Fits alone ts) : Readable ts s
  | reset {body : Statements} {e : Expr} (body' : Statements) (hunits : body'.units = body.units)
      (hfits : body'.Fits .reset (.kw .every :: (e.lexemes ++ ts))) : Readable ts (.reset body e)

namespace Statement.Readable

variable {s : Statement} {ss : Statements} {b : Body}

theorem exists_cons (h : s.Readable (ss.units.flatten ++ ts)) (hs : s.Plain) (hss : ss.Fits b ts)
    (hplain : ss.HeadPlain) :
    ∃ s' ss', (Statements.cons s' ss').units = s.units ++ ss.units ∧
      (Statements.cons s' ss').Fits b ts ∧ (Statements.cons s' ss').HeadPlain := by
  cases h with
  | equations es => exact Statements.exists_cons_equations hs hss hplain
  | control s' hunits hcontrol hfits =>
      refine ⟨s', ss, by rw [Statements.units, hunits], ⟨?_, hfits false, hss⟩, ?_⟩
      · intro t ht
        cases s' with
        | equations | reset => simp [isControl] at hcontrol
        | automaton | switch | present =>
            obtain rfl := Option.mem_some_iff.mp ht
            cases b <;> rfl
      · cases s' with
        | equations => simp [isControl] at hcontrol
        | _ => trivial
  | @reset body e body' hunits hfits =>
      obtain ⟨e', he, hlexemes⟩ := e.exists_normal hs.2
      rw [← hlexemes] at hfits
      have := Statements.exists_cons_reset he hfits hss hplain
      simpa [Statement.units, hunits, hlexemes] using this

theorem exists_alone {t : Lexeme} (h : s.Readable (t :: us)) (hs : s.Plain)
    (hclose : Branches.closes t = true) :
    ∃ s' : Statement, s'.units = s.units ∧ s'.Fits true (t :: us) := by
  cases h with
  | equations es =>
      obtain ⟨es', hlexemes, hfits⟩ := Equations.exists_fits_alone hs hclose
      exact ⟨.equations es', by rw [units, units, hlexemes], hfits⟩
  | control s' hunits hcontrol hfits => exact ⟨s', hunits, hfits true⟩
  | @reset body e body' hunits hfits =>
      obtain ⟨e', he, hlexemes⟩ := e.exists_normal hs.2
      obtain ⟨hop, hparen, hsemicolon⟩ := Branches.not_continues hclose
      rw [← hlexemes] at hfits
      exact ⟨.reset body' e', by rw [units, units, hunits, hlexemes],
        hfits, .inl ⟨he, .of_cons hop hparen, by simpa using hsemicolon⟩⟩

end Statement.Readable

/-! ## Transitions -/

/-- A transition or what follows the transitions of a state. -/
theorem Transition.exists_head (trs : List Transition) {t : Lexeme} (us : List Lexeme)
    (h : t = .kw .state ∨ t = .kw .end_) :
    ∃ l vs, (trs.flatMap units).flatten ++ t :: us = l :: vs ∧
      l ∈ [.kw .unless_, .kw .until_, .kw .state, .kw .end_] := by
  cases trs with
  | nil => exact ⟨t, us, rfl, by rcases h with rfl | rfl <;> simp⟩
  | cons tr trs =>
      refine ⟨_, _, rfl, ?_⟩
      cases tr.strong <;> simp

theorem Transition.exists_fit {trs : List Transition} (h : ∀ t ∈ trs, t.Plain) {t : Lexeme}
    (us : List Lexeme) (ht : t = .kw .state ∨ t = .kw .end_) :
    ∃ trs' : List Transition, trs'.flatMap units = trs.flatMap units ∧ Fit trs' (t :: us) := by
  induction trs with
  | nil => exact ⟨[], rfl, by rcases ht with rfl | rfl <;> simp [Fit]⟩
  | cons tr trs ih =>
      obtain ⟨htr, htrs⟩ := List.forall_mem_cons.mp h
      obtain ⟨trs', hunits, hfit⟩ := ih htrs
      obtain ⟨guard, hguard, hlexemes⟩ := tr.guard.exists_normal htr.guard
      refine ⟨⟨tr.strong, guard, tr.goal⟩ :: trs', ?_, hguard, htr.goal, ?_, hfit⟩
      · rw [List.flatMap_cons, List.flatMap_cons, hunits, units, units, hlexemes]
      · obtain ⟨l, vs, hvs, hl⟩ := exists_head trs' us ht
        rw [hvs]
        refine .of_head vs ?_
        rintro u rfl
        simp at hl

/-! ## All statements -/

theorem States.exists_head (states : States) (us : List Lexeme) :
    ∃ t vs, states.units.flatten ++ .kw .end_ :: us = t :: vs ∧ (t = .kw .state ∨ t = .kw .end_) := by
  cases states with
  | nil => exact ⟨_, _, rfl, .inr rfl⟩
  | cons name locals body trs tail => exact ⟨_, _, rfl, .inl rfl⟩

theorem Cases.exists_head (cs : Cases) (us : List Lexeme) :
    ∃ t vs, cs.units.flatten ++ .kw .end_ :: us = t :: vs ∧ Body.case.closes t = true := by
  cases cs with
  | nil => exact ⟨_, _, rfl, rfl⟩
  | cons t s ss tail => exact ⟨_, _, rfl, rfl⟩

theorem Branches.exists_head (bs : Branches) (us : List Lexeme) :
    ∃ t vs, bs.units.flatten ++ .kw .end_ :: us = t :: vs ∧ closes t = true := by
  cases bs with
  | nil => exact ⟨_, _, rfl, rfl⟩
  | otherwise s => exact ⟨_, _, rfl, rfl⟩
  | cons e s tail => exact ⟨_, _, rfl, rfl⟩

mutual

theorem Statement.readable : (s : Statement) → s.Plain → ∀ ts, s.Readable ts
  | .equations es, _, _ => .equations es
  | .automaton locals states, h, ts => by
      obtain ⟨locals', hlocals, hunits⟩ := Locals.exists_normal h.1
      obtain ⟨states', hunits', hfits⟩ := States.exists_fits states h.2 ts
      exact .control (.automaton locals' states') (by simp [Statement.units, hunits, hunits']) rfl
        fun _ => ⟨hlocals, hfits⟩
  | .switch x cs, h, ts => by
      obtain ⟨cs', hunits, hfits⟩ := Cases.exists_fits cs h.2 ts
      exact .control (.switch x cs') (by simp [Statement.units, hunits]) rfl fun _ => hfits
  | .present bs, h, ts => by
      obtain ⟨bs', hunits, hfits⟩ := Branches.exists_fits bs h ts
      exact .control (.present bs') (by simp [Statement.units, hunits]) rfl fun _ => hfits
  | .reset body e, h, ts => by
      obtain ⟨body', hunits, hfits, -⟩ := Statements.exists_fits body h.1
        (b := .reset) (t := .kw .every) rfl (e.lexemes ++ ts)
      exact .reset body' hunits hfits

/-- Plain statements have the text of statements that are read in front of what closes them. -/
theorem Statements.exists_fits : (ss : Statements) → ss.Plain → ∀ {b : Body} {t : Lexeme},
    b.closes t = true → ∀ us, ∃ ss' : Statements,
      ss'.units = ss.units ∧ ss'.Fits b (t :: us) ∧ ss'.HeadPlain
  | .nil, _, _, t, hclose, us => ⟨.nil, rfl, ⟨t, us, rfl, hclose⟩, trivial⟩
  | .cons s ss, h, b, t, hclose, us => by
      obtain ⟨ss', hunits, hfits, hplain⟩ := Statements.exists_fits ss h.2 hclose us
      have hs := Statement.readable s h.1 (ss'.units.flatten ++ t :: us)
      obtain ⟨s'', ss'', hunits', hfits', hplain'⟩ := hs.exists_cons h.1 hfits hplain
      exact ⟨.cons s'' ss'', by rw [hunits', hunits, Statements.units], hfits', hplain'⟩

theorem States.exists_fits : (states : States) → states.Plain → ∀ us, ∃ states' : States,
    states'.units = states.units ∧ states'.Fits (.kw .end_ :: us)
  | .nil, _, us => ⟨.nil, rfl, by simp [States.Fits]⟩
  | .cons name locals body trs tail, h, us => by
      obtain ⟨hname, hlocals, hbody, htrs, htail⟩ := h
      obtain ⟨tail', hunits, hfits⟩ := States.exists_fits tail htail us
      obtain ⟨t, vs, hvs, ht⟩ := tail'.exists_head us
      obtain ⟨trs', htrunits, hfit⟩ := Transition.exists_fit htrs vs ht
      obtain ⟨l, ws, hws, hl⟩ := Transition.exists_head trs' vs ht
      have hclose : Body.state.closes l = true := by
        simp only [List.mem_cons, List.not_mem_nil, or_false] at hl
        rcases hl with rfl | rfl | rfl | rfl <;> rfl
      obtain ⟨body', hbodyunits, hbodyfits, -⟩ := Statements.exists_fits body hbody hclose ws
      obtain ⟨locals', hlocals', hlocalunits⟩ := Locals.exists_normal hlocals
      refine ⟨.cons name locals' body' trs' tail', ?_, hname, hlocals', ?_, ?_, hfits⟩
      · simp [States.units, hlocalunits, hbodyunits, htrunits, hunits]
      · rw [hvs, hws]
        exact hbodyfits
      · rw [hvs]
        exact hfit

theorem Cases.exists_fits : (cs : Cases) → cs.Plain → ∀ us, ∃ cs' : Cases,
    cs'.units = cs.units ∧ cs'.Fits (.kw .end_ :: us)
  | .nil, _, us => ⟨.nil, rfl, by simp [Cases.Fits]⟩
  | .cons t s ss tail, h, us => by
      obtain ⟨hs, hss, htail⟩ := h
      obtain ⟨tail', hunits, hfits⟩ := Cases.exists_fits tail htail us
      obtain ⟨l, vs, hvs, hclose⟩ := tail'.exists_head us
      obtain ⟨ss', hssunits, hssfits, hplain⟩ := Statements.exists_fits ss hss hclose vs
      have hreadable := Statement.readable s hs (ss'.units.flatten ++ l :: vs)
      obtain ⟨s'', ss'', hunits', ⟨-, hs', hss'⟩, -⟩ := hreadable.exists_cons hs hssfits hplain
      refine ⟨.cons t s'' ss'' tail', ?_, ?_, ?_, hfits⟩
      · rw [hssunits] at hunits'
        have := congrArg (· ++ tail.units) hunits'
        simpa [Cases.units, Statements.units, hunits] using this
      · rw [hvs]
        exact hs'
      · rw [hvs]
        exact hss'

theorem Branches.exists_fits : (bs : Branches) → bs.Plain → ∀ us, ∃ bs' : Branches,
    bs'.units = bs.units ∧ bs'.Fits (.kw .end_ :: us)
  | .nil, _, us => ⟨.nil, rfl, by simp [Branches.Fits]⟩
  | .otherwise s, h, us => by
      have hreadable := Statement.readable s h (.kw .end_ :: us)
      obtain ⟨s', hunits, hfits⟩ := hreadable.exists_alone h rfl
      exact ⟨.otherwise s', by rw [Branches.units, Branches.units, hunits], hfits⟩
  | .cons e s tail, h, us => by
      obtain ⟨he, hs, htail⟩ := h
      obtain ⟨e', he', hlexemes⟩ := e.exists_normal he
      obtain ⟨tail', hunits, hfits⟩ := Branches.exists_fits tail htail us
      obtain ⟨l, vs, hvs, hclose⟩ := tail'.exists_head us
      have hreadable := Statement.readable s hs (l :: vs)
      obtain ⟨s', hsunits, hsfits⟩ := hreadable.exists_alone hs hclose
      refine ⟨.cons e' s' tail', by simp [Branches.units, hlexemes, hsunits, hunits], he', ?_, hfits⟩
      rw [hvs]
      exact hsfits

end

end Heptagon
