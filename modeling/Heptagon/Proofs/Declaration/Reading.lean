import Heptagon.Proofs.Declaration.Written
import Heptagon.Proofs.Expr.Reading

/-!
# What the readers of declarations take

For each reader two statements: what it takes is written and normal
(`_of_take?`), and what is written, normal and followed by something that ends
it is taken (`take?_units`).
-/

namespace Heptagon

variable {ts rest : List Lexeme}

/-! ## Names -/

theorem Name.eq_of_takeMore (ts : List Lexeme) {ns : List Name} (h : takeMore ts = (ns, rest)) :
    ts = (moreUnits ns).flatten ++ rest := by
  induction ns generalizing ts with
  | nil =>
      unfold takeMore at h
      split at h
      · simp at h
      · simpa [moreUnits] using h
  | cons n ns ih =>
      unfold takeMore at h
      split at h
      · next w us =>
          simp only [Prod.mk.injEq, List.cons.injEq] at h
          obtain ⟨⟨rfl, hns⟩, hrest⟩ := h
          rw [ih us (Prod.ext hns hrest)]
          simp [moreUnits]
      · simp at h

theorem Name.takeMore_units (ns : List Name) (ts : List Lexeme)
    (hcomma : ts.head? ≠ some (.symbol .comma)) :
    takeMore ((moreUnits ns).flatten ++ ts) = (ns, ts) := by
  induction ns with
  | nil => exact takeMore.eq_2 ts (by rintro w us rfl; simp at hcomma)
  | cons n ns ih =>
      simp only [moreUnits, List.flatMap_cons, List.cons_append, List.nil_append,
        List.flatten_cons] at ih ⊢
      rw [takeMore, ih]

theorem StateName.take?_eq_some_iff {s : StateName} :
    take? ts = some (s, rest) ↔ ts = s.lexemes ++ rest ∧ s.Normal ∧ s.Stops rest := by
  constructor
  · intro h
    unfold take? at h
    split at h
    · next t us =>
        obtain ⟨rfl, rfl⟩ : capital t = s ∧ us = rest := by simpa using h
        exact ⟨rfl, trivial, trivial⟩
    · next w us =>
        split at h
        · simp at h
        · next hquoted =>
            rw [Bool.not_eq_true] at hquoted
            split at h
            · next t us =>
                obtain ⟨rfl, rfl⟩ : mixed w t = s ∧ us = rest := by simpa using h
                exact ⟨rfl, hquoted, trivial⟩
            · next hcapital =>
                obtain ⟨rfl, rfl⟩ : small w = s ∧ us = rest := by simpa using h
                exact ⟨rfl, hquoted, fun t us => hcapital t us⟩
    · simp at h
  · rintro ⟨rfl, hnormal, hstops⟩
    cases s with
    | capital t => rfl
    | small w =>
        have hquoted : w.quoted = false := hnormal
        simp only [lexemes, List.singleton_append, take?, hquoted, Bool.false_eq_true, if_false]
        split
        · next t us => exact absurd rfl (hstops t us)
        · rfl
    | mixed w t =>
        have hquoted : w.quoted = false := hnormal
        simp [lexemes, take?, hquoted]

/-- A name stops before everything but a capital word. -/
theorem StateName.Stops.of_head {s : StateName} {l : Lexeme} (ts : List Lexeme)
    (h : ∀ t, l ≠ .capital t) :
    s.Stops (l :: ts) := by
  cases s with
  | small w =>
      rintro t us hl
      exact h t (List.cons.inj hl).1
  | capital t => trivial
  | mixed w t => trivial

/-! ## Types -/

theorem Ty.eq_of_takeSizes {t u : Ty} (h : t.takeSizes ts = (u, rest)) :
    t.units.flatten ++ ts = u.units.flatten ++ rest ∧ (t.Normal → u.Normal) := by
  fun_induction takeSizes t ts with
  | case1 t w ts ih => simpa [units, Size.lexeme, Normal] using ih h
  | case2 t k ts ih => simpa [units, Size.lexeme, Normal] using ih h
  | case3 t ts =>
      obtain ⟨rfl, rfl⟩ : t = u ∧ ts = rest := by simpa using h
      exact ⟨rfl, id⟩

theorem Ty.of_take? {t : Ty} (h : take? ts = some (t, rest)) :
    ts = t.units.flatten ++ rest ∧ t.Normal := by
  simp only [take?, Option.bind_eq_bind, Option.bind_eq_some_iff, Prod.exists, Option.pure_def,
    Option.some.injEq] at h
  obtain ⟨element, us, helement, hsizes⟩ := h
  obtain ⟨hunits, hnormal⟩ := eq_of_takeSizes hsizes
  suffices ts = element.units.flatten ++ us ∧ element.Normal by
    exact ⟨this.1.trans hunits, hnormal this.2⟩
  unfold takeElement at helement
  split at helement
  case h_4 w us' hbool hint hfloat =>
    obtain ⟨rfl, rfl⟩ : named w = element ∧ us' = us := by simpa using helement
    exact ⟨rfl, by simp_all [Normal, Word.isTypeName]⟩
  case h_5 => simp at helement
  all_goals
    obtain ⟨rfl, rfl⟩ := by simpa using helement
    exact ⟨rfl, trivial⟩

/-- Whether a lexeme ends a declaration. -/
def Lexeme.endsDeclaration : Lexeme → Bool
  | .symbol .equal | .symbol .semicolon | .symbol .parenClose => true
  | _ => false

theorem Ty.takeElement_units {t : Ty} (h : t.Normal) (us : List Lexeme) :
    ∃ element vs, takeElement (t.units.flatten ++ us) = some (element, vs) ∧
      element.takeSizes vs = t.takeSizes us := by
  induction t generalizing us with
  | base b => cases b <;> exact ⟨_, _, rfl, rfl⟩
  | named n =>
      refine ⟨_, _, takeElement.eq_4 n us ?_ ?_ ?_, rfl⟩ <;> rintro rfl <;>
        simp [Normal, Word.isTypeName] at h
  | array t s ih =>
      obtain ⟨element, vs, helement, hsizes⟩ := ih h (.symbol .caret :: s.lexeme :: us)
      refine ⟨element, vs, by simpa [units] using helement, hsizes.trans ?_⟩
      cases s <;> rfl

theorem Ty.take?_units_of_sizes {t : Ty} (h : t.Normal) {us : List Lexeme}
    (hsizes : t.takeSizes us = (t, us)) : take? (t.units.flatten ++ us) = some (t, us) := by
  obtain ⟨element, vs, helement, hvs⟩ := takeElement_units h us
  simp [take?, helement, hvs, hsizes]

theorem Ty.takeSizes_of_ne {t : Ty} {l : Lexeme} {us : List Lexeme} (h : l ≠ .symbol .caret) :
    t.takeSizes (l :: us) = (t, l :: us) :=
  takeSizes.eq_3 t (l :: us) (by rintro w us' h'; cases h'; simp at h)
    (by rintro w us' h'; cases h'; simp at h)

theorem Ty.take?_units {t : Ty} (h : t.Normal) {l : Lexeme} (hl : l ≠ .symbol .caret)
    (us : List Lexeme) : take? (t.units.flatten ++ l :: us) = some (t, l :: us) :=
  take?_units_of_sizes h (takeSizes_of_ne hl)

/-! ## Clocks -/

theorem Sampling.of_take? {s : Sampling} (h : take? ts = some (s, rest)) :
    .kw .on_ :: ts = s.units.flatten ++ rest ∧ s.state.Normal := by
  simp only [take?, Option.bind_eq_bind, Option.bind_eq_some_iff, Prod.exists, Option.pure_def,
    Option.some.injEq, Prod.mk.injEq, StateName.take?_eq_some_iff, Opening.take?_eq_some_iff,
    Name.take?_eq_some_iff, Lexeme.skip_eq_some_iff] at h
  obtain ⟨state, ts₁, ⟨rfl, hnormal, -⟩, o, ts₂, rfl, x, ts₃, rfl, ts₄, rfl, rfl, rfl⟩ := h
  exact ⟨by simp [units], hnormal⟩

theorem Sampling.take?_units {s : Sampling} (h : s.state.Normal) (us : List Lexeme) :
    take? (s.state.lexemes ++ s.opening.lexeme :: .word s.variable_ :: .symbol .parenClose :: us) =
      some (s, us) := by
  have hstate := StateName.take?_eq_some_iff.mpr ⟨rfl, h, StateName.Stops.of_head
    (l := s.opening.lexeme) (.word s.variable_ :: .symbol .parenClose :: us)
    (by cases s.opening <;> simp [Opening.lexeme])⟩
  simp [take?, hstate, Opening.take?_eq_some_iff.mpr rfl, Name.take?, Lexeme.skip]

theorem Sampling.of_takeMore {n : Nat} {ss : List Sampling}
    (h : takeMore n ts = some (ss, rest)) :
    ts = (ss.flatMap units).flatten ++ rest ∧ ∀ s ∈ ss, s.state.Normal := by
  induction n generalizing ts ss with
  | zero => simp [takeMore] at h
  | succ n ih =>
      rw [takeMore.eq_def] at h
      split at h
      · simp at *
      · next m us hn =>
          obtain rfl := Nat.succ.inj hn
          simp only [Option.bind_eq_bind, Option.bind_eq_some_iff, Prod.exists, Option.pure_def,
            Option.some.injEq, Prod.mk.injEq] at h
          obtain ⟨s, ts₁, hs, others, ts₂, hothers, rfl, rfl⟩ := h
          obtain ⟨heq, nothers⟩ := ih hothers
          obtain ⟨hunits, ns⟩ := of_take? hs
          exact ⟨by rw [hunits, heq]; simp, List.forall_mem_cons.mpr ⟨ns, nothers⟩⟩
      · obtain ⟨rfl, rfl⟩ := by simpa using h
        simp

theorem Sampling.takeMore_units {n : Nat} {ss : List Sampling}
    (h : ∀ s ∈ ss, s.state.Normal) (hn : ss.length < n) {l : Lexeme} (hl : l ≠ .kw .on_)
    (us : List Lexeme) :
    takeMore n ((ss.flatMap units).flatten ++ l :: us) = some (ss, l :: us) := by
  induction ss generalizing n with
  | nil =>
      obtain ⟨n, rfl⟩ : ∃ m, n = m + 1 := ⟨n - 1, by omega⟩
      exact takeMore.eq_3 (l :: us) n (by rintro us' h'; cases h'; simp at hl)
  | cons s ss ih =>
      obtain ⟨n, rfl⟩ : ∃ m, n = m + 1 := ⟨n - 1, by omega⟩
      obtain ⟨hs, hss⟩ := List.forall_mem_cons.mp h
      have htail := ih hss (n := n) (by simpa using hn)
      simp [units, takeMore, take?_units hs, htail]

theorem Sampling.length_le_flatMap_units (ss : List Sampling) :
    ss.length ≤ (ss.flatMap units).flatten.length := by
  induction ss with
  | nil => simp
  | cons s ss ih =>
      simp only [List.flatMap_cons, List.flatten_append, List.length_append, List.length_cons]
      have : 1 ≤ (units s).flatten.length := by simp [units]
      omega

theorem Clock.of_take? {c : Option Clock} (h : take? ts = some (c, rest)) :
    ts = (unitsOf c).flatten ++ rest ∧
      ∀ c' ∈ c, ∀ s ∈ c'.first :: c'.others, s.state.Normal := by
  unfold take? at h
  split at h
  · simp only [Option.bind_eq_bind, Option.bind_eq_some_iff, Prod.exists, Option.pure_def,
      Option.some.injEq, Prod.mk.injEq, Lexeme.skip_eq_some_iff] at h
    obtain ⟨ts₁, rfl, ts₂, rfl, s, ts₃, hs, ss, ts₄, hss, rfl, rfl⟩ := h
    obtain ⟨hunits, ns⟩ := Sampling.of_take? hs
    obtain ⟨rfl, nss⟩ := Sampling.of_takeMore hss
    refine ⟨by simp [unitsOf, units, hunits], fun c' hc => ?_⟩
    obtain rfl := Option.mem_some_iff.mp hc
    exact List.forall_mem_cons.mpr ⟨ns, nss⟩
  · obtain ⟨rfl, rfl⟩ := by simpa using h
    simp [unitsOf]

theorem Clock.take?_units {c : Option Clock}
    (h : ∀ c' ∈ c, ∀ s ∈ c'.first :: c'.others, s.state.Normal) {l : Lexeme}
    (hl : l.endsDeclaration = true) (us : List Lexeme) :
    take? ((unitsOf c).flatten ++ l :: us) = some (c, l :: us) := by
  cases c with
  | none =>
      exact take?.eq_2 (l :: us) (by rintro us' h'; cases h'; simp [Lexeme.endsDeclaration] at hl)
  | some c =>
      obtain ⟨hs, hss⟩ := List.forall_mem_cons.mp (h c rfl)
      have hlength := Sampling.length_le_flatMap_units c.others
      have hmore := Sampling.takeMore_units hss
        (n := ((c.others.flatMap Sampling.units).flatten ++ l :: us).length + 1)
        (by simp only [List.length_append]; omega) (l := l)
        (by rintro rfl; simp [Lexeme.endsDeclaration] at hl) us
      have hfirst := Sampling.take?_units hs ((c.others.flatMap Sampling.units).flatten ++ l :: us)
      simp [unitsOf, units, Sampling.units, take?, Lexeme.skip] at hfirst hmore ⊢
      simp [hfirst, hmore]

/-! ## Declarations -/

theorem VarGroup.of_take? {g : VarGroup} (h : take? ts = some (g, rest)) :
    ts = g.units.flatten ++ rest ∧ g.Normal := by
  simp only [take?, Option.bind_eq_bind, Option.bind_eq_some_iff, Prod.exists, Option.pure_def,
    Option.some.injEq, Prod.mk.injEq, Name.take?_eq_some_iff, Lexeme.skip_eq_some_iff] at h
  obtain ⟨first, ts₁, rfl, ts₂, hcolon, type, ts₃, htype, clock, ts₄, hclock, rfl, rfl⟩ := h
  obtain ⟨rfl, ntype⟩ := Ty.of_take? htype
  obtain ⟨rfl, nclock⟩ := Clock.of_take? hclock
  have hothers := Name.eq_of_takeMore ts₁ (Prod.eta _).symm
  rw [hcolon] at hothers
  exact ⟨by simpa [units] using hothers, ntype, nclock⟩

theorem VarGroup.take?_units {g : VarGroup} (h : g.Normal) {l : Lexeme}
    (hl : l.endsDeclaration = true) (us : List Lexeme) :
    take? (g.units.flatten ++ l :: us) = some (g, l :: us) := by
  have hclock := Clock.take?_units h.clock hl us
  have htype : Ty.take? (g.type.units.flatten ++ ((Clock.unitsOf g.clock).flatten ++ l :: us)) =
      some (g.type, (Clock.unitsOf g.clock).flatten ++ l :: us) := by
    cases hg : g.clock with
    | none => exact Ty.take?_units h.type (by rintro rfl; simp [Lexeme.endsDeclaration] at hl) us
    | some c =>
        simp only [Clock.unitsOf, Clock.units, List.flatten_cons, List.cons_append,
          List.nil_append]
        exact Ty.take?_units h.type (by simp) _
  have hnames := Name.takeMore_units g.others (.symbol .colon ::
    (g.type.units.flatten ++ ((Clock.unitsOf g.clock).flatten ++ l :: us))) (by simp)
  simp [units, take?, Name.take?, hnames, Lexeme.skip, htype, hclock]

theorem Init.of_take? {i : Init} (h : take? ts = some (i, rest)) :
    ts = i.units.flatten ++ rest ∧ i.Normal := by
  unfold take? at h
  split at h
  case h_3 w us htrue hfalse =>
    obtain ⟨rfl, rfl⟩ : name w = i ∧ us = rest := by simpa using h
    exact ⟨rfl, by simp_all [Normal]⟩
  case h_5 us =>
    simp only [Option.bind_eq_bind, Option.bind_eq_some_iff, Prod.exists, Option.pure_def,
      Option.some.injEq, Prod.mk.injEq, Exprs.takeArray_eq_some_iff] at h
    obtain ⟨es, ts₁, ⟨rfl, hes⟩, rfl, rfl⟩ := h
    exact ⟨by simp [units, Literal.lexemes], hes⟩
  case h_6 => simp at h
  all_goals
    obtain ⟨rfl, rfl⟩ := by simpa using h
    exact ⟨rfl, trivial⟩

theorem Init.take?_units {i : Init} (h : i.Normal) (us : List Lexeme) :
    take? (i.units.flatten ++ us) = some (i, us) := by
  cases i with
  | name n =>
      refine take?.eq_3 n us ?_ ?_ <;> rintro rfl <;> simp [Normal] at h
  | literal l =>
      cases l with
      | number t => rfl
      | bool value => cases value <;> rfl
      | array es =>
          have hwritten : _ = es.lexemes ++ .symbol .squareClose :: us ∧ es.Normal := ⟨rfl, h⟩
          have hes := Exprs.takeArray_eq_some_iff.mpr hwritten
          simp [units, Literal.lexemes, take?, hes]

theorem Declaration.of_take? {d : Declaration} (h : take? ts = some (d, rest)) :
    ts = d.units.flatten ++ rest ∧ d.Normal := by
  unfold take? at h
  split at h
  · simp only [Option.bind_eq_bind, Option.bind_eq_some_iff, Prod.exists, Option.pure_def,
      Option.some.injEq, Prod.mk.injEq, Lexeme.skip_eq_some_iff] at h
    obtain ⟨g, ts₁, hg, ts₂, rfl, i, ts₃, hi, rfl, rfl⟩ := h
    obtain ⟨rfl, ng⟩ := VarGroup.of_take? hg
    obtain ⟨rfl, ni⟩ := Init.of_take? hi
    exact ⟨by simp [units], ng, ni⟩
  · next hlast =>
      simp only [Option.bind_eq_bind, Option.bind_eq_some_iff, Prod.exists, Option.pure_def,
        Option.some.injEq, Prod.mk.injEq] at h
      obtain ⟨g, ts₁, hg, rfl, rfl⟩ := h
      obtain ⟨rfl, ng⟩ := VarGroup.of_take? hg
      exact ⟨rfl, fun hfirst => hlast ((g.units.tail).flatten ++ ts₁)
        (by simp [VarGroup.units, hfirst]), ng⟩

theorem Declaration.take?_units {d : Declaration} (h : d.Normal) {l : Lexeme}
    (hl : l.endsDeclaration = true) (us : List Lexeme) :
    take? (d.units.flatten ++ l :: us) = some (d, l :: us) := by
  cases d with
  | plain g =>
      have hg := VarGroup.take?_units h.2 hl us
      have hlast : ∀ ts, g.units.flatten ++ l :: us ≠ .kw .last :: ts := fun ts hts =>
        h.1 (by simpa [VarGroup.units] using congrArg List.head? hts)
      rw [units, take?.eq_2 _ hlast, hg]
      rfl
  | last g i =>
      have hg := VarGroup.take?_units h.1 (l := .symbol .equal) rfl
        (i.units.flatten ++ l :: us)
      simp [units, take?, hg, Lexeme.skip, Init.take?_units h.2]

/-- A declaration starts with a word. -/
theorem Declaration.units_eq_cons (d : Declaration) :
    ∃ w us, d.units.flatten = .word w :: us ∧ (d.closesLocals = Locals.closes (.word w)) := by
  cases d with
  | plain g => exact ⟨g.first, _, rfl, rfl⟩
  | last g i => exact ⟨.keyword .last, _, rfl, rfl⟩

theorem Declaration.length_le_moreUnits (ds : List Declaration) :
    ds.length ≤ (moreUnits ds).flatten.length := by
  induction ds with
  | nil => simp
  | cons d ds ih =>
      simp only [moreUnits, List.flatMap_cons, List.flatten_append, List.length_append,
        List.flatten_cons, List.length_cons] at ih ⊢
      omega

/-- After a declaration a semicolon comes, if others follow it and if none does. -/
theorem Declaration.exists_semicolon (ds : List Declaration) (us : List Lexeme) :
    ∃ vs, (moreUnits ds).flatten ++ .symbol .semicolon :: us = .symbol .semicolon :: vs := by
  cases ds with
  | nil => exact ⟨us, rfl⟩
  | cons d ds => exact ⟨_, rfl⟩

theorem Declaration.flatten_moreUnits_cons (d : Declaration) (ds : List Declaration) :
    (moreUnits (d :: ds)).flatten =
      .symbol .semicolon :: (d.units.flatten ++ (moreUnits ds).flatten) := by
  simp [moreUnits]

/-! ## Parameters -/

/-- What comes after a parameter ends it. -/
theorem Params.exists_head (ds : List Declaration) (semicolon : Bool) (us : List Lexeme) :
    ∃ l vs, (Declaration.moreUnits ds).flatten ++
      ((Units.semicolonIf semicolon).flatten ++ .symbol .parenClose :: us) = l :: vs ∧
        l.endsDeclaration = true := by
  cases ds with
  | nil => cases semicolon <;> exact ⟨_, _, rfl, rfl⟩
  | cons d ds => exact ⟨_, _, rfl, rfl⟩

theorem Params.of_takeMore {n : Nat} {ds : List Declaration} {semicolon : Bool}
    (h : takeMore n ts = some ((ds, semicolon), rest)) :
    ts = (Declaration.moreUnits ds).flatten ++
        ((Units.semicolonIf semicolon).flatten ++ .symbol .parenClose :: rest) ∧
      ∀ d ∈ ds, d.Normal := by
  fun_induction takeMore n ts generalizing ds semicolon with
  | case1 n ts =>
      simp only [Option.some.injEq, Prod.mk.injEq] at h
      obtain ⟨⟨rfl, rfl⟩, rfl⟩ := h
      simp [Declaration.moreUnits, Units.semicolonIf]
  | case2 n ts =>
      simp only [Option.some.injEq, Prod.mk.injEq] at h
      obtain ⟨⟨rfl, rfl⟩, rfl⟩ := h
      simp [Declaration.moreUnits, Units.semicolonIf]
  | case3 n ts _ ih =>
      simp only [Option.bind_eq_bind, Option.bind_eq_some_iff, Prod.exists, Option.pure_def,
        Option.some.injEq, Prod.mk.injEq] at h
      obtain ⟨d, ts₁, hd, ds', semicolon', ts₂, hds, ⟨rfl, rfl⟩, rfl⟩ := h
      obtain ⟨rfl, nd⟩ := Declaration.of_take? hd
      obtain ⟨rfl, nds⟩ := ih _ hds
      exact ⟨by simp [Declaration.moreUnits], List.forall_mem_cons.mpr ⟨nd, nds⟩⟩
  | case4 => simp at h

theorem Params.takeMore_units {n : Nat} {ds : List Declaration} (semicolon : Bool)
    (h : ∀ d ∈ ds, d.Normal) (hn : ds.length ≤ n) (us : List Lexeme) :
    takeMore n ((Declaration.moreUnits ds).flatten ++
      ((Units.semicolonIf semicolon).flatten ++ .symbol .parenClose :: us)) =
        some ((ds, semicolon), us) := by
  induction ds generalizing n with
  | nil => cases semicolon <;> simp [Declaration.moreUnits, Units.semicolonIf, takeMore]
  | cons d ds ih =>
      obtain ⟨n, rfl⟩ : ∃ m, n = m + 1 := ⟨n - 1, by simp only [List.length_cons] at hn; omega⟩
      obtain ⟨hd, hds⟩ := List.forall_mem_cons.mp h
      have hmore := ih hds (n := n) (by simpa using hn)
      obtain ⟨l, vs, hvs, hl⟩ := exists_head ds semicolon us
      obtain ⟨w, ws, hws, -⟩ := d.units_eq_cons
      have hd := Declaration.take?_units hd hl vs
      have hclose : ∀ ts, d.units.flatten ++ l :: vs ≠ .symbol .parenClose :: ts := by
        intro ts hts
        simp [hws] at hts
      rw [hvs] at hmore
      rw [Declaration.flatten_moreUnits_cons, List.cons_append, List.append_assoc, hvs,
        takeMore.eq_3 n _ hclose]
      simp [hd, hmore]

theorem Params.of_take? {p : Params} (h : take? ts = some (p, rest)) :
    ts = p.units.flatten ++ rest ∧ p.Normal := by
  simp only [take?, Option.bind_eq_bind, Option.bind_eq_some_iff, Prod.exists,
    Opening.take?_eq_some_iff] at h
  obtain ⟨o, ts₁, rfl, h⟩ := h
  split at h
  · simp only [Option.pure_def, Option.some.injEq, Prod.mk.injEq] at h
    obtain ⟨rfl, rfl⟩ := h
    exact ⟨by simp [units], trivial⟩
  · simp only [Option.bind_eq_some_iff, Prod.exists, Option.pure_def, Option.some.injEq,
      Prod.mk.injEq] at h
    obtain ⟨d, ts₂, hd, ds, semicolon, ts₃, hds, rfl, rfl⟩ := h
    obtain ⟨rfl, nd⟩ := Declaration.of_take? hd
    obtain ⟨rfl, nds⟩ := of_takeMore hds
    exact ⟨by simp [units], List.forall_mem_cons.mpr ⟨nd, nds⟩⟩

theorem Params.take?_units {p : Params} (h : p.Normal) (us : List Lexeme) :
    take? (p.units.flatten ++ us) = some (p, us) := by
  cases p with
  | empty o => simp [units, take?, Opening.take?_eq_some_iff.mpr rfl]
  | list o d ds semicolon =>
      obtain ⟨hd, hds⟩ := List.forall_mem_cons.mp h
      have hlength := Declaration.length_le_moreUnits ds
      have hmore := takeMore_units semicolon hds (n :=
        ((Declaration.moreUnits ds).flatten ++ ((Units.semicolonIf semicolon).flatten ++
          .symbol .parenClose :: us)).length)
        (by simp only [List.length_append]; omega) us
      obtain ⟨l, vs, hvs, hl⟩ := exists_head ds semicolon us
      obtain ⟨w, ws, hws, -⟩ := d.units_eq_cons
      have hd := Declaration.take?_units hd hl vs
      rw [hvs] at hmore
      simp only [units, List.flatten_cons, List.flatten_append, List.flatten_nil, List.append_nil,
        List.append_assoc, List.cons_append, List.nil_append, hvs]
      simp only [take?, Opening.take?_eq_some_iff.mpr rfl, Option.bind_eq_bind, Option.bind_some]
      split
      · next hts => simp [hws] at hts
      · simp only [hd, Option.bind_some, hmore, Option.pure_def]

/-! ## Local variables -/

theorem Locals.of_takeMore {n : Nat} {ds : List Declaration}
    (h : takeMore n ts = some (ds, rest)) :
    ts = (Declaration.moreUnits ds).flatten ++ .symbol .semicolon :: rest ∧
      (∀ d ∈ ds, d.Normal ∧ d.closesLocals = false) ∧
      ∃ t us, rest = t :: us ∧ closes t = true := by
  induction n generalizing ts ds with
  | zero => simp [takeMore] at h
  | succ n ih =>
      unfold takeMore at h
      split at h
      · next m t us hn =>
          obtain rfl := Nat.succ.inj hn
          split at h
          · next hclose =>
              obtain ⟨rfl, rfl⟩ : [] = ds ∧ t :: us = rest := by simpa using h
              exact ⟨rfl, by simp, t, us, rfl, hclose⟩
          · next hclose =>
              simp only [Option.bind_eq_bind, Option.bind_eq_some_iff, Prod.exists,
                Option.pure_def, Option.some.injEq, Prod.mk.injEq] at h
              obtain ⟨d, ts₁, hd, others, ts₂, hothers, rfl, rfl⟩ := h
              obtain ⟨heq, nd⟩ := Declaration.of_take? hd
              obtain ⟨rfl, nothers, hrest⟩ := ih hothers
              obtain ⟨w, ws, hws, hcloses⟩ := d.units_eq_cons
              obtain ⟨rfl, -⟩ : t = .word w ∧ _ := by
                rw [hws] at heq
                exact List.cons.inj heq
              refine ⟨by rw [heq]; simp [Declaration.moreUnits], ?_, hrest⟩
              exact List.forall_mem_cons.mpr ⟨⟨nd, by simpa [hcloses] using hclose⟩, nothers⟩
      · simp at h

theorem Locals.takeMore_units {n : Nat} {ds : List Declaration}
    (h : ∀ d ∈ ds, d.Normal ∧ d.closesLocals = false) (hn : ds.length < n) {t : Lexeme}
    (ht : closes t = true) (us : List Lexeme) :
    takeMore n ((Declaration.moreUnits ds).flatten ++ .symbol .semicolon :: t :: us) =
      some (ds, t :: us) := by
  induction ds generalizing n with
  | nil =>
      obtain ⟨n, rfl⟩ : ∃ m, n = m + 1 := ⟨n - 1, by omega⟩
      simp [Declaration.moreUnits, takeMore, ht]
  | cons d ds ih =>
      obtain ⟨n, rfl⟩ : ∃ m, n = m + 1 := ⟨n - 1, by omega⟩
      obtain ⟨⟨hd, hcloses⟩, hds⟩ := List.forall_mem_cons.mp h
      have hmore := ih hds (n := n) (by simpa using hn)
      obtain ⟨vs, hvs⟩ := Declaration.exists_semicolon ds (t :: us)
      obtain ⟨w, ws, hws, hw⟩ := d.units_eq_cons
      have hd := Declaration.take?_units hd (l := .symbol .semicolon) rfl vs
      rw [hvs] at hmore
      rw [Declaration.flatten_moreUnits_cons, List.cons_append, List.append_assoc, hvs]
      rw [hws] at hd ⊢
      rw [List.cons_append] at hd ⊢
      simp [takeMore, ← hw, hcloses, hd, hmore]

/-- The local variables, of which something else may be left over only if there are none. -/
theorem Locals.of_take? {l : Option Locals} (h : take? ts = some (l, rest)) :
    ts = (unitsOf l).flatten ++ rest ∧ ∀ l' ∈ l, l'.Normal := by
  unfold take? at h
  split at h
  · simp only [Option.bind_eq_bind, Option.bind_eq_some_iff, Prod.exists, Option.pure_def,
      Option.some.injEq, Prod.mk.injEq] at h
    obtain ⟨d, ts₁, hd, ds, ts₂, hds, rfl, rfl⟩ := h
    obtain ⟨rfl, nd⟩ := Declaration.of_take? hd
    obtain ⟨rfl, nds, -⟩ := of_takeMore hds
    refine ⟨by simp [unitsOf, units], fun l hl => ?_⟩
    obtain rfl := Option.mem_some_iff.mp hl
    exact ⟨nd, nds⟩
  · obtain ⟨rfl, rfl⟩ := by simpa using h
    simp [unitsOf]

theorem Locals.take?_units {l : Option Locals} (h : ∀ l' ∈ l, l'.Normal) {t : Lexeme}
    (ht : closes t = true) (us : List Lexeme) :
    take? ((unitsOf l).flatten ++ t :: us) = some (l, t :: us) := by
  cases l with
  | none => exact take?.eq_2 (t :: us) (by rintro us' h'; cases h'; simp [closes] at ht)
  | some l =>
      obtain ⟨hd, hds⟩ := h l rfl
      have hlength := Declaration.length_le_moreUnits l.others
      have hmore := takeMore_units hds (n := ((Declaration.moreUnits l.others).flatten ++
          .symbol .semicolon :: t :: us).length)
        (by simp only [List.length_append, List.length_cons]; omega) ht us
      obtain ⟨vs, hvs⟩ := Declaration.exists_semicolon l.others (t :: us)
      have hd := Declaration.take?_units hd (l := .symbol .semicolon) rfl vs
      rw [hvs] at hmore
      simp only [unitsOf, units, List.flatten_cons, List.flatten_append, List.flatten_nil,
        List.append_nil, List.append_assoc, List.cons_append, List.nil_append, hvs]
      simp only [take?, hd, hmore, Option.bind_eq_bind, Option.bind_some, Option.pure_def]

end Heptagon
