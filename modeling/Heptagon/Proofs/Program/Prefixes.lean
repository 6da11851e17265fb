import Heptagon.Proofs.Program.Concatenation
import Heptagon.Proofs.Program.Shown

/-!
# Where the text of a program may stop

A text that is read as a program may stop between two of its definitions, and
behind a constructor of an enumeration: what is before such a place is read as a
program again (`Program.Begins`), and before no other place
(`Program.ofLexemes?_separateTargets_iff`).

1. What is before such a place is a program that is read (`Program.Begins.fits`).
   A program whose text is the beginning of another one's is that one up to such
   a place (`Program.begins_of_fits`): a function, a node or a record is closed
   by its last lexeme, whatever follows it.
2. A list of targets goes on behind `,` and `(`.  Neither is the last lexeme of a
   definition or the one before it, so no such list crosses the place, and the
   same parentheses are set apart in the beginning of a text and in the whole
   (`Program.separateTargets_units_append`).
-/

namespace Heptagon

/-! ## Ends of definitions -/

namespace Lexeme

/-- No list of targets goes on behind some lexemes. -/
def Ended (ts : List Lexeme) : Prop := ∀ l ∈ (ts.map shown).getLast?, l.EndsTargets

namespace Ended

variable {ts us : List Lexeme} {l : Lexeme}

theorem nil : Ended [] := by simp [Ended]

theorem append (hts : Ended ts) (hus : Ended us) : Ended (ts ++ us) := by
  intro l hl
  rw [List.map_append, List.getLast?_append] at hl
  cases hlast : (us.map shown).getLast? with
  | none => exact hts l (by simpa [hlast] using hl)
  | some x => exact hus l (by simpa [hlast] using hl)

theorem cons (hl : l.shown.EndsTargets) (h : Ended us) : Ended (l :: us) := by
  have hone : Ended [l] := by simpa [Ended] using hl
  exact hone.append h

/-- What is before the end makes no difference. -/
theorem of_ne_nil (ts : List Lexeme) (hne : us ≠ []) (h : Ended us) : Ended (ts ++ us) := by
  intro l hl
  have hlast := List.getLast?_eq_some_getLast (mt List.map_eq_nil_iff.mp hne : us.map shown ≠ [])
  rw [List.map_append, List.getLast?_append, hlast] at hl
  exact h l (by simpa [hlast] using hl)

theorem concat (ts : List Lexeme) (hl : l.shown.EndsTargets) : Ended (ts ++ [l]) :=
  .of_ne_nil ts (by simp) (.cons hl .nil)

theorem flatMap {α : Type} {f : α → List Lexeme} {xs : List α} (h : ∀ x ∈ xs, Ended (f x)) :
    Ended (xs.flatMap f) := by
  induction xs with
  | nil => exact .nil
  | cons x xs ih =>
      obtain ⟨hx, hxs⟩ := List.forall_mem_cons.mp h
      exact hx.append (ih hxs)

end Ended

end Lexeme

open Lexeme (Ended EndsTargets)

theorem Literal.ended_lexemes (l : Literal) : Ended l.lexemes := by
  cases l with
  | number t => exact .cons (by simp [EndsTargets]) .nil
  | bool b => cases b <;> exact .cons (by simp [EndsTargets]) .nil
  | array es => exact .concat (.symbol .squareOpen :: es.lexemes) (by simp [EndsTargets])

/-- An expression ends with an operand or a closing bracket. -/
theorem Expr.ended_lexemes (e : Expr) : Ended e.lexemes := by
  cases e with
  | literal l => exact l.ended_lexemes
  | name n => exact .cons (by simp [EndsTargets]) .nil
  | paren o e => exact .concat (o.lexeme :: e.lexemes) (by simp [EndsTargets])
  | tuple o e f es =>
      simpa [lexemes] using Ended.concat (l := .symbol .parenClose)
        (o.lexeme :: (e.lexemes ++ .symbol .comma :: (f.lexemes ++ es.moreLexemes)))
        (by simp [EndsTargets])
  | record n e fs =>
      simpa [lexemes] using Ended.concat (l := .symbol .braceClose)
        (.symbol .braceOpen :: .word n :: .symbol .equal :: (e.lexemes ++ fs.moreLexemes))
        (by simp [EndsTargets])
  | call f args =>
      exact .concat (.word f :: .symbol .parenOpen :: args.lexemes) (by simp [EndsTargets])
  | unary op e =>
      exact .cons (by cases op <;> simp [UnaryOp.lexeme, EndsTargets]) (Expr.ended_lexemes e)
  | binary l op r =>
      exact .of_ne_nil l.lexemes (by simp)
        (.cons (by cases op <;> simp [BinaryOp.lexeme, EndsTargets]) (Expr.ended_lexemes r))
  | cond c y n =>
      simpa [lexemes] using Ended.of_ne_nil
        (.kw .if_ :: (c.lexemes ++ .kw .then_ :: y.lexemes)) (by simp)
        (.cons (by simp [EndsTargets]) (Expr.ended_lexemes n) : Ended (.kw .else_ :: n.lexemes))

theorem Units.ended_semicolonIf (b : Bool) : Ended (semicolonIf b).flatten := by
  cases b
  · exact .nil
  · exact .cons (by simp [EndsTargets]) .nil

theorem Equation.ended_lexemes (e : Equation) : Ended e.lexemes :=
  .of_ne_nil e.target.lexemes (by simp) (.cons (by simp [EndsTargets]) e.value.ended_lexemes)

theorem Equations.ended_lexemes (es : Equations) : Ended es.lexemes :=
  es.first.ended_lexemes.append (.append
    (.flatMap fun e _ => .cons (by simp [EndsTargets]) e.ended_lexemes)
    (Units.ended_semicolonIf es.semicolon))

theorem Statement.ended_units (s : Statement) : Ended s.units.flatten := by
  cases s with
  | equations es => simpa [units] using es.ended_lexemes
  | automaton locals states =>
      simpa [units] using Ended.concat (l := .kw .end_)
        (.kw .automaton :: ((Locals.unitsOf locals).flatten ++ states.units.flatten))
        (by simp [EndsTargets])
  | «switch» x cases =>
      simpa [units] using Ended.concat (l := .kw .end_)
        (.kw .switch :: .word x :: cases.units.flatten) (by simp [EndsTargets])
  | present branches =>
      simpa [units] using Ended.concat (l := .kw .end_)
        (.kw .present :: branches.units.flatten) (by simp [EndsTargets])
  | reset body e =>
      simpa [units] using Ended.of_ne_nil (.kw .reset :: body.units.flatten) (by simp)
        (.cons (by simp [EndsTargets]) e.ended_lexemes : Ended (.kw .every :: e.lexemes))

theorem Statements.ended_units : (ss : Statements) → Ended ss.units.flatten
  | .nil => .nil
  | .cons s ss => by simpa [units] using s.ended_units.append ss.ended_units

theorem Ty.ended_units (t : Ty) : Ended t.units.flatten := by
  cases t with
  | base b => exact .cons (by simp [EndsTargets]) .nil
  | named n => exact .cons (by simp [EndsTargets]) .nil
  | array t s =>
      have hsize : s.lexeme.shown.EndsTargets := by cases s <;> simp [Size.lexeme, EndsTargets]
      simpa [units] using Ended.of_ne_nil t.units.flatten (by simp)
        (.cons (by simp [EndsTargets]) (.cons hsize .nil) : Ended [.symbol .caret, s.lexeme])

theorem FieldType.ended_units (f : FieldType) : Ended f.units.flatten :=
  .cons (by simp [EndsTargets]) (.cons (by simp [EndsTargets]) f.type.ended_units)

theorem FieldType.ended_moreUnits (fs : List FieldType) : Ended (moreUnits fs).flatten := by
  induction fs with
  | nil => exact .nil
  | cons f fs ih =>
      simpa [moreUnits] using
        (Ended.cons (l := .symbol .semicolon) (by simp [EndsTargets]) f.ended_units).append ih

/-- No list of targets crosses the last lexeme of a definition. -/
theorem Definition.exists_units_eq (d : Definition) : ∃ ts l, d.units.flatten = ts ++ [l] ∧
    Ended ts ∧ l.shown.EndsTargets ∧ ¬ l.shown.ResumesTargets := by
  cases d with
  | component c =>
      refine ⟨_, .kw .tel, ?_, .of_ne_nil (.kw (if c.hasMemory then .node else .fun_) :: .word c.name ::
        ((Generic.unitsOf c.generic).flatten ++ (c.inputs.units.flatten ++ .kw .returns ::
          (c.outputs.units.flatten ++ (Locals.unitsOf c.locals).flatten)))) (by simp)
        (.cons (by simp [EndsTargets]) c.body.ended_units : Ended (.kw .let_ :: c.body.units.flatten)),
        by simp [EndsTargets], by simp [Lexeme.ResumesTargets]⟩
      simp [units, Component.units]
  | record n f fs =>
      refine ⟨_, .symbol .braceClose, ?_, .of_ne_nil [.kw .type, .word n, .symbol .equal] (by simp)
        (.cons (by simp [EndsTargets]) (f.ended_units.append (FieldType.ended_moreUnits fs)) :
          Ended (.symbol .braceOpen :: (f.units.flatten ++ (FieldType.moreUnits fs).flatten))),
        by simp [EndsTargets], by simp [Lexeme.ResumesTargets]⟩
      simp [units]
  | enumeration n bar t ts =>
      have hbar : Ended (Units.barIf bar).flatten := by
        cases bar
        · exact .nil
        · exact .cons (by simp [EndsTargets]) .nil
      rcases List.eq_nil_or_concat ts with rfl | ⟨ts, u, rfl⟩
      · refine ⟨_, .capital t, ?_, .append (.cons (by simp [EndsTargets]) (.cons (by simp [EndsTargets])
          (.cons (by simp [EndsTargets]) .nil)) : Ended [.kw .type, .word n, .symbol .equal]) hbar,
          by simp [EndsTargets], by simp [Lexeme.ResumesTargets]⟩
        simp [units, variantUnits]
      · refine ⟨_, .capital u, ?_, .concat (.kw .type :: .word n :: .symbol .equal ::
          ((Units.barIf bar).flatten ++ .capital t :: (variantUnits ts).flatten))
          (by simp [EndsTargets] : (Lexeme.symbol .bar).shown.EndsTargets),
          by simp [EndsTargets], by simp [Lexeme.ResumesTargets]⟩
        simp [units, variantUnits]

namespace Program

/-- No list of targets goes on from a program into what follows it. -/
theorem separateTargets_units_append (p : Program) (us : List Lexeme) :
    Lexeme.separateTargets (p.units.flatten.map Lexeme.shown ++ us) =
      Lexeme.separateTargets (p.units.flatten.map Lexeme.shown) ++ Lexeme.separateTargets us := by
  rcases List.eq_nil_or_concat' p with rfl | ⟨p, d, rfl⟩
  · rfl
  · obtain ⟨ts, l, htext, hended, hl, hresumes⟩ := d.exists_units_eq
    obtain ⟨vs, hvs⟩ : ∃ vs, vs = ((units p).flatten ++ ts).map Lexeme.shown := ⟨_, rfl⟩
    have hbefore : ∀ x ∈ vs.getLast?, x.EndsTargets := hvs ▸ Ended.append (endsTargets_units p) hended
    have hcut : ∀ us, Lexeme.separateTargets (vs ++ l.shown :: us) =
        Lexeme.separateTargets vs ++ l.shown :: Lexeme.separateTargets us := fun us => by
      rw [Lexeme.separateTargets_append hbefore (by simpa using hresumes),
        Lexeme.separateTargets_cons hl.2]
    have hwhole : (units (p ++ [d])).flatten.map Lexeme.shown = vs ++ [l.shown] := by
      rw [units_append, List.flatten_append, units_singleton, htext, hvs]
      simp
    rw [hwhole, List.append_assoc, List.singleton_append, hcut, hcut, List.append_assoc]
    rfl

/-! ## Beginnings of programs -/

/-- The first program is the second one up to a place where this may stop: between two definitions,
or behind a constructor of an enumeration. -/
inductive Begins : Program → Program → Prop
  | nil (p : Program) : Begins [] p
  | variants (n : Name) (bar : Bool) (t : Text) (ts more : List Text) (p : Program) :
      Begins [.enumeration n bar t ts] (.enumeration n bar t (ts ++ more) :: p)
  | cons (d : Definition) {q p : Program} (h : Begins q p) : Begins (d :: q) (d :: p)

variable {p q r : Program} {ts us : List Lexeme}

/-- What is before such a place is how it is read. -/
theorem Begins.fits (h : q.Begins p) (hp : p.Fits) : q.Fits := by
  induction h with
  | nil => trivial
  | variants n bar t ts more p => exact ⟨fun t us => by simp [units], trivial⟩
  | cons d h ih => exact ⟨hp.1.congr fun _ => flatten_units_ne _, ih hp.2⟩

theorem Begins.exists_units (h : q.Begins p) : ∃ us, p.units = q.units ++ us := by
  induction h with
  | nil p => exact ⟨p.units, rfl⟩
  | variants n bar t ts more p =>
      exact ⟨Definition.variantUnits more ++ p.units,
        by simp [units, Definition.units, Definition.variantUnits]⟩
  | cons d h ih =>
      obtain ⟨us, hus⟩ := ih
      exact ⟨us, by rw [units_cons, units_cons, hus, List.append_assoc]⟩

theorem Begins.exists_trees (h : q.Begins p) :
    ∃ ts, p.flatMap Definition.trees = q.flatMap Definition.trees ++ ts := by
  induction h with
  | nil p => exact ⟨_, rfl⟩
  | variants n bar t ts more p =>
      exact ⟨(more.flatMap fun t => [.sym .bar, .leaf (.variant t)]) ++ p.flatMap Definition.trees,
        by simp [Definition.trees]⟩
  | cons d h ih =>
      obtain ⟨ts, hts⟩ := ih
      exact ⟨ts, by rw [List.flatMap_cons, List.flatMap_cons, hts, List.append_assoc]⟩

end Program

/-- A definition that stands at the front of a text is the one that is read there, or an enumeration
that goes on there. -/
theorem Definition.Fits.eq_or {d d' : Definition} {ts ts' us : List Lexeme} (h : d.Fits ts)
    (h' : d'.Fits ts') (hts : ∀ l ∈ ts.head?, ∃ k, l = .kw k)
    (htext : d'.units.flatten ++ ts' = d.units.flatten ++ (ts ++ us)) :
    d' = d ∧ ts' = ts ++ us ∨ ts = [] ∧ ∃ n bar t variants more,
      d = .enumeration n bar t variants ∧ d' = .enumeration n bar t (variants ++ more) := by
  have htake : take? (d.units.flatten ++ (ts ++ us)) = some (d', ts') :=
    take?_eq_some_iff.mpr ⟨htext.symm, h'⟩
  by_cases hfits : d.Fits (ts ++ us)
  · rw [take?_eq_some_iff.mpr ⟨rfl, hfits⟩] at htake
    exact .inl (by simpa [eq_comm] using htake)
  · cases d with
    | component c =>
        cases h.alike_self with
        | component halike => exact absurd (halike.fits (ts ++ us) h) hfits
    | record n f fs => exact absurd h hfits
    | enumeration n bar t variants =>
        obtain rfl : ts = [] := by
          by_contra hne
          obtain ⟨l, vs, rfl⟩ := List.exists_cons_of_ne_nil hne
          obtain ⟨k, rfl⟩ := hts l rfl
          exact hfits fun t us => by simp
        obtain ⟨more, rest, hmore⟩ : ∃ more rest, takeVariants us = (more, rest) := ⟨_, _, rfl⟩
        obtain ⟨rfl, hrest⟩ := eq_of_takeVariants us hmore
        have hlonger : take? ((enumeration n bar t variants).units.flatten ++
            ([] ++ ((variantUnits more).flatten ++ rest))) =
            some (.enumeration n bar t (variants ++ more), rest) :=
          take?_eq_some_iff.mpr ⟨by simp [units, variantUnits], hrest⟩
        obtain ⟨rfl, -⟩ := Prod.mk.inj (Option.some.inj (hlonger.symm.trans htake))
        exact .inr ⟨rfl, n, bar, t, variants, more, rfl, rfl⟩

namespace Program

variable {p q r : Program} {ts us : List Lexeme}

/-- A program whose text is the beginning of another one's is that one up to a place where this may
stop. -/
theorem begins_of_fits (hq : q.Fits) (hp : p.Fits)
    (h : p.units.flatten = q.units.flatten ++ us) : q.Begins p := by
  induction q generalizing p with
  | nil => exact .nil p
  | cons d q ih =>
      cases p with
      | nil =>
          obtain ⟨ts, l, htext, -⟩ := d.exists_units_eq
          rw [units_cons, List.flatten_append, htext] at h
          exact absurd h (by simp [units])
      | cons d' p =>
          rw [units_cons, units_cons, List.flatten_append, List.flatten_append,
            List.append_assoc] at h
          have hhead : ∀ l ∈ (units q).flatten.head?, ∃ k, l = .kw k := by
            cases q with
            | nil => simp [units]
            | cons d q => cases d <;> simp [units, Definition.units]
          rcases hq.1.eq_or hp.1 hhead h with ⟨rfl, hrest⟩ | ⟨hnil, n, bar, t, ts, more, rfl, rfl⟩
          · exact .cons _ (ih hq.2 hp.2 hrest)
          · cases q with
            | nil => exact .variants n bar t ts more p
            | cons d q =>
                obtain ⟨vs, l, htext, -⟩ := d.exists_units_eq
                rw [units_cons, List.flatten_append, htext] at hnil
                exact absurd hnil (by simp)

/-- The beginning of a text is read as a program exactly if this is a beginning of what the whole
text is read as, and as long. -/
theorem ofLexemes?_separateTargets_iff (hshown : (ts ++ us).map Lexeme.shown = ts ++ us)
    (hp : ofLexemes? (Lexeme.separateTargets (ts ++ us)) = some p) :
    ofLexemes? (Lexeme.separateTargets ts) = some q ↔
      q.Begins p ∧ q.units.flatten.length = ts.length := by
  obtain ⟨hwhole, hfits⟩ := ofLexemes?_eq_some_iff.mp hp
  have hts : ts.map Lexeme.shown = ts := by
    rw [List.map_append] at hshown
    exact (List.append_inj hshown (by simp)).1
  have hlength : (Lexeme.separateTargets ts).length = ts.length := by
    simpa using congrArg List.length (Lexeme.map_shown_separateTargets ts)
  -- nothing is read across the end of a text that is a program's
  have hcut : ts = q.units.flatten.map Lexeme.shown →
      Lexeme.separateTargets ts ++ Lexeme.separateTargets us = p.units.flatten := by
    rintro rfl
    rw [← hwhole, separateTargets_units_append]
  rw [ofLexemes?_eq_some_iff]
  constructor
  · rintro ⟨hread, hq⟩
    have htext : ts = q.units.flatten.map Lexeme.shown := by
      rw [← hread, Lexeme.map_shown_separateTargets, hts]
    exact ⟨begins_of_fits hq hfits (by rw [← hcut htext, hread]), by rw [← hread, hlength]⟩
  · rintro ⟨hbegins, hq⟩
    obtain ⟨vs, hvs⟩ := hbegins.exists_units
    rw [hvs, List.flatten_append] at hwhole hcut
    have htext : ts = q.units.flatten.map Lexeme.shown := by
      have hboth := Lexeme.map_shown_separateTargets (ts ++ us)
      rw [hwhole, hshown, List.map_append] at hboth
      exact (List.append_inj hboth (by rw [List.length_map, hq])).1.symm
    exact ⟨(List.append_inj (hcut htext) (by rw [hlength, hq])).1, hbegins.fits hfits⟩

end Program

/-! ## The two readings of a text -/

theorem Definition.map_shown_enumeration (n : Name) (bar : Bool) (t : Text) (ts : List Text) :
    (enumeration n bar t ts).units.flatten.map Lexeme.shown =
      (enumeration n bar t ts).units.flatten := by
  have hvariants : (variantUnits ts).shown = variantUnits ts := Units.shown_flatMap fun _ _ => rfl
  refine Units.map_shown_flatten ?_
  cases bar <;> simp [units, hvariants, Units.barIf]

/-- What is written like an enumeration is one. -/
theorem Definition.eq_enumeration {d : Definition} {n : Name} {bar : Bool} {t : Text}
    {ts : List Text} (h : d.units.flatten.map Lexeme.shown =
      (enumeration n bar t ts).units.flatten.map Lexeme.shown) : d = .enumeration n bar t ts := by
  cases d with
  | component c =>
      rw [map_shown_enumeration] at h
      cases hmemory : c.hasMemory <;> simp [units, hmemory] at h
  | record n' f fs =>
      rw [map_shown_enumeration] at h
      cases bar <;> simp [units, Units.barIf] at h
  | enumeration n' bar' t' ts' =>
      rw [map_shown_enumeration, map_shown_enumeration] at h
      have htake : ∀ n bar t ts, take? (enumeration n bar t ts).units.flatten =
          some (.enumeration n bar t ts, []) := fun n bar t ts =>
        take?_eq_some_iff.mpr ⟨(List.append_nil _).symm, fun t us => by simp⟩
      have hsame := htake n bar t ts
      rw [← h, htake] at hsame
      exact congrArg Prod.fst (Option.some.inj hsame)

namespace Program

variable {p q r : Program}

/-- What the definitions of a program show, one by one. -/
def texts (p : Program) : List (List Lexeme) := p.map fun d => d.units.flatten.map Lexeme.shown

theorem flatten_texts (p : Program) : p.texts.flatten = p.units.flatten.map Lexeme.shown := by
  induction p with
  | nil => rfl
  | cons d p ih =>
    rw [units_cons, List.flatten_append, List.map_append, ← ih]
    rfl

/-- A program with the same definitions in the same places has the same beginnings. -/
theorem Begins.exists_of_texts (h : q.Begins p) (htexts : r.texts = p.texts) :
    ∃ q' : Program, q'.Begins r ∧ q'.texts = q.texts := by
  induction h generalizing r with
  | nil p => exact ⟨[], .nil r, rfl⟩
  | variants n bar t ts more p =>
      obtain ⟨d, r, rfl, hd, -⟩ := List.map_eq_cons_iff.mp htexts
      obtain rfl := Definition.eq_enumeration hd
      exact ⟨_, .variants n bar t ts more r, rfl⟩
  | cons d h ih =>
      obtain ⟨d', r, rfl, hd, hr⟩ := List.map_eq_cons_iff.mp htexts
      obtain ⟨q', hq', hq⟩ := ih hr
      exact ⟨_, .cons d' hq', congrArg₂ List.cons hd hq⟩

end Program

end Heptagon
