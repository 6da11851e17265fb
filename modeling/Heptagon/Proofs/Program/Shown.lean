import Heptagon.Proofs.Plain
import Heptagon.Proofs.Program.Reading

/-!
# What plain programs show

No parenthesis of a plain program is set apart, so its units are the ones that
its tree shows (`Program.shown_units`): the text of a plain program can be told
from its tree.
-/

namespace Heptagon

theorem Units.map_shown_flatten {us : Units} (h : us.shown = us) :
    us.flatten.map Lexeme.shown = us.flatten := by
  rw [← flatten_shown, h]

theorem Units.shown_flatMap {α : Type} {f : α → Units} {xs : List α}
    (h : ∀ x ∈ xs, (f x).shown = f x) : shown (xs.flatMap f) = xs.flatMap f := by
  induction xs with
  | nil => rfl
  | cons x xs ih =>
      obtain ⟨hx, hxs⟩ := List.forall_mem_cons.mp h
      rw [List.flatMap_cons, shown_append, hx, ih hxs]

/-! ## Expressions -/

mutual

theorem Literal.map_shown_lexemes (l : Literal) (h : l.Plain) :
    l.lexemes.map Lexeme.shown = l.lexemes := by
  cases l with
  | number t => rfl
  | bool value => cases value <;> rfl
  | array es => simp [Literal.lexemes, Exprs.map_shown_lexemes es h]

theorem Expr.map_shown_lexemes (e : Expr) (h : e.Plain) :
    e.lexemes.map Lexeme.shown = e.lexemes := by
  cases e with
  | literal l => exact Literal.map_shown_lexemes l h
  | name n => rfl
  | paren o e =>
      obtain ⟨rfl, he⟩ := h
      simp [Expr.lexemes, Opening.lexeme, Expr.map_shown_lexemes e he]
  | tuple o e f es =>
      obtain ⟨rfl, he, hf, hes⟩ := h
      simp [Expr.lexemes, Opening.lexeme, Expr.map_shown_lexemes e he,
        Expr.map_shown_lexemes f hf, Exprs.map_shown_moreLexemes es hes]
  | record n e fs =>
      simp [Expr.lexemes, Expr.map_shown_lexemes e h.2.1, Fields.map_shown_moreLexemes fs h.2.2]
  | call f args => simp [Expr.lexemes, Args.map_shown_lexemes args h.2]
  | unary op e => simp [Expr.lexemes, Expr.map_shown_lexemes e h]
  | binary l op r =>
      simp [Expr.lexemes, Expr.map_shown_lexemes l h.1, Expr.map_shown_lexemes r h.2]
  | cond c y n =>
      simp [Expr.lexemes, Expr.map_shown_lexemes c h.1, Expr.map_shown_lexemes y h.2.1,
        Expr.map_shown_lexemes n h.2.2]

theorem Exprs.map_shown_lexemes (es : Exprs) (h : es.Plain) :
    es.lexemes.map Lexeme.shown = es.lexemes := by
  cases es with
  | nil => rfl
  | cons e es =>
      simp [Exprs.lexemes, Expr.map_shown_lexemes e h.1, Exprs.map_shown_moreLexemes es h.2]

theorem Exprs.map_shown_moreLexemes (es : Exprs) (h : es.Plain) :
    es.moreLexemes.map Lexeme.shown = es.moreLexemes := by
  cases es with
  | nil => rfl
  | cons e es =>
      simp [Exprs.moreLexemes, Expr.map_shown_lexemes e h.1, Exprs.map_shown_moreLexemes es h.2]

theorem Fields.map_shown_moreLexemes (fs : Fields) (h : fs.Plain) :
    fs.moreLexemes.map Lexeme.shown = fs.moreLexemes := by
  cases fs with
  | nil => rfl
  | cons n e fs =>
      simp [Fields.moreLexemes, Expr.map_shown_lexemes e h.2.1,
        Fields.map_shown_moreLexemes fs h.2.2]

theorem Args.map_shown_lexemes (args : Args) (h : args.Plain) :
    args.lexemes.map Lexeme.shown = args.lexemes := by
  cases args with
  | nil => rfl
  | group e es rest =>
      simp [Args.lexemes, Expr.map_shown_lexemes e h.1, Exprs.map_shown_moreLexemes es h.2.1,
        Args.map_shown_lexemes rest h.2.2]

end

/-! ## Declarations -/

@[simp] theorem Name.shown_moreUnits (ns : List Name) :
    (Name.moreUnits ns).shown = Name.moreUnits ns :=
  Units.shown_flatMap fun _ _ => rfl

@[simp] theorem Ty.shown_units (t : Ty) : t.units.shown = t.units := by
  induction t with
  | base b => rfl
  | named n => rfl
  | array t s ih => cases s <;> simp [units, Size.lexeme, ih]

theorem Sampling.shown_units {s : Sampling} (h : s.Plain) : s.units.shown = s.units := by
  simp [units, h.opening, Opening.lexeme]

theorem Clock.shown_unitsOf {c : Option Clock}
    (h : ∀ c' ∈ c, ∀ s ∈ c'.first :: c'.others, s.Plain) : (unitsOf c).shown = unitsOf c := by
  cases c with
  | none => rfl
  | some c =>
      have hall := Units.shown_flatMap fun s hs => Sampling.shown_units (h c rfl s hs)
      simp [unitsOf, units, -List.flatMap_cons, hall]

theorem VarGroup.shown_units {g : VarGroup} (h : g.Plain) : g.units.shown = g.units := by
  simp [units, Clock.shown_unitsOf h.clock]

theorem Init.shown_units {i : Init} (h : i.Plain) : i.units.shown = i.units := by
  cases i with
  | name n => rfl
  | literal l => rw [units, Units.shown_ofLexemes, l.map_shown_lexemes h]

theorem Declaration.shown_units {d : Declaration} (h : d.Plain) : d.units.shown = d.units := by
  cases d with
  | plain g => exact VarGroup.shown_units h
  | last g i => simp [units, VarGroup.shown_units h.1, Init.shown_units h.2]

theorem Declaration.shown_moreUnits {ds : List Declaration} (h : ∀ d ∈ ds, d.Plain) :
    (moreUnits ds).shown = moreUnits ds :=
  Units.shown_flatMap fun d hd => by simp [shown_units (h d hd)]

@[simp] theorem Units.shown_semicolonIf (b : Bool) : (semicolonIf b).shown = semicolonIf b := by
  cases b <;> rfl

theorem Params.shown_units {p : Params} (h : p.Plain) : p.units.shown = p.units := by
  cases p with
  | empty o =>
      obtain rfl := h
      rfl
  | list o d ds semicolon =>
      obtain ⟨rfl, hds⟩ := h
      obtain ⟨hd, hds⟩ := List.forall_mem_cons.mp hds
      simp [units, Opening.lexeme, Declaration.shown_units hd, Declaration.shown_moreUnits hds]

theorem Locals.shown_unitsOf {l : Option Locals} (h : ∀ l' ∈ l, l'.Plain) :
    (unitsOf l).shown = unitsOf l := by
  cases l with
  | none => rfl
  | some l =>
      obtain ⟨hd, hds⟩ := List.forall_mem_cons.mp (h l rfl)
      simp [unitsOf, units, Declaration.shown_units hd, Declaration.shown_moreUnits hds]

/-! ## Statements -/

theorem Target.map_shown_lexemes {t : Target} (h : t.Plain) :
    t.lexemes.map Lexeme.shown = t.lexemes := by
  cases t with
  | single n => rfl
  | several o n ns =>
      obtain ⟨rfl, -⟩ := h
      have hmore := Units.map_shown_flatten (Name.shown_moreUnits ns)
      simp [lexemes, Opening.lexeme, -List.map_flatten, hmore]

theorem Equation.map_shown_lexemes {e : Equation} (h : e.Plain) :
    e.lexemes.map Lexeme.shown = e.lexemes := by
  simp [lexemes, Target.map_shown_lexemes h.target, e.value.map_shown_lexemes h.value]

theorem Equation.map_shown_moreLexemes {es : List Equation} (h : ∀ e ∈ es, e.Plain) :
    (moreLexemes es).map Lexeme.shown = moreLexemes es := by
  induction es with
  | nil => rfl
  | cons e es ih =>
      obtain ⟨he, hes⟩ := List.forall_mem_cons.mp h
      have hmore := ih hes
      simp only [moreLexemes, List.flatMap_cons, List.map_append] at hmore ⊢
      simp [hmore, map_shown_lexemes he]

theorem Equations.map_shown_lexemes {es : Equations} (h : es.Plain) :
    es.lexemes.map Lexeme.shown = es.lexemes := by
  obtain ⟨he, hes⟩ := List.forall_mem_cons.mp h
  have hend := Units.map_shown_flatten (Units.shown_semicolonIf es.semicolon)
  simp [lexemes, Equation.map_shown_lexemes he, Equation.map_shown_moreLexemes hes,
    -List.map_flatten, hend]

theorem Transition.shown_units {t : Transition} (h : t.Plain) : t.units.shown = t.units := by
  simp [units, Units.shown_ofLexemes, t.guard.map_shown_lexemes h.guard]

mutual

theorem Statement.shown_units (s : Statement) (h : s.Plain) : s.units.shown = s.units := by
  cases s with
  | equations es => rw [Statement.units, Units.shown_ofLexemes, Equations.map_shown_lexemes h]
  | automaton locals states =>
      simp [Statement.units, Locals.shown_unitsOf h.1, States.shown_units states h.2]
  | switch x cases_ => simp [Statement.units, Cases.shown_units cases_ h.2]
  | present branches => simp [Statement.units, Branches.shown_units branches h]
  | reset body e =>
      simp [Statement.units, Statements.shown_units body h.1, Units.shown_ofLexemes,
        e.map_shown_lexemes h.2]

theorem Statements.shown_units (ss : Statements) (h : ss.Plain) : ss.units.shown = ss.units := by
  cases ss with
  | nil => rfl
  | cons s ss =>
      simp [Statements.units, Statement.shown_units s h.1, Statements.shown_units ss h.2]

theorem States.shown_units (states : States) (h : states.Plain) :
    states.units.shown = states.units := by
  cases states with
  | nil => rfl
  | cons name locals body transitions tail =>
      obtain ⟨-, hlocals, hbody, htransitions, htail⟩ := h
      have hall := Units.shown_flatMap fun t ht => Transition.shown_units (htransitions t ht)
      simp [States.units, Locals.shown_unitsOf hlocals, Statements.shown_units body hbody, hall,
        States.shown_units tail htail]

theorem Cases.shown_units (cases_ : Cases) (h : cases_.Plain) :
    cases_.units.shown = cases_.units := by
  cases cases_ with
  | nil => rfl
  | cons t s ss tail =>
      simp [Cases.units, Statement.shown_units s h.1, Statements.shown_units ss h.2.1,
        Cases.shown_units tail h.2.2]

theorem Branches.shown_units (branches : Branches) (h : branches.Plain) :
    branches.units.shown = branches.units := by
  cases branches with
  | nil => rfl
  | otherwise s => simp [Branches.units, Statement.shown_units s h]
  | cons e s tail =>
      simp [Branches.units, Units.shown_ofLexemes, e.map_shown_lexemes h.1,
        Statement.shown_units s h.2.1, Branches.shown_units tail h.2.2]

end

/-! ## Programs -/

theorem Generic.shown_unitsOf (g : Option Generic) : (unitsOf g).shown = unitsOf g := by
  cases g with
  | none => rfl
  | some g => simp [unitsOf, units]

theorem Component.shown_units {c : Component} (h : c.Plain) : c.units.shown = c.units := by
  simp [units, Generic.shown_unitsOf, Params.shown_units h.inputs, Params.shown_units h.outputs,
    Locals.shown_unitsOf h.locals, c.body.shown_units h.body]

@[simp] theorem FieldType.shown_units (f : FieldType) : f.units.shown = f.units := by
  simp [units]

theorem Definition.shown_units {d : Definition} (h : d.Plain) : d.units.shown = d.units := by
  cases d with
  | component c => simp [units, Component.shown_units h]
  | record n f fs =>
      have hall : (FieldType.moreUnits fs).shown = FieldType.moreUnits fs :=
        Units.shown_flatMap fun f _ => by simp
      simp [units, hall]
  | enumeration n bar t ts =>
      have hall : (variantUnits ts).shown = variantUnits ts := Units.shown_flatMap fun _ _ => rfl
      cases bar <;> simp [units, Units.barIf, hall]

/-- The tree of a plain program shows its text. -/
theorem Program.shown_units {p : Program} (h : p.Plain) : p.units.shown = p.units :=
  Units.shown_flatMap fun d hd => Definition.shown_units (h d hd)

end Heptagon
