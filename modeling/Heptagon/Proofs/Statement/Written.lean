import Heptagon.Proofs.Declaration.Written
import Heptagon.Statement.Parser

/-!
# How statements are written

The units of equations and of the control structures around them, and the
conditions under which a statement is how the reader reads its text.  They
speak of the lexemes that follow, since a statement has no end of its own:
`Statement.Fits alone s ts` says that `s` is what is read in front of `ts`.
-/

namespace Heptagon

/-! ## Units -/

def Target.lexemes : Target → List Lexeme
  | single n => [.word n]
  | several o n ns => o.lexeme :: .word n ::
      ((Name.moreUnits ns).flatten ++ [.symbol .parenClose])

def Equation.lexemes (e : Equation) : List Lexeme :=
  e.target.lexemes ++ .symbol .equal :: e.value.lexemes

/-- Equations with a semicolon before each. -/
def Equation.moreLexemes (es : List Equation) : List Lexeme :=
  es.flatMap fun e => .symbol .semicolon :: e.lexemes

def Equations.lexemes (es : Equations) : List Lexeme :=
  es.first.lexemes ++ (Equation.moreLexemes es.others ++ (Units.semicolonIf es.semicolon).flatten)

def Transition.units (t : Transition) : Units :=
  [.kw (if t.strong then .unless_ else .until_)] ::
    (Units.ofLexemes t.guard.lexemes ++ [[.kw .then_], t.goal.lexemes])

mutual

def Statement.units : Statement → Units
  | .equations es => Units.ofLexemes es.lexemes
  | .automaton locals states =>
      [.kw .automaton] :: (Locals.unitsOf locals ++ (states.units ++ [[.kw .end_]]))
  | .switch x cases => [.kw .switch] :: [.word x] :: (cases.units ++ [[.kw .end_]])
  | .present branches => [.kw .present] :: (branches.units ++ [[.kw .end_]])
  | .reset body e => [.kw .reset] :: (body.units ++ [.kw .every] :: Units.ofLexemes e.lexemes)

def Statements.units : Statements → Units
  | .nil => []
  | .cons s ss => s.units ++ ss.units

def States.units : States → Units
  | .nil => []
  | .cons name locals body transitions tail =>
      [.kw .state] :: name.lexemes :: (Locals.unitsOf locals ++
        [.kw .do_] :: (body.units ++ (transitions.flatMap Transition.units ++ tail.units)))

def Cases.units : Cases → Units
  | .nil => []
  | .cons t s ss tail =>
      [.symbol .bar] :: [.capital t] :: [.kw .do_] :: (s.units ++ (ss.units ++ tail.units))

def Branches.units : Branches → Units
  | .nil => []
  | .otherwise s => [.kw .default] :: [.kw .do_] :: s.units
  | .cons e s tail =>
      [.symbol .bar] :: (Units.ofLexemes e.lexemes ++ [.kw .do_] :: (s.units ++ tail.units))

end

/-! ## The tokens of the trees -/

@[simp] theorem Units.shown_ofLexemes_moreUnits (ns : List Name) :
    (Units.ofLexemes (Name.moreUnits ns).flatten).shown = (Name.moreUnits ns).shown := by
  induction ns with
  | nil => rfl
  | cons n ns ih => simpa [Name.moreUnits] using ih

@[simp] theorem Units.shown_ofLexemes_semicolonIf (b : Bool) :
    (Units.ofLexemes (Units.semicolonIf b).flatten).shown = (Units.semicolonIf b).shown := by
  cases b <;> rfl

@[simp] theorem Equation.unitsAll_tree_cons (e : Equation) (us : List Tree) :
    Tree.unitsAll (e.tree :: us) = (Units.ofLexemes e.lexemes).shown ++ Tree.unitsAll us := by
  obtain ⟨target, value⟩ := e
  cases target <;>
    simp [Equation.tree, Equation.lexemes, Target.trees, Target.lexemes, Expr.unitsAll_tree_cons]

@[simp] theorem Equation.unitsAll_flatMap_tree (es : List Equation) :
    Tree.unitsAll (es.flatMap fun e => [.sym .semicolon, e.tree]) =
      (Units.ofLexemes (moreLexemes es)).shown := by
  induction es with
  | nil => rfl
  | cons e es ih => simpa [moreLexemes] using ih

@[simp] theorem Equations.unitsAll_tree_cons (es : Equations) (us : List Tree) :
    Tree.unitsAll (es.tree :: us) = (Units.ofLexemes es.lexemes).shown ++ Tree.unitsAll us := by
  simp [Equations.tree, Equations.lexemes]

@[simp] theorem Transition.unitsAll_map_tree (ts : List Transition) :
    Tree.unitsAll (ts.map Transition.tree) = Units.shown (ts.flatMap Transition.units) := by
  induction ts with
  | nil => rfl
  | cons t ts ih =>
      simp only [List.map_cons, Transition.tree, Tree.unitsAll_node_cons, List.flatMap_cons,
        Units.shown_append, ih]
      simp [Transition.units, Expr.unitsAll_tree_cons]

mutual

@[simp] theorem Statement.unitsAll_tree_cons (s : Statement) (us : List Tree) :
    Tree.unitsAll (s.tree :: us) = s.units.shown ++ Tree.unitsAll us := by
  cases s with
  | equations es => simp [Statement.tree, Statement.units]
  | automaton locals states =>
      simp [Statement.tree, Statement.units, States.unitsAll_trees states]
  | switch x cases => simp [Statement.tree, Statement.units, Cases.unitsAll_trees cases]
  | present branches =>
      simp [Statement.tree, Statement.units, Branches.unitsAll_trees branches]
  | reset body e =>
      simp [Statement.tree, Statement.units, Statements.unitsAll_trees body,
        Expr.unitsAll_tree_cons]

@[simp] theorem Statements.unitsAll_trees (ss : Statements) :
    Tree.unitsAll ss.trees = ss.units.shown := by
  cases ss with
  | nil => rfl
  | cons s ss =>
      simp [Statements.trees, Statements.units, Statement.unitsAll_tree_cons s,
        Statements.unitsAll_trees ss]

@[simp] theorem States.unitsAll_trees (states : States) :
    Tree.unitsAll states.trees = states.units.shown := by
  cases states with
  | nil => rfl
  | cons name locals body transitions tail =>
      simp [States.trees, States.units, Statements.unitsAll_trees body,
        States.unitsAll_trees tail]

@[simp] theorem Cases.unitsAll_trees (cases_ : Cases) :
    Tree.unitsAll cases_.trees = cases_.units.shown := by
  cases cases_ with
  | nil => rfl
  | cons t s ss tail =>
      simp [Cases.trees, Cases.units, Statement.unitsAll_tree_cons s,
        Statements.unitsAll_trees ss, Cases.unitsAll_trees tail]

@[simp] theorem Branches.unitsAll_trees (branches : Branches) :
    Tree.unitsAll branches.trees = branches.units.shown := by
  cases branches with
  | nil => rfl
  | otherwise s =>
      simp [Branches.trees, Branches.units, Statement.unitsAll_tree_cons s]
  | cons e s tail =>
      simp [Branches.trees, Branches.units, Statement.unitsAll_tree_cons s,
        Expr.unitsAll_tree_cons, Branches.unitsAll_trees tail]

end

/-! ## Statements that fit -/

/-- Whether the target is a single name with one of some spellings. -/
def Target.isAmong (ks : List Keyword) : Target → Bool
  | single (.keyword k) => ks.contains k
  | _ => false

def Equation.Normal (e : Equation) : Prop := e.value.Normal

/-- The last of some equations after a first one. -/
def Equation.lastOr (e : Equation) : List Equation → Equation
  | [] => e
  | f :: fs => lastOr f fs

/-- No semicolon follows that would belong to the equations. -/
def Equations.Ends (alone : Bool) (ts : List Lexeme) : Prop :=
  if alone then ∀ t us, ts ≠ .symbol .semicolon :: t :: us
  else ts.head? ≠ some (.symbol .semicolon)

/-- The equations are what is read in front of some lexemes. -/
structure Equations.Fits (alone : Bool) (es : Equations) (ts : List Lexeme) : Prop where
  first : es.first.Normal
  others : ∀ e ∈ es.others, e.Normal ∧ e.target.isAmong [.default, .end_] = false
  starts : es.first.target.isAmong [.automaton, .switch, .present, .reset] = false
  single : alone = false → es.others = []
  closed : alone = true → es.semicolon = true → ∃ t us, ts = t :: us ∧ Branches.closes t = true
  stops : es.semicolon = false → (Equation.lastOr es.first es.others).value.Stops ts ∧ Ends alone ts

/-- The expression is what is read as the signal of a `reset` in front of some lexemes. -/
def Expr.Signals (e : Expr) (ts : List Lexeme) : Prop :=
  (e.Normal ∧ e.Stops ts ∧ ts.head? ≠ some (.symbol .semicolon)) ∨
    ∃ (whole : Expr) (us : List Lexeme), whole.Normal ∧ whole.Stops (.symbol .semicolon :: us) ∧
      whole.lexemes ++ .symbol .semicolon :: us = e.lexemes ++ ts ∧
      whole.beforeEquation? none = some e

/-- The transitions are what is read in front of some lexemes. -/
def Transition.Fit : List Transition → List Lexeme → Prop
  | [], ts => ts.head? ≠ some (.kw .unless_) ∧ ts.head? ≠ some (.kw .until_)
  | t :: trs, ts => t.guard.Normal ∧ t.goal.Normal ∧
      t.goal.Stops ((trs.flatMap units).flatten ++ ts) ∧ Fit trs ts

mutual

/-- The statement is what is read in front of some lexemes; `alone` says that no other statement
may follow it. -/
def Statement.Fits (alone : Bool) : Statement → List Lexeme → Prop
  | .equations es, ts => es.Fits alone ts
  | .automaton locals states, ts =>
      (∀ l ∈ locals, l.Normal) ∧ states.Fits (.kw .end_ :: ts)
  | .switch _ cases, ts => cases.Fits (.kw .end_ :: ts)
  | .present branches, ts => branches.Fits (.kw .end_ :: ts)
  | .reset body e, ts => body.Fits .reset (.kw .every :: (e.lexemes ++ ts)) ∧ e.Signals ts

/-- The statements are what is read in front of some lexemes, the first of which closes them. -/
def Statements.Fits (b : Body) : Statements → List Lexeme → Prop
  | .nil, ts => ∃ t us, ts = t :: us ∧ b.closes t = true
  | .cons s ss, ts => (∀ t ∈ s.units.flatten.head?, b.closes t = false) ∧
      s.Fits false (ss.units.flatten ++ ts) ∧ ss.Fits b ts

def States.Fits : States → List Lexeme → Prop
  | .nil, ts => ts.head? ≠ some (.kw .state)
  | .cons name locals body transitions tail, ts =>
      name.Normal ∧ (∀ l ∈ locals, l.Normal) ∧
      body.Fits .state ((transitions.flatMap Transition.units).flatten ++
        (tail.units.flatten ++ ts)) ∧
      Transition.Fit transitions (tail.units.flatten ++ ts) ∧ tail.Fits ts

def Cases.Fits : Cases → List Lexeme → Prop
  | .nil, ts => ∀ t us, ts ≠ .symbol .bar :: .capital t :: .kw .do_ :: us
  | .cons _ s ss tail, ts =>
      s.Fits false (ss.units.flatten ++ (tail.units.flatten ++ ts)) ∧
      ss.Fits .case (tail.units.flatten ++ ts) ∧ tail.Fits ts

def Branches.Fits : Branches → List Lexeme → Prop
  | .nil, ts => ts.head? ≠ some (.symbol .bar) ∧ ∀ us, ts ≠ .kw .default :: .kw .do_ :: us
  | .otherwise s, ts => s.Fits true ts
  | .cons e s tail, ts =>
      e.Normal ∧ s.Fits true (tail.units.flatten ++ ts) ∧ tail.Fits ts

end

end Heptagon
