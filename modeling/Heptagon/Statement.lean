import Heptagon.Declaration

/-!
# Statements

The equations of a component and the control structures around them:
`switch`, `present`, `reset` and automata.
-/

namespace Heptagon

/-- What an equation defines. -/
inductive Target where
  | single (n : Name)
  /-- one or more names in parentheses -/
  | several (opening : Opening) (first : Name) (others : List Name)
  deriving DecidableEq, Repr

def Target.trees : Target → List Tree
  | single n => [.name n]
  | several _ n ns => .sym .parenOpen :: .name n :: (Name.more ns ++ [.sym .parenClose])

structure Equation where
  target : Target
  value : Expr
  deriving DecidableEq, Repr

def Equation.tree (e : Equation) : Tree :=
  .node .equation (e.target.trees ++ [.sym .equal, e.value.tree])

/-- Equations separated by semicolons; another semicolon may end them. -/
structure Equations where
  first : Equation
  others : List Equation
  semicolon : Bool
  deriving DecidableEq, Repr

def Equations.tree (es : Equations) : Tree :=
  .node .equationList (es.first.tree ::
    (es.others.flatMap (fun e => [.sym .semicolon, e.tree]) ++ Tree.semicolonIf es.semicolon))

/-- A way out of a state: `unless` leaves before the state acts, `until` after. -/
structure Transition where
  strong : Bool
  guard : Expr
  goal : StateName
  deriving DecidableEq, Repr

def Transition.tree (t : Transition) : Tree :=
  .node .automatonTransition
    [.kw (if t.strong then .unless_ else .until_), t.guard.tree, .kw .then_,
      .leaf (.state t.goal)]

mutual

inductive Statement where
  | equations (es : Equations)
  | automaton (locals : Option Locals) (states : States)
  | switch (scrutinee : Name) (cases : Cases)
  | present (branches : Branches)
  | reset (body : Statements) (signal : Expr)

inductive Statements where
  | nil
  | cons (head : Statement) (tail : Statements)

inductive States where
  | nil
  | cons (name : StateName) (locals : Option Locals) (body : Statements)
      (transitions : List Transition) (tail : States)

/-- The cases of a `switch`, each with at least one statement. -/
inductive Cases where
  | nil
  | cons (variant : Text) (first : Statement) (others : Statements) (tail : Cases)

/-- The branches of a `present`; a default branch may end them. -/
inductive Branches where
  | nil
  | otherwise (s : Statement)
  | cons (guard : Expr) (s : Statement) (tail : Branches)

end

deriving instance DecidableEq, Repr for Statement, Statements, States, Cases, Branches

mutual

def Statement.tree : Statement → Tree
  | .equations es => es.tree
  | .automaton locals states => .node .automaton
      (.kw .automaton :: (Locals.trees locals ++ states.trees ++ [.kw .end_]))
  | .switch n cases => .node .switchStatement
      (.kw .switch :: .name n :: (cases.trees ++ [.kw .end_]))
  | .present branches => .node .presentStatement
      (.kw .present :: (branches.trees ++ [.kw .end_]))
  | .reset body e => .node .resetStatement
      (.kw .reset :: (body.trees ++ [.kw .every, e.tree]))

def Statements.trees : Statements → List Tree
  | .nil => []
  | .cons s ss => s.tree :: ss.trees

def States.trees : States → List Tree
  | .nil => []
  | .cons name locals body transitions tail =>
    .node .automatonState
      (.kw .state :: .leaf (.state name) :: (Locals.trees locals ++
        .kw .do_ :: (body.trees ++ transitions.map Transition.tree))) :: tail.trees

def Cases.trees : Cases → List Tree
  | .nil => []
  | .cons t s ss tail =>
    .sym .bar :: .leaf (.variant t) :: .kw .do_ :: s.tree :: (ss.trees ++ tail.trees)

def Branches.trees : Branches → List Tree
  | .nil => []
  | .otherwise s => [.kw .default, .kw .do_, s.tree]
  | .cons e s tail => .sym .bar :: e.tree :: .kw .do_ :: s.tree :: tail.trees

end

end Heptagon
