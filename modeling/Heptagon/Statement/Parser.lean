import Heptagon.Statement
import Heptagon.Declaration.Parser
import Heptagon.Expr.Fork

/-!
# Reading statements

`automaton`, `switch`, `present` and `reset` are keywords at the start of a
statement, and so are the words that close the list of statements at hand.
Any other word starts an equation.

Where statements follow each other, an equation is a statement of its own,
with a semicolon after it if there is one.  Where only one statement may
stand, in the branches of a `present`, all equations up to the end of the
branch are one statement.
-/

namespace Heptagon

/-- The names that an equation defines. -/
def Target.take? : List Lexeme → Option (Target × List Lexeme)
  | .word w :: ts => some (.single w, ts)
  | ts => do
    let (opening, ts) ← Opening.take? ts
    let (first, ts) ← Name.take? ts
    let (others, ts) := Name.takeMore ts
    let ts ← Lexeme.skipSym .parenClose ts
    return (.several opening first others, ts)

def Equation.take? (ts : List Lexeme) : Option (Equation × List Lexeme) := do
  let (target, ts) ← Target.take? ts
  let ts ← Lexeme.skipSym .equal ts
  let (value, ts) ← Expr.take? ts
  return (⟨target, value⟩, ts)

/-- An equation with its semicolon, if it has one. -/
def Equations.takeOne (ts : List Lexeme) : Option (Equations × List Lexeme) := do
  let (e, ts) ← Equation.take? ts
  match ts with
  | .symbol .semicolon :: ts => return (⟨e, [], true⟩, ts)
  | ts => return (⟨e, [], false⟩, ts)

/-- Whether a lexeme after a semicolon closes the equations of a branch. -/
def Branches.closes : Lexeme → Bool
  | .kw .default => true
  | .kw .end_ => true
  | .symbol .bar => true
  | _ => false

/-- The equations of a branch after the first one, and whether a semicolon ends them. -/
def Equations.takeMore : (steps : Nat) → List Lexeme → Option ((List Equation × Bool) × List Lexeme)
  | n + 1, .symbol .semicolon :: t :: ts =>
    if Branches.closes t then some (([], true), t :: ts)
    else do
      let (e, ts) ← Equation.take? (t :: ts)
      let ((es, semicolon), ts) ← Equations.takeMore n ts
      return ((e :: es, semicolon), ts)
  | _, ts => some (([], false), ts)

/-- All equations of a branch. -/
def Equations.takeAll (ts : List Lexeme) : Option (Equations × List Lexeme) := do
  let (e, ts) ← Equation.take? ts
  let ((es, semicolon), ts) ← Equations.takeMore ts.length ts
  return (⟨e, es, semicolon⟩, ts)

/-- The ways out of a state, as many as there are. -/
def Transition.takeMore : (steps : Nat) → List Lexeme → Option (List Transition × List Lexeme)
  | 0, _ => none
  | n + 1, .kw .unless_ :: ts => do
    let (guard, ts) ← Expr.take? ts
    let ts ← Lexeme.skipKw .then_ ts
    let (goal, ts) ← StateName.take? ts
    let (others, ts) ← Transition.takeMore n ts
    return (⟨true, guard, goal⟩ :: others, ts)
  | n + 1, .kw .until_ :: ts => do
    let (guard, ts) ← Expr.take? ts
    let ts ← Lexeme.skipKw .then_ ts
    let (goal, ts) ← StateName.take? ts
    let (others, ts) ← Transition.takeMore n ts
    return (⟨false, guard, goal⟩ :: others, ts)
  | _ + 1, ts => some ([], ts)

/-- The signal of a `reset`.  It has no semicolon of its own, so a semicolon after it belongs to
an equation, and the signal ends where the first possible equation starts. -/
def Expr.takeSignal? (ts : List Lexeme) : Option (Expr × List Lexeme) := do
  let (e, rest) ← Expr.take? ts
  match rest with
  | .symbol .semicolon :: _ => do
    let e ← e.beforeEquation? none
    return (e, ts.drop e.tree.width)
  | _ => return (e, rest)

/-- Where statements follow each other. -/
inductive Body where
  /-- the equations of a component -/
  | block
  /-- a case of a `switch`, after its first statement -/
  | case
  | reset
  /-- a state of an automaton -/
  | state
  deriving DecidableEq, Repr

/-- Whether a lexeme where a statement may start closes the list of statements instead. -/
def Body.closes : Body → Lexeme → Bool
  | block, .kw .tel => true
  | case, .kw .end_ => true
  | case, .symbol .bar => true
  | reset, .kw .every => true
  | state, .kw .state => true
  | state, .kw .unless_ => true
  | state, .kw .until_ => true
  | state, .kw .end_ => true
  | _, _ => false

mutual

/-- A statement; `alone` says that no other may follow it. -/
def Statement.takeIn : (steps : Nat) → (alone : Bool) → List Lexeme →
    Option (Statement × List Lexeme)
  | 0, _, _ => none
  | n + 1, _, .kw .automaton :: ts => do
    let (locals, ts) ← Locals.take? ts
    let (states, ts) ← States.takeIn n ts
    let ts ← Lexeme.skipKw .end_ ts
    return (.automaton locals states, ts)
  | n + 1, _, .kw .switch :: ts => do
    let (x, ts) ← Name.take? ts
    let (cases, ts) ← Cases.takeIn n ts
    let ts ← Lexeme.skipKw .end_ ts
    return (.switch x cases, ts)
  | n + 1, _, .kw .present :: ts => do
    let (branches, ts) ← Branches.takeIn n ts
    let ts ← Lexeme.skipKw .end_ ts
    return (.present branches, ts)
  | n + 1, _, .kw .reset :: ts => do
    let (body, ts) ← Statements.takeIn n .reset ts
    let ts ← Lexeme.skipKw .every ts
    let (signal, ts) ← Expr.takeSignal? ts
    return (.reset body signal, ts)
  | _ + 1, alone, ts => do
    let (es, ts) ← if alone then Equations.takeAll ts else Equations.takeOne ts
    return (.equations es, ts)

/-- The statements up to what closes their list. -/
def Statements.takeIn : (steps : Nat) → Body → List Lexeme → Option (Statements × List Lexeme)
  | 0, _, _ => none
  | _ + 1, _, [] => none
  | n + 1, b, t :: ts =>
    if b.closes t then some (.nil, t :: ts)
    else do
      let (s, ts) ← Statement.takeIn n false (t :: ts)
      let (ss, ts) ← Statements.takeIn n b ts
      return (.cons s ss, ts)

/-- The states of an automaton, as many as there are. -/
def States.takeIn : (steps : Nat) → List Lexeme → Option (States × List Lexeme)
  | 0, _ => none
  | n + 1, .kw .state :: ts => do
    let (name, ts) ← StateName.take? ts
    let (locals, ts) ← Locals.take? ts
    let ts ← Lexeme.skipKw .do_ ts
    let (body, ts) ← Statements.takeIn n .state ts
    let (transitions, ts) ← Transition.takeMore (ts.length + 1) ts
    let (others, ts) ← States.takeIn n ts
    return (.cons name locals body transitions others, ts)
  | _ + 1, ts => some (.nil, ts)

/-- The cases of a `switch`, as many as there are. -/
def Cases.takeIn : (steps : Nat) → List Lexeme → Option (Cases × List Lexeme)
  | 0, _ => none
  | n + 1, .symbol .bar :: .capital t :: .kw .do_ :: ts => do
    let (first, ts) ← Statement.takeIn n false ts
    let (others, ts) ← Statements.takeIn n .case ts
    let (cases, ts) ← Cases.takeIn n ts
    return (.cons t first others cases, ts)
  | _ + 1, ts => some (.nil, ts)

/-- The branches of a `present`, as many as there are. -/
def Branches.takeIn : (steps : Nat) → List Lexeme → Option (Branches × List Lexeme)
  | 0, _ => none
  | n + 1, .symbol .bar :: ts => do
    let (guard, ts) ← Expr.take? ts
    let ts ← Lexeme.skipKw .do_ ts
    let (s, ts) ← Statement.takeIn n true ts
    let (others, ts) ← Branches.takeIn n ts
    return (.cons guard s others, ts)
  | n + 1, .kw .default :: .kw .do_ :: ts => do
    let (s, ts) ← Statement.takeIn n true ts
    return (.otherwise s, ts)
  | _ + 1, ts => some (.nil, ts)

end

/-- As many steps as the readers of statements can need for a list of lexemes. -/
def Statement.steps (ts : List Lexeme) : Nat := 2 * ts.length + 2

/-- The statements of a component, up to the word that closes them. -/
def Statements.take? (ts : List Lexeme) : Option (Statements × List Lexeme) :=
  Statements.takeIn (Statement.steps ts) .block ts

end Heptagon
