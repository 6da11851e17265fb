import Heptagon.Division.Cue
import Heptagon.Division.Shape

/-!
# Spots

A spot says what has just been read and what may come next, as far as the cues
of a scene tell.  `Spot.move` gives the next step of a reading: to take a cue,
or to put the parts read last together first.

A name before an opening parenthesis is the one spot with two ways to go on:
it may be called, or it may end what comes before the parenthesis.
-/

namespace Heptagon

/-- A place for an expression.  It is loose if something that starts with a parenthesis may follow
the expression directly. -/
inductive Place where
  /-- after the equality sign of an equation: for a name, for a name in parentheses, for several
  names -/
  | value | parenValue | values
  /-- after the `every` of a `reset` -/
  | signal
  /-- in a call: at the beginning, after a group of arguments, after a comma -/
  | first | next | later
  /-- in parentheses that belong to no call: at the beginning, after a comma -/
  | inner | innerLater
  /-- in a scene of its own -/
  | lone
  | afterElse (loose : Bool)
  | afterOperator (loose : Bool)
  | afterSign (loose : Bool)
  deriving DecidableEq, Repr

def Place.loose : Place → Bool
  | value | parenValue | values | signal | first | next | later => true
  | inner | innerLater | lone => false
  | afterElse loose | afterOperator loose | afterSign loose => loose

/-- What has just been read. -/
inductive Spot where
  /-- in a list of statements: at the beginning, after some, after two runs of them -/
  | start | statements | twoStatements
  /-- after a list of statements and the construct that ends with it -/
  | body
  /-- in an equation: after its name, after its value, after its semicolon -/
  | target | equation | equationClosed
  /-- in the parentheses of an equation: at the beginning, after the first name, after a comma,
  after another name, after the names with commas, after two runs of them -/
  | targets | targetName | targetComma | targetMore | targetNames | twoNames
  /-- after the parentheses of an equation, with one name or several -/
  | targetClosed | targetsClosed
  /-- before an expression -/
  | expects (p : Place)
  /-- after an operand or a conditional, after an expression -/
  | operand | has (p : Place)
  /-- after a name in an expression -/
  | word (loose : Bool)
  /-- after a closed construct -/
  | closed
  /-- after a closing parenthesis: of a call, of a call without arguments, of an expression, of a
  tuple -/
  | call | emptyCall | paren | tuple
  /-- in a call: after the expressions of a group with commas, after two such runs, after two runs
  of groups -/
  | tail | twoTails | twoGroups
  /-- the same in parentheses that belong to no call -/
  | innerTail | innerTwoTails
  | done
  deriving DecidableEq, Repr

/-- How to put parts together: how many they are, what they become, and the pieces inside that,
from the outermost to the innermost. -/
structure Folding where
  count : Nat
  piece : Piece
  inner : List Piece
  deriving DecidableEq, Repr

namespace Folding

/-- A name or a closed construct by itself. -/
def atom : Folding := ⟨1, .operand, []⟩

def parens : Folding := ⟨3, .operand, []⟩

def tuple : Folding := ⟨4, .operand, [.tuple]⟩

def call : Folding := ⟨4, .operand, [.call]⟩

def emptyCall : Folding := ⟨3, .operand, [.call]⟩

def unary : Folding := ⟨2, .operand, []⟩

def binary : Folding := ⟨3, .operand, []⟩

def cond : Folding := ⟨2, .cond, []⟩

/-- An operand or a conditional. -/
def expression : Folding := ⟨1, .expression, []⟩

/-- An expression with the comma before it, or two runs of such expressions. -/
def tail : Folding := ⟨2, .tail, []⟩

/-- A group of one argument. -/
def argument : Folding := ⟨1, .groups, []⟩

/-- A group of several arguments, or two runs of groups. -/
def groups : Folding := ⟨2, .groups, []⟩

/-- A name with the comma before it, or two runs of such names. -/
def names : Folding := ⟨2, .names, []⟩

/-- An equation for one name. -/
def equation : Folding := ⟨3, .equation, []⟩

/-- An equation for a name in parentheses. -/
def parenEquation : Folding := ⟨5, .equation, []⟩

/-- An equation for several names. -/
def equationOfNames : Folding := ⟨6, .equation, []⟩

def equations : Folding := ⟨1, .equations, []⟩

/-- An equation with its semicolon. -/
def equationsClosed : Folding := ⟨2, .equations, []⟩

def reset : Folding := ⟨2, .statement, []⟩

def statements : Folding := ⟨2, .statements, []⟩

def body : Folding := ⟨1, .body, []⟩

end Folding

/-- The next step of a reading. -/
inductive Move where
  | fail
  /-- to take the cue -/
  | shift (s : Spot)
  | fold (f : Folding)
  /-- to go both ways -/
  | fork (f : Folding) (s : Spot)
  deriving DecidableEq, Repr

namespace Cue

/-- Whether an expression can start with a cue. -/
def startsExpr : Cue → Bool
  | word | bool | literal | record | sign | cond | parenOpen => true
  | _ => false

/-- Whether a cue can be the name of what an equation is for. -/
def isName : Cue → Bool
  | word | bool => true
  | _ => false

/-- Whether a cue can follow a statement. -/
def followsStatement : Cue → Bool
  | word | parenOpen | statement | reset | stop | leave => true
  | _ => false

end Cue

namespace Spot

/-- The spot after a part, if it can stand here. -/
def after? : Spot → Piece → Option Spot
  | expects _, .operand => some operand
  | expects _, .cond => some operand
  | expects .first, .expression => some (has .next)
  | expects p, .expression => some (has p)
  | has .next, .tail => some tail
  | tail, .tail => some twoTails
  | has .inner, .tail => some innerTail
  | innerTail, .tail => some innerTwoTails
  | expects .first, .groups => some (expects .next)
  | expects .next, .groups => some twoGroups
  | targetName, .names => some targetNames
  | targetNames, .names => some twoNames
  | start, .equation => some equation
  | statements, .equation => some equation
  | start, .equations => some statements
  | start, .statement => some statements
  | start, .statements => some statements
  | start, .body => some body
  | statements, .equations => some twoStatements
  | statements, .statement => some twoStatements
  | statements, .statements => some twoStatements
  | _, _ => none

/-- The step with a cue where an expression is expected. -/
def moveBefore (p : Place) : Cue → Move
  | .word => .shift (word p.loose)
  | .bool => .shift closed
  | .literal => .shift closed
  | .record => .shift closed
  | .sign => .shift (expects (.afterSign p.loose))
  | .cond => .shift (expects (.afterElse p.loose))
  | .parenOpen => .shift (expects .inner)
  | .parenClose =>
    match p with
    | .first => .shift emptyCall
    | .next => .shift call
    | _ => .fail
  | _ => .fail

/-- The step after an expression with a cue that does not continue it. -/
def moveBehind : Place → Cue → Move
  | .value, c => if c.followsStatement || c == .semicolon then .fold .equation else .fail
  | .parenValue, c => if c.followsStatement || c == .semicolon then .fold .parenEquation else .fail
  | .values, c => if c.followsStatement || c == .semicolon then .fold .equationOfNames else .fail
  | .signal, c => if c.followsStatement then .fold .reset else .fail
  | .first, _ => .fail
  | .next, .comma => .shift (expects .later)
  | .next, c => if c.startsExpr || c == .parenClose then .fold .argument else .fail
  | .later, c => if c.startsExpr || c == .parenClose || c == .comma then .fold .tail else .fail
  | .inner, .comma => .shift (expects .innerLater)
  | .inner, .parenClose => .shift paren
  | .inner, _ => .fail
  | .innerLater, c => if c == .parenClose || c == .comma then .fold .tail else .fail
  | .lone, .stop => .shift done
  | .lone, _ => .fail
  | .afterElse _, _ => .fold .cond
  | .afterOperator _, _ => .fold .binary
  | .afterSign _, _ => .fold .unary

/-- The step after an expression: a conditional goes on as far as it can, and a sign or operator
has the nearest operand. -/
def moveAfter (p : Place) (c : Cue) : Move :=
  match p with
  | .afterOperator _ => .fold .binary
  | .afterSign _ => .fold .unary
  | p =>
    match c with
    | .operator => .shift (expects (.afterOperator p.loose))
    | .equal => .shift (expects (.afterOperator p.loose))
    | c => moveBehind p c

/-- The step with a cue where a statement may start. -/
def moveStatement : Cue → Move
  | .word => .shift target
  | .parenOpen => .shift targets
  | .reset => .shift (expects .signal)
  | .stop => .shift done
  | _ => .fail

/-- The next step of a reading; `callable` says that a name directly before a parenthesis could be
called. -/
def move (callable : Bool) : Spot → Cue → Move
  | start, .statement => .shift statements
  | start, c => moveStatement c
  | statements, .statement => .shift twoStatements
  | statements, .leave => .fold .body
  | statements, c => moveStatement c
  | body, .leave => .shift done
  | twoStatements, _ => .fold .statements
  | target, .equal => .shift (expects .value)
  | targets, c => if c.isName then .shift targetName else .fail
  | targetName, .comma => .shift targetComma
  | targetName, .parenClose => .shift targetClosed
  | targetComma, c => if c.isName then .shift targetMore else .fail
  | targetMore, _ => .fold .names
  | targetNames, .comma => .shift targetComma
  | targetNames, .parenClose => .shift targetsClosed
  | twoNames, _ => .fold .names
  | targetClosed, .equal => .shift (expects .parenValue)
  | targetsClosed, .equal => .shift (expects .values)
  | equation, .semicolon => .shift equationClosed
  | equation, _ => .fold .equations
  | equationClosed, _ => .fold .equationsClosed
  | expects p, c => moveBefore p c
  | has p, c => moveAfter p c
  | word loose, .parenOpen =>
    if !callable then .fold .atom
    else if loose then .fork .atom (expects .first)
    else .shift (expects .first)
  | word _, _ => .fold .atom
  | closed, _ => .fold .atom
  | operand, _ => .fold .expression
  | call, _ => .fold .call
  | emptyCall, _ => .fold .emptyCall
  | paren, _ => .fold .parens
  | tuple, _ => .fold .tuple
  | tail, .comma => .shift (expects .later)
  | tail, c => if c.startsExpr || c == .parenClose then .fold .groups else .fail
  | twoTails, _ => .fold .tail
  | twoGroups, _ => .fold .groups
  | innerTail, .comma => .shift (expects .innerLater)
  | innerTail, .parenClose => .shift tuple
  | innerTwoTails, _ => .fold .tail
  | _, _ => .fail

end Spot

end Heptagon
