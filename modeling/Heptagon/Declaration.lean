import Heptagon.Expr

/-!
# Types and declarations

Types, the declarations of variables with their types and clocks, the
parameter lists of a component and its local variables.
-/

namespace Heptagon

inductive BaseType where
  | bool | int | float
  deriving DecidableEq, Repr

def BaseType.keyword : BaseType → Keyword
  | bool => .bool
  | int => .int
  | float => .float

/-- The size of an array. -/
inductive Size where
  | name (n : Name)
  | number (t : Text)
  deriving DecidableEq, Repr

def Size.tree : Size → Tree
  | name n => .name n
  | number t => .leaf (.number t)

inductive Ty where
  | base (b : BaseType)
  | named (n : Name)
  | array (element : Ty) (size : Size)
  deriving DecidableEq, Repr

def Ty.tree : Ty → Tree
  | base b => .node .litType [.node .primitiveType [.kw b.keyword]]
  | named n => .node .litType [.name n]
  | array t s => .node .litType [.node .arrayType [t.tree, .sym .caret, s.tree]]

/-- A condition of a clock: the variable has taken the given constructor. -/
structure Sampling where
  state : StateName
  opening : Opening
  variable_ : Name
  deriving DecidableEq, Repr

def Sampling.trees (s : Sampling) : List Tree :=
  [.kw .on_, .leaf (.state s.state), .sym .parenOpen, .name s.variable_, .sym .parenClose]

/-- The clock of a variable: one or more conditions. -/
structure Clock where
  first : Sampling
  others : List Sampling
  deriving DecidableEq, Repr

def Clock.tree (c : Clock) : Tree :=
  .node .varDeclClock
    (.sym .clockColon :: .sym .dot :: (c.first :: c.others).flatMap Sampling.trees)

/-- Variables of one type and one clock. -/
structure VarGroup where
  first : Name
  others : List Name
  type : Ty
  clock : Option Clock
  deriving DecidableEq, Repr

/-- Names with a comma before each. -/
def Name.more (names : List Name) : List Tree :=
  names.flatMap fun n => [.sym .comma, .name n]

def VarGroup.tree (g : VarGroup) : Tree :=
  .node .varDeclBase (.name g.first :: (Name.more g.others ++
    .sym .colon :: g.type.tree :: (g.clock.map Clock.tree).toList))

/-- The first value of a variable whose last value is used. -/
inductive Init where
  | name (n : Name)
  | literal (l : Literal)
  deriving DecidableEq, Repr

def Init.tree : Init → Tree
  | name n => .name n
  | literal l => l.tree

inductive Declaration where
  | plain (g : VarGroup)
  | last (g : VarGroup) (init : Init)
  deriving DecidableEq, Repr

def Declaration.tree : Declaration → Tree
  | plain g => .node .varDecl [g.tree]
  | last g i => .node .varDecl
      [.node .varDeclLast [.kw .last, g.tree, .sym .equal, i.tree]]

/-- Declarations with a semicolon before each. -/
def Declaration.more (ds : List Declaration) : List Tree :=
  ds.flatMap fun d => [.sym .semicolon, d.tree]

/-- The parameters of a component; a semicolon may end them. -/
inductive Params where
  | empty (opening : Opening)
  | list (opening : Opening) (first : Declaration) (others : List Declaration) (semicolon : Bool)
  deriving DecidableEq, Repr

/-- A semicolon, if there is one. -/
def Tree.semicolonIf : Bool → List Tree
  | true => [.sym .semicolon]
  | false => []

def Params.tree : Params → Tree
  | empty _ => .node .parameterList [.sym .parenOpen, .sym .parenClose]
  | list _ d ds semicolon => .node .parameterList
      [.sym .parenOpen,
        .node .paramVarDeclList (d.tree :: (Declaration.more ds ++ Tree.semicolonIf semicolon)),
        .sym .parenClose]

/-- Local variables; a semicolon ends them. -/
structure Locals where
  first : Declaration
  others : List Declaration
  deriving DecidableEq, Repr

def Locals.tree (l : Locals) : Tree :=
  .node .localVars
    [.kw .var, .node .localVarDeclList
      (l.first.tree :: (Declaration.more l.others ++ [.sym .semicolon]))]

/-- The tree of local variables, if there are any. -/
def Locals.trees (l : Option Locals) : List Tree := (l.map Locals.tree).toList

end Heptagon
