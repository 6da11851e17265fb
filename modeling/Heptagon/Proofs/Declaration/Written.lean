import Heptagon.Declaration.Parser
import Heptagon.Proofs.Expr.Normal

/-!
# How types and declarations are written

The units of types, clocks, declarations and parameter lists, and the
conditions under which a declaration is how the reader reads its text: a
keyword that means something in a place is no name there.
-/

namespace Heptagon

/-! ## Units -/

/-- Names with a comma before each. -/
def Name.moreUnits (names : List Name) : Units :=
  names.flatMap fun n => [[.symbol .comma], [.word n]]

def Size.lexeme : Size → Lexeme
  | name n => .word n
  | number t => .number t

def Ty.units : Ty → Units
  | base b => [[.kw b.keyword]]
  | named n => [[.word n]]
  | array t s => t.units ++ [[.symbol .caret], [s.lexeme]]

def Sampling.units (s : Sampling) : Units :=
  [[.kw .on_], s.state.lexemes, [s.opening.lexeme], [.word s.variable_], [.symbol .parenClose]]

def Clock.units (c : Clock) : Units :=
  [.symbol .clockColon] :: [.symbol .dot] :: (c.first :: c.others).flatMap Sampling.units

/-- The units of a clock, if there is one. -/
def Clock.unitsOf : Option Clock → Units
  | none => []
  | some c => c.units

def VarGroup.units (g : VarGroup) : Units :=
  [.word g.first] :: (Name.moreUnits g.others ++
    [.symbol .colon] :: (g.type.units ++ Clock.unitsOf g.clock))

def Init.units : Init → Units
  | name n => [[.word n]]
  | literal l => .ofLexemes l.lexemes

def Declaration.units : Declaration → Units
  | plain g => g.units
  | last g i => [.kw .last] :: (g.units ++ [.symbol .equal] :: i.units)

/-- Declarations with a semicolon before each. -/
def Declaration.moreUnits (ds : List Declaration) : Units :=
  ds.flatMap fun d => [.symbol .semicolon] :: d.units

/-- A semicolon, if there is one. -/
def Units.semicolonIf : Bool → Units
  | true => [[.symbol .semicolon]]
  | false => []

def Params.units : Params → Units
  | empty o => [[o.lexeme], [.symbol .parenClose]]
  | list o d ds semicolon => [o.lexeme] :: (d.units ++ (Declaration.moreUnits ds ++
      (Units.semicolonIf semicolon ++ [[.symbol .parenClose]])))

def Locals.units (l : Locals) : Units :=
  [.kw .var] :: (l.first.units ++ (Declaration.moreUnits l.others ++ [[.symbol .semicolon]]))

/-- The units of local variables, if there are any. -/
def Locals.unitsOf : Option Locals → Units
  | none => []
  | some l => l.units

/-! ## The tokens of the trees -/

@[simp] theorem Name.unitsAll_more (names : List Name) :
    Tree.unitsAll (Name.more names) = (Name.moreUnits names).shown := by
  induction names with
  | nil => rfl
  | cons n names ih =>
      simpa [Name.more, Name.moreUnits] using ih

@[simp] theorem Ty.unitsAll_tree_cons (t : Ty) (us : List Tree) :
    Tree.unitsAll (t.tree :: us) = t.units.shown ++ Tree.unitsAll us := by
  induction t generalizing us with
  | base b => simp [Ty.tree, Ty.units]
  | named n => simp [Ty.tree, Ty.units]
  | array t s ih => cases s <;> simp [Ty.tree, Ty.units, Size.tree, Size.lexeme, ih]

@[simp] theorem Sampling.unitsAll_flatMap_trees (ss : List Sampling) :
    Tree.unitsAll (ss.flatMap Sampling.trees) = Units.shown (ss.flatMap Sampling.units) := by
  induction ss with
  | nil => rfl
  | cons s ss ih =>
      simp only [List.flatMap_cons, Tree.unitsAll_append, Units.shown_append, ih]
      simp [Sampling.trees, Sampling.units]

@[simp] theorem Clock.unitsAll_toList_map_tree (c : Option Clock) :
    Tree.unitsAll (c.map Clock.tree).toList = (Clock.unitsOf c).shown := by
  cases c with
  | none => rfl
  | some c =>
      simp only [Option.map_some, Option.toList_some, Clock.tree, Tree.unitsAll_node_cons,
        Tree.unitsAll_leaf_cons, Sampling.unitsAll_flatMap_trees]
      simp [Clock.unitsOf, Clock.units]

@[simp] theorem VarGroup.unitsAll_tree_cons (g : VarGroup) (us : List Tree) :
    Tree.unitsAll (g.tree :: us) = g.units.shown ++ Tree.unitsAll us := by
  simp [VarGroup.tree, VarGroup.units]

@[simp] theorem Init.unitsAll_tree_cons (i : Init) (us : List Tree) :
    Tree.unitsAll (i.tree :: us) = i.units.shown ++ Tree.unitsAll us := by
  cases i with
  | name n => simp [Init.tree, Init.units]
  | literal l => simp [Init.tree, Init.units, Literal.unitsAll_tree_cons]

@[simp] theorem Declaration.unitsAll_tree_cons (d : Declaration) (us : List Tree) :
    Tree.unitsAll (d.tree :: us) = d.units.shown ++ Tree.unitsAll us := by
  cases d <;> simp [Declaration.tree, Declaration.units]

@[simp] theorem Declaration.unitsAll_more (ds : List Declaration) :
    Tree.unitsAll (Declaration.more ds) = (Declaration.moreUnits ds).shown := by
  induction ds with
  | nil => rfl
  | cons d ds ih => simpa [Declaration.more, Declaration.moreUnits] using ih

@[simp] theorem Tree.unitsAll_semicolonIf (b : Bool) :
    Tree.unitsAll (Tree.semicolonIf b) = (Units.semicolonIf b).shown := by
  cases b <;> rfl

@[simp] theorem Params.unitsAll_tree_cons (p : Params) (us : List Tree) :
    Tree.unitsAll (p.tree :: us) = p.units.shown ++ Tree.unitsAll us := by
  cases p <;> simp [Params.tree, Params.units]

@[simp] theorem Locals.unitsAll_trees (l : Option Locals) :
    Tree.unitsAll (Locals.trees l) = (Locals.unitsOf l).shown := by
  cases l <;> simp [Locals.trees, Locals.unitsOf, Locals.tree, Locals.units]

/-! ## Normal declarations -/

/-- A quote ends a word for good, so no state is named by a word with one. -/
def StateName.Normal : StateName → Prop
  | capital _ => True
  | small w => w.quoted = false
  | mixed w _ => w.quoted = false

/-- A small name goes on with a capital end. -/
def StateName.Stops : StateName → List Lexeme → Prop
  | small _, ts => ∀ t us, ts ≠ .capital t :: us
  | _, _ => True

/-- Whether a word that starts a type is a name. -/
def Word.isTypeName (w : Word) : Prop := w ∉ [.keyword .bool, .keyword .int, .keyword .float]

def Ty.Normal : Ty → Prop
  | base _ => True
  | named n => n.isTypeName
  | array t _ => t.Normal

/-- The types are normal, and so are the states of the clock. -/
structure VarGroup.Normal (g : VarGroup) : Prop where
  type : g.type.Normal
  clock : ∀ c ∈ g.clock, ∀ s ∈ c.first :: c.others, s.state.Normal

def Init.Normal : Init → Prop
  | name n => n ∉ [.keyword .true_, .keyword .false_]
  | literal l => l.Normal

def Declaration.Normal : Declaration → Prop
  | plain g => g.first ≠ .keyword .last ∧ g.Normal
  | last g i => g.Normal ∧ i.Normal

def Params.Normal : Params → Prop
  | empty _ => True
  | list _ d ds _ => ∀ d' ∈ d :: ds, d'.Normal

/-- Whether a declaration after a semicolon would close the local variables instead. -/
def Declaration.closesLocals : Declaration → Bool
  | plain g => Locals.closes (.word g.first)
  | last _ _ => false

structure Locals.Normal (l : Locals) : Prop where
  first : l.first.Normal
  others : ∀ d ∈ l.others, d.Normal ∧ d.closesLocals = false

end Heptagon
