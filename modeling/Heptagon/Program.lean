import Heptagon.Statement

/-!
# Programs

A program is a sequence of definitions: components, which are functions or
nodes, and types, which are records or enumerations.  A definition has no node
of its own; its parts are children of the root.
-/

namespace Heptagon

/-- The static parameter of a component. -/
structure Generic where
  name : Name
  type : Ty
  deriving DecidableEq, Repr

def Generic.trees (g : Generic) : List Tree :=
  [.sym .angleOpen, .name g.name, .sym .colon, g.type.tree, .sym .angleClose]

/-- A function, which has no memory, or a node, which may have one. -/
structure Component where
  hasMemory : Bool
  name : Name
  generic : Option Generic
  inputs : Params
  outputs : Params
  locals : Option Locals
  body : Statements
  deriving DecidableEq, Repr

def Component.trees (c : Component) : List Tree :=
  .kw (if c.hasMemory then .node else .fun_) :: .name c.name ::
    ((c.generic.map Generic.trees).getD [] ++
      c.inputs.tree :: .kw .returns :: c.outputs.tree :: (Locals.trees c.locals ++
        [.node .block (.kw .let_ :: (c.body.trees ++ [.kw .tel]))]))

/-- A field of a record type. -/
structure FieldType where
  name : Name
  type : Ty
  deriving DecidableEq, Repr

def FieldType.trees (f : FieldType) : List Tree :=
  [.name f.name, .sym .colon, f.type.tree]

inductive Definition where
  | component (c : Component)
  | record (name : Name) (first : FieldType) (others : List FieldType)
  /-- the constructors of an enumeration; a bar may stand before the first one -/
  | enumeration (name : Name) (bar : Bool) (first : Text) (others : List Text)
  deriving DecidableEq, Repr

/-- A bar, if there is one. -/
def Tree.barIf : Bool → List Tree
  | true => [.sym .bar]
  | false => []

def Definition.trees : Definition → List Tree
  | component c => c.trees
  | record n f fs => .kw .type :: .name n :: .sym .equal :: .sym .braceOpen ::
      (f.trees ++ fs.flatMap (fun f => .sym .semicolon :: f.trees) ++ [.sym .braceClose])
  | enumeration n bar t ts => .kw .type :: .name n :: .sym .equal ::
      (Tree.barIf bar ++ .leaf (.variant t) ::
        ts.flatMap fun t => [.sym .bar, .leaf (.variant t)])

/-- A program without its comments. -/
abbrev Program := List Definition

def Program.tree (p : Program) : Tree := .node .sourceFile (p.flatMap Definition.trees)

end Heptagon
