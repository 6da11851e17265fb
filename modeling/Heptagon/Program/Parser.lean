import Heptagon.Program
import Heptagon.Statement.Parser

/-!
# Reading programs

`fun`, `node` and `type` start a definition; nothing else can stand between
two of them.
-/

namespace Heptagon

/-- The static parameter of a component, if there is one. -/
def Generic.take? : List Lexeme → Option (Option Generic × List Lexeme)
  | .symbol .angleOpen :: ts => do
    let (name, ts) ← Name.take? ts
    let ts ← Lexeme.skipSym .colon ts
    let (type, ts) ← Ty.take? ts
    let ts ← Lexeme.skipSym .angleClose ts
    return (some ⟨name, type⟩, ts)
  | ts => some (none, ts)

/-- A component after its first word. -/
def Component.take? (hasMemory : Bool) (ts : List Lexeme) : Option (Component × List Lexeme) := do
  let (name, ts) ← Name.take? ts
  let (generic, ts) ← Generic.take? ts
  let (inputs, ts) ← Params.take? ts
  let ts ← Lexeme.skipKw .returns ts
  let (outputs, ts) ← Params.take? ts
  let (locals, ts) ← Locals.take? ts
  let ts ← Lexeme.skipKw .let_ ts
  let (body, ts) ← Statements.take? ts
  let ts ← Lexeme.skipKw .tel ts
  return (⟨hasMemory, name, generic, inputs, outputs, locals, body⟩, ts)

def FieldType.take? (ts : List Lexeme) : Option (FieldType × List Lexeme) := do
  let (name, ts) ← Name.take? ts
  let ts ← Lexeme.skipSym .colon ts
  let (type, ts) ← Ty.take? ts
  return (⟨name, type⟩, ts)

/-- Fields with a semicolon before each, as many as there are. -/
def FieldType.takeMore : (steps : Nat) → List Lexeme → Option (List FieldType × List Lexeme)
  | 0, _ => none
  | n + 1, .symbol .semicolon :: ts => do
    let (f, ts) ← FieldType.take? ts
    let (fs, ts) ← FieldType.takeMore n ts
    return (f :: fs, ts)
  | _ + 1, ts => some ([], ts)

/-- Constructors with a bar before each, as many as there are. -/
def Definition.takeVariants : List Lexeme → List Text × List Lexeme
  | .symbol .bar :: .capital t :: ts =>
    let (variants, ts) := takeVariants ts
    (t :: variants, ts)
  | ts => ([], ts)

/-- What a type is, after the equality sign. -/
def Definition.takeType (name : Name) : List Lexeme → Option (Definition × List Lexeme)
  | .symbol .braceOpen :: ts => do
    let (f, ts) ← FieldType.take? ts
    let (fs, ts) ← FieldType.takeMore (ts.length + 1) ts
    let ts ← Lexeme.skipSym .braceClose ts
    return (.record name f fs, ts)
  | .symbol .bar :: .capital t :: ts =>
    let (variants, ts) := takeVariants ts
    some (.enumeration name true t variants, ts)
  | .capital t :: ts =>
    let (variants, ts) := takeVariants ts
    some (.enumeration name false t variants, ts)
  | _ => none

def Definition.take? : List Lexeme → Option (Definition × List Lexeme)
  | .kw .fun_ :: ts => do
    let (c, ts) ← Component.take? false ts
    return (.component c, ts)
  | .kw .node :: ts => do
    let (c, ts) ← Component.take? true ts
    return (.component c, ts)
  | .kw .type :: ts => do
    let (name, ts) ← Name.take? ts
    let ts ← Lexeme.skipSym .equal ts
    Definition.takeType name ts
  | _ => none

/-- Definitions up to the end. -/
def Program.takeIn : (steps : Nat) → List Lexeme → Option Program
  | _, [] => some []
  | 0, _ => none
  | n + 1, ts => do
    let (d, ts) ← Definition.take? ts
    let ds ← Program.takeIn n ts
    return d :: ds

/-- The program that a list of lexemes writes, from the first lexeme to the last. -/
def Program.ofLexemes? (ts : List Lexeme) : Option Program :=
  Program.takeIn ts.length ts

end Heptagon
