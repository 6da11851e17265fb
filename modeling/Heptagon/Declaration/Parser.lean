import Heptagon.Declaration
import Heptagon.Expr.Parser

/-!
# Reading types and declarations

`bool`, `int` and `float` are keywords where a type is wanted, `last` where a
declaration starts, and `true` and `false` where a first value is wanted.  In
the local variables one of `let`, `do`, `end` and `state` after a semicolon
closes the list, so no declaration but the first can start with such a name.
-/

namespace Heptagon

/-- A base type or the name of a type. -/
def Ty.takeElement : List Lexeme → Option (Ty × List Lexeme)
  | .kw .bool :: ts => some (.base .bool, ts)
  | .kw .int :: ts => some (.base .int, ts)
  | .kw .float :: ts => some (.base .float, ts)
  | .word w :: ts => some (.named w, ts)
  | _ => none

/-- The array sizes after a type. -/
def Ty.takeSizes (t : Ty) : List Lexeme → Ty × List Lexeme
  | .symbol .caret :: .word w :: ts => takeSizes (.array t (.name w)) ts
  | .symbol .caret :: .number k :: ts => takeSizes (.array t (.number k)) ts
  | ts => (t, ts)

def Ty.take? (ts : List Lexeme) : Option (Ty × List Lexeme) := do
  let (t, ts) ← Ty.takeElement ts
  return t.takeSizes ts

/-- A condition of a clock after its keyword. -/
def Sampling.take? (ts : List Lexeme) : Option (Sampling × List Lexeme) := do
  let (s, ts) ← StateName.take? ts
  let (opening, ts) ← Opening.take? ts
  let (x, ts) ← Name.take? ts
  let ts ← Lexeme.skipSym .parenClose ts
  return (⟨s, opening, x⟩, ts)

/-- The conditions that follow, as many as there are. -/
def Sampling.takeMore : (steps : Nat) → List Lexeme → Option (List Sampling × List Lexeme)
  | 0, _ => none
  | n + 1, .kw .on_ :: ts => do
    let (s, ts) ← Sampling.take? ts
    let (ss, ts) ← Sampling.takeMore n ts
    return (s :: ss, ts)
  | _ + 1, ts => some ([], ts)

/-- The clock of a variable, if there is one. -/
def Clock.take? : List Lexeme → Option (Option Clock × List Lexeme)
  | .symbol .clockColon :: ts => do
    let ts ← Lexeme.skipSym .dot ts
    let ts ← Lexeme.skipKw .on_ ts
    let (s, ts) ← Sampling.take? ts
    let (ss, ts) ← Sampling.takeMore (ts.length + 1) ts
    return (some ⟨s, ss⟩, ts)
  | ts => some (none, ts)

def VarGroup.take? (ts : List Lexeme) : Option (VarGroup × List Lexeme) := do
  let (first, ts) ← Name.take? ts
  let (others, ts) := Name.takeMore ts
  let ts ← Lexeme.skipSym .colon ts
  let (type, ts) ← Ty.take? ts
  let (clock, ts) ← Clock.take? ts
  return (⟨first, others, type, clock⟩, ts)

def Init.take? : List Lexeme → Option (Init × List Lexeme)
  | .kw .true_ :: ts => some (.literal (.bool true), ts)
  | .kw .false_ :: ts => some (.literal (.bool false), ts)
  | .word w :: ts => some (.name w, ts)
  | .number t :: ts => some (.literal (.number t), ts)
  | .symbol .squareOpen :: ts => do
    let (es, ts) ← Exprs.takeArray (Expr.steps ts) ts
    return (.literal (.array es), ts)
  | _ => none

def Declaration.take? : List Lexeme → Option (Declaration × List Lexeme)
  | .kw .last :: ts => do
    let (g, ts) ← VarGroup.take? ts
    let ts ← Lexeme.skipSym .equal ts
    let (i, ts) ← Init.take? ts
    return (.last g i, ts)
  | ts => do
    let (g, ts) ← VarGroup.take? ts
    return (.plain g, ts)

/-- The parameters after the first one, and whether a semicolon ends them, up to and with the
closing parenthesis. -/
def Params.takeMore : (steps : Nat) → List Lexeme → Option ((List Declaration × Bool) × List Lexeme)
  | _, .symbol .parenClose :: ts => some (([], false), ts)
  | _, .symbol .semicolon :: .symbol .parenClose :: ts => some (([], true), ts)
  | n + 1, .symbol .semicolon :: ts => do
    let (d, ts) ← Declaration.take? ts
    let ((ds, semicolon), ts) ← Params.takeMore n ts
    return ((d :: ds, semicolon), ts)
  | _, _ => none

def Params.take? (ts : List Lexeme) : Option (Params × List Lexeme) := do
  let (opening, ts) ← Opening.take? ts
  match ts with
  | .symbol .parenClose :: ts => return (.empty opening, ts)
  | ts => do
    let (d, ts) ← Declaration.take? ts
    let ((ds, semicolon), ts) ← Params.takeMore ts.length ts
    return (.list opening d ds semicolon, ts)

/-- Whether a lexeme after a semicolon closes the local variables. -/
def Locals.closes : Lexeme → Bool
  | .kw .let_ => true
  | .kw .do_ => true
  | .kw .end_ => true
  | .kw .state => true
  | _ => false

/-- The local variables after the first one, up to and with the semicolon that ends them. -/
def Locals.takeMore : (steps : Nat) → List Lexeme → Option (List Declaration × List Lexeme)
  | n + 1, .symbol .semicolon :: t :: ts =>
    if closes t then some ([], t :: ts)
    else do
      let (d, ts) ← Declaration.take? (t :: ts)
      let (ds, ts) ← Locals.takeMore n ts
      return (d :: ds, ts)
  | _, _ => none

/-- The local variables, if there are any. -/
def Locals.take? : List Lexeme → Option (Option Locals × List Lexeme)
  | .kw .var :: ts => do
    let (d, ts) ← Declaration.take? ts
    let (ds, ts) ← Locals.takeMore ts.length ts
    return (some ⟨d, ds⟩, ts)
  | ts => some (none, ts)

end Heptagon
