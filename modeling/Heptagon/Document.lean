import Heptagon.Division
import Heptagon.Node
import Heptagon.Program.Parser

/-!
# Documents

A document is a source that is a program: its tree with positions and
comments.  `Document.ofSource?` is the reader of the whole language; it fails
on every source that is no program.

Comments between two definitions are children of the root like the
definitions' own parts, and the root reaches from the first thing in the
source to the end of the source.
-/

namespace Heptagon

/-- The lexemes of a layout as they are read first: every name before a parenthesis is called,
unless the parenthesis cannot hold arguments. -/
def Layout.joined (l : Layout) : List Lexeme := Lexeme.separateTargets l.lexemes

/-- The lexemes of a layout as they are read in the end; `p` is what they are at first. -/
def Layout.divided (l : Layout) (p : Program) : List Lexeme :=
  Lexeme.separateAt (p.parens l l.joined) 0 l.joined

/-- The comments before the first of the slots, as nodes between definitions. -/
def Slot.commentsBetween : List Slot → List Node
  | [] => []
  | s :: _ => s.comments.map (.comment false)

/-- The nodes of a definition and of the comments before it, and the slots after it. -/
def Definition.place (d : Definition) (slots : List Slot) : Option (List Node × List Slot) := do
  let (nodes, rest) ← Tree.placeAll d.trees slots
  return (Slot.commentsBetween slots ++ nodes, rest)

/-- The nodes of a program. -/
def Program.place : Program → List Slot → Option (List Node)
  | [], _ => some []
  | d :: ds, slots => do
    let (nodes, slots) ← d.place slots
    let more ← place ds slots
    return nodes ++ more

/-- The nodes of the program that a layout writes.  It is read with every name before a
parenthesis as a call, and once more with the parentheses set apart that open none. -/
def Program.placed? (l : Layout) : Option (List Node) := do
  let p ← Program.ofLexemes? l.joined
  let nodes ← p.place l.slots
  return (Program.ofLexemes? (l.divided p) >>= (·.place l.slots)).getD nodes

structure Document where
  /-- the span of the root -/
  span : Span
  /-- the children of the root -/
  children : List Node

namespace Document

/-- The children of the root of a layout that writes a program. -/
def nodes? (l : Layout) : Option (List Node) :=
  if Layout.enumerationsWhole l.written then do
    let nodes ← Program.placed? l
    return nodes ++ l.trailing.map (.comment false)
  else none

def ofSource? (source : Text) : Option Document := do
  let items ← scan source
  let children ← nodes? (.ofItems items)
  let start := (items.head?.map (·.span.start)).getD source.length
  return ⟨⟨start, source.length⟩, children⟩

/-- Whether a source is a program. -/
def accepts (source : Text) : Bool := (ofSource? source).isSome

/-- The root of the tree; its span is not that of its children. -/
def root (d : Document) : Node := .branch .sourceFile d.children

end Document

end Heptagon
