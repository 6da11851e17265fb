import Heptagon.Document

/-!
# Rows and terms

Two ways to write a tree down: `Document.rows` lists its nodes in preorder,
each with its depth and its place, and `Document.term` is the nested form of
the named nodes alone.
-/

namespace Heptagon

/-- A node of a listed tree. -/
structure Row where
  depth : Nat
  label : Label
  /-- whether the node is a comment inside a definition -/
  extra : Bool
  span : Span
  deriving DecidableEq, Repr

namespace Node

mutual

/-- A node and everything below it, in preorder. -/
def rows (depth : Nat) : Node → List Row
  | token l s => [⟨depth, l.label, false, s⟩]
  | comment inside s => [⟨depth, .named .comment, inside, s⟩]
  | branch k children =>
    ⟨depth, .named k, false, (branch k children).span⟩ :: rowsAll (depth + 1) children

def rowsAll (depth : Nat) : List Node → List Row
  | [] => []
  | n :: ns => n.rows depth ++ rowsAll depth ns

end

mutual

/-- The named nodes of a tree as a term, with a blank in front. -/
def terms : Node → String
  | token l _ => if l.label.isNamed then " (" ++ l.label.spelling ++ ")" else ""
  | comment _ _ => " (" ++ Kind.comment.spelling ++ ")"
  | branch k children => " (" ++ k.spelling ++ termsAll children ++ ")"

def termsAll : List Node → String
  | [] => ""
  | n :: ns => n.terms ++ termsAll ns

end

end Node

namespace Document

/-- All nodes of a document in preorder. -/
def rows (d : Document) : List Row :=
  ⟨0, .named .sourceFile, false, d.span⟩ :: Node.rowsAll 1 d.children

/-- The named nodes of a document as a term. -/
def term (d : Document) : String :=
  "(" ++ Kind.sourceFile.spelling ++ Node.termsAll d.children ++ ")"

end Document

end Heptagon
