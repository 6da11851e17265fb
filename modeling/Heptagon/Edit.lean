import Heptagon.Document

/-!
# Editing a text

A text under edit is replaced as a whole or between two offsets.  What is
known about it is always what a fresh look at the new text shows.
-/

namespace Heptagon

inductive Edit where
  /-- another text instead of the whole -/
  | set (text : Text)
  /-- another text between two offsets -/
  | replace (start stop : Nat) (text : Text)
  deriving DecidableEq, Repr

namespace Edit

/-- The text after an edit; there is none if the offsets are out of order or beyond the end. -/
def result? (old : Text) : Edit → Option Text
  | set text => some text
  | replace start stop text =>
    if start ≤ stop ∧ stop ≤ old.length then some (old.take start ++ text ++ old.drop stop)
    else none

/-- What an edit leads to. -/
inductive State where
  /-- the edit was refused, and the text is the old one -/
  | badRange
  /-- the document that the new text is, if it is one -/
  | edited (d : Option Document)

/-- The states after each of some edits of a text. -/
def states (old : Text) : List Edit → List State
  | [] => []
  | e :: es =>
    match e.result? old with
    | none => .badRange :: states old es
    | some new => .edited (Document.ofSource? new) :: states new es

end Edit

end Heptagon
