import Heptagon.Lexeme.Scan

/-!
# Layouts

A layout is a scanned source as the reader of the language sees it: the
lexemes in order, each with its place and with the comments that stand
directly before it, and the comments after the last lexeme.
-/

namespace Heptagon

/-- The place of a lexeme: the comments directly before it, and its own span. -/
structure Slot where
  comments : List Span
  span : Span
  deriving DecidableEq, Repr

structure Layout where
  written : List (Lexeme × Slot)
  /-- the comments after the last lexeme -/
  trailing : List Span
  deriving DecidableEq, Repr

namespace Layout

/-- Puts a comment in front. -/
def addComment (c : Span) (l : Layout) : Layout :=
  match l.written with
  | [] => ⟨[], c :: l.trailing⟩
  | (lexeme, slot) :: rest =>
    ⟨(lexeme, ⟨c :: slot.comments, slot.span⟩) :: rest, l.trailing⟩

def ofItems : List (Placed Item) → Layout
  | [] => ⟨[], []⟩
  | ⟨.lexeme l, span⟩ :: items =>
    let rest := ofItems items
    ⟨(l, ⟨[], span⟩) :: rest.written, rest.trailing⟩
  | ⟨.comment, span⟩ :: items => (ofItems items).addComment span

def lexemes (l : Layout) : List Lexeme := l.written.map (·.1)

def slots (l : Layout) : List Slot := l.written.map (·.2)

/-- How many comments stand directly before each lexeme. -/
def commentCounts (l : Layout) : List Nat := l.slots.map (·.comments.length)

/-- A comment after a constructor ends an enumeration, so none may stand between a constructor
and the bar of the next one.  Nowhere else does a bar follow a capital word. -/
def enumerationsWhole : List (Lexeme × Slot) → Bool
  | (.capital _, _) :: (.symbol .bar, s) :: rest =>
    s.comments.isEmpty && enumerationsWhole ((.symbol .bar, s) :: rest)
  | _ :: rest => enumerationsWhole rest
  | [] => true

end Layout

end Heptagon
