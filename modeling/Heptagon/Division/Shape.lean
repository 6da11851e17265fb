import Heptagon.Source

/-!
# Shapes of readings

While a text is read in two ways at once, what each way has read is kept as a
shape: a tree in which hidden parts, such as two neighbouring statements, are
nodes too, and comments are children like anything else.

Shapes are ordered.  Where two ways of reading the same text meet, the smaller
shape is kept.
-/

namespace Heptagon

/-- What a part of a reading is, from the smallest to the greatest. -/
inductive Piece where
  | word
  /-- any other token, or a comment -/
  | mark
  | equations | equation
  | expression | operand | tuple | call | record | cond
  /-- a statement that is not made of equations -/
  | statement
  | literal | sign | operator
  /-- names with commas between -/
  | names
  /-- two neighbouring runs of statements -/
  | statements
  /-- a construct that ends with a list of statements -/
  | body
  /-- expressions with a comma before each -/
  | tail
  /-- arguments up to the end of a group -/
  | groups
  deriving DecidableEq, Repr, Ord

/-- What has been read, as a tree. -/
inductive Shape where
  /-- `paren` is the place of a parenthesis that opens no call -/
  | mk (piece : Piece) (paren : Option Nat) (children : List Shape)
  deriving Repr

namespace Shape

def piece : Shape → Piece
  | mk p _ _ => p

def children : Shape → List Shape
  | mk _ _ cs => cs

/-- The shape of a token. -/
def token (p : Piece) : Shape := mk p none []

/-- The shape of some comments. -/
def comments (n : Nat) : List Shape := List.replicate n (token .mark)

/-- Parts put together, the first of the pieces being the outermost. -/
def wrap (parts : List Shape) : List Piece → List Shape
  | [] => parts
  | p :: ps => [mk p none (wrap parts ps)]

mutual

/-- The order of shapes: by what they are, then by how many parts they have, then by their first
parts that differ. -/
def compare : Shape → Shape → Ordering
  | mk p _ as, mk q _ bs =>
    (Ord.compare p q).then ((Ord.compare as.length bs.length).then (compareAll as bs))

/-- The order of rows of equally many shapes. -/
def compareAll : List Shape → List Shape → Ordering
  | a :: as, b :: bs => (a.compare b).then (compareAll as bs)
  | _, _ => .eq

end

mutual

/-- The places of the parentheses that open no call. -/
def parens : Shape → List Nat
  | mk _ p cs => p.toList ++ parensAll cs

def parensAll : List Shape → List Nat
  | [] => []
  | s :: ss => s.parens ++ parensAll ss

end

/-- The smallest of some shapes, and of equal ones the first. -/
def least (s : Shape) : List Shape → Shape
  | [] => s
  | t :: ts => least (if s.compare t = .gt then t else s) ts

end Shape

end Heptagon
