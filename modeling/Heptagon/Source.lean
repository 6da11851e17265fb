/-!
# Source texts

A program arrives as a sequence of bytes, and every offset, column and length
in this library counts bytes.  Outside comments only ASCII has a meaning, so
the classes below are classes of single bytes; a byte above `127` belongs to
none of them.

A stretch of the source is a half-open `Span`, and `Point.at` turns an offset
into a row and a column.
-/

namespace Heptagon

/-- A stretch of bytes: a whole source, or the spelling of a part of it. -/
abbrev Text := List UInt8

/-- The bytes of an ASCII spelling. -/
def Text.ofString (spelling : String) : Text :=
  spelling.toList.map Char.toUInt8

/-- The mark that may stand once in front of a source, before everything else. -/
def Text.leadingMark : Text := [0xEF, 0xBB, 0xBF]

/-! ## Classes of bytes -/

/-- The newline byte, which ends a row. -/
def newline : UInt8 := 10

/-- The blanks are tab, newline, vertical tab, form feed, carriage return and space. -/
def isBlank (b : UInt8) : Bool := (9 ≤ b && b ≤ 13) || b == 32

def isDigit (b : UInt8) : Bool := 48 ≤ b && b ≤ 57

def isCapital (b : UInt8) : Bool := 65 ≤ b && b ≤ 90

def isSmall (b : UInt8) : Bool := 97 ≤ b && b ≤ 122

def isUnderscore (b : UInt8) : Bool := b == 95

def isQuote (b : UInt8) : Bool := b == 39

/-- The bytes that may follow the first letter of a word that starts small. -/
def isSmallBody (b : UInt8) : Bool := isSmall b || isDigit b || isUnderscore b

/-- The bytes that may follow the first letter of a word that starts with a capital. -/
def isWordBody (b : UInt8) : Bool := isSmallBody b || isCapital b

/-! ## Spans and points -/

/-- The bytes from `start` up to, and without, `stop`. -/
structure Span where
  start : Nat
  stop : Nat
  deriving DecidableEq, Repr

/-- A place in a source: rows count newlines, columns count the bytes after the last one. -/
structure Point where
  row : Nat
  column : Nat
  deriving DecidableEq, Repr

namespace Point

/-- The point one byte further. -/
def advance (p : Point) (b : UInt8) : Point :=
  if b = newline then ⟨p.row + 1, 0⟩ else ⟨p.row, p.column + 1⟩

/-- The point of an offset into a text. -/
def ofOffset (text : Text) (offset : Nat) : Point :=
  (text.take offset).foldl advance ⟨0, 0⟩

end Point

end Heptagon
