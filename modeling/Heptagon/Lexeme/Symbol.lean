import Heptagon.Source

/-!
# Symbols

The brackets, separators and operators that are not spelled with letters.
Where several symbols fit the bytes at hand the longest one is meant, so `=<.`
is one comparison and never `=`, `<`, `.`.
-/

namespace Heptagon

/-- The punctuation of the language. -/
inductive Symbol where
  | parenOpen | parenClose | squareOpen | squareClose | braceOpen | braceClose
  | angleOpen | angleClose | comma | semicolon | colon | clockColon | dot | bar
  | equal | caret | minus | minusDot | arrow
  | plusDot | starDot | slashDot | plus | star | slash | percent
  | unequal | atMostDot | equalDot | lessDot | greaterDot | atMost | atLeast | less | greater
  deriving DecidableEq, Repr

namespace Symbol

def spelling : Symbol → String
  | parenOpen => "(" | parenClose => ")" | squareOpen => "[" | squareClose => "]"
  | braceOpen => "\x7b" | braceClose => "\x7d" | angleOpen => "<<" | angleClose => ">>"
  | comma => "," | semicolon => ";" | colon => ":" | clockColon => "::" | dot => "."
  | bar => "|" | equal => "=" | caret => "^" | minus => "-" | minusDot => "-."
  | arrow => "->" | plusDot => "+." | starDot => "*." | slashDot => "/."
  | plus => "+" | star => "*" | slash => "/" | percent => "%"
  | unequal => "<>" | atMostDot => "=<." | equalDot => "=." | lessDot => "<."
  | greaterDot => ">." | atMost => "=<" | atLeast => ">=" | less => "<" | greater => ">"

def text (s : Symbol) : Text := Text.ofString s.spelling

/-- All symbols, a longer spelling before a shorter one. -/
def all : List Symbol :=
  [atMostDot,
    angleOpen, angleClose, clockColon, minusDot, arrow, plusDot, starDot, slashDot,
    unequal, equalDot, lessDot, greaterDot, atMost, atLeast,
    parenOpen, parenClose, squareOpen, squareClose, braceOpen, braceClose,
    comma, semicolon, colon, dot, bar, equal, caret, minus, plus, star, slash, percent,
    less, greater]

/-- The longest symbol that a text starts with. -/
def first? (t : Text) : Option Symbol := all.find? (·.text.isPrefixOf t)

theorem mem_all (s : Symbol) : s ∈ all := by cases s <;> decide

theorem text_ne_nil (s : Symbol) : s.text ≠ [] := by cases s <;> decide

theorem isPrefixOf_of_first? {t : Text} {s : Symbol} (h : first? t = some s) :
    s.text.isPrefixOf t = true := by
  simpa using List.find?_some h

end Symbol

end Heptagon
