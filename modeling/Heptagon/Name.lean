import Heptagon.Lexeme

/-!
# Names

Variables, functions, types and record fields are named by words that start
small; even a word spelled like a keyword is a name where no keyword is
wanted.  Constructors of enumerations start with a capital letter.  A state of
an automaton may be named either way, and its name may also be a small
beginning followed by a capital end.
-/

namespace Heptagon

/-- The name of a variable, function, type or field. -/
abbrev Name := Word

/-- The name of an automaton state. -/
inductive StateName where
  /-- as in `Idle` -/
  | capital (t : Text)
  /-- as in `idle` -/
  | small (w : Word)
  /-- as in `waitTick`: a small beginning and a capital end that touch -/
  | mixed (w : Word) (t : Text)
  deriving DecidableEq, Repr

namespace StateName

def text : StateName → Text
  | capital t => t
  | small w => w.text
  | mixed w t => w.text ++ t

/-- The lexemes that write a state name. -/
def lexemes : StateName → List Lexeme
  | capital t => [.capital t]
  | small w => [.word w]
  | mixed w t => [.word w, .capital t]

end StateName

end Heptagon
