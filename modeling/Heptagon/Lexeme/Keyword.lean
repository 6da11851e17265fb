import Heptagon.Source

/-!
# Keywords

The words that the language spells with small letters.  None of them is
reserved everywhere: a word spelled like a keyword is the keyword only where
the keyword may stand, and a name elsewhere (`Heptagon.Lexeme`).
-/

namespace Heptagon

/-- The word-shaped literals of the language. -/
inductive Keyword where
  | fun_ | node | returns | var | let_ | tel | type
  | bool | int | float | true_ | false_
  | last | on_ | if_ | then_ | else_ | pre | not | fby | and | or
  | switch | present | default | reset | every | automaton | state | unless_ | until_
  | do_ | end_
  deriving DecidableEq, Repr

namespace Keyword

def spelling : Keyword → String
  | fun_ => "fun" | node => "node" | returns => "returns" | var => "var"
  | let_ => "let" | tel => "tel" | type => "type"
  | bool => "bool" | int => "int" | float => "float" | true_ => "true" | false_ => "false"
  | last => "last" | on_ => "on" | if_ => "if" | then_ => "then" | else_ => "else"
  | pre => "pre" | not => "not" | fby => "fby" | and => "and" | or => "or"
  | switch => "switch" | present => "present" | default => "default" | reset => "reset"
  | every => "every" | automaton => "automaton" | state => "state"
  | unless_ => "unless" | until_ => "until" | do_ => "do" | end_ => "end"

def text (k : Keyword) : Text := Text.ofString k.spelling

/-- All keywords. -/
def all : List Keyword :=
  [fun_, node, returns, var, let_, tel, type, bool, int, float, true_, false_,
    last, on_, if_, then_, else_, pre, not, fby, and, or,
    switch, present, default, reset, every, automaton, state, unless_, until_, do_, end_]

/-- The keyword with a given spelling. -/
def ofText? (t : Text) : Option Keyword := all.find? (·.text = t)

theorem mem_all (k : Keyword) : k ∈ all := by cases k <;> decide

theorem ofText?_text (k : Keyword) : ofText? k.text = some k := by cases k <;> decide

theorem text_eq_of_ofText? {t : Text} {k : Keyword} (h : ofText? t = some k) : k.text = t := by
  simpa using List.find?_some h

end Keyword

end Heptagon
