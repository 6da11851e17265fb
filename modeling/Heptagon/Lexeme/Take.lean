import Heptagon.Name

/-!
# Taking lexemes from the front of a text

The readers of this library take what they recognise from the front of a list
of lexemes and return it with the lexemes that follow; they return `none` if
the lexemes at hand are not what they read.
-/

namespace Heptagon

namespace Lexeme

/-- The lexemes after a given one. -/
def skip (l : Lexeme) : List Lexeme → Option (List Lexeme)
  | [] => none
  | x :: ts => if x = l then some ts else none

/-- The lexemes after a keyword. -/
abbrev skipKw (k : Keyword) : List Lexeme → Option (List Lexeme) := skip (.kw k)

/-- The lexemes after a symbol. -/
abbrev skipSym (s : Symbol) : List Lexeme → Option (List Lexeme) := skip (.symbol s)

end Lexeme

/-- An opening parenthesis, whether it stands apart or not. -/
def Opening.take? : List Lexeme → Option (Opening × List Lexeme)
  | .symbol .parenOpen :: ts => some (plain, ts)
  | .apart :: ts => some (apart, ts)
  | _ => none

/-- A name; any word that starts small will do. -/
def Name.take? : List Lexeme → Option (Name × List Lexeme)
  | .word w :: ts => some (w, ts)
  | _ => none

/-- Names with a comma before each, as many as there are. -/
def Name.takeMore : List Lexeme → List Name × List Lexeme
  | .symbol .comma :: .word w :: ts =>
    let (names, ts) := takeMore ts
    (w :: names, ts)
  | ts => ([], ts)

/-- The name of a state.  Nothing can follow a small one with a capital word, so a capital
word after it belongs to it. -/
def StateName.take? : List Lexeme → Option (StateName × List Lexeme)
  | .capital t :: ts => some (.capital t, ts)
  | .word w :: ts =>
    if w.quoted then none
    else match ts with
      | .capital t :: ts => some (.mixed w t, ts)
      | ts => some (.small w, ts)
  | _ => none

end Heptagon
