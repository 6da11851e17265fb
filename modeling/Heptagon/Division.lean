import Heptagon.Division.Contest
import Heptagon.Layout
import Heptagon.Program.Parser

/-!
# Names before parentheses

A name before an opening parenthesis may be called, or what ends with the name
may be followed by what starts with the parenthesis: in an argument list
`a (b)` may be two arguments, and in a list of statements `x = a (b) = c` may
be two equations.  This file decides which parentheses stand apart from the
name before them.

* If the parenthesis holds the targets of an equation and one of them is
  spelled `if`, `not`, `pre` or `last`, it cannot hold arguments, so it stands
  apart (`Lexeme.separateTargets`).
* Where both readings are possible, they are followed side by side until one
  of them stays (`Program.parens`).  No reading of a definition depends on
  another definition.
-/

namespace Heptagon

/-! ## Targets that cannot be arguments -/

/-- The words that cannot stand alone as an argument. -/
def Keyword.needsOperand : Keyword → Bool
  | .if_ => true
  | .not => true
  | .pre => true
  | .last => true
  | _ => false

namespace Lexeme

/-- Whether a text goes on with the targets of an equation up to its equality sign, one of
them, or one before, being a word that cannot stand alone as an argument; `found` says that
there was one before. -/
def holdsOperators (found : Bool) : List Lexeme → Bool
  | .word w :: .symbol .comma :: ts => holdsOperators (found || needsOperand w) ts
  | .word w :: .symbol .parenClose :: .symbol .equal :: _ => found || needsOperand w
  | _ => false
where
  /-- Whether a word is one that cannot stand alone as an argument. -/
  needsOperand : Word → Bool
    | .keyword k => k.needsOperand
    | .plain _ => false

/-- Sets apart the parentheses that hold the targets of an equation and cannot hold
arguments. -/
def separateTargets : List Lexeme → List Lexeme
  | [] => []
  | .symbol .parenOpen :: ts =>
    (if holdsOperators false ts then .apart else .symbol .parenOpen) :: separateTargets ts
  | t :: ts => t :: separateTargets ts

/-- Sets apart the opening parentheses at the given places; `i` is the place of the first
lexeme. -/
def separateAt (places : List Nat) (i : Nat) : List Lexeme → List Lexeme
  | [] => []
  | t :: ts =>
    (if t == .symbol .parenOpen && places.contains i then .apart else t) ::
      separateAt places (i + 1) ts

end Lexeme

/-! ## Programs -/

/-- The places of the parentheses of some trees that open no call, though they directly follow a
word, in the reading that stays.  `comments` says how many comments stand directly before a lexeme,
and `callable` which lexemes are parentheses of possible calls. -/
def Tree.parens (comments : Nat → Nat) (callable : Nat → Bool) (ts : List Tree) : List Nat :=
  (scenesAll false 0 ts).flatMap (Scene.parens comments callable)

/-- Whether some lexemes write a definition, from the first one to the last one. -/
def Definition.isText (ts : List Lexeme) : Bool := (Definition.take? ts).any (·.2.isEmpty)

/-- The places of the parentheses of a definition that open no call; `lexemes` writes the
definition, and `counts` says how many comments stand directly before each of them.  If it cannot
be read with these parentheses set apart, there are none. -/
def Definition.parens (counts : List Nat) (lexemes : List Lexeme) (d : Definition) : List Nat :=
  let comments := counts.toArray
  let symbols := lexemes.toArray
  let places := Tree.parens (comments.getD · 0) (symbols[·]? == some (.symbol .parenOpen)) d.trees
  if Definition.isText (Lexeme.separateAt places 0 lexemes) then places else []

namespace Program

/-- The places of the parentheses of some definitions that open no call, one definition after the
other. -/
def parensIn : (counts : List Nat) → (lexemes : List Lexeme) → Program → List Nat
  | _, _, [] => []
  | counts, lexemes, d :: ds =>
    let n := Tree.widthAll d.trees
    d.parens (counts.take n) (lexemes.take n) ++
      (parensIn (counts.drop n) (lexemes.drop n) ds).map (n + ·)

/-- The places of the parentheses of a program that open no call, though they directly follow a
word, in the reading that stays; `lexemes` writes the program. -/
def parens (l : Layout) (lexemes : List Lexeme) (p : Program) : List Nat :=
  p.parensIn l.commentCounts lexemes

end Program

end Heptagon
