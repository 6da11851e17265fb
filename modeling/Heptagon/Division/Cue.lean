import Heptagon.Program

/-!
# Cues

What decides between the ways of reading a text: its names, parentheses,
commas, operators and equality signs.  A construct that is closed by a word or
bracket of its own, such as an array or a `switch`, is one cue, because
nothing inside it can be read together with anything outside.

A scene is a text whose readings are followed from its beginning to its end: a
list of statements, or an expression that stands alone, in brackets or between
keywords.  Its cues are those of the tree in which every name before a
parenthesis is called; they do not depend on which of these calls stay.
-/

namespace Heptagon

/-- A part of a text that every reading takes in one step. -/
inductive Cue where
  | word
  /-- a truth value, or a name spelled like one -/
  | bool
  | literal | record
  /-- an operator before its operand -/
  | sign
  /-- an operator between operands -/
  | operator
  /-- the sign of an equation, or an operator -/
  | equal
  /-- a conditional up to its last branch -/
  | cond
  | parenOpen | parenClose | comma | semicolon
  /-- a statement that is not made of equations -/
  | statement
  /-- a `reset` up to its signal -/
  | reset
  /-- the end of a scene, at a word or bracket of the construct around it -/
  | stop
  /-- the end of a scene and of the construct around it, which has no word of its own for it -/
  | leave
  deriving DecidableEq, Repr

/-- The cue of a token that is not part of a closed construct. -/
def Leaf.cue : Leaf → Cue
  | .name _ => .word
  | .symbol .equal => .equal
  | .symbol .parenOpen => .parenOpen
  | .symbol .parenClose => .parenClose
  | .symbol .comma => .comma
  | .symbol .semicolon => .semicolon
  | _ => .literal

/-- The cue of a constant. -/
def Cue.ofLiteral : List Tree → Cue
  | [.node .lBool _] => .bool
  | _ => .literal

/-- The cue of a binary operator. -/
def Cue.ofOperator : List Tree → Cue
  | [.leaf (.symbol .equal)] => .equal
  | _ => .operator

/-- Whether a node is a statement. -/
def Kind.isStatement : Kind → Bool
  | .equationList | .automaton | .switchStatement | .presentStatement | .resetStatement => true
  | _ => false

namespace Tree

def isStatement : Tree → Bool
  | leaf _ => false
  | node k _ => k.isStatement

mutual

/-- The cues of a tree, each with the number of lexemes that write it. -/
def cues : Tree → List (Cue × Nat)
  | leaf l => [(l.cue, l.lexemes.length)]
  | node .literal ts => [(.ofLiteral ts, widthAll ts)]
  | node .recordConstruction ts => [(.record, widthAll ts)]
  | node .unaryOperator ts => [(.sign, widthAll ts)]
  | node .binaryOperator ts => [(.ofOperator ts, widthAll ts)]
  | node .automaton ts => [(.statement, widthAll ts)]
  | node .switchStatement ts => [(.statement, widthAll ts)]
  | node .presentStatement ts => [(.statement, widthAll ts)]
  | node .ifthenelse ts => cuesOfLast .cond 0 ts
  | node .resetStatement ts => cuesOfLast .reset 0 ts
  | node _ ts => cuesAll ts

/-- The cues of a row of trees. -/
def cuesAll : List Tree → List (Cue × Nat)
  | [] => []
  | t :: ts => t.cues ++ cuesAll ts

/-- The cues of the last tree of a row, after one cue for the trees before it, which `n` lexemes
more write. -/
def cuesOfLast (head : Cue) (n : Nat) : List Tree → List (Cue × Nat)
  | [] => []
  | [t] => (head, n) :: t.cues
  | t :: ts => cuesOfLast head (n + t.width) ts

end

end Tree

/-- A text with more than one reading, perhaps. -/
structure Scene where
  /-- whether it is a list of statements -/
  statements : Bool
  /-- the index of the first lexeme -/
  start : Nat
  cues : List (Cue × Nat)
  /-- how it ends -/
  stop : Cue
  deriving DecidableEq, Repr

namespace Tree

mutual

/-- The scenes in a tree whose first lexeme is at `i`; `covered` says that the tree itself is a
part of a scene. -/
def scenes (covered : Bool) (i : Nat) : Tree → List Scene
  | leaf _ => []
  | node .expression ts =>
    if covered then scenesAll true i ts else ⟨false, i, cuesAll ts, .stop⟩ :: scenesAll true i ts
  | node .ifthenelse ts => scenesOfLast covered i ts
  | node .literal ts => scenesAll false i ts
  | node .recordConstruction ts => scenesAll false i ts
  | node .presentStatement ts => scenesAll false i ts
  | node .automaton ts => scenesAll false i ts
  | node .switchStatement ts => scenesOfList false true false i ts
  | node .block ts => scenesOfList false false false i ts
  | node .automatonState ts => scenesOfList false false false i ts
  | node .resetStatement ts => scenesOfList covered false false i ts
  | node _ ts => scenesAll covered i ts

/-- The scenes in a row of trees. -/
def scenesAll (covered : Bool) (i : Nat) : List Tree → List Scene
  | [] => []
  | t :: ts => t.scenes covered i ++ scenesAll covered (i + t.width) ts

/-- The scenes in a row of trees of which only the last one can be a part of a scene. -/
def scenesOfLast (covered : Bool) (i : Nat) : List Tree → List Scene
  | [] => []
  | [t] => t.scenes covered i
  | t :: ts => t.scenes false i ++ scenesOfLast covered (i + t.width) ts

/-- The scenes in a row of trees with lists of statements; `cases` says that each list ends a case
of a `switch`, and `within` that the tree before the row is a statement. -/
def scenesOfList (covered cases within : Bool) (i : Nat) : List Tree → List Scene
  | [] => []
  | t :: ts =>
    let inner := t.scenes (covered || t.isStatement) i
    let rest := scenesOfList covered cases t.isStatement (i + t.width) ts
    if t.isStatement && !within then
      let ending := if cases || ts.all isStatement then .leave else .stop
      ⟨true, i, cuesAll ((t :: ts).takeWhile isStatement), ending⟩ :: (inner ++ rest)
    else inner ++ rest

end

end Tree

end Heptagon
