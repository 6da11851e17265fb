import Heptagon.Document

/-!
# Highlighting

A query is a list of patterns, each with the name under which it captures
nodes.  A pattern wants a node with one of some labels, or a node with a given
label directly below a node of a given kind.

`Query.highlights` is the highlighting of this library, and
`Document.captures` what it captures in a document.
-/

namespace Heptagon

inductive Pattern where
  /-- a node with the label -/
  | one (l : Label)
  /-- a node with one of the labels -/
  | anyOf (ls : List Label)
  /-- a node with the label directly below a node of the kind -/
  | child (parent : Kind) (l : Label)
  deriving DecidableEq, Repr

/-- Whether a pattern captures a node with a label below a node of a kind. -/
def Pattern.captures (parent : Kind) (l : Label) : Pattern → Bool
  | one m => m == l
  | anyOf ms => ms.contains l
  | child k m => k == parent && m == l

/-- Patterns with the names of what they capture. -/
abbrev Query := List (Pattern × String)

/-- A captured node. -/
structure Capture where
  name : String
  span : Span
  deriving DecidableEq, Repr

namespace Query

/-- The highlighting of the language. -/
def highlights : Query :=
  [(.one (.named .comment), "comment"),
    (.anyOf ([.fun_, .node, .returns, .var, .let_, .tel, .type, .automaton, .state, .unless_,
      .until_, .switch, .present, .default, .reset, .every, .do_, .end_, .on_].map
        fun k : Keyword => .literal k.spelling), "keyword"),
    (.anyOf ([.if_, .then_, .else_].map fun k : Keyword => .literal k.spelling),
      "keyword.conditional"),
    (.one (.named .primitiveType), "type.builtin"),
    (.child .litType (.named .identifier), "type"),
    (.one (.named .lNumber), "number"),
    (.one (.named .lBool), "boolean"),
    (.anyOf [.named .unaryOperator, .named .binaryOperator], "operator"),
    (.one (.named .enumIdentifier), "constructor"),
    (.one (.named .stateIdentifier), "label"),
    (.child .functionCall (.named .identifier), "function.call"),
    (.child .varDeclBase (.named .identifier), "variable.parameter"),
    (.child .equation (.named .identifier), "variable"),
    (.anyOf ([.parenOpen, .parenClose, .squareOpen, .squareClose, .braceOpen, .braceClose,
      .angleOpen, .angleClose].map fun s : Symbol => .literal s.spelling),
      "punctuation.bracket"),
    (.anyOf ([.semicolon, .comma, .colon, .clockColon].map
      fun s : Symbol => .literal s.spelling), "punctuation.delimiter")]

/-- The names of a query in order of their first appearance. -/
def names (q : Query) : List String := (q.map (·.2)).eraseDups

/-! ## Writing queries -/

/-- A label as a query writes it. -/
def labelText : Label → String
  | .named k => "(" ++ k.spelling ++ ")"
  | .literal s => "\"" ++ s ++ "\""

def patternText : Pattern → String
  | .one l => labelText l
  | .anyOf ls => "[\n" ++ String.join (ls.map fun l => "  " ++ labelText l ++ "\n") ++ "]"
  | .child k l => "(" ++ k.spelling ++ "\n  " ++ labelText l

/-- The text of a pattern with its name; the name of a child stands inside the pattern. -/
def entryText : Pattern × String → String
  | (.child k l, name) => patternText (.child k l) ++ " @" ++ name ++ ")\n"
  | (p, name) => patternText p ++ " @" ++ name ++ "\n"

/-- The text of a query, with an empty line between two patterns. -/
def text (q : Query) : String := String.intercalate "\n" (q.map entryText)

/-! ## Captures -/

/-- What a query captures at one node. -/
def at_ (q : Query) (parent : Kind) (n : Node) : List Capture :=
  (q.filter fun (p, _) => p.captures parent n.label).map fun (_, name) => ⟨name, n.span⟩

mutual

/-- What a query captures at a node and below it. -/
def within (q : Query) (parent : Kind) : Node → List Capture
  | .branch k children => at_ q parent (.branch k children) ++ withinAll q k children
  | n => at_ q parent n

def withinAll (q : Query) (parent : Kind) : List Node → List Capture
  | [] => []
  | n :: ns => within q parent n ++ withinAll q parent ns

end

end Query

namespace Capture

/-- Whether a capture is listed before another: by start, end and name. -/
def le (a b : Capture) : Bool :=
  a.span.start < b.span.start || (a.span.start == b.span.start &&
    (a.span.stop < b.span.stop || (a.span.stop == b.span.stop && !(b.name < a.name))))

end Capture

/-- The captures of the highlighting in a document, in order. -/
def Document.captures (d : Document) : List Capture :=
  (Query.withinAll .highlights .sourceFile d.children).mergeSort Capture.le

end Heptagon
