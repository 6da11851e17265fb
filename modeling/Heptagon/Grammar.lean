import Heptagon.Tree

/-!
# The grammar

The grammar of the language as a value: which sequences of tokens and nodes
each construct may consist of.  It says nothing about operators that group or
lists that divide in one way and not another; a text may have several
derivations, and reading chooses among them.

A repetition is a construct of its own that the tables of a grammar count
among their kinds (`Grammar.kindCount`), once for every rule that is repeated.
-/

namespace Heptagon

/-- A construct: one that has a node, or one whose parts belong to the node around it. -/
inductive Construct where
  | node (k : Kind)
  | definition | functionDef | typeDef | recordTypeDef | enumTypeDef | statement
  deriving DecidableEq, Repr

def Construct.spelling : Construct → String
  | node k => k.spelling
  | definition => "_definition"
  | functionDef => "_function_def"
  | typeDef => "_type_def"
  | recordTypeDef => "_record_type_def"
  | enumTypeDef => "_enum_type_def"
  | statement => "_statement"

/-- What a construct may consist of. -/
inductive Rule where
  | blank
  | keyword (k : Keyword)
  | symbol (s : Symbol)
  /-- a construct, or a token with a name -/
  | ref (c : Construct)
  | seq (first second : Rule)
  | either (left right : Rule)
  /-- one or more times -/
  | some (repeated : Rule)
  deriving DecidableEq, Repr

namespace Rule

/-- A node or a token with a name. -/
abbrev of (k : Kind) : Rule := ref (.node k)

def seqs : List Rule → Rule
  | [] => blank
  | [r] => r
  | r :: rs => seq r (seqs rs)

def choice : List Rule → Rule
  | [] => blank
  | [r] => r
  | r :: rs => either r (choice rs)

def optional (r : Rule) : Rule := either r blank

def many (r : Rule) : Rule := optional (some r)

/-- The rules that are repeated somewhere in a rule. -/
def repeated : Rule → List Rule
  | seq a b => a.repeated ++ b.repeated
  | either a b => a.repeated ++ b.repeated
  | some r => r :: r.repeated
  | _ => []

/-- The keywords and symbols in a rule. -/
def literals : Rule → List String
  | keyword k => [k.spelling]
  | symbol s => [s.spelling]
  | seq a b => a.literals ++ b.literals
  | either a b => a.literals ++ b.literals
  | some r => r.literals
  | _ => []

end Rule

/-- The tokens with a name; each is one pattern. -/
inductive TokenClass where
  | comment | identifier | enumIdentifier | stateIdentifier | lNumber
  deriving DecidableEq, Repr

namespace TokenClass

def kind : TokenClass → Kind
  | comment => .comment
  | identifier => .identifier
  | enumIdentifier => .enumIdentifier
  | stateIdentifier => .stateIdentifier
  | lNumber => .lNumber

def all : List TokenClass := [comment, identifier, enumIdentifier, stateIdentifier, lNumber]

end TokenClass

namespace Grammar

open Rule

/-- The name of the language. -/
def name : String := "heptagon"

/-- A list: one item, and others with a separator before each. -/
def separated (item separator : Rule) : Rule := seq item (many (seq separator item))

def names : Rule := separated (of .identifier) (symbol .comma)

/-- A type after its colon. -/
def typing : List Rule := [symbol .colon, of .litType]

/-- The rule of a construct.  Tokens with a name have none. -/
def rule : Construct → Rule
  | .node .sourceFile => many (ref .definition)
  | .definition => choice [of .comment, ref .functionDef, ref .typeDef]
  | .functionDef => seqs [
      choice [keyword .fun_, keyword .node], of .identifier,
      optional (seqs ([symbol .angleOpen, of .identifier] ++ typing ++ [symbol .angleClose])),
      of .parameterList, keyword .returns, of .parameterList, optional (of .localVars),
      of .block]
  | .node .parameterList => seqs [
      symbol .parenOpen, optional (of .paramVarDeclList), symbol .parenClose]
  | .node .litType => choice [of .primitiveType, of .arrayType, of .identifier]
  | .node .primitiveType => choice [keyword .bool, keyword .int, keyword .float]
  | .node .arrayType => seqs [
      of .litType, symbol .caret, choice [of .identifier, of .lNumber]]
  | .node .localVars => seqs [keyword .var, of .localVarDeclList]
  | .node .paramVarDeclList => seqs [
      separated (of .varDecl) (symbol .semicolon), optional (symbol .semicolon)]
  | .node .localVarDeclList => seqs [
      separated (of .varDecl) (symbol .semicolon), symbol .semicolon]
  | .node .varDecl => choice [of .varDeclBase, of .varDeclLast]
  | .node .varDeclBase => seqs ([names] ++ typing ++ [optional (of .varDeclClock)])
  | .node .varDeclClock => seqs [
      symbol .clockColon, symbol .dot,
      .some (seqs [keyword .on_, of .stateIdentifier, symbol .parenOpen, of .identifier,
        symbol .parenClose])]
  | .node .varDeclLast => seqs [
      keyword .last, of .varDeclBase, symbol .equal, choice [of .identifier, of .literal]]
  | .node .block => seqs [keyword .let_, many (ref .statement), keyword .tel]
  | .statement => choice [
      of .equationList, of .automaton, of .switchStatement, of .presentStatement,
      of .resetStatement]
  | .node .equationList => seqs [
      separated (of .equation) (symbol .semicolon), optional (symbol .semicolon)]
  | .node .equation => seqs [
      choice [of .identifier, seqs [symbol .parenOpen, names, symbol .parenClose]],
      symbol .equal, of .expression]
  | .node .expression => choice [of .ifthenelse, of .subExpression]
  | .node .subExpression => choice [
      of .literal, of .identifier,
      seqs [symbol .parenOpen, of .expression, symbol .parenClose],
      seqs [of .unaryOperator, of .expression],
      seqs [of .expression, of .binaryOperator, of .expression],
      of .recordConstruction, of .functionCall, of .tuple]
  | .node .tuple => seqs [
      symbol .parenOpen, of .expression, .some (seq (symbol .comma) (of .expression)),
      symbol .parenClose]
  | .node .functionCall => seqs [
      of .identifier, symbol .parenOpen,
      many (separated (of .expression) (symbol .comma)), symbol .parenClose]
  | .node .recordConstruction => seqs [
      symbol .braceOpen,
      separated (seqs [of .identifier, symbol .equal, of .expression]) (symbol .semicolon),
      symbol .braceClose]
  | .node .ifthenelse => seqs [
      keyword .if_, of .expression, keyword .then_, of .expression, keyword .else_,
      of .expression]
  | .node .switchStatement => seqs [
      keyword .switch, of .identifier,
      many (seqs [symbol .bar, of .enumIdentifier, keyword .do_, .some (ref .statement)]),
      keyword .end_]
  | .node .presentStatement => seqs [
      keyword .present,
      many (seqs [symbol .bar, of .expression, keyword .do_, ref .statement]),
      optional (seqs [keyword .default, keyword .do_, ref .statement]),
      keyword .end_]
  | .node .resetStatement => seqs [
      keyword .reset, many (ref .statement), keyword .every, of .expression]
  | .node .automaton => seqs [
      keyword .automaton, optional (of .localVars), many (of .automatonState), keyword .end_]
  | .node .automatonState => seqs [
      keyword .state, of .stateIdentifier, optional (of .localVars), keyword .do_,
      many (ref .statement), many (of .automatonTransition)]
  | .node .automatonTransition => seqs [
      choice [keyword .unless_, keyword .until_], of .expression, keyword .then_,
      of .stateIdentifier]
  | .typeDef => seqs [
      keyword .type, of .identifier, symbol .equal,
      choice [ref .recordTypeDef, ref .enumTypeDef]]
  | .recordTypeDef => seqs [
      symbol .braceOpen,
      separated (seqs (of .identifier :: typing)) (symbol .semicolon),
      symbol .braceClose]
  | .enumTypeDef => seqs [
      optional (symbol .bar), separated (of .enumIdentifier) (symbol .bar)]
  | .node .literal => choice [of .lNumber, of .lBool, of .lArray]
  | .node .lBool => choice [keyword .true_, keyword .false_]
  | .node .lArray => seqs [
      symbol .squareOpen, optional (separated (of .expression) (symbol .comma)),
      symbol .squareClose]
  | .node .unaryOperator => choice [
      symbol .minusDot, symbol .minus, keyword .pre, keyword .not, keyword .last]
  | .node .binaryOperator => choice [
      symbol .arrow, keyword .fby, symbol .plusDot, symbol .minusDot, symbol .starDot,
      symbol .slashDot, symbol .plus, symbol .minus, symbol .star, symbol .slash,
      symbol .unequal, symbol .atMostDot, symbol .equalDot, symbol .lessDot,
      symbol .greaterDot, symbol .atMost, symbol .atLeast, symbol .equal, symbol .less,
      symbol .greater, keyword .and, keyword .or, symbol .percent, symbol .caret]
  | .node .comment | .node .lNumber | .node .identifier | .node .enumIdentifier
  | .node .stateIdentifier => blank

/-- The constructs with a rule, the whole program first. -/
def constructs : List Construct :=
  [.node .sourceFile, .definition, .functionDef, .node .parameterList, .node .litType,
    .node .primitiveType, .node .arrayType, .node .localVars, .node .paramVarDeclList,
    .node .localVarDeclList, .node .varDecl, .node .varDeclBase, .node .varDeclClock,
    .node .varDeclLast, .node .block, .statement, .node .equationList, .node .equation,
    .node .expression, .node .subExpression, .node .tuple, .node .functionCall,
    .node .recordConstruction, .node .ifthenelse, .node .switchStatement,
    .node .presentStatement, .node .resetStatement, .node .automaton, .node .automatonState,
    .node .automatonTransition, .typeDef, .recordTypeDef, .enumTypeDef, .node .literal,
    .node .lBool, .node .lArray, .node .unaryOperator, .node .binaryOperator]

/-! ## Kinds -/

/-- The keywords and symbols of the grammar, without duplicates. -/
def literals : List String := (constructs.flatMap fun c => (rule c).literals).eraseDups

/-- The rules that are repeated, without duplicates. -/
def repeated : List Rule := (constructs.flatMap fun c => (rule c).repeated).eraseDups

/-- The number of kinds that tables of the grammar tell apart: the end of the input, tokens,
constructs and repetitions. -/
def kindCount : Nat :=
  1 + literals.length + TokenClass.all.length + constructs.length + repeated.length

/-- The label of a construct that has a node. -/
def labelOf? : Construct → Option Label
  | .node k => Option.some (.named k)
  | _ => none

/-- All labels that nodes and tokens have. -/
def labels : List Label :=
  constructs.filterMap labelOf? ++ TokenClass.all.map (fun t => .named t.kind) ++
    literals.map .literal

/-- Whether a kind is listed before another: by spelling, a literal before a named kind. -/
def labelLe (a b : String × Bool) : Bool :=
  a.1 < b.1 || (a.1 == b.1 && (!a.2 || b.2))

/-- All kinds, each with whether it is named, in order. -/
def kinds : List (String × Bool) :=
  (labels.map fun l => (l.spelling, l.isNamed)).mergeSort labelLe

/-- The name of the nodes that stand for what could not be read. -/
def errorKind : String := "ERROR"

/-- Whether a kind is known.  Every beginning of the name for errors counts as that name. -/
def knows (spelling : String) (named : Bool) : Bool :=
  kinds.contains (spelling, named) ||
    (named && spelling.toList.isPrefixOf errorKind.toList)

end Grammar

end Heptagon
