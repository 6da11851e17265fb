import Heptagon.Name

/-!
# Concrete trees

A concrete tree shows every token of a program.  Its inner nodes carry the
name of the construct they stand for, its leaves are the tokens: names,
numbers, and the keywords and symbols of the language.  Some constructs, such
as a definition or a statement, have no node of their own; their parts are
children of the node around them.

Trees here have no positions.  Positions and comments come in when a tree is
laid over a scanned source (`Heptagon.Layout`).
-/

namespace Heptagon

/-- The named kinds of nodes and tokens. -/
inductive Kind where
  | sourceFile | comment | parameterList | litType | primitiveType | arrayType
  | localVars | paramVarDeclList | localVarDeclList
  | varDecl | varDeclBase | varDeclClock | varDeclLast
  | block | equationList | equation
  | expression | subExpression | tuple | functionCall | recordConstruction | ifthenelse
  | switchStatement | presentStatement | resetStatement
  | automaton | automatonState | automatonTransition
  | literal | lNumber | lBool | lArray | unaryOperator | binaryOperator
  | identifier | enumIdentifier | stateIdentifier
  deriving DecidableEq, Repr

namespace Kind

def spelling : Kind → String
  | sourceFile => "source_file" | comment => "comment" | parameterList => "parameter_list"
  | litType => "lit_type" | primitiveType => "primitive_type" | arrayType => "array_type"
  | localVars => "local_vars" | paramVarDeclList => "param_var_decl_list"
  | localVarDeclList => "local_var_decl_list"
  | varDecl => "var_decl" | varDeclBase => "var_decl_base" | varDeclClock => "var_decl_clock"
  | varDeclLast => "var_decl_last"
  | block => "block" | equationList => "equation_list" | equation => "equation"
  | expression => "expression" | subExpression => "sub_expression" | tuple => "tuple"
  | functionCall => "function_call" | recordConstruction => "record_construction"
  | ifthenelse => "ifthenelse"
  | switchStatement => "switch_statement" | presentStatement => "present_statement"
  | resetStatement => "reset_statement"
  | automaton => "automaton" | automatonState => "automaton_state"
  | automatonTransition => "automaton_transition"
  | literal => "literal" | lNumber => "l_number" | lBool => "l_bool" | lArray => "l_array"
  | unaryOperator => "unary_operator" | binaryOperator => "binary_operator"
  | identifier => "identifier" | enumIdentifier => "enum_identifier"
  | stateIdentifier => "state_identifier"

end Kind

/-- What a node or token is called: a named kind, or the spelling of a keyword or symbol. -/
inductive Label where
  | named (k : Kind)
  | literal (spelling : String)
  deriving DecidableEq, Repr

namespace Label

def spelling : Label → String
  | named k => k.spelling
  | literal s => s

def isNamed : Label → Bool
  | named _ => true
  | literal _ => false

end Label

/-- A token of a program. -/
inductive Leaf where
  | name (n : Name)
  /-- a constructor of an enumeration -/
  | variant (t : Text)
  | state (s : StateName)
  | number (t : Text)
  | keyword (k : Keyword)
  | symbol (s : Symbol)
  deriving DecidableEq, Repr

namespace Leaf

def label : Leaf → Label
  | name _ => .named .identifier
  | variant _ => .named .enumIdentifier
  | state _ => .named .stateIdentifier
  | number _ => .named .lNumber
  | keyword k => .literal k.spelling
  | symbol s => .literal s.spelling

/-- The lexemes that write a token: one, except for a mixed state name. -/
def lexemes : Leaf → List Lexeme
  | name n => [.word n]
  | variant t => [.capital t]
  | state s => s.lexemes
  | number t => [.number t]
  | keyword k => [.kw k]
  | symbol s => [.symbol s]

def text : Leaf → Text
  | name n => n.text
  | variant t => t
  | state s => s.text
  | number t => t
  | keyword k => k.text
  | symbol s => s.text

end Leaf

/-- A concrete tree without positions. -/
inductive Tree where
  | leaf (l : Leaf)
  | node (k : Kind) (children : List Tree)
  deriving Repr

namespace Tree

/-- The tree of a keyword. -/
abbrev kw (k : Keyword) : Tree := leaf (.keyword k)

/-- The tree of a symbol. -/
abbrev sym (s : Symbol) : Tree := leaf (.symbol s)

/-- The tree of a name. -/
abbrev name (n : Name) : Tree := leaf (.name n)

def label : Tree → Label
  | leaf l => l.label
  | node k _ => .named k

mutual

/-- The tokens of a tree, from left to right. -/
def leaves : Tree → List Leaf
  | leaf l => [l]
  | node _ children => leavesAll children

/-- The tokens of a row of trees, from left to right. -/
def leavesAll : List Tree → List Leaf
  | [] => []
  | t :: ts => t.leaves ++ leavesAll ts

end

mutual

/-- How many lexemes write a tree. -/
def width : Tree → Nat
  | leaf l => l.lexemes.length
  | node _ ts => widthAll ts

/-- How many lexemes write a row of trees. -/
def widthAll : List Tree → Nat
  | [] => 0
  | t :: ts => t.width + widthAll ts

end

end Tree

end Heptagon
