import Heptagon.Proofs.Expr.Normal
import Heptagon.Proofs.Statement.Written

/-!
# Finding the names of states

A lexeme can be the name of a state, the capital end of one, or another token,
and its spelling does not tell.  This file finds the names of states in a list
of lexemes with a stack: each `Frame` says what is to come in some construct,
and a lexeme that the top frame has no use for is for the frames below.

The stack does not look at whether a parenthesis stands apart (`marks_shown`),
and it does not need to know: after an operand, a parenthesis and what is in it
can be passed over, whether it calls a name or starts an equation, and the
stack is the same behind it.  So the two readings of a text have the same
tokens as names of states.
-/

namespace Heptagon

/-- What a lexeme is to the tokens of a text. -/
inductive Mark where
  /-- a token that names no state -/
  | token
  /-- the name of a state, or its small beginning -/
  | state
  /-- the capital end of the name of a state -/
  | half
  deriving DecidableEq

/-- What the lexemes of the name of a state are. -/
def StateName.marks : StateName → List Mark
  | mixed _ _ => [.state, .half]
  | _ => [.state]

/-- What the lexemes of a token are. -/
def Leaf.marks : Leaf → List Mark
  | state s => s.marks
  | _ => [.token]

namespace Leaf

@[simp] theorem marks_name (n : Name) : (name n).marks = [.token] := rfl
@[simp] theorem marks_variant (t : Text) : (variant t).marks = [.token] := rfl
@[simp] theorem marks_state (s : StateName) : (state s).marks = s.marks := rfl
@[simp] theorem marks_number (t : Text) : (number t).marks = [.token] := rfl
@[simp] theorem marks_keyword (k : Keyword) : (keyword k).marks = [.token] := rfl
@[simp] theorem marks_symbol (s : Symbol) : (symbol s).marks = [.token] := rfl

end Leaf

namespace Tree

/-- What the lexemes of a tree are. -/
def marks (t : Tree) : List Mark := t.leaves.flatMap Leaf.marks

/-- What the lexemes of some trees are. -/
def marksAll (ts : List Tree) : List Mark := (leavesAll ts).flatMap Leaf.marks

@[simp] theorem marks_leaf (l : Leaf) : (leaf l).marks = l.marks := by simp [marks, leaves]

@[simp] theorem marks_node (k : Kind) (ts : List Tree) : (node k ts).marks = marksAll ts := by
  simp [marks, marksAll, leaves]

@[simp] theorem marksAll_nil : marksAll [] = [] := rfl

@[simp] theorem marksAll_cons (t : Tree) (ts : List Tree) :
    marksAll (t :: ts) = t.marks ++ marksAll ts := by
  simp [marks, marksAll, leavesAll]

@[simp] theorem marksAll_append (ts us : List Tree) :
    marksAll (ts ++ us) = marksAll ts ++ marksAll us := by
  simp [marksAll]

end Tree

namespace Lexeme

/-- Whether a lexeme opens a bracket. -/
def opens : Lexeme → Bool
  | .apart | .symbol .parenOpen | .symbol .squareOpen | .symbol .braceOpen
  | .symbol .angleOpen => true
  | _ => false

/-- Whether a lexeme closes a bracket. -/
def shuts : Lexeme → Bool
  | .symbol .parenClose | .symbol .squareClose | .symbol .braceClose
  | .symbol .angleClose => true
  | _ => false

/-- Whether a lexeme is an opening parenthesis, set apart or not. -/
def isParen : Lexeme → Bool
  | .apart | .symbol .parenOpen => true
  | _ => false

end Lexeme

/-- What is to come in a construct. -/
inductive Frame where
  /-- any lexeme -/
  | any
  /-- the rest of a bracket -/
  | within
  /-- the name of a state, the capital end of one -/
  | state | half
  /-- the conditions of a clock after the first -/
  | samplings
  /-- in the local variables: a declaration and what follows it, what comes after a semicolon -/
  | declarations | declaration
  /-- local variables, if there are any -/
  | locals
  /-- an expression, what comes after an operand of one -/
  | operand | more
  /-- a statement, the statement of a branch -/
  | first | alone
  /-- in a branch: what comes after an equation, and after its semicolon -/
  | equations | next
  /-- some statements -/
  | statements (b : Body)
  | transitions | states | cases | branches
  /-- the static parameter of a component, if there is one, and its parameters -/
  | generic | params
  /-- what a type is -/
  | type
  | definitions

namespace Frame

/-- The clock of a variable after its first symbol. -/
def clock : List Frame := [any, any, state, any, any, any, samplings]

/-- What is to come after a lexeme in a bracket or in a declaration. -/
def inside (f : Frame) (l : Lexeme) : List Frame :=
  if l.opens then [within, f] else if l = .symbol .clockColon then clock ++ [f] else [f]

/-- What is to come after the first lexeme of an equation. -/
def equation (l : Lexeme) : List Frame := if l.isParen then [within, more] else [more]

/-- What is to come after the first lexeme of a statement. -/
def statement : Lexeme → List Frame
  | .kw .automaton => [locals, states, any]
  | .kw .switch => [any, cases, any]
  | .kw .present => [branches, any]
  | .kw .reset => [statements .reset, any, operand]
  | l => equation l

/-- What is to come after a lexeme where an operand is expected. -/
def operandStep : Lexeme → List Frame
  | .kw .not | .kw .pre | .kw .last | .symbol .minus | .symbol .minusDot => [operand]
  | .kw .if_ => [operand, any, operand, any, operand]
  | l => if l.opens then [within, more] else [more]

/-- What a lexeme is, and what is to come after it, if it is for the frame. -/
def step : Frame → Lexeme → Option (Mark × List Frame)
  | any, _ => some (.token, [])
  | within, l => some (.token, if l.shuts then [] else inside within l)
  | state, .word _ => some (.state, [half])
  | state, _ => some (.state, [])
  | half, .capital _ => some (.half, [])
  | half, _ => none
  | samplings, .kw .on_ => some (.token, [state, any, any, any, samplings])
  | samplings, _ => none
  | declarations, .symbol .semicolon => some (.token, [declaration])
  | declarations, l => some (.token, inside declarations l)
  | declaration, l => if Locals.closes l then none else some (.token, [declarations])
  | locals, .kw .var => some (.token, [declarations])
  | locals, _ => none
  | operand, l => some (.token, operandStep l)
  | more, l =>
    if (BinaryOp.ofLexeme? l).isSome then some (.token, [operand])
    else if l.isParen then some (.token, [within, more])
    else none
  | first, l => some (.token, statement l)
  | alone, l => some (.token, statement l ++ [equations])
  | equations, .symbol .semicolon => some (.token, [next])
  | equations, _ => none
  | next, l => if Branches.closes l then none else some (.token, equation l ++ [equations])
  | statements b, l =>
    if b.closes l then none
    else if l = .symbol .semicolon then some (.token, [statements b])
    else some (.token, statement l ++ [statements b])
  | transitions, .kw .unless_ => some (.token, [operand, any, state, transitions])
  | transitions, .kw .until_ => some (.token, [operand, any, state, transitions])
  | transitions, _ => none
  | states, .kw .state =>
    some (.token, [state, locals, any, statements .state, transitions, states])
  | states, _ => none
  | cases, .symbol .bar => some (.token, [any, any, first, statements .case, cases])
  | cases, _ => none
  | branches, .symbol .bar => some (.token, [operand, any, alone, branches])
  | branches, .kw .default => some (.token, [any, alone])
  | branches, _ => none
  | generic, .symbol .angleOpen => some (.token, [within])
  | generic, _ => none
  | params, _ => some (.token, [within])
  | type, .symbol .braceOpen => some (.token, [within])
  | type, .symbol .bar => some (.token, [type])
  | type, .capital _ => some (.token, [type])
  | type, _ => none
  | definitions, .kw .type => some (.token, [any, any, type, definitions])
  | definitions, _ => some (.token,
      [any, generic, params, any, params, locals, any, statements .block, any, definitions])

/-- What a lexeme is to a stack, and the stack after it. -/
def go : List Frame → Lexeme → Mark × List Frame
  | [], _ => (.token, [])
  | f :: k, l =>
    match f.step l with
    | some (m, fs) => (m, fs ++ k)
    | none => go k l

/-- What the lexemes of a list are. -/
def marks : List Frame → List Lexeme → List Mark
  | _, [] => []
  | k, l :: ts => (go k l).1 :: marks (go k l).2 ts

variable {f : Frame} {k fs : List Frame} {l : Lexeme} {m : Mark} {ts : List Lexeme}

theorem marks_cons (h : f.step l = some (m, fs)) :
    marks (f :: k) (l :: ts) = m :: marks (fs ++ k) ts := by
  simp [marks, go, h]

/-- A frame that has no use for the next lexeme is done with. -/
theorem marks_pop (h : ∀ l ∈ ts.head?, f.step l = none) : marks (f :: k) ts = marks k ts := by
  cases ts with
  | nil => rfl
  | cons l ts => simp [marks, go, h l rfl]

theorem marks_pop_cons (h : f.step l = none) : marks (f :: k) (l :: ts) = marks k (l :: ts) :=
  marks_pop fun _ hl => Option.some.inj hl ▸ h

/-- A parenthesis that stands apart is for a frame what any other is. -/
theorem step_shown (f : Frame) (l : Lexeme) : f.step l.shown = f.step l := by
  cases l with
  | apart =>
      cases f with
      | statements b => cases b <;> rfl
      | _ => rfl
  | _ => rfl

theorem go_shown (k : List Frame) (l : Lexeme) : go k l.shown = go k l := by
  induction k with
  | nil => rfl
  | cons f k ih => rw [go, go, step_shown, ih]

/-- Whether a parenthesis stands apart makes no difference. -/
theorem marks_shown (k : List Frame) (ts : List Lexeme) :
    marks k (ts.map Lexeme.shown) = marks k ts := by
  induction ts generalizing k with
  | nil => rfl
  | cons l ts ih => rw [List.map_cons, marks, marks, go_shown, ih]

end Frame

end Heptagon
