import Heptagon.Tree

/-!
# Tokens and the lexemes that write them

A token is written with one lexeme, or with two if it is the name of a state
with a small beginning and a capital end.  The units of a text are its lexemes
token by token; a tree has units as well, those of its leaves.

A tree does not show whether a parenthesis stands apart, so its units are the
shown ones of the text that it was read from.
-/

namespace Heptagon

/-- The lexeme as a token shows it, which does not say whether a parenthesis stands apart. -/
def Lexeme.shown : Lexeme → Lexeme
  | .apart => .symbol .parenOpen
  | l => l

namespace Lexeme

@[simp] theorem shown_word (w : Word) : (word w).shown = .word w := rfl
@[simp] theorem shown_capital (t : Text) : (capital t).shown = .capital t := rfl
@[simp] theorem shown_number (t : Text) : (number t).shown = .number t := rfl
@[simp] theorem shown_symbol (s : Symbol) : (symbol s).shown = .symbol s := rfl

@[simp] theorem shown_shown (l : Lexeme) : l.shown.shown = l.shown := by
  cases l <;> rfl

@[simp] theorem shown_comp_shown : shown ∘ shown = shown := funext shown_shown

@[simp] theorem text_shown (l : Lexeme) : l.shown.text = l.text := by
  cases l <;> rfl

end Lexeme

@[simp] theorem Opening.shown_lexeme (o : Opening) : o.lexeme.shown = .symbol .parenOpen := by
  cases o <;> rfl

@[simp] theorem StateName.map_shown_lexemes (s : StateName) :
    s.lexemes.map Lexeme.shown = s.lexemes := by
  cases s <;> rfl

/-- For each token, the lexemes that write it. -/
abbrev Units := List (List Lexeme)

namespace Units

/-- One unit for each lexeme. -/
def ofLexemes (ts : List Lexeme) : Units := ts.map fun l => [l]

def shown (us : Units) : Units := us.map (List.map Lexeme.shown)

@[simp] theorem ofLexemes_nil : ofLexemes [] = [] := rfl

@[simp] theorem ofLexemes_cons (l : Lexeme) (ts : List Lexeme) :
    ofLexemes (l :: ts) = [l] :: ofLexemes ts := rfl

@[simp] theorem ofLexemes_append (ts us : List Lexeme) :
    ofLexemes (ts ++ us) = ofLexemes ts ++ ofLexemes us := by
  simp [ofLexemes]

@[simp] theorem flatten_ofLexemes (ts : List Lexeme) : (ofLexemes ts).flatten = ts := by
  induction ts with
  | nil => rfl
  | cons l ts ih => simp [ih]

@[simp] theorem shown_nil : shown [] = [] := rfl

@[simp] theorem shown_cons (u : List Lexeme) (us : Units) :
    shown (u :: us) = u.map Lexeme.shown :: shown us := rfl

@[simp] theorem shown_append (us vs : Units) : shown (us ++ vs) = shown us ++ shown vs := by
  simp [shown]

theorem shown_ofLexemes (ts : List Lexeme) :
    (ofLexemes ts).shown = ofLexemes (ts.map Lexeme.shown) := by
  induction ts with
  | nil => rfl
  | cons l ts ih => simp [ih]

theorem flatten_shown (us : Units) : us.shown.flatten = us.flatten.map Lexeme.shown := by
  simp [shown]

end Units

namespace Tree

@[simp] theorem leavesAll_append (ts us : List Tree) :
    leavesAll (ts ++ us) = leavesAll ts ++ leavesAll us := by
  induction ts with
  | nil => rfl
  | cons t ts ih => simp [leavesAll, ih]

/-- The units of some trees. -/
def unitsAll (ts : List Tree) : Units := (leavesAll ts).map Leaf.lexemes

@[simp] theorem unitsAll_nil : unitsAll [] = [] := rfl

@[simp] theorem unitsAll_append (ts us : List Tree) :
    unitsAll (ts ++ us) = unitsAll ts ++ unitsAll us := by
  simp [unitsAll]

theorem unitsAll_cons (t : Tree) (ts : List Tree) :
    unitsAll (t :: ts) = unitsAll [t] ++ unitsAll ts :=
  unitsAll_append [t] ts

@[simp] theorem unitsAll_leaf_cons (l : Leaf) (ts : List Tree) :
    unitsAll (.leaf l :: ts) = l.lexemes :: unitsAll ts := rfl

@[simp] theorem unitsAll_node_cons (k : Kind) (ts us : List Tree) :
    unitsAll (.node k ts :: us) = unitsAll ts ++ unitsAll us := by
  simp [unitsAll, leavesAll, leaves]

/-- A tree is as wide as the lexemes that write it are many. -/
theorem widthAll_eq_length : (ts : List Tree) → widthAll ts = (unitsAll ts).flatten.length
  | [] => rfl
  | .leaf l :: ts => by simp [widthAll, width, widthAll_eq_length ts]
  | .node _ us :: ts => by
      simp [widthAll, width, widthAll_eq_length us, widthAll_eq_length ts]

theorem length_flatMap_leavesAll (ts : List Tree) :
    ((leavesAll ts).flatMap Leaf.lexemes).length = widthAll ts := by
  rw [widthAll_eq_length, unitsAll, ← List.flatMap_def]

theorem length_flatMap_leaves (t : Tree) :
    (t.leaves.flatMap Leaf.lexemes).length = t.width := by
  simpa [widthAll, leavesAll] using length_flatMap_leavesAll [t]

end Tree

namespace Leaf

@[simp] theorem lexemes_name (n : Name) : (name n).lexemes = [.word n] := rfl
@[simp] theorem lexemes_variant (t : Text) : (variant t).lexemes = [.capital t] := rfl
@[simp] theorem lexemes_state (s : StateName) : (state s).lexemes = s.lexemes := rfl
@[simp] theorem lexemes_number (t : Text) : (number t).lexemes = [.number t] := rfl
@[simp] theorem lexemes_keyword (k : Keyword) : (keyword k).lexemes = [.kw k] := rfl
@[simp] theorem lexemes_symbol (s : Symbol) : (symbol s).lexemes = [.symbol s] := rfl

/-- A token is written with one lexeme, or with two that are its halves. -/
theorem lexemes_cases (l : Leaf) :
    (∃ x, l.lexemes = [x] ∧ l.text = x.text) ∨
      ∃ x y, l.lexemes = [x, y] ∧ l.text = x.text ++ y.text := by
  cases l with
  | state s =>
      cases s with
      | mixed w t => exact .inr ⟨_, _, rfl, rfl⟩
      | _ => exact .inl ⟨_, rfl, rfl⟩
  | _ => exact .inl ⟨_, rfl, rfl⟩

theorem lexemes_ne_nil (l : Leaf) : l.lexemes ≠ [] := by
  rcases l.lexemes_cases with ⟨x, hx, -⟩ | ⟨x, y, hxy, -⟩ <;> simp [*]

/-- The text of a token is that of its lexemes. -/
theorem flatMap_text_lexemes (l : Leaf) : l.lexemes.flatMap Lexeme.text = l.text := by
  rcases l.lexemes_cases with ⟨x, hx, htext⟩ | ⟨x, y, hxy, htext⟩ <;> simp [*]

end Leaf

end Heptagon
