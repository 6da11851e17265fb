import Heptagon.Lexeme.Keyword
import Heptagon.Lexeme.Symbol

/-!
# Lexemes

The smallest written units.  Which lexemes a text consists of does not depend
on what they mean: a word that starts small is a `Word`, keyword or not, and
the reader of the language decides by its place whether a keyword or a name is
meant.  A name of an automaton state may mix a small beginning with a capital
end, as in `waitTick`; it is written with two lexemes that touch.
-/

namespace Heptagon

/-- A word that starts with a small letter. -/
inductive Word where
  /-- spelled like a keyword -/
  | keyword (k : Keyword)
  /-- any other spelling -/
  | plain (t : Text)
  deriving DecidableEq, Repr

namespace Word

/-- The word with a given spelling. -/
def ofText (t : Text) : Word :=
  match Keyword.ofText? t with
  | some k => keyword k
  | none => plain t

def text : Word → Text
  | keyword k => k.text
  | plain t => t

/-- Whether the word ends in a quote, as `x'` does. -/
def quoted (w : Word) : Bool := w.text.any isQuote

@[simp] theorem text_ofText (t : Text) : (ofText t).text = t := by
  unfold ofText
  split
  · next k h => exact Keyword.text_eq_of_ofText? h
  · rfl

end Word

/-- A written unit. -/
inductive Lexeme where
  | word (w : Word)
  /-- a word that starts with a capital letter -/
  | capital (t : Text)
  /-- digits, with a fraction or without -/
  | number (t : Text)
  | symbol (s : Symbol)
  /-- an opening parenthesis that begins something of its own, so that a name before it is
  not called -/
  | apart
  deriving DecidableEq, Repr

namespace Lexeme

/-- The lexeme of a keyword. -/
@[match_pattern] abbrev kw (k : Keyword) : Lexeme := word (.keyword k)

def text : Lexeme → Text
  | word w => w.text
  | capital t => t
  | number t => t
  | symbol s => s.text
  | apart => Symbol.parenOpen.text

end Lexeme

/-- How a parenthesis that opens no call is written. -/
inductive Opening where
  | plain
  /-- set apart from what is before it -/
  | apart
  deriving DecidableEq, Repr

def Opening.lexeme : Opening → Lexeme
  | plain => .symbol .parenOpen
  | apart => .apart

end Heptagon
