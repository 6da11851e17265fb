import Heptagon.Lexeme

/-!
# Scanning

`scan` splits a source into lexemes and comments, each with its span, and
fails if some bytes are neither.

A comment runs from `(*` to the first `*)` after it; comments do not nest, may
hold any byte but zero, and an unclosed one is an error.  Words, numbers and
symbols are as long as possible.
-/

namespace Heptagon

/-- Something that stands in a source. -/
inductive Item where
  | lexeme (l : Lexeme)
  | comment
  deriving DecidableEq, Repr

/-- Something with its place. -/
structure Placed (α : Type) where
  value : α
  span : Span
  deriving DecidableEq, Repr

/-- The rest of a comment, its closing bytes included, and what follows it. -/
def Comment.close? : Text → Option (Text × Text)
  | [] => none
  | 0 :: _ => none
  | 42 :: 41 :: rest => some ([42, 41], rest)
  | b :: rest => (close? rest).map fun (body, rest) => (b :: body, rest)

/-- The longest stretch of bytes of one class at the front of a text, and what follows it. -/
def Text.spanOf (p : UInt8 → Bool) (t : Text) : Text × Text :=
  (t.takeWhile p, t.dropWhile p)

namespace Item

/-- A number at the front of a text that starts with a digit: digits, and a fraction if a
point and a digit follow. -/
def number (t : Text) : Item × Text × Text :=
  let (whole, rest) := t.spanOf isDigit
  match rest with
  | 46 :: d :: more =>
    if isDigit d then
      let (fraction, rest) := Text.spanOf isDigit (d :: more)
      let taken := whole ++ 46 :: fraction
      (lexeme (.number taken), taken, rest)
    else (lexeme (.number whole), whole, rest)
  | _ => (lexeme (.number whole), whole, rest)

/-- A word at the front of a text that starts with a small letter; quotes may end it. -/
def word (t : Text) : Item × Text × Text :=
  let (body, rest) := t.spanOf isSmallBody
  let (quotes, rest) := rest.spanOf isQuote
  let taken := body ++ quotes
  (lexeme (.word (.ofText taken)), taken, rest)

/-- A word at the front of a text that starts with a capital letter. -/
def capital (t : Text) : Item × Text × Text :=
  let (taken, rest) := t.spanOf isWordBody
  (lexeme (.capital taken), taken, rest)

/-- The symbol at the front of a text. -/
def symbol? (t : Text) : Option (Item × Text × Text) :=
  (Symbol.first? t).map fun s => (lexeme (.symbol s), s.text, t.drop s.text.length)

/-- The item at the front of a text that starts with no blank, the bytes it takes and those
that follow. -/
def first? : Text → Option (Item × Text × Text)
  | [] => none
  | 40 :: 42 :: rest =>
    (Comment.close? rest).map fun (body, rest) => (comment, 40 :: 42 :: body, rest)
  | b :: rest =>
    if isSmall b then some (word (b :: rest))
    else if isCapital b then some (capital (b :: rest))
    else if isDigit b then some (number (b :: rest))
    else symbol? (b :: rest)

end Item

/-- Scans the text that stands at `offset`, in at most `fuel` steps. -/
def scanFrom : (fuel offset : Nat) → Text → Option (List (Placed Item))
  | _, _, [] => some []
  | 0, _, _ => none
  | fuel + 1, offset, b :: rest =>
    if isBlank b then scanFrom fuel (offset + 1) rest
    else do
      let (item, taken, rest) ← Item.first? (b :: rest)
      let stop := offset + taken.length
      let items ← scanFrom fuel stop rest
      return ⟨item, ⟨offset, stop⟩⟩ :: items

/-- The items of a source; every step takes a byte, so as many steps as there are bytes
suffice. -/
def scan (source : Text) : Option (List (Placed Item)) :=
  if Text.leadingMark.isPrefixOf source then
    scanFrom source.length Text.leadingMark.length (source.drop Text.leadingMark.length)
  else
    scanFrom source.length 0 source

end Heptagon
