import Heptagon.Json
import Heptagon.Json.Number

/-!
# Reading JSON

`Json.ofText?` reads a text that is one JSON value with blanks around it and
nothing else.  It is strict: no comments, no commas before a closing bracket,
no control characters in strings, no halves of surrogate pairs, no number
without a double, and at most 127 arrays and objects inside each other.
-/

namespace Heptagon.Json

/-- The four blanks of the format. -/
def isBlank (c : Char) : Bool :=
  c == ' ' || c == '\n' || c == '\t' || c == '\r'

def skipBlanks (cs : List Char) : List Char := cs.dropWhile isBlank

/-- The characters after a given word. -/
def skipWord : (word : List Char) → List Char → Option (List Char)
  | [], cs => some cs
  | w :: ws, c :: cs => if w = c then skipWord ws cs else none
  | _ :: _, [] => none

/-! ## Strings -/

def hexDigit? (c : Char) : Option Nat :=
  if '0' ≤ c ∧ c ≤ '9' then some (c.toNat - 48)
  else if 'a' ≤ c ∧ c ≤ 'f' then some (c.toNat - 87)
  else if 'A' ≤ c ∧ c ≤ 'F' then some (c.toNat - 55)
  else none

/-- The number that four hexadecimal digits write. -/
def takeHex : List Char → Option (Nat × List Char)
  | a :: b :: c :: d :: cs => do
    let a ← hexDigit? a
    let b ← hexDigit? b
    let c ← hexDigit? c
    let d ← hexDigit? d
    return (((a * 16 + b) * 16 + c) * 16 + d, cs)
  | _ => none

/-- The character of a numeric escape after its letter; two escapes make a character above
`0xFFFF`. -/
def takeCode (cs : List Char) : Option (Char × List Char) := do
  let (n, cs) ← takeHex cs
  if 0xDC00 ≤ n ∧ n ≤ 0xDFFF then none
  else if n < 0xD800 ∨ 0xDBFF < n then return (Char.ofNat n, cs)
  else
    match cs with
    | '\\' :: 'u' :: cs => do
      let (k, cs) ← takeHex cs
      if 0xDC00 ≤ k ∧ k ≤ 0xDFFF then
        return (Char.ofNat ((n - 0xD800) * 1024 + (k - 0xDC00) + 0x10000), cs)
      else none
    | _ => none

/-- The character of an escape after its backslash. -/
def takeEscape : List Char → Option (Char × List Char)
  | 'u' :: cs => takeCode cs
  | c :: cs =>
    if c = '"' ∨ c = '\\' ∨ c = '/' then some (c, cs)
    else if c = 'b' then some ('\x08', cs)
    else if c = 'f' then some ('\x0c', cs)
    else if c = 'n' then some ('\n', cs)
    else if c = 'r' then some ('\r', cs)
    else if c = 't' then some ('\t', cs)
    else none
  | [] => none

/-- The characters of a string up to its closing quote. -/
def takeString : (steps : Nat) → List Char → Option (List Char × List Char)
  | 0, _ => none
  | _ + 1, [] => none
  | n + 1, c :: cs =>
    if c = '"' then some ([], cs)
    else if c = '\\' then do
      let (c, cs) ← takeEscape cs
      let (s, cs) ← takeString n cs
      return (c :: s, cs)
    else if c.toNat < 32 then none
    else do
      let (s, cs) ← takeString n cs
      return (c :: s, cs)

/-! ## Numbers -/

def isDigit (c : Char) : Bool := '0' ≤ c && c ≤ '9'

/-- The values of some digits. -/
def digitValues (ds : List Char) : List Nat := ds.map fun c => c.toNat - 48

/-- At least one digit. -/
def takeDigits (cs : List Char) : Option (List Char × List Char) :=
  match cs.takeWhile isDigit with
  | [] => none
  | ds => some (ds, cs.dropWhile isDigit)

/-- The whole part of a number, which starts with zero only if it is zero. -/
def takeWhole (cs : List Char) : Option (List Char × List Char) := do
  let (ds, cs) ← takeDigits cs
  if ds.head? = some '0' ∧ ds.length ≠ 1 then none else return (ds, cs)

/-- The digits of a fraction, if there is one. -/
def takeFraction : List Char → Option (List Char × List Char)
  | '.' :: cs => takeDigits cs
  | cs => some ([], cs)

/-- The exponent of a number, if there is one. -/
def takeExponent : List Char → Option (Option Int × List Char)
  | c :: cs =>
    if c = 'e' ∨ c = 'E' then do
      let (negative, cs) := match cs with
        | '-' :: cs => (true, cs)
        | '+' :: cs => (false, cs)
        | cs => (false, cs)
      let (ds, cs) ← takeDigits cs
      let value : Int := Nat.ofDigitChars 10 ds 0
      return (some (if negative then -value else value), cs)
    else some (none, c :: cs)
  | [] => some (none, [])

/-- What is left of a text at the front of which a number stands; there is none if the number is
too large. -/
def skipNumber (cs : List Char) : Option (List Char) := do
  let unsigned := match cs with
    | '-' :: cs => cs
    | cs => cs
  let (whole, cs) ← takeWhole unsigned
  let (fraction, cs) ← takeFraction cs
  let (exponent, cs) ← takeExponent cs
  let m := ((⟨0, 0⟩ : Magnitude).whole (digitValues whole)).fraction (digitValues fraction)
  if (m.scale (exponent.getD 0)).isTooLarge then none else return cs

/-! ## Values -/

mutual

/-- The value at the front of a text; `room` says how many brackets may still be opened inside
each other. -/
def takeValue : (steps room : Nat) → List Char → Option (Json × List Char)
  | 0, _, _ => none
  | n + 1, room, cs =>
    match skipBlanks cs with
    | [] => none
    | c :: cs =>
      if c = '"' then do
        let (s, cs) ← takeString (cs.length + 1) cs
        return (.string (String.ofList s), cs)
      else if c = '[' then
        match room with
        | 0 => none
        | room + 1 => do
          let (es, cs) ← takeElements n room true cs
          return (.array es, cs)
      else if c = '{' then
        match room with
        | 0 => none
        | room + 1 => do
          let (fs, cs) ← takeFields n room true cs
          return (.object fs, cs)
      else if c = 'n' then do return (.null, ← skipWord "ull".toList cs)
      else if c = 't' then do return (.bool true, ← skipWord "rue".toList cs)
      else if c = 'f' then do return (.bool false, ← skipWord "alse".toList cs)
      else do
        let rest ← skipNumber (c :: cs)
        return (.number ((c :: cs).take (cs.length + 1 - rest.length)), rest)

/-- The elements of an array up to its closing bracket; a comma stands before each but the first
one. -/
def takeElements : (steps room : Nat) → (first : Bool) → List Char →
    Option (List Json × List Char)
  | 0, _, _, _ => none
  | n + 1, room, first, cs =>
    match skipBlanks cs with
    | [] => none
    | c :: cs =>
      if c = ']' then some ([], cs)
      else if first || c = ',' then do
        let (e, cs) ← takeValue n room (if first then c :: cs else cs)
        let (es, cs) ← takeElements n room false cs
        return (e :: es, cs)
      else none

/-- The fields of an object up to its closing bracket; a comma stands before each but the first
one. -/
def takeFields : (steps room : Nat) → (first : Bool) → List Char →
    Option (List (String × Json) × List Char)
  | 0, _, _, _ => none
  | n + 1, room, first, cs =>
    match skipBlanks cs with
    | [] => none
    | c :: cs =>
      if c = '}' then some ([], cs)
      else if first || c = ',' then
        match skipBlanks (if first then c :: cs else cs) with
        | '"' :: cs => do
          let (key, cs) ← takeString (cs.length + 1) cs
          let cs ← skipWord [':'] (skipBlanks cs)
          let (e, cs) ← takeValue n room cs
          let (fs, cs) ← takeFields n room false cs
          return ((String.ofList key, e) :: fs, cs)
        | _ => none
      else none

end

/-- How many arrays and objects may stand inside each other. -/
def maxDepth : Nat := 127

/-- The value that a text writes. -/
def ofText? (text : String) : Option Json := do
  let cs := text.toList
  let (value, cs) ← takeValue (2 * cs.length + 2) maxDepth cs
  if (skipBlanks cs).isEmpty then return value else none

end Heptagon.Json
