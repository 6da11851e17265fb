import Heptagon.Json

/-!
# Versions

The version of a grammar is three numbers below 256.  It is read from a field
of the settings, `metadata.version`; a string there that is no version is
reported and otherwise treated like no version at all.
-/

namespace Heptagon

/-- The pieces of a text between the places where a character stands; there is one piece if it
stands nowhere. -/
def splitBy (separator : Char) : List Char → List (List Char)
  | [] => [[]]
  | c :: cs =>
    match splitBy separator cs with
    | [] => [[]]
    | p :: ps => if c = separator then [] :: p :: ps else (c :: p) :: ps

structure Version where
  major : UInt8
  minor : UInt8
  patch : UInt8
  deriving DecidableEq, Repr

namespace Version

def isDigit (c : Char) : Bool := '0' ≤ c && c ≤ '9'

/-- The number that some digits write. -/
def digitsValue (ds : List Char) : Nat :=
  ds.foldl (fun n c => n * 10 + (c.toNat - 48)) 0

/-- A part of a version: digits, with one plus sign before them or without, and a value below
256. -/
def part? (cs : List Char) : Option UInt8 :=
  let ds := match cs with
    | '+' :: ds => ds
    | ds => ds
  if ds.isEmpty || !ds.all isDigit then none
  else if digitsValue ds < 256 then some (UInt8.ofNat (digitsValue ds)) else none

/-- The version that a text writes: three parts with points between them. -/
def ofText? (text : String) : Option Version :=
  match splitBy '.' text.toList with
  | [a, b, c] => do return ⟨← part? a, ← part? b, ← part? c⟩
  | _ => none

/-- The text of a version. -/
def text (v : Version) : String :=
  toString v.major.toNat ++ "." ++ toString v.minor.toNat ++ "." ++ toString v.patch.toNat

end Version

/-- What the settings say about the version. -/
inductive VersionField where
  /-- there is no string -/
  | absent
  | malformed (text : String)
  | given (v : Version)
  deriving DecidableEq, Repr

namespace VersionField

/-- The version field of some settings. -/
def ofSettings (settings : Json) : VersionField :=
  match settings.field? "metadata" >>= Json.field? "version" >>= Json.string? with
  | none => absent
  | some text =>
    match Version.ofText? text with
    | none => malformed text
    | some v => given v

def version? : VersionField → Option Version
  | given v => some v
  | _ => none

/-- What is printed when the field is read: a warning if it is malformed. -/
def warnings : VersionField → List String
  | malformed text => ["cargo:warning=ignoring malformed grammar version `" ++ text ++ "`"]
  | _ => []

end VersionField

end Heptagon
