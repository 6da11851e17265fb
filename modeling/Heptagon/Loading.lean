import Heptagon.Build.Version
import Heptagon.Grammar

/-!
# Loading a language

A language is handed over by an accessor, which may return nothing.  It can be
loaded if it was generated for one of the table formats that are understood;
each attempt leaves one event in the log.
-/

namespace Heptagon

/-- What an accessor hands over. -/
inductive Descriptor where
  /-- the language of this library -/
  | bundled
  /-- nothing -/
  | null
  /-- a language without kinds, with tables of the given format -/
  | blank (format : Nat)
  deriving DecidableEq, Repr

/-- A language that was handed over: the format of its tables and the number of its kinds. -/
structure Language where
  format : Nat
  kindCount : Nat
  deriving DecidableEq, Repr

namespace Language

/-- The table formats that can be loaded. -/
def oldestFormat : Nat := 13
def newestFormat : Nat := 15

/-- The language of this library. -/
def bundled : Language := ⟨newestFormat, Grammar.kindCount⟩

/-- The version of the bundled language. -/
def version : Version := ⟨0, 0, 1⟩

/-- The number of named fields that nodes of the bundled language have. -/
def fieldCount : Nat := 0

end Language

/-- The language that an accessor hands over. -/
def Descriptor.language? : Descriptor → Option Language
  | bundled => some .bundled
  | null => none
  | blank format => some ⟨format, 0⟩

/-- Why a language cannot be loaded. -/
inductive LoadError where
  | nullLanguage
  | incompatible (format : Nat)
  deriving DecidableEq, Repr

namespace LoadError

/-- The cause of an error, if it has one. -/
def source? : LoadError → Option String
  | nullLanguage => none
  | incompatible format => some ("Incompatible language version " ++ toString format ++
      ". Expected minimum " ++ toString Language.oldestFormat ++
      ", maximum " ++ toString Language.newestFormat)

def message (e : LoadError) : String :=
  "Error loading heptagon grammar" ++
    match e.source? with
    | none => ""
    | some source => ": " ++ source

end LoadError

/-- An entry of the log. -/
inductive LoadEvent where
  | null
  | rejected (format : Nat) (reason : String)
  | loaded (l : Language)
  deriving DecidableEq, Repr

namespace LoadEvent

/-- Whether an event is a warning; the others only serve to trace a run. -/
def isWarning : LoadEvent → Bool
  | loaded _ => false
  | _ => true

def message : LoadEvent → String
  | null => "heptagon grammar descriptor is null"
  | rejected _ _ => "runtime rejected heptagon grammar"
  | loaded _ => "loaded heptagon grammar"

end LoadEvent

/-- Whether tables of a format can be loaded. -/
def Language.isCompatible (l : Language) : Bool :=
  Language.oldestFormat ≤ l.format && l.format ≤ Language.newestFormat

/-- Loads what an accessor hands over, and logs the attempt. -/
def Descriptor.load (d : Descriptor) : Except LoadError Language × List LoadEvent :=
  match d.language? with
  | none => (.error .nullLanguage, [.null])
  | some l =>
    if l.isCompatible then (.ok l, [.loaded l])
    else
      let e := LoadError.incompatible l.format
      (.error e, [.rejected l.format (e.source?.getD "")])

end Heptagon
