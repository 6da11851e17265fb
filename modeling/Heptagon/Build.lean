import Heptagon.Build.Version
import Heptagon.Json.Reader

/-!
# Building the parser of a grammar

A build reads the settings and the grammar file of a project, has a parser
generated and writes it with its header and its library.  It is a script
(`Build.script`): it prints texts for the surrounding build tool and writes
files as it goes, and it may stop anywhere.  What has been printed and written
until then stays.

The surrounding tool reads lines (`Build.Run.lines`).  A text is printed as it
is, so that a line break in it ends a line, too.

The generator of parsers is no part of a build.  It is a parameter
(`Build.Generator`): any function from a grammar file and a version, or none,
to a parser, a refusal or a breakdown.
-/

namespace Heptagon

/-- A time as seconds, which are negative before 1970, and nanoseconds. -/
structure Time where
  seconds : Int
  nanoseconds : Nat
  deriving DecidableEq, Repr

/-- Whether one time is after another. -/
def Time.isAfter (t u : Time) : Bool :=
  u.seconds < t.seconds || (u.seconds == t.seconds && u.nanoseconds < t.nanoseconds)

/-- Whether both files exist and the first one was modified after the second; a file that does
not exist has no time. -/
def isNewer : (source generated : Option Time) → Bool
  | some s, some g => s.isAfter g
  | _, _ => false

/-- The name of the grammar that some settings ask for: the name of their first grammar. -/
def Json.grammarName? (settings : Json) : Option String :=
  settings.field? "grammars" >>= Json.first? >>= Json.field? "name" >>= Json.string?

namespace Build

/-- A file that is to be read as text. -/
inductive File where
  | missing
  /-- the bytes are no text -/
  | binary
  | text (content : String)
  deriving DecidableEq, Repr

instance : Coe (Option String) File :=
  ⟨fun content? => content?.elim .missing .text⟩

/-- A project as a build finds it.  Of files that are only watched or compiled it matters
whether they exist. -/
structure Project where
  directory : String
  settings : File
  grammar : File
  /-- whether there is a scanner written by hand -/
  scanner : Bool
  /-- the times of the authored grammar and of the grammar file, if these exist -/
  authored : Option Time
  generated : Option Time

namespace Project

variable (p : Project)

def authoredPath : String := p.directory ++ "/grammar.js"
def grammarPath : String := p.directory ++ "/src/grammar.json"
def settingsPath : String := p.directory ++ "/tree-sitter.json"
def scannerPath : String := p.directory ++ "/src/scanner.c"

end Project

/-- Why a build fails. -/
inductive Error where
  | missingFile
  | noText
  | malformedSettings (path : String)
  | noName (path : String)
  | badGrammar (path : String)
  | nameMismatch (expected generated : String)
  deriving DecidableEq, Repr

namespace Error

/-- The text of an error.  What follows the colon of settings that are malformed and of a bad
grammar is not part of this library. -/
def message : Error → String
  | missingFile => "No such file or directory (os error 2)"
  | noText => "stream did not contain valid UTF-8"
  | malformedSettings path => "parsing " ++ path ++ ": "
  | noName path => path ++ " has no grammars[0].name"
  | badGrammar path => "generating parser from " ++ path ++ ": "
  | nameMismatch expected generated =>
    "expected grammar `" ++ expected ++ "`, generated `" ++ generated ++ "`"

end Error

/-- The text of a file. -/
def File.read : File → Except Error String
  | missing => .error .missingFile
  | binary => .error .noText
  | text content => .ok content

/-- A generated parser. -/
structure Product where
  /-- the name of its grammar -/
  name : String
  /-- the version in it, if there is one -/
  version : Option Version
  deriving DecidableEq, Repr

/-- What a generator makes of a grammar file. -/
inductive Generation where
  | made (product : Product)
  | rejected
  | brokeDown
  deriving DecidableEq, Repr

/-- A generator of parsers: what it makes of the text of a grammar file, with a version or without
one. -/
abbrev Generator := String → Option Version → Generation

/-- What a build writes into a file. -/
inductive Output where
  | parser (product : Product)
  /-- the header that belongs to the runtime of parsers -/
  | header
  /-- the compiled parser, with a scanner or without one -/
  | library (scanner : Bool)
  deriving DecidableEq, Repr

/-- How a build ends. -/
inductive Outcome where
  | finished (product : Product)
  | failed (e : Error)
  /-- the generator broke down -/
  | brokeDown
  deriving DecidableEq, Repr

/-- The files that a run leaves in its output directory. -/
def Outcome.outputs : Outcome → List String
  | finished _ => ["parser.c", "tree_sitter/parser.h", "libtree-sitter-heptagon.a"]
  | _ => []

/-! ## What is printed -/

/-- The lines of a text that is printed with a line break behind it. -/
def linesOf (text : String) : List String := (splitBy '\n' text.toList).map String.ofList

def changeLine (path : String) : String := "cargo:rerun-if-changed=" ++ path

def newerLine (p : Project) : String :=
  "cargo:warning=grammar.js is newer than " ++ p.grammarPath ++
    "; run `tree-sitter generate` to pick up the edits"

/-- The text that hands the name of the grammar on. -/
def nameLine (name : String) : String := "cargo:rustc-env=TREE_SITTER_GRAMMAR_NAME=" ++ name

/-! ## Scripts -/

/-- What a build has printed and written so far, in this order. -/
structure Trace where
  printed : List String
  files : List (String × Output)
  deriving DecidableEq, Repr

/-- A part of a build: it adds to what has been done, and it has a result or ends the build. -/
abbrev Script := ExceptT Outcome (StateM Trace)

def print (text : String) : Script Unit :=
  modify fun t => { t with printed := t.printed ++ [text] }

def write (path : String) (output : Output) : Script Unit :=
  modify fun t => { t with files := t.files ++ [(path, output)] }

def fail {α : Type} (e : Error) : Script α := throw (.failed e)

def read (f : File) : Script String :=
  match f.read with
  | .error e => fail e
  | .ok content => return content

/-- The version in some settings; a string there that is no version is reported. -/
def semanticVersion (settings : Json) : Script (Option Version) := do
  let field := VersionField.ofSettings settings
  field.warnings.forM print
  return field.version?

/-- The parser of a grammar file. -/
def generate (generator : Generator) (p : Project) (grammar : String) (version : Option Version) :
    Script Product :=
  match generator grammar version with
  | .made product => return product
  | .rejected => fail (.badGrammar p.grammarPath)
  | .brokeDown => throw .brokeDown

/-- What is printed at the start of every build. -/
def announce (p : Project) : Script Unit := do
  print (changeLine p.authoredPath)
  print (changeLine p.grammarPath)
  print (changeLine p.settingsPath)
  if isNewer p.authored p.generated then print (newerLine p)

/-- What is done with a parser that has the name it should have. -/
def deliver (p : Project) (product : Product) : Script Unit := do
  print (nameLine product.name)
  write "parser.c" (.parser product)
  write "tree_sitter/parser.h" .header
  if p.scanner then print (changeLine p.scannerPath)
  write "libtree-sitter-heptagon.a" (.library p.scanner)

/-- A build. -/
def script (generator : Generator) (p : Project) : Script Product := do
  announce p
  let text ← read p.settings
  let some settings := Json.ofText? text | fail (.malformedSettings p.settingsPath)
  let some expected := settings.grammarName? | fail (.noName p.settingsPath)
  let grammar ← read p.grammar
  let version ← semanticVersion settings
  let product ← generate generator p grammar version
  if product.name ≠ expected then fail (.nameMismatch expected product.name)
  deliver p product
  return product

/-! ## Runs -/

/-- A run of a build that starts with an empty output directory: the printed texts, the files
that are there when it ends, and its end. -/
structure Run where
  printed : List String
  files : List (String × Output)
  outcome : Outcome
  deriving DecidableEq, Repr

/-- What a part of a build comes to after something has been done. -/
def Script.exec {α : Type} (x : Script α) (t : Trace) : Except Outcome α × Trace := x.run.run t

/-- The run that a script comes to. -/
def Run.of : Except Outcome Product × Trace → Run
  | (.ok product, t) => ⟨t.printed, t.files, .finished product⟩
  | (.error outcome, t) => ⟨t.printed, t.files, outcome⟩

/-- A whole run. -/
def run (generator : Generator) (p : Project) : Run := .of ((script generator p).exec ⟨[], []⟩)

/-- The lines that a run prints. -/
def Run.lines (r : Run) : List String := r.printed.flatMap linesOf

end Build

end Heptagon
