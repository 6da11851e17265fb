import Heptagon.Build

/-!
# How builds end

A run of a build goes in one of eight ways (`Ends`): one for each check that
can be the first to fail, where a generator can fail in two ways, and one for
the run that passes all checks.  What a run has printed and written is found by
following the script, of which every part has one lemma that says what it adds
to what has been done before.

Nothing is assumed of the generator here.  Two laws of it have a name: a parser
holds the version that it was generated with (`Generator.KeepsVersion`), and
without a version there is no parser (`Generator.NeedsVersion`).
-/

namespace Heptagon.Build

/-! ## Following a script -/

namespace Script

variable {α β : Type} {t : Trace}

/-- What is done after a part of a build, unless that part has ended the build. -/
def andThen : Except Outcome α × Trace → (α → Script β) → Except Outcome β × Trace
  | (.ok a, t), f => (f a).exec t
  | (.error outcome, t), _ => (.error outcome, t)

@[simp] theorem andThen_ok (a : α) (f : α → Script β) : andThen (.ok a, t) f = (f a).exec t := rfl

@[simp] theorem andThen_error (outcome : Outcome) (f : α → Script β) :
    andThen (.error outcome, t) f = (.error outcome, t) := rfl

@[simp] theorem exec_bind (x : Script α) (f : α → Script β) :
    exec (x >>= f) t = andThen (x.exec t) f := by
  show (x >>= f).run.run t = _
  rw [ExceptT.run_bind, StateT.run_bind]
  show _ = andThen (x.run.run t) f
  rcases x.run.run t with ⟨_ | _, t⟩ <;> rfl

@[simp] theorem exec_pure (a : α) : exec (pure a : Script α) t = (.ok a, t) := rfl

@[simp] theorem exec_throw (outcome : Outcome) :
    exec (throw outcome : Script α) t = (.error outcome, t) := rfl

@[simp] theorem exec_fail (e : Error) : exec (fail e : Script α) t = (.error (.failed e), t) := rfl

@[simp] theorem exec_map (g : α → β) (x : Script α) :
    exec (g <$> x) t = andThen (x.exec t) fun a => pure (g a) := by
  rw [map_eq_pure_bind, exec_bind]

@[simp] theorem exec_print (text : String) :
    exec (print text) t = (.ok (), { t with printed := t.printed ++ [text] }) := rfl

@[simp] theorem exec_write (path : String) (output : Output) :
    exec (write path output) t = (.ok (), { t with files := t.files ++ [(path, output)] }) := rfl

end Script

@[simp] theorem Run.of_ok (product : Product) (t : Trace) :
    Run.of (.ok product, t) = ⟨t.printed, t.files, .finished product⟩ := rfl

@[simp] theorem Run.of_error (outcome : Outcome) (t : Trace) :
    Run.of (.error outcome, t) = ⟨t.printed, t.files, outcome⟩ := rfl

open Script

variable {generator : Generator} {p : Project} {t : Trace} {r : Run}

/-! ## The parts of a build -/

/-- What every run prints first. -/
def openingLines (p : Project) : List String :=
  [changeLine p.authoredPath, changeLine p.grammarPath, changeLine p.settingsPath] ++
    if isNewer p.authored p.generated then [newerLine p] else []

/-- What a run that passes all checks prints last. -/
def closingLines (p : Project) (name : String) : List String :=
  nameLine name :: if p.scanner then [changeLine p.scannerPath] else []

/-- The files of a run that passes all checks. -/
def outputFiles (p : Project) (product : Product) : List (String × Output) :=
  [("parser.c", .parser product), ("tree_sitter/parser.h", .header),
    ("libtree-sitter-heptagon.a", .library p.scanner)]

@[simp] theorem exec_announce :
    exec (announce p) t = (.ok (), { t with printed := t.printed ++ openingLines p }) := by
  unfold announce openingLines
  split <;> simp [*]

@[simp] theorem exec_deliver (product : Product) : exec (deliver p product) t =
    (.ok (), ⟨t.printed ++ closingLines p product.name, t.files ++ outputFiles p product⟩) := by
  unfold deliver closingLines outputFiles
  split <;> simp [*]

theorem exec_semanticVersion (settings : Json) : exec (semanticVersion settings) t =
    (.ok (VersionField.ofSettings settings).version?,
      { t with printed := t.printed ++ (VersionField.ofSettings settings).warnings }) := by
  unfold semanticVersion
  cases VersionField.ofSettings settings <;> simp [VersionField.warnings, VersionField.version?]

theorem File.read_eq_ok_iff {f : File} {content : String} :
    f.read = .ok content ↔ f = .text content := by
  cases f <;> simp [read]

theorem exec_read_ok {f : File} {content : String} (h : f.read = .ok content) :
    exec (read f) t = (.ok content, t) := by
  rw [read, h]
  rfl

theorem exec_read_error {f : File} {e : Error} (h : f.read = .error e) :
    exec (read f) t = (.error (.failed e), t) := by
  rw [read, h]
  rfl

/-! ## The ends of a build -/

/-- The ways in which a run can go: one for each check that can be the first to fail, and one
for a run that passes all checks. -/
inductive Ends (generator : Generator) (p : Project) : Run → Prop
  | settingsUnread {e : Error} (hread : p.settings.read = .error e) :
      Ends generator p ⟨openingLines p, [], .failed e⟩
  | settingsMalformed {text : String} (hread : p.settings.read = .ok text)
      (hjson : Json.ofText? text = none) :
      Ends generator p ⟨openingLines p, [], .failed (.malformedSettings p.settingsPath)⟩
  | noName {text : String} {settings : Json} (hread : p.settings.read = .ok text)
      (hjson : Json.ofText? text = some settings) (hname : settings.grammarName? = none) :
      Ends generator p ⟨openingLines p, [], .failed (.noName p.settingsPath)⟩
  | grammarUnread {text expected : String} {settings : Json} {e : Error}
      (hread : p.settings.read = .ok text) (hjson : Json.ofText? text = some settings)
      (hname : settings.grammarName? = some expected) (hgrammar : p.grammar.read = .error e) :
      Ends generator p ⟨openingLines p, [], .failed e⟩
  | badGrammar {text expected grammar : String} {settings : Json}
      (hread : p.settings.read = .ok text) (hjson : Json.ofText? text = some settings)
      (hname : settings.grammarName? = some expected) (hgrammar : p.grammar.read = .ok grammar)
      (hgenerated :
        generator grammar (VersionField.ofSettings settings).version? = .rejected) :
      Ends generator p ⟨openingLines p ++ (VersionField.ofSettings settings).warnings, [],
        .failed (.badGrammar p.grammarPath)⟩
  | brokeDown {text expected grammar : String} {settings : Json}
      (hread : p.settings.read = .ok text) (hjson : Json.ofText? text = some settings)
      (hname : settings.grammarName? = some expected) (hgrammar : p.grammar.read = .ok grammar)
      (hgenerated :
        generator grammar (VersionField.ofSettings settings).version? = .brokeDown) :
      Ends generator p
        ⟨openingLines p ++ (VersionField.ofSettings settings).warnings, [], .brokeDown⟩
  | nameMismatch {text expected grammar : String} {settings : Json} {product : Product}
      (hread : p.settings.read = .ok text) (hjson : Json.ofText? text = some settings)
      (hname : settings.grammarName? = some expected) (hgrammar : p.grammar.read = .ok grammar)
      (hgenerated :
        generator grammar (VersionField.ofSettings settings).version? = .made product)
      (hne : product.name ≠ expected) :
      Ends generator p ⟨openingLines p ++ (VersionField.ofSettings settings).warnings, [],
        .failed (.nameMismatch expected product.name)⟩
  | finished {text grammar : String} {settings : Json} {product : Product}
      (hread : p.settings.read = .ok text) (hjson : Json.ofText? text = some settings)
      (hname : settings.grammarName? = some product.name)
      (hgrammar : p.grammar.read = .ok grammar)
      (hgenerated :
        generator grammar (VersionField.ofSettings settings).version? = .made product) :
      Ends generator p
        ⟨openingLines p ++ (VersionField.ofSettings settings).warnings ++
          closingLines p product.name, outputFiles p product, .finished product⟩

namespace Ends

theorem run_eq (h : Ends generator p r) : run generator p = r := by
  cases h with
  | settingsUnread hread => simp [run, script, exec_read_error hread]
  | settingsMalformed hread hjson => simp [run, script, exec_read_ok hread, hjson]
  | noName hread hjson hname => simp [run, script, exec_read_ok hread, hjson, hname]
  | grammarUnread hread hjson hname hgrammar =>
      simp [run, script, exec_read_ok hread, hjson, hname, exec_read_error hgrammar]
  | badGrammar hread hjson hname hgrammar hgenerated
  | brokeDown hread hjson hname hgrammar hgenerated =>
      simp [run, script, exec_read_ok hread, hjson, hname, exec_read_ok hgrammar,
        exec_semanticVersion, generate, hgenerated]
  | nameMismatch hread hjson hname hgrammar hgenerated hne =>
      simp [run, script, exec_read_ok hread, hjson, hname, exec_read_ok hgrammar,
        exec_semanticVersion, generate, hgenerated, hne]
  | finished hread hjson hname hgrammar hgenerated =>
      simp [run, script, exec_read_ok hread, hjson, hname, exec_read_ok hgrammar,
        exec_semanticVersion, generate, hgenerated]

/-- Some check is the first to fail, or none fails. -/
theorem exists_ends (generator : Generator) (p : Project) : ∃ r, Ends generator p r := by
  cases hread : p.settings.read with
  | error e => exact ⟨_, .settingsUnread hread⟩
  | ok text =>
  cases hjson : Json.ofText? text with
  | none => exact ⟨_, .settingsMalformed hread hjson⟩
  | some settings =>
  cases hname : settings.grammarName? with
  | none => exact ⟨_, .noName hread hjson hname⟩
  | some expected =>
  cases hgrammar : p.grammar.read with
  | error e => exact ⟨_, .grammarUnread hread hjson hname hgrammar⟩
  | ok grammar =>
  cases hgenerated : generator grammar (VersionField.ofSettings settings).version? with
  | rejected => exact ⟨_, .badGrammar hread hjson hname hgrammar hgenerated⟩
  | brokeDown => exact ⟨_, .brokeDown hread hjson hname hgrammar hgenerated⟩
  | made product =>
  by_cases hne : product.name = expected
  · exact ⟨_, .finished hread hjson (hne ▸ hname) hgrammar hgenerated⟩
  · exact ⟨_, .nameMismatch hread hjson hname hgrammar hgenerated hne⟩

end Ends

theorem ends_run (generator : Generator) (p : Project) : Ends generator p (run generator p) := by
  obtain ⟨r, h⟩ := Ends.exists_ends generator p
  exact h.run_eq ▸ h

/-- The files of a run are those that belong to its end. -/
theorem map_fst_files_run (generator : Generator) (p : Project) :
    (run generator p).files.map (·.1) = (run generator p).outcome.outputs := by
  have h := ends_run generator p
  generalize run generator p = r at h
  cases h <;> rfl

/-- What is printed after other texts makes lines after theirs. -/
theorem Run.lines_eq_append {r r' : Run} {rest : List String}
    (h : r'.printed = r.printed ++ rest) : r'.lines = r.lines ++ rest.flatMap linesOf := by
  rw [lines, lines, h, List.flatMap_append]

/-! ## What a generator does about versions -/

/-- A parser holds the version that it is generated with. -/
def Generator.KeepsVersion (generator : Generator) : Prop :=
  ∀ grammar version product, generator grammar version = .made product → product.version = version

/-- A generator needs a version: without one it breaks down where it makes a parser with one.
Everything else that it does is the same without a version. -/
structure Generator.NeedsVersion (generator : Generator) : Prop where
  brokeDown_of_made : ∀ grammar v product,
    generator grammar (some v) = .made product → generator grammar none = .brokeDown
  rejected : ∀ grammar v,
    generator grammar (some v) = .rejected → generator grammar none = .rejected
  brokeDown : ∀ grammar v,
    generator grammar (some v) = .brokeDown → generator grammar none = .brokeDown

theorem Generator.NeedsVersion.exists_version {version : Option Version} {grammar : String}
    {product : Product} (h : generator.NeedsVersion)
    (hmade : generator grammar version = .made product) : ∃ v, version = some v := by
  cases version with
  | some v => exact ⟨v, rfl⟩
  | none =>
      -- whatever comes of the grammar with some version, without one it is no parser
      cases hgenerated : generator grammar (some ⟨0, 0, 0⟩) with
      | made product' => cases hmade.symm.trans (h.brokeDown_of_made _ _ _ hgenerated)
      | rejected => cases hmade.symm.trans (h.rejected _ _ hgenerated)
      | brokeDown => cases hmade.symm.trans (h.brokeDown _ _ hgenerated)

/-- The generator that accepts the files in which a reader finds the name of a grammar, and needs a
version. -/
def Generator.ofNames (name? : String → Option String) : Generator := fun grammar version =>
  match name? grammar, version with
  | none, _ => .rejected
  | some _, none => .brokeDown
  | some name, some v => .made ⟨name, some v⟩

namespace Generator

theorem keepsVersion_ofNames (name? : String → Option String) : (ofNames name?).KeepsVersion := by
  intro grammar version product h
  unfold ofNames at h
  split at h <;> cases h
  rfl

theorem needsVersion_ofNames (name? : String → Option String) : (ofNames name?).NeedsVersion where
  brokeDown_of_made grammar v product h := by
    cases hname : name? grammar <;> simp [ofNames, hname] at h ⊢
  rejected grammar v h := by
    cases hname : name? grammar <;> simp [ofNames, hname] at h ⊢
  brokeDown grammar v h := by
    cases hname : name? grammar <;> simp [ofNames, hname] at h

end Generator

/-! ## Small projects -/

/-- Settings with the name of a grammar and a version. -/
def settingsOf (name version : String) : Json :=
  .object [("grammars", .array [.object [("name", .string name)]]),
    ("metadata", .object [("version", .string version)])]

/-- A grammar file with one rule, which stands for one word. -/
def oneRule (name : String) : Json :=
  .object [("name", .string name),
    ("rules", .object [("a", .object [("type", .string "STRING"), ("value", .string "x")])])]

/-- A project with a scanner and with a grammar file of one rule that is older than the authored
grammar. -/
def Project.small (expected version name : String) : Project :=
  ⟨"", .text (settingsOf expected version).render, .text (oneRule name).render, true,
    some ⟨2, 0⟩, some ⟨1, 5⟩⟩

/-- What a generator does on the grammar files of small projects. -/
def Generator.small : Generator :=
  .ofNames fun grammar => ["g", "h"].find? fun name => (oneRule name).render == grammar

end Heptagon.Build
