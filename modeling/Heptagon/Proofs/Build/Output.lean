import Heptagon.Proofs.Build.VersionText

/-!
# What a build leaves behind

A build either ends with a parser, or it leaves nothing (`run_all_or_nothing`):
it has written no file, and it has printed no text that hands on the name of the
grammar.

The surrounding tool reads lines, not texts, and a text is printed as it is.  A
malformed version with a line break in it can make a line of its own that sets
any variable (`run_setsVariable_of_lineBreak`).  If the directory of the project
and a malformed version hold no line break (`Project.OneLined`), nor the name of
the grammar, then each text is one line (`lines_run_eq`), and what is true of the
texts is true of the lines.
-/

namespace Heptagon.Build

/-! ## What is known about a project -/

def File.text? (f : File) : Option String := f.read.toOption

theorem File.text?_eq_some_iff {f : File} {text : String} :
    f.text? = some text ↔ f.read = .ok text := by
  cases f <;> simp [text?, read, Except.toOption]

namespace Project

variable (p : Project)

/-- The value that the settings write. -/
def settings? : Option Json := p.settings.text? >>= Json.ofText?

/-- The string in the settings that should be a version and is none. -/
def malformedVersion? : Option String :=
  p.settings? >>= fun s =>
    match VersionField.ofSettings s with
    | .malformed text => some text
    | _ => none

/-- What a build prints between reading the grammar file and generating a parser from it. -/
def warnings : List String := p.malformedVersion?.toList.map VersionField.malformedLine

variable {p}

theorem settings?_eq {text : String} (h : p.settings.read = .ok text) :
    p.settings? = Json.ofText? text := by
  rw [settings?, File.text?_eq_some_iff.mpr h]
  rfl

theorem malformedVersion?_eq_some_iff {text : String} : p.malformedVersion? = some text ↔
    ∃ settings, p.settings? = some settings ∧ settings.HasVersion text ∧
      ∀ v, ¬ Version.Writes text v := by
  simp only [← VersionField.ofSettings_eq_malformed_iff]
  cases hsettings : p.settings? with
  | none => simp [malformedVersion?, hsettings]
  | some settings =>
      cases hfield : VersionField.ofSettings settings <;>
        simp [malformedVersion?, hsettings, hfield]

theorem malformedVersion?_eq_none {settings : Json} {v : Version} (h : p.settings? = some settings)
    (hversion : (VersionField.ofSettings settings).version? = some v) :
    p.malformedVersion? = none := by
  simp [malformedVersion?, h, VersionField.version?_eq_some_iff.mp hversion]

theorem warnings_eq {settings : Json} (h : p.settings? = some settings) :
    p.warnings = (VersionField.ofSettings settings).warnings := by
  rw [warnings, malformedVersion?, h]
  cases hfield : VersionField.ofSettings settings with
  | malformed text => simp [hfield, VersionField.warnings_malformed]
  | absent | given => simp [hfield, VersionField.warnings]

end Project

/-! ## Texts of one line -/

/-- There is no line break in the text. -/
def OneLine (text : String) : Prop := '\n' ∉ text.toList

instance (text : String) : Decidable (OneLine text) :=
  inferInstanceAs (Decidable ('\n' ∉ text.toList))

/-- There is no line break in what the texts before the name of the grammar hold of a project. -/
structure Project.OneLined (p : Project) : Prop where
  directory : OneLine p.directory
  version : ∀ text ∈ p.malformedVersion?, OneLine text

theorem oneLine_append_iff {s t : String} : OneLine (s ++ t) ↔ OneLine s ∧ OneLine t := by
  simp [OneLine]

theorem linesOf_eq {text : String} (h : OneLine text) : linesOf text = [text] := by
  rw [linesOf, splitBy_eq, List.splitOn_eq_singleton h]
  simp

theorem Run.lines_eq {r : Run} (h : ∀ text ∈ r.printed, OneLine text) : r.lines = r.printed := by
  calc r.lines
      = (r.printed.map linesOf).flatten := List.flatMap_def
    _ = (r.printed.map fun text => [text]).flatten := by
        rw [List.map_congr_left fun text htext => linesOf_eq (h text htext)]
    _ = r.printed := by rw [← List.flatMap_def, List.flatMap_singleton']

section

variable {generator : Generator} {p : Project} {r : Run}

theorem oneLine_changeLine {path : String} (h : OneLine path) : OneLine (changeLine path) :=
  oneLine_append_iff.mpr ⟨by decide +kernel, h⟩

theorem oneLine_openingLines (h : OneLine p.directory) :
    ∀ text ∈ openingLines p, OneLine text := by
  have hpath : ∀ {name : String}, OneLine name → OneLine (p.directory ++ name) := fun hname =>
    oneLine_append_iff.mpr ⟨h, hname⟩
  have hgrammar : OneLine p.grammarPath := hpath (by decide +kernel)
  have hnewer : OneLine (newerLine p) :=
    oneLine_append_iff.mpr
      ⟨oneLine_append_iff.mpr ⟨by decide +kernel, hgrammar⟩, by decide +kernel⟩
  refine List.forall_mem_append.mpr ⟨?_, ?_⟩
  · simp only [List.forall_mem_cons]
    exact ⟨oneLine_changeLine (hpath (by decide +kernel)), oneLine_changeLine hgrammar,
      oneLine_changeLine (hpath (by decide +kernel)), nofun⟩
  · split
    · simpa using hnewer
    · nofun

theorem oneLine_warnings (h : ∀ text ∈ p.malformedVersion?, OneLine text) :
    ∀ text ∈ p.warnings, OneLine text := by
  intro line hline
  obtain ⟨text, htext, rfl⟩ := List.mem_map.mp hline
  exact oneLine_append_iff.mpr ⟨oneLine_append_iff.mpr
    ⟨by decide +kernel, h text (Option.mem_toList.mp htext)⟩, by decide +kernel⟩

theorem oneLine_closingLines {name : String} (h : OneLine p.directory) (hname : OneLine name) :
    ∀ text ∈ closingLines p name, OneLine text := by
  have hscanner : OneLine p.scannerPath := oneLine_append_iff.mpr ⟨h, by decide +kernel⟩
  refine List.forall_mem_cons.mpr ⟨oneLine_append_iff.mpr ⟨by decide +kernel, hname⟩, ?_⟩
  split
  · simpa using oneLine_changeLine hscanner
  · nofun

/-- What a run prints holds no line break if the project holds none where a text shows it. -/
theorem Ends.oneLine (h : Ends generator p r) (hp : p.OneLined)
    (hname : ∀ product, r.outcome = .finished product → OneLine product.name) :
    ∀ text ∈ r.printed, OneLine text := by
  have hopening := oneLine_openingLines hp.directory
  have hwarned : ∀ {text settings}, p.settings.read = .ok text →
      Json.ofText? text = some settings →
      ∀ line ∈ openingLines p ++ (VersionField.ofSettings settings).warnings, OneLine line := by
    intro text settings hread hjson
    rw [← Project.warnings_eq ((Project.settings?_eq hread).trans hjson)]
    exact List.forall_mem_append.mpr ⟨hopening, oneLine_warnings hp.version⟩
  cases h with
  | settingsUnread | settingsMalformed | noName | grammarUnread => exact hopening
  | badGrammar hread hjson | brokeDown hread hjson | nameMismatch hread hjson =>
      exact hwarned hread hjson
  | finished hread hjson =>
      exact List.forall_mem_append.mpr
        ⟨hwarned hread hjson, oneLine_closingLines hp.directory (hname _ rfl)⟩

theorem lines_run_eq (hp : p.OneLined)
    (hname : ∀ product, (run generator p).outcome = .finished product → OneLine product.name) :
    (run generator p).lines = (run generator p).printed :=
  Run.lines_eq ((ends_run generator p).oneLine hp hname)

end

/-! ## Variables -/

/-- The line sets a variable of the environment in which the library is compiled.  Of a text this
says that its first line does. -/
def SetsVariable (line : String) : Prop := "cargo:rustc-env".toList <+: line.toList

instance (line : String) : Decidable (SetsVariable line) :=
  inferInstanceAs (Decidable ("cargo:rustc-env".toList <+: line.toList))

theorem setsVariable_nameLine (name : String) : SetsVariable (nameLine name) := by
  have hstart : "cargo:rustc-env".toList <+:
      "cargo:rustc-env=TREE_SITTER_GRAMMAR_NAME=".toList := by decide +kernel
  unfold SetsVariable nameLine
  rw [String.toList_append]
  exact hstart.trans (List.prefix_append _ _)

/-- A line that starts in another way sets no variable. -/
theorem not_setsVariable_append {s : String} (rest : String)
    (hlength : "cargo:rustc-env".toList.length ≤ s.toList.length) (h : ¬ SetsVariable s) :
    ¬ SetsVariable (s ++ rest) := by
  rw [SetsVariable, String.toList_append]
  exact fun hstart => h (List.prefix_of_prefix_length_le hstart (List.prefix_append _ _) hlength)

theorem not_setsVariable_changeLine (path : String) : ¬ SetsVariable (changeLine path) :=
  not_setsVariable_append path (by decide +kernel) (by decide +kernel)

theorem not_setsVariable_openingLines (p : Project) :
    ∀ line ∈ openingLines p, ¬ SetsVariable line := by
  have hnewer : ¬ SetsVariable (newerLine p) := by
    unfold newerLine
    rw [String.append_assoc]
    exact not_setsVariable_append _ (by decide +kernel) (by decide +kernel)
  intro line hline
  rw [openingLines, List.mem_append] at hline
  rcases hline with hline | hline
  · simp only [List.mem_cons, List.not_mem_nil, or_false] at hline
    rcases hline with rfl | rfl | rfl <;> exact not_setsVariable_changeLine _
  · split at hline
    · exact List.mem_singleton.mp hline ▸ hnewer
    · exact absurd hline List.not_mem_nil

theorem not_setsVariable_warnings (field : VersionField) :
    ∀ line ∈ field.warnings, ¬ SetsVariable line := by
  intro line hline
  cases field with
  | malformed text =>
      rw [VersionField.warnings, List.mem_singleton, String.append_assoc] at hline
      exact hline ▸ not_setsVariable_append _ (by decide +kernel) (by decide +kernel)
  | absent | given => exact absurd hline List.not_mem_nil

theorem filter_setsVariable_closingLines (p : Project) (name : String) :
    (closingLines p name).filter (SetsVariable ·) = [nameLine name] := by
  rw [closingLines, List.filter_cons_of_pos (by simpa using setsVariable_nameLine name)]
  split
  · simp [not_setsVariable_changeLine]
  · rfl

/-! ## All or nothing -/

/-- A build either ends with a parser that has the name and the version in the settings, writes it,
its header and its library, and hands the name on in one text; or it fails or breaks down, has
written nothing and has handed on nothing in a text.  So it is with the lines of the output, too, if
no text is broken into several. -/
theorem run_all_or_nothing {generator : Generator} (hkeeps : generator.KeepsVersion)
    (hneeds : generator.NeedsVersion) (p : Project) :
    (∃ text settings grammar product v, p.settings = .text text ∧
      Json.ofText? text = some settings ∧ p.grammar = .text grammar ∧
      settings.grammarName? = some product.name ∧
      (VersionField.ofSettings settings).version? = some v ∧
      generator grammar (some v) = .made product ∧ product.version = some v ∧
      (run generator p).outcome = .finished product ∧
      (run generator p).files = [("parser.c", .parser product), ("tree_sitter/parser.h", .header),
        ("libtree-sitter-heptagon.a", .library p.scanner)] ∧
      (run generator p).printed.filter (SetsVariable ·) = [nameLine product.name] ∧
      (OneLine p.directory → OneLine product.name →
        (run generator p).lines.filter (SetsVariable ·) = [nameLine product.name])) ∨
    ((run generator p).outcome.outputs = [] ∧
      (∀ product, (run generator p).outcome ≠ .finished product) ∧
      (run generator p).files = [] ∧
      (∀ text ∈ (run generator p).printed, ¬ SetsVariable text) ∧
      (p.OneLined → ∀ line ∈ (run generator p).lines, ¬ SetsVariable line)) := by
  have hlines := @lines_run_eq generator p
  have hopening := not_setsVariable_openingLines p
  have hwarned : ∀ settings, ∀ line ∈ openingLines p ++ (VersionField.ofSettings settings).warnings,
      ¬ SetsVariable line := fun settings =>
    List.forall_mem_append.mpr ⟨hopening, not_setsVariable_warnings _⟩
  have h := ends_run generator p
  generalize run generator p = r at h hlines ⊢
  cases h with
  | @finished text grammar settings product hread hjson hname hgrammar hgenerated =>
      obtain ⟨v, hgiven⟩ := hneeds.exists_version hgenerated
      have hone : (openingLines p ++ (VersionField.ofSettings settings).warnings ++
          closingLines p product.name).filter (SetsVariable ·) = [nameLine product.name] := by
        rw [List.filter_append, filter_setsVariable_closingLines,
          List.filter_eq_nil_iff.mpr fun line hline => by simpa using hwarned settings line hline,
          List.nil_append]
      have hvalid : p.malformedVersion? = none :=
        Project.malformedVersion?_eq_none ((Project.settings?_eq hread).trans hjson) hgiven
      rw [hgiven] at hgenerated
      refine .inl ⟨text, settings, grammar, product, v, File.read_eq_ok_iff.mp hread, hjson,
        File.read_eq_ok_iff.mp hgrammar, hname, hgiven, hgenerated, hkeeps _ _ _ hgenerated, rfl,
        rfl, hone, fun hdirectory hline => ?_⟩
      rw [hlines ⟨hdirectory, by simp [hvalid]⟩ (by rintro _ ⟨⟩; exact hline)]
      exact hone
  | badGrammar | brokeDown | nameMismatch =>
      exact .inr ⟨rfl, nofun, rfl, hwarned _, fun hp => hlines hp nofun ▸ hwarned _⟩
  | settingsUnread | settingsMalformed | noName | grammarUnread =>
      exact .inr ⟨rfl, nofun, rfl, hopening, fun hp => hlines hp nofun ▸ hopening⟩

/-- A small project that is built. -/
theorem run_all_or_nothing_of_small : Generator.small.KeepsVersion ∧ Generator.small.NeedsVersion ∧
    (run .small (.small "g" "1.2.3" "g")).outcome = .finished ⟨"g", some ⟨1, 2, 3⟩⟩ ∧
    (run .small (.small "g" "1.2.3" "g")).lines.filter (SetsVariable ·) = [nameLine "g"] := by
  have hkeeps : Generator.small.KeepsVersion := Generator.keepsVersion_ofNames _
  have hneeds : Generator.small.NeedsVersion := Generator.needsVersion_ofNames _
  have houtcome : (run .small (.small "g" "1.2.3" "g")).outcome =
      .finished ⟨"g", some ⟨1, 2, 3⟩⟩ := by decide +kernel
  refine ⟨hkeeps, hneeds, houtcome, ?_⟩
  obtain ⟨_, _, _, product, _, -, -, -, -, -, -, -, hfinished, -, -, hlines⟩ | ⟨-, hnot, -⟩ :=
    run_all_or_nothing hkeeps hneeds (.small "g" "1.2.3" "g")
  · obtain rfl : product = ⟨"g", some ⟨1, 2, 3⟩⟩ := by
      simpa using hfinished.symm.trans houtcome
    exact hlines (by decide +kernel) (by decide +kernel)
  · exact absurd houtcome (hnot _)

/-- The run of a small project whose version has a line break in it. -/
theorem run_small_of_lineBreak : run .small (.small "g" "1\ncargo:rustc-env=A=1" "g") =
    ⟨[changeLine "/grammar.js", changeLine "/src/grammar.json", changeLine "/tree-sitter.json",
      newerLine (.small "g" "1\ncargo:rustc-env=A=1" "g"),
      VersionField.malformedLine "1\ncargo:rustc-env=A=1"], [], .brokeDown⟩ := by
  decide +kernel

/-- A build breaks down, having printed a line that sets a variable: the second line of the warning
about a version with a line break in it.  A directory with a line break in its name has the same
effect on a build that finds no settings. -/
theorem run_setsVariable_of_lineBreak :
    ((run .small (.small "g" "1\ncargo:rustc-env=A=1" "g")).outcome = .brokeDown ∧
      ∃ line ∈ (run .small (.small "g" "1\ncargo:rustc-env=A=1" "g")).lines,
        SetsVariable line) ∧
    ((run .small ⟨"\ncargo:rustc-env=A=1", .missing, .missing, false, none, none⟩).outcome =
        .failed .missingFile ∧
      ∃ line ∈ (run .small ⟨"\ncargo:rustc-env=A=1", .missing, .missing, false, none, none⟩).lines,
        SetsVariable line) := by
  have hbroken : "cargo:rustc-env=A=1`" ∈
      linesOf (VersionField.malformedLine "1\ncargo:rustc-env=A=1") := by decide +kernel
  refine ⟨?_, by decide +kernel⟩
  rw [run_small_of_lineBreak]
  exact ⟨rfl, _, List.mem_flatMap.mpr ⟨_, by simp, hbroken⟩, by decide +kernel⟩

end Heptagon.Build
