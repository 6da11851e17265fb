import Heptagon.Proofs.Build

/-!
# Builds without a version

Settings may have no version, or a string that is none; such a string is
reported as ignored.  The version decides how a build ends all the same, in one
case: without it the generator breaks down on a grammar file of which it makes a
parser with a version.  In every other case a build ends as it does with a
version (`run_withVersion`).
-/

namespace Heptagon

/-! ## Replacing a version -/

namespace Json

/-- An object with another value in a field; what is no object becomes one with this field. -/
def withField (j : Json) (key : String) (value : Json) : Json :=
  match j with
  | object fields => object (fields.filter (·.1 != key) ++ [(key, value)])
  | _ => object [(key, value)]

/-- Settings with another version. -/
def withVersion (settings : Json) (version : String) : Json :=
  settings.withField "metadata"
    (((settings.field? "metadata").getD (.object [])).withField "version" (.string version))

theorem field?_withField (j : Json) (key : String) (value : Json) :
    (j.withField key value).field? key = some value := by
  cases j <;> simp [withField, field?]

theorem field?_withField_of_ne {key key' : String} (h : key' ≠ key) (j value : Json) :
    (j.withField key value).field? key' = j.field? key' := by
  cases j with
  | object fields =>
      have hfilter : (fields.reverse.filter (·.1 != key)).find? (·.1 == key') =
          fields.reverse.find? (·.1 == key') := by
        rw [List.find?_filter]
        refine congrArg (List.find? · fields.reverse) (funext fun f => ?_)
        by_cases hf : f.1 = key'
        · simp [hf, h]
        · simp [hf]
      simp [withField, field?, h.symm, ← List.filter_reverse, hfilter]
  | null | bool | number | string | array => simp [withField, field?, h.symm]

theorem grammarName?_withVersion (settings : Json) (version : String) :
    (settings.withVersion version).grammarName? = settings.grammarName? := by
  rw [grammarName?, withVersion, field?_withField_of_ne (by decide), grammarName?]

end Json

theorem VersionField.ofSettings_withVersion {version : String} {v : Version}
    (h : Version.ofText? version = some v) (settings : Json) :
    ofSettings (settings.withVersion version) = .given v := by
  simp [ofSettings, Json.withVersion, Json.field?_withField, Json.string?, h]

/-! ## Two builds -/

namespace Build

variable {generator : Generator} {p : Project} {settings : Json} {text text' version : String}
  {v : Version}

/-- A project with other settings. -/
def Project.withSettings (p : Project) (text : String) : Project := { p with settings := .text text }

/-- The settings have the name of a grammar, and the generator makes a parser of the grammar file if
it is given a version. -/
def Generates (generator : Generator) (p : Project) (settings : Json) (v : Version) : Prop :=
  settings.grammarName?.isSome ∧
    ∃ grammar product, p.grammar = .text grammar ∧ generator grammar (some v) = .made product

section

variable (hneeds : generator.NeedsVersion) (htext : p.settings = .text text)
  (hjson : Json.ofText? text = some settings)
  (hnone : (VersionField.ofSettings settings).version? = none)
  (hversion : Version.ofText? version = some v)
  (hjson' : Json.ofText? text' = some (settings.withVersion version))

include hneeds htext hjson hnone hversion hjson'

/-- If there is something to generate, a build without a version breaks down, as one with a version
does not. -/
theorem run_of_generates (h : Generates generator p settings v) :
    run generator p =
      ⟨openingLines p ++ (VersionField.ofSettings settings).warnings, [], .brokeDown⟩ ∧
    (run generator (p.withSettings text')).outcome ≠ .brokeDown := by
  obtain ⟨hsome, grammar, product, hgrammar, hmade⟩ := h
  obtain ⟨expected, hname⟩ := Option.isSome_iff_exists.mp hsome
  have hread := File.read_eq_ok_iff.mpr hgrammar
  have hgenerated : generator grammar (VersionField.ofSettings settings).version? = .brokeDown :=
    hnone ▸ hneeds.brokeDown_of_made _ _ _ hmade
  have hname' := (Json.grammarName?_withVersion settings version).trans hname
  have hread' : (p.withSettings text').settings.read = .ok text' := rfl
  have hgenerated' :
      generator grammar (VersionField.ofSettings (settings.withVersion version)).version? =
        .made product := VersionField.ofSettings_withVersion hversion settings ▸ hmade
  refine ⟨(Ends.brokeDown (File.read_eq_ok_iff.mpr htext) hjson hname hread hgenerated).run_eq, ?_⟩
  by_cases hne : product.name = expected
  · rw [(Ends.finished hread' hjson' (hne ▸ hname') hread hgenerated').run_eq]
    nofun
  · rw [(Ends.nameMismatch hread' hjson' hname' hread hgenerated' hne).run_eq]
    nofun

/-- If there is nothing to generate, a version makes no difference but that a build without it may
warn of it. -/
theorem run_of_not_generates (h : ¬ Generates generator p settings v) :
    (run generator p).outcome = (run generator (p.withSettings text')).outcome ∧
    (run generator p).files = (run generator (p.withSettings text')).files ∧
    ∃ warnings, warnings <+: (VersionField.ofSettings settings).warnings ∧
      (run generator p).printed =
        (run generator (p.withSettings text')).printed ++ warnings := by
  have hread := File.read_eq_ok_iff.mpr htext
  have hgiven := VersionField.ofSettings_withVersion hversion settings
  have hname' := Json.grammarName?_withVersion settings version
  have hread' : (p.withSettings text').settings.read = .ok text' := rfl
  cases hname : settings.grammarName? with
  | none =>
      rw [(Ends.noName hread hjson hname).run_eq,
        (Ends.noName hread' hjson' (hname'.trans hname)).run_eq]
      exact ⟨rfl, rfl, [], List.nil_prefix, (List.append_nil _).symm⟩
  | some expected =>
  cases hgrammar : p.grammar.read with
  | error e =>
      rw [(Ends.grammarUnread hread hjson hname hgrammar).run_eq,
        (Ends.grammarUnread hread' hjson' (hname'.trans hname) hgrammar).run_eq]
      exact ⟨rfl, rfl, [], List.nil_prefix, (List.append_nil _).symm⟩
  | ok grammar =>
  cases hmade : generator grammar (some v) with
  | made product =>
      exact absurd ⟨by simp [hname], grammar, product, File.read_eq_ok_iff.mp hgrammar, hmade⟩ h
  | rejected =>
      rw [(Ends.badGrammar hread hjson hname hgrammar (hnone ▸ hneeds.rejected _ _ hmade)).run_eq,
        (Ends.badGrammar hread' hjson' (hname'.trans hname) hgrammar (hgiven ▸ hmade)).run_eq,
        hgiven]
      exact ⟨rfl, rfl, _, List.prefix_refl _, congrArg (· ++ _) (List.append_nil _).symm⟩
  | brokeDown =>
      rw [(Ends.brokeDown hread hjson hname hgrammar (hnone ▸ hneeds.brokeDown _ _ hmade)).run_eq,
        (Ends.brokeDown hread' hjson' (hname'.trans hname) hgrammar (hgiven ▸ hmade)).run_eq,
        hgiven]
      exact ⟨rfl, rfl, _, List.prefix_refl _, congrArg (· ++ _) (List.append_nil _).symm⟩

end

/-- A build whose settings have no version, beside the one with a version put into them, for a
generator that needs a version.  If the generator makes a parser with that version, the first build
breaks down, as the second does not.  Otherwise both end alike, leave the same files and print the
same, but that the first may warn of the version. -/
theorem run_withVersion (hneeds : generator.NeedsVersion) (htext : p.settings = .text text)
    (hjson : Json.ofText? text = some settings)
    (hnone : (VersionField.ofSettings settings).version? = none)
    (hversion : Version.ofText? version = some v)
    (hjson' : Json.ofText? text' = some (settings.withVersion version)) :
    (Generates generator p settings v →
      run generator p =
        ⟨openingLines p ++ (VersionField.ofSettings settings).warnings, [], .brokeDown⟩ ∧
      (run generator (p.withSettings text')).outcome ≠ .brokeDown) ∧
    (¬ Generates generator p settings v →
      (run generator p).outcome = (run generator (p.withSettings text')).outcome ∧
      (run generator p).files = (run generator (p.withSettings text')).files ∧
      ∃ warnings, warnings <+: (VersionField.ofSettings settings).warnings ∧
        (run generator p).printed =
          (run generator (p.withSettings text')).printed ++ warnings ∧
        (run generator p).lines =
          (run generator (p.withSettings text')).lines ++ warnings.flatMap linesOf) := by
  refine ⟨run_of_generates hneeds htext hjson hnone hversion hjson', fun h => ?_⟩
  obtain ⟨houtcome, hfiles, warnings, hstart, hprinted⟩ :=
    run_of_not_generates hneeds htext hjson hnone hversion hjson' h
  exact ⟨houtcome, hfiles, warnings, hstart, hprinted, Run.lines_eq_append hprinted⟩

/-- A build breaks down on a version of one part, which it has just said it ignores. -/
theorem run_withVersion_of_malformed :
    run .small (.small "g" "1" "g") =
      ⟨[changeLine "/grammar.js", changeLine "/src/grammar.json", changeLine "/tree-sitter.json",
        newerLine (.small "g" "1" "g"),
        "cargo:warning=ignoring malformed grammar version `1`"], [], .brokeDown⟩ := by
  have hjson : Json.ofText? (settingsOf "g" "1").render = some (settingsOf "g" "1") := by
    decide +kernel
  have hjson' : Json.ofText? ((settingsOf "g" "1").withVersion "1.2.3").render =
      some ((settingsOf "g" "1").withVersion "1.2.3") := by decide +kernel
  have hversion : Version.ofText? "1.2.3" = some ⟨1, 2, 3⟩ := by decide +kernel
  have hmade : Generator.small (oneRule "g").render (some ⟨1, 2, 3⟩) =
      .made ⟨"g", some ⟨1, 2, 3⟩⟩ := by decide +kernel
  exact ((run_withVersion (Generator.needsVersion_ofNames _) rfl hjson (by decide +kernel) hversion
    hjson').1 ⟨by decide +kernel, _, _, rfl, hmade⟩).1

end Build

end Heptagon
