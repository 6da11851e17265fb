import Heptagon.Proofs.Build.Output

/-!
# The order of the checks of a build

A build makes six checks in a fixed order (`Check.all`), and the first one that
fails decides how it ends.  Each check has a verdict of its own (`Check.fault?`),
which says nothing about the checks before it, so that the order shows only in
which of the verdicts counts.

`run_in_order` says how a build ends and which texts it prints.  They are printed
at four places: before the first check, between the fourth check and the fifth
one, and twice after the last check.  So a build that stops at a check has printed
the beginning of what a build prints that gets further.
-/

namespace Heptagon.Build

/-! ## What is known about a project -/

namespace File

/-- Why a file cannot be read, if it cannot. -/
def error? (f : File) : Option Error :=
  match f.read with
  | .error e => some e
  | .ok _ => none

theorem error?_eq_some_iff {f : File} {e : Error} : f.error? = some e ↔ f.read = .error e := by
  cases f <;> simp [error?, read]

theorem error?_eq_none_iff {f : File} : f.error? = none ↔ ∃ text, f.read = .ok text := by
  cases f <;> simp [error?, read]

end File

/-- The name of the parser, if one is made. -/
def Generation.name? : Generation → Option String
  | made product => some product.name
  | _ => none

/-- What is made, but without a version in it. -/
def Generation.withoutVersion : Generation → Generation
  | made product => made { product with version := none }
  | g => g

namespace Project

variable (generator : Generator) (p : Project)

/-- The name of the grammar that the settings ask for. -/
def expected? : Option String := p.settings? >>= Json.grammarName?

def version? : Option Version := p.settings? >>= fun s => (VersionField.ofSettings s).version?

/-- What the generator makes of the grammar file, if that can be read. -/
def generation? : Option Generation :=
  p.grammar.text?.map fun grammar => generator grammar p.version?

/-- The name of the parser that is generated. -/
def made? : Option String := p.generation? generator >>= Generation.name?

/-- Both the authored grammar and the grammar file exist, and the authored one was modified later. -/
def AuthoredLater : Prop :=
  ∃ t u, p.authored = some t ∧ p.generated = some u ∧
    (u.seconds < t.seconds ∨ u.seconds = t.seconds ∧ u.nanoseconds < t.nanoseconds)

variable {generator p}

theorem expected?_eq {settings : Json} (h : p.settings? = some settings) :
    p.expected? = settings.grammarName? := by
  rw [expected?, h]
  rfl

theorem version?_eq {settings : Json} (h : p.settings? = some settings) :
    p.version? = (VersionField.ofSettings settings).version? := by
  rw [version?, h]
  rfl

theorem generation?_eq {grammar : String} {settings : Json} (h : p.settings? = some settings)
    (hgrammar : p.grammar.read = .ok grammar) : p.generation? generator =
      some (generator grammar (VersionField.ofSettings settings).version?) := by
  rw [generation?, File.text?_eq_some_iff.mpr hgrammar, version?_eq h]
  rfl

theorem made?_eq {product : Product} (h : p.generation? generator = some (.made product)) :
    p.made? generator = some product.name := by
  rw [made?, h]
  rfl

theorem isNewer_iff : isNewer p.authored p.generated = true ↔ p.AuthoredLater := by
  cases ha : p.authored <;> cases hg : p.generated <;>
    simp [isNewer, AuthoredLater, Time.isAfter, ha, hg]

instance : Decidable p.AuthoredLater := decidable_of_iff _ isNewer_iff

end Project

/-! ## Checks -/

/-- What a build checks. -/
inductive Check where
  /-- the settings can be read -/
  | settingsRead
  /-- they are a JSON value -/
  | settingsParsed
  /-- they have the name of a grammar -/
  | named
  /-- the grammar file can be read -/
  | grammarRead
  /-- a parser is generated from it -/
  | generated
  /-- the parser has the name that the settings ask for -/
  | namesAgree
  deriving DecidableEq, Repr

namespace Check

/-- The checks in the order in which they are made. -/
def all : List Check := [settingsRead, settingsParsed, named, grammarRead, generated, namesAgree]

theorem mem_all (c : Check) : c ∈ all := by cases c <;> decide

/-- The checks that are made before a check. -/
def earlier (c : Check) : List Check := all.takeWhile (· ≠ c)

/-- A check behind the reading of the grammar file is behind all that is made before a parser. -/
theorem earlier_generated_subset {c : Check} (h : grammarRead ∈ c.earlier) :
    generated.earlier ⊆ c.earlier := by
  revert h
  cases c <;> decide

theorem mem_earlier_generated {c : Check} (h : grammarRead ∉ c.earlier) :
    c ∈ generated.earlier := by
  revert h
  cases c <;> decide

/-- How a build ends that stops at a check, if the check fails. -/
def fault? (generator : Generator) (p : Project) : Check → Option Outcome
  | settingsRead => p.settings.error?.map .failed
  | settingsParsed =>
    if p.settings?.isSome then none else some (.failed (.malformedSettings p.settingsPath))
  | named => if p.expected?.isSome then none else some (.failed (.noName p.settingsPath))
  | grammarRead => p.grammar.error?.map .failed
  | generated =>
    match p.generation? generator with
    | some (.made _) => none
    | some .brokeDown => some .brokeDown
    | _ => some (.failed (.badGrammar p.grammarPath))
  | namesAgree =>
    if p.made? generator = p.expected? then none
    else some (.failed (.nameMismatch (p.expected?.getD "") ((p.made? generator).getD "")))

variable {generator : Generator} {p : Project}

theorem settingsRead_eq_none_iff :
    settingsRead.fault? generator p = none ↔ ∃ text, p.settings.read = .ok text := by
  rw [fault?, Option.map_eq_none_iff, File.error?_eq_none_iff]

theorem settingsParsed_eq_none_iff :
    settingsParsed.fault? generator p = none ↔ ∃ settings, p.settings? = some settings := by
  simp [fault?, Option.isSome_iff_exists]

theorem named_eq_none_iff : named.fault? generator p = none ↔ ∃ name, p.expected? = some name := by
  simp [fault?, Option.isSome_iff_exists]

theorem grammarRead_eq_none_iff :
    grammarRead.fault? generator p = none ↔ ∃ grammar, p.grammar.read = .ok grammar := by
  rw [fault?, Option.map_eq_none_iff, File.error?_eq_none_iff]

theorem generated_eq_none_iff : generated.fault? generator p = none ↔
    ∃ product, p.generation? generator = some (.made product) := by
  rw [fault?]
  split <;> simp_all

theorem namesAgree_eq_none_iff :
    namesAgree.fault? generator p = none ↔ p.made? generator = p.expected? := by
  simp [fault?]

end Check

namespace Project

variable (generator : Generator) (p : Project)

/-- A project passes some checks, made each by itself. -/
def Passes (cs : List Check) : Prop := ∀ c ∈ cs, c.fault? generator p = none

instance (cs : List Check) : Decidable (p.Passes generator cs) :=
  inferInstanceAs (Decidable (∀ c ∈ cs, c.fault? generator p = none))

/-- A check is the first one that a project fails, and this is how a build ends that stops at it. -/
structure StopsAt (c : Check) (o : Outcome) : Prop where
  earlier : p.Passes generator c.earlier
  fault : c.fault? generator p = some o

/-- Some check is the first one to fail, or none fails. -/
theorem exists_stopsAt_or_passes :
    (∃ c o, p.StopsAt generator c o) ∨ p.Passes generator Check.all := by
  cases hfind : Check.all.findSome? (·.fault? generator p) with
  | none => exact .inr (List.findSome?_eq_none_iff.mp hfind)
  | some o =>
      obtain ⟨before, c, behind, hall, hfault, hbefore⟩ := List.findSome?_eq_some_iff.mp hfind
      refine .inl ⟨c, o, fun b hb => hbefore b ?_, hfault⟩
      have hne : ∀ b ∈ before, b ≠ c := by
        intro b hb heq
        cases ((heq ▸ hbefore b hb).symm.trans hfault)
      rw [Check.earlier, hall, List.takeWhile_append_of_pos (by simpa using hne)] at hb
      simpa using hb

variable {generator p}

theorem Passes.mono {cs ds : List Check} (h : p.Passes generator ds) (hsub : cs ⊆ ds) :
    p.Passes generator cs :=
  fun c hc => h c (hsub hc)

/-! ## What has been read when a check is made -/

theorem Passes.exists_settings (h : p.Passes generator Check.named.earlier) :
    ∃ text settings, p.settings.read = .ok text ∧ Json.ofText? text = some settings ∧
      p.settings? = some settings := by
  obtain ⟨text, hread⟩ := Check.settingsRead_eq_none_iff.mp (h _ (by decide))
  obtain ⟨settings, hsettings⟩ := Check.settingsParsed_eq_none_iff.mp (h _ (by decide))
  exact ⟨text, settings, hread, settings?_eq hread ▸ hsettings, hsettings⟩

theorem Passes.exists_name (h : p.Passes generator Check.grammarRead.earlier) :
    ∃ text settings name, p.settings.read = .ok text ∧ Json.ofText? text = some settings ∧
      settings.grammarName? = some name ∧ p.settings? = some settings ∧
      p.expected? = some name := by
  obtain ⟨text, settings, hread, hjson, hsettings⟩ := (h.mono (by decide)).exists_settings
  obtain ⟨name, hname⟩ := Check.named_eq_none_iff.mp (h _ (by decide))
  exact ⟨text, settings, name, hread, hjson, expected?_eq hsettings ▸ hname, hsettings, hname⟩

theorem Passes.exists_grammar (h : p.Passes generator Check.generated.earlier) :
    ∃ text settings name grammar, p.settings.read = .ok text ∧
      Json.ofText? text = some settings ∧ settings.grammarName? = some name ∧
      p.grammar.read = .ok grammar ∧ p.settings? = some settings ∧ p.expected? = some name ∧
      p.generation? generator =
        some (generator grammar (VersionField.ofSettings settings).version?) := by
  obtain ⟨text, settings, name, hread, hjson, hname, hsettings, hexpected⟩ :=
    (h.mono (by decide)).exists_name
  obtain ⟨grammar, hgrammar⟩ := Check.grammarRead_eq_none_iff.mp (h _ (by decide))
  exact ⟨text, settings, name, grammar, hread, hjson, hname, hgrammar, hsettings, hexpected,
    generation?_eq hsettings hgrammar⟩

/-! ## The run that a project comes to -/

/-- A build that stops at a check has printed the texts before it and written nothing. -/
theorem StopsAt.run_eq {c : Check} {o : Outcome} (h : p.StopsAt generator c o) :
    run generator p =
      ⟨openingLines p ++ (if .grammarRead ∈ c.earlier then p.warnings else []), [], o⟩ := by
  obtain ⟨hearlier, hfault⟩ := h
  -- the checks before this one give what its ending is said to have read
  cases c with
  | settingsRead =>
      obtain ⟨e, he, rfl⟩ := Option.map_eq_some_iff.mp hfault
      rw [if_neg (by decide), List.append_nil]
      exact (Ends.settingsUnread (File.error?_eq_some_iff.mp he)).run_eq
  | settingsParsed =>
      obtain ⟨text, hread⟩ := Check.settingsRead_eq_none_iff.mp (hearlier _ (by decide))
      obtain ⟨hnone, rfl⟩ : p.settings? = none ∧ _ = o := by simpa [Check.fault?] using hfault
      rw [if_neg (by decide), List.append_nil]
      exact (Ends.settingsMalformed hread (settings?_eq hread ▸ hnone)).run_eq
  | named =>
      obtain ⟨text, settings, hread, hjson, hsettings⟩ := hearlier.exists_settings
      obtain ⟨hnone, rfl⟩ : p.expected? = none ∧ _ = o := by simpa [Check.fault?] using hfault
      rw [if_neg (by decide), List.append_nil]
      exact (Ends.noName hread hjson (expected?_eq hsettings ▸ hnone)).run_eq
  | grammarRead =>
      obtain ⟨text, settings, name, hread, hjson, hname, -⟩ := hearlier.exists_name
      obtain ⟨e, he, rfl⟩ := Option.map_eq_some_iff.mp hfault
      rw [if_neg (by decide), List.append_nil]
      exact (Ends.grammarUnread hread hjson hname (File.error?_eq_some_iff.mp he)).run_eq
  | generated =>
      obtain ⟨text, settings, name, grammar, hread, hjson, hname, hgrammar, hsettings, -, hmade⟩ :=
        hearlier.exists_grammar
      rw [if_pos (by decide), warnings_eq hsettings]
      rw [Check.fault?, hmade] at hfault
      cases hgenerated : generator grammar (VersionField.ofSettings settings).version? with
      | made product => simp [hgenerated] at hfault
      | rejected =>
          obtain rfl : _ = o := by simpa [hgenerated] using hfault
          exact (Ends.badGrammar hread hjson hname hgrammar hgenerated).run_eq
      | brokeDown =>
          obtain rfl : _ = o := by simpa [hgenerated] using hfault
          exact (Ends.brokeDown hread hjson hname hgrammar hgenerated).run_eq
  | namesAgree =>
      obtain ⟨text, settings, name, grammar, hread, hjson, hname, hgrammar, hsettings, hexpected,
        hgeneration⟩ := (hearlier.mono (by decide)).exists_grammar
      obtain ⟨product, hmade⟩ := Check.generated_eq_none_iff.mp (hearlier _ (by decide))
      obtain ⟨hne, rfl⟩ : product.name ≠ name ∧ _ = o := by
        simpa [Check.fault?, made?_eq hmade, hexpected] using hfault
      rw [if_pos (by decide), warnings_eq hsettings]
      exact (Ends.nameMismatch hread hjson hname hgrammar
        (Option.some.inj (hgeneration.symm.trans hmade)) hne).run_eq

/-- A build that passes all checks. -/
theorem Passes.run_eq (h : p.Passes generator Check.all) :
    ∃ product, p.generation? generator = some (.made product) ∧
      p.expected? = some product.name ∧
      run generator p = ⟨openingLines p ++ p.warnings ++ closingLines p product.name,
        outputFiles p product, .finished product⟩ := by
  obtain ⟨text, settings, name, grammar, hread, hjson, hname, hgrammar, hsettings, hexpected,
    hgeneration⟩ := (h.mono (by decide)).exists_grammar
  obtain ⟨product, hmade⟩ := Check.generated_eq_none_iff.mp (h _ (by decide))
  have hagree := Check.namesAgree_eq_none_iff.mp (h _ (by decide))
  obtain rfl : product.name = name := by simpa [made?_eq hmade, hexpected] using hagree
  refine ⟨product, hmade, hexpected, ?_⟩
  rw [warnings_eq hsettings]
  exact (Ends.finished hread hjson hname hgrammar
    (Option.some.inj (hgeneration.symm.trans hmade))).run_eq

end Project

/-! ## Two projects -/

/-- Two projects have in common what a check looks at, besides what earlier checks have looked
at. -/
def Check.Alike (generator : Generator) (p p' : Project) : Check → Prop
  | settingsRead => p'.settings.error? = p.settings.error?
  | settingsParsed => p'.settings?.isSome = p.settings?.isSome
  | named => p'.expected? = p.expected?
  | grammarRead => p'.grammar.error? = p.grammar.error?
  | generated => (p'.generation? generator).map Generation.withoutVersion =
      (p.generation? generator).map Generation.withoutVersion
  | namesAgree => True

/-- The second project is the first one after a change that leaves its place, its times and its
version as they are.  A grammar file that was missing had no time. -/
structure Retries (p p' : Project) : Prop where
  directory : p'.directory = p.directory
  authored : p'.authored = p.authored
  generated : p'.generated = p.generated ∨ p.grammar = .missing ∧ p.generated = none
  version : ∀ settings settings', p.settings? = some settings → p'.settings? = some settings' →
    ∀ text, settings'.HasVersion text ↔ settings.HasVersion text

variable {generator : Generator} {p p' : Project} {c : Check} {o : Outcome}

theorem Project.made?_eq_map (generator : Generator) (p : Project) : p.made? generator =
    (p.generation? generator).map Generation.withoutVersion >>= Generation.name? := by
  rw [made?]
  rcases p.generation? generator with _ | _ | _ | _ <;> rfl

theorem Check.fault?_congr (hdirectory : p'.directory = p.directory)
    (h : ∀ b ∈ c.earlier ++ [c], b.Alike generator p p') :
    c.fault? generator p' = c.fault? generator p := by
  have hself : c.Alike generator p p' := h c (by simp)
  have hsettings : p'.settingsPath = p.settingsPath := by
    rw [Project.settingsPath, Project.settingsPath, hdirectory]
  have hgrammar : p'.grammarPath = p.grammarPath := by
    rw [Project.grammarPath, Project.grammarPath, hdirectory]
  cases c with
  | settingsRead => rw [fault?, fault?, hself]
  | settingsParsed => rw [fault?, fault?, hself, hsettings]
  | named => rw [fault?, fault?, hself, hsettings]
  | grammarRead => rw [fault?, fault?, hself]
  | generated =>
      revert hself
      rw [Alike, fault?, fault?, hgrammar]
      rcases p.generation? generator with _ | _ | _ | _ <;>
        rcases p'.generation? generator with _ | _ | _ | _ <;> simp [Generation.withoutVersion]
  | namesAgree =>
      have hnamed : p'.expected? = p.expected? := h named (by decide)
      have hmade : p'.made? generator = p.made? generator := by
        rw [p'.made?_eq_map, p.made?_eq_map, h generated (by decide)]
      rw [fault?, fault?, hnamed, hmade]

theorem Check.earlier_subset {b c : Check} (h : b ∈ c.earlier) : b.earlier ⊆ c.earlier := by
  revert h
  cases b <;> cases c <;> decide

/-- Nothing but what has been looked at decides where a build stops. -/
theorem Project.StopsAt.congr (h : p.StopsAt generator c o)
    (hdirectory : p'.directory = p.directory)
    (halike : ∀ b ∈ c.earlier ++ [c], b.Alike generator p p') : p'.StopsAt generator c o := by
  refine ⟨fun b hb => ?_, (Check.fault?_congr hdirectory halike).trans h.fault⟩
  refine (Check.fault?_congr hdirectory fun a ha => halike a ?_).trans (h.earlier b hb)
  rcases List.mem_append.mp ha with ha | ha
  · exact List.mem_append_left _ (Check.earlier_subset hb ha)
  · exact List.mem_append_left _ (List.mem_singleton.mp ha ▸ hb)

theorem openingLines_eq (p : Project) : openingLines p =
    [changeLine p.authoredPath, changeLine p.grammarPath, changeLine p.settingsPath] ++
      if p.AuthoredLater then [newerLine p] else [] := by
  simp only [openingLines, Project.isNewer_iff]

/-- What a run prints, place by place. -/
theorem printed_run (generator : Generator) (p : Project) : (run generator p).printed =
    openingLines p ++ (if p.Passes generator Check.generated.earlier then p.warnings else []) ++
    (if p.Passes generator Check.all then p.expected?.toList.flatMap (closingLines p) else []) := by
  rcases p.exists_stopsAt_or_passes generator with ⟨c, o, h⟩ | h
  · have hnot : ∀ {cs : List Check}, c ∈ cs → ¬ p.Passes generator cs := fun hc hpasses =>
      absurd ((hpasses c hc).symm.trans h.fault) nofun
    rw [h.run_eq, if_neg (hnot c.mem_all), List.append_nil]
    by_cases hc : Check.grammarRead ∈ c.earlier
    · rw [if_pos hc, if_pos (h.earlier.mono (Check.earlier_generated_subset hc))]
    · rw [if_neg hc, if_neg (hnot (Check.mem_earlier_generated hc))]
  · obtain ⟨product, -, hexpected, hrun⟩ := h.run_eq
    rw [hrun, if_pos h, if_pos (h.mono (by decide)), hexpected]
    simp

theorem Retries.openingLines_eq (h : Retries p p') (hgenerated : p'.generated = p.generated) :
    openingLines p' = openingLines p := by
  unfold openingLines newerLine Project.authoredPath Project.grammarPath Project.settingsPath
  rw [h.directory, h.authored, hgenerated]

theorem Retries.openingLines_prefix (h : Retries p p') : openingLines p <+: openingLines p' := by
  rcases h.generated with hgenerated | ⟨-, hnone⟩
  · exact h.openingLines_eq hgenerated ▸ List.prefix_rfl
  · have hnot : ¬ p.AuthoredLater := by simp [Project.AuthoredLater, hnone]
    rw [Build.openingLines_eq p, Build.openingLines_eq p', if_neg hnot, List.append_nil]
    unfold Project.authoredPath Project.grammarPath Project.settingsPath
    rw [h.directory]
    exact List.prefix_append _ _

theorem Retries.warnings_eq (h : Retries p p') {settings settings' : Json}
    (hp : p.settings? = some settings) (hp' : p'.settings? = some settings') :
    p'.warnings = p.warnings := by
  have hversion := h.version settings settings' hp hp'
  have hmalformed : p'.malformedVersion? = p.malformedVersion? := by
    refine Option.ext fun text => ?_
    simp [Project.malformedVersion?_eq_some_iff, hp, hp', hversion]
  rw [Project.warnings, Project.warnings, hmalformed]

/-- A build that stops at a check has printed the beginning of what a build prints that gets as far
after a change. -/
theorem Retries.printed_prefix (h : Retries p p') (hstops : p.StopsAt generator c o)
    (hpasses : p'.Passes generator c.earlier) :
    (run generator p).printed <+: (run generator p').printed := by
  rw [hstops.run_eq, printed_run generator p', List.append_assoc]
  by_cases hc : Check.grammarRead ∈ c.earlier
  · have hsub := Check.earlier_generated_subset hc
    -- the grammar file was there before, so that it had a time
    obtain ⟨_, _, _, grammar, -, -, -, hgrammar, hsettings, -⟩ :=
      (hstops.earlier.mono hsub).exists_grammar
    have hgenerated : p'.generated = p.generated := h.generated.resolve_right fun hmissing => by
      rw [hmissing.1] at hgrammar
      cases hgrammar
    obtain ⟨_, _, _, _, -, -, -, -, hsettings', -⟩ := (hpasses.mono hsub).exists_grammar
    rw [if_pos hc, if_pos (hpasses.mono hsub), h.openingLines_eq hgenerated,
      h.warnings_eq hsettings hsettings', ← List.append_assoc]
    exact List.prefix_append _ _
  · rw [if_neg hc, List.append_nil]
    exact h.openingLines_prefix.trans (List.prefix_append _ _)

theorem Run.lines_prefix {r r' : Run} (h : r.printed <+: r'.printed) : r.lines <+: r'.lines := by
  obtain ⟨rest, hrest⟩ := h
  exact ⟨_, (lines_eq_append hrest.symm).symm⟩

end Heptagon.Build
