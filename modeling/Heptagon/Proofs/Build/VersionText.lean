import Heptagon.Proofs.Build

/-!
# Which texts are versions

A text is a version if points divide it into three parts that each write a byte:
decimal digits, with any number of zeros and at most one plus sign before them
(`Version.Writes`).  The reader decides exactly this (`Version.ofText?_eq_some_iff`),
and it reads back what is written (`Version.writes_text`).

What some settings say about the version follows from their field
`metadata.version` alone, if that is a string (`Json.HasVersion`).
`Build.semanticVersion_reads` says what comes of it, and what is printed.
-/

namespace Heptagon

/-! ## Texts -/

theorem splitBy_eq (separator : Char) (cs : List Char) :
    splitBy separator cs = cs.splitOn separator := by
  induction cs with
  | nil => rfl
  | cons c cs ih =>
      rw [splitBy, ih, List.splitOn_cons_eq_if_modifyHead]
      obtain ⟨p, ps, hps⟩ := List.exists_cons_of_ne_nil (List.splitOn_ne_nil separator cs)
      simp [hps]

namespace Version

theorem isDigit_eq (c : Char) : isDigit c = c.isDigit := by
  simp [isDigit, Char.isDigit, Char.le_def]

theorem digitsValue_eq (ds : List Char) : digitsValue ds = Nat.ofDigitChars 10 ds 0 := by
  rw [digitsValue, Nat.ofDigitChars_eq_foldl]
  simp only [Nat.mul_comm 10]
  rfl

/-- The characters are decimal digits, at least one, that write the byte. -/
structure Digits (ds : List Char) (b : UInt8) : Prop where
  ne_nil : ds ≠ []
  isDigit : ∀ c ∈ ds, c.isDigit
  value : Nat.ofDigitChars 10 ds 0 = b.toNat

/-- The characters write the byte in digits, with a plus sign before them or without. -/
def WritesByte (cs : List Char) (b : UInt8) : Prop :=
  ∃ ds, (cs = ds ∨ cs = '+' :: ds) ∧ Digits ds b

/-- The text is a version: a part for each of the three numbers, with a point between any two. -/
def Writes (text : String) (v : Version) : Prop :=
  ∃ a b c, text.toList.splitOn '.' = [a, b, c] ∧
    WritesByte a v.major ∧ WritesByte b v.minor ∧ WritesByte c v.patch

theorem not_digits_plus (ds : List Char) (b : UInt8) : ¬ Digits ('+' :: ds) b :=
  fun h => absurd (h.isDigit '+' List.mem_cons_self) (by decide)

theorem digits_iff {ds : List Char} {b : UInt8} :
    (if ds.isEmpty || !ds.all isDigit then none
      else if digitsValue ds < 256 then some (UInt8.ofNat (digitsValue ds)) else none) = some b ↔
      Digits ds b := by
  have hdigits : (ds.isEmpty || !ds.all isDigit) = false ↔ ds ≠ [] ∧ ∀ c ∈ ds, c.isDigit := by
    simp [isDigit_eq]
  rw [digitsValue_eq]
  constructor
  · intro h
    split at h
    · cases h
    · next hcond =>
        obtain ⟨hne, hd⟩ := hdigits.mp (Bool.not_eq_true _ ▸ hcond)
        split at h
        · next hvalue =>
            refine ⟨hne, hd, ?_⟩
            rw [← Option.some.inj h, UInt8.toNat_ofNat', Nat.mod_eq_of_lt hvalue]
        · cases h
  · rintro ⟨hne, hd, hvalue⟩
    rw [hdigits.mpr ⟨hne, hd⟩, if_neg Bool.false_ne_true, hvalue, if_pos b.toNat_lt,
      UInt8.ofNat_toNat]

theorem part?_eq_some_iff {cs : List Char} {b : UInt8} : part? cs = some b ↔ WritesByte cs b := by
  unfold part?
  split
  · next ds =>
      rw [digits_iff]
      refine ⟨fun h => ⟨ds, .inr rfl, h⟩, ?_⟩
      rintro ⟨ds', rfl | heq, h⟩
      · exact absurd h (not_digits_plus _ _)
      · exact (List.cons.inj heq).2 ▸ h
  · next hplus =>
      rw [digits_iff]
      refine ⟨fun h => ⟨cs, .inl rfl, h⟩, ?_⟩
      rintro ⟨ds, rfl | rfl, h⟩
      · exact h
      · exact absurd rfl (hplus ds)

theorem ofText?_eq_some_iff {text : String} {v : Version} :
    ofText? text = some v ↔ Writes text v := by
  unfold ofText? Writes
  rw [splitBy_eq]
  split
  · next a b c hsplit =>
      simp only [Option.bind_eq_bind, Option.bind_eq_some_iff, Option.pure_def, Option.some.injEq,
        part?_eq_some_iff]
      constructor
      · rintro ⟨x, hx, y, hy, z, hz, rfl⟩
        exact ⟨a, b, c, hsplit, hx, hy, hz⟩
      · rintro ⟨a', b', c', hparts, hx, hy, hz⟩
        obtain ⟨rfl, rfl, rfl⟩ : a = a' ∧ b = b' ∧ c = c' := by
          simpa only [List.cons.injEq, and_true] using hsplit.symm.trans hparts
        exact ⟨_, hx, _, hy, _, hz, rfl⟩
  · next hnot =>
      refine ⟨nofun, ?_⟩
      rintro ⟨a, b, c, hsplit, -⟩
      exact absurd hsplit (hnot a b c)

/-- What is written for a byte writes it. -/
theorem writesByte_toDigits (b : UInt8) : WritesByte (Nat.toDigits 10 b.toNat) b :=
  ⟨_, .inl rfl, Nat.toDigits_ne_nil,
    fun _ hc => Nat.isDigit_of_mem_toDigits (by decide) (by decide) hc,
    Nat.ofDigitChars_ten_toDigits⟩

theorem writes_text (v : Version) : Writes v.text v := by
  refine ⟨_, _, _, ?_, writesByte_toDigits v.major, writesByte_toDigits v.minor,
    writesByte_toDigits v.patch⟩
  have hpoint : ∀ n, '.' ∉ Nat.toDigits 10 n := fun n h =>
    absurd (Nat.isDigit_of_mem_toDigits (by decide) (by decide) h) (by decide)
  have htext : v.text.toList = ['.'].intercalate [Nat.toDigits 10 v.major.toNat,
      Nat.toDigits 10 v.minor.toNat, Nat.toDigits 10 v.patch.toNat] := by
    simp [text, List.intercalate]
  rw [htext]
  exact List.splitOn_intercalate '.' (by simp [hpoint]) (by simp)

end Version

/-! ## Settings -/

namespace Json

/-- The value is what an object has under a key: of several fields with this key, the last one. -/
def HasField (j : Json) (key : String) (value : Json) : Prop :=
  ∃ before after, j = object (before ++ (key, value) :: after) ∧ ∀ f ∈ after, f.1 ≠ key

/-- The settings have this string as their version. -/
def HasVersion (settings : Json) (text : String) : Prop :=
  ∃ metadata, settings.HasField "metadata" metadata ∧ metadata.HasField "version" (string text)

theorem field?_eq_some_iff {j value : Json} {key : String} :
    j.field? key = some value ↔ j.HasField key value := by
  unfold HasField
  cases j with
  | object fields =>
      simp only [field?, Option.map_eq_some_iff, List.find?_eq_some_iff_append]
      constructor
      · rintro ⟨⟨k, v⟩, ⟨hkey, before, after, hfields, hbefore⟩, rfl⟩
        obtain rfl : k = key := by simpa using hkey
        have heq := congrArg List.reverse hfields
        refine ⟨after.reverse, before.reverse, by simpa using heq, fun f hf => ?_⟩
        simpa using hbefore f (List.mem_reverse.mp hf)
      · rintro ⟨before, after, heq, hafter⟩
        obtain rfl := Json.object.inj heq
        refine ⟨(key, value), ⟨by simp, after.reverse, before.reverse, by simp, fun f hf => ?_⟩, rfl⟩
        simpa using hafter f (List.mem_reverse.mp hf)
  | null | bool | number | string | array => simp [field?]

theorem string?_eq_some_iff {j : Json} {text : String} :
    j.string? = some text ↔ j = string text := by
  cases j <;> simp [string?]

theorem hasVersion_iff {settings : Json} {text : String} :
    (settings.field? "metadata" >>= field? "version" >>= string?) = some text ↔
      settings.HasVersion text := by
  simp [HasVersion, Option.bind_eq_some_iff, field?_eq_some_iff, string?_eq_some_iff]

end Json

/-! ## The field of the settings -/

namespace VersionField

variable {settings : Json}

theorem version?_eq_some_iff {field : VersionField} {v : Version} :
    field.version? = some v ↔ field = .given v := by
  cases field <;> simp [version?]

theorem ofSettings_eq_given_iff {v : Version} : ofSettings settings = .given v ↔
    ∃ text, settings.HasVersion text ∧ Version.Writes text v := by
  simp only [← Json.hasVersion_iff, ← Version.ofText?_eq_some_iff]
  unfold ofSettings
  cases settings.field? "metadata" >>= Json.field? "version" >>= Json.string? with
  | none => simp
  | some text => cases h : Version.ofText? text <;> simp [h]

theorem ofSettings_eq_malformed_iff {text : String} : ofSettings settings = .malformed text ↔
    settings.HasVersion text ∧ ∀ v, ¬ Version.Writes text v := by
  simp only [← Json.hasVersion_iff, ← Version.ofText?_eq_some_iff]
  unfold ofSettings
  cases settings.field? "metadata" >>= Json.field? "version" >>= Json.string? with
  | none => simp
  | some text' => cases h : Version.ofText? text' <;> grind

/-- The warning about a string that is no version. -/
def malformedLine (text : String) : String :=
  "cargo:warning=ignoring malformed grammar version `" ++ text ++ "`"

theorem malformedLine_inj {text text' : String} :
    malformedLine text = malformedLine text' ↔ text = text' := by
  unfold malformedLine
  rw [← String.toList_inj, ← String.toList_inj]
  simp only [String.toList_append, List.append_cancel_right_eq, List.append_cancel_left_eq]

theorem warnings_malformed (text : String) : (malformed text).warnings = [malformedLine text] := rfl

theorem warnings_eq_singleton_iff {field : VersionField} {text : String} :
    field.warnings = [malformedLine text] ↔ field = .malformed text := by
  cases field with
  | malformed text' =>
      rw [warnings_malformed, List.cons.injEq, malformedLine_inj, malformed.injEq]
      simp
  | absent | given => simp [warnings]

theorem warnings_eq_nil_iff {field : VersionField} :
    field.warnings = [] ↔ ∀ text, field ≠ .malformed text := by
  cases field <;> simp [warnings]

end VersionField

/-! ## What a build makes of it -/

namespace Build

open Script

/-- Reading the version of some settings gives a version if the settings have a string that is one,
and then this one.  It prints a warning if they have a string that is none, and nothing otherwise.
A version that is written with its three numbers is read as these. -/
theorem semanticVersion_reads (settings : Json) (t : Trace) : ∃ version? printed,
    exec (semanticVersion settings) t = (.ok version?, { t with printed := t.printed ++ printed }) ∧
    (∀ v, version? = some v ↔ ∃ text, settings.HasVersion text ∧ Version.Writes text v) ∧
    (∀ text, printed = [VersionField.malformedLine text] ↔
      settings.HasVersion text ∧ ∀ v, ¬ Version.Writes text v) ∧
    (printed = [] ↔ ∀ text, settings.HasVersion text → ∃ v, Version.Writes text v) ∧
    ∀ v, settings.HasVersion v.text → version? = some v := by
  have hgiven : ∀ v, (VersionField.ofSettings settings).version? = some v ↔
      ∃ text, settings.HasVersion text ∧ Version.Writes text v := fun v => by
    rw [VersionField.version?_eq_some_iff, VersionField.ofSettings_eq_given_iff]
  refine ⟨_, _, exec_semanticVersion settings, hgiven, fun text => ?_, ?_, fun v hv => ?_⟩
  · rw [VersionField.warnings_eq_singleton_iff, VersionField.ofSettings_eq_malformed_iff]
  · rw [VersionField.warnings_eq_nil_iff]
    simp [VersionField.ofSettings_eq_malformed_iff]
  · exact (hgiven v).mpr ⟨v.text, hv, v.writes_text⟩

example : Version.ofText? "+1.002.255" = some ⟨1, 2, 255⟩ := by decide +kernel

end Build

end Heptagon
