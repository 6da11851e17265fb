import Heptagon.Grammar
import Heptagon.Lexeme.Scan
import Mathlib.Computability.Language

/-!
# The patterns of the tokens

Each token with a name has a pattern, a regular language of bytes, and a
keyword or symbol has its spelling.  `Label.Spells` says that a text is one
that a token may have.

The scanner does not know the patterns: it takes the longest stretch of one
class of bytes after another.  So this file also says which stretches make a
word of each pattern.
-/

/-- A set of rows of bytes. -/
abbrev ByteLanguage := Language UInt8

namespace Heptagon

open Computability

/-! ## Patterns -/

namespace Pattern

/-- One byte of a class. -/
def byte (p : UInt8 → Bool) : ByteLanguage := {t | ∃ b, p b = true ∧ t = [b]}

/-- Any number of bytes of a class. -/
def bytes (p : UInt8 → Bool) : ByteLanguage := (byte p)∗

/-- At least one byte of a class. -/
def someBytes (p : UInt8 → Bool) : ByteLanguage := byte p * bytes p

/-- A fixed spelling. -/
def literal (spelling : String) : ByteLanguage := {Text.ofString spelling}

theorem mem_bytes_iff {p : UInt8 → Bool} {t : Text} : t ∈ bytes p ↔ ∀ b ∈ t, p b = true := by
  rw [bytes, Language.mem_kstar]
  constructor
  · rintro ⟨ts, rfl, hts⟩ b hb
    obtain ⟨u, hu, hb⟩ := List.mem_flatten.mp hb
    obtain ⟨c, hc, rfl⟩ := hts u hu
    obtain rfl := List.mem_singleton.mp hb
    exact hc
  · intro h
    refine ⟨t.map fun b => [b], by simp [← List.flatMap_def], fun u hu => ?_⟩
    obtain ⟨b, hb, rfl⟩ := List.mem_map.mp hu
    exact ⟨b, h b hb, rfl⟩

theorem cons_mem_byte_mul {p : UInt8 → Bool} {l : ByteLanguage} {b : UInt8} {t : Text}
    (hb : p b = true) (ht : t ∈ l) : b :: t ∈ byte p * l :=
  Language.mem_mul.mpr ⟨[b], ⟨b, hb, rfl⟩, t, ht, rfl⟩

theorem cons_mem_someBytes {p : UInt8 → Bool} {b : UInt8} {t : Text} (hb : p b = true)
    (ht : ∀ c ∈ t, p c = true) : b :: t ∈ someBytes p :=
  cons_mem_byte_mul hb (mem_bytes_iff.mpr ht)

end Pattern

open Pattern in
/-- The pattern of a token with a name. -/
def TokenClass.pattern : TokenClass → ByteLanguage
  | comment => literal "(*" * bytes (· != 42) * someBytes (· == 42) *
      (byte (fun b => b != 41 && b != 42) * bytes (· != 42) * someBytes (· == 42))∗ * literal ")"
  | identifier => byte isSmall * bytes isSmallBody * bytes isQuote
  | enumIdentifier => byte isCapital * bytes isWordBody
  | stateIdentifier => byte (fun b => isSmall b || isCapital b) * bytes isWordBody
  | lNumber => someBytes isDigit * literal "." * someBytes isDigit + someBytes isDigit

/-- A token with a label may have a text. -/
def Label.Spells : Label → Text → Prop
  | .literal s, t => t = Text.ofString s
  | .named k, t => ∃ c : TokenClass, c.kind = k ∧ t ∈ c.pattern

/-- A comment may have a text. -/
abbrev Comment.Spells (t : Text) : Prop := t ∈ TokenClass.comment.pattern

/-! ## Comments -/

namespace Comment

/-- What follows the opening bytes of a comment. -/
def Closes (t : Text) : Prop :=
  ∃ free stars more : Text, (∀ b ∈ free, (b != 42) = true) ∧ stars ∈ Pattern.someBytes (· == 42) ∧
    more ∈ (Pattern.byte (fun b => b != 41 && b != 42) * Pattern.bytes (· != 42) *
      Pattern.someBytes (· == 42))∗ ∧ t = free ++ (stars ++ (more ++ [41]))

theorem Closes.cons_free {b : UInt8} {t : Text} (hb : b ≠ 42) (h : Closes t) : Closes (b :: t) := by
  obtain ⟨free, stars, more, hfree, hstars, hmore, rfl⟩ := h
  exact ⟨b :: free, stars, more, List.forall_mem_cons.mpr ⟨by simpa using hb, hfree⟩, hstars, hmore,
    rfl⟩

theorem closes_end : Closes [42, 41] :=
  ⟨[], [42], [], by simp, Pattern.cons_mem_someBytes rfl (by simp), Language.nil_mem_kstar _, rfl⟩

/-- A star does not close a comment before anything but a closing parenthesis. -/
theorem Closes.cons_star {t : Text} (hparen : t.head? ≠ some 41) (h : Closes t) :
    Closes (42 :: t) := by
  obtain ⟨free, stars, more, hfree, hstars, hmore, rfl⟩ := h
  cases free with
  | nil =>
      refine ⟨[], 42 :: stars, more, by simp, ?_, hmore, rfl⟩
      obtain ⟨b, ⟨c, hc, rfl⟩, rest, hrest, rfl⟩ := Language.mem_mul.mp hstars
      exact Pattern.cons_mem_someBytes rfl
        (List.forall_mem_cons.mpr ⟨hc, Pattern.mem_bytes_iff.mp hrest⟩)
  | cons b free =>
      obtain ⟨hb, hfree⟩ := List.forall_mem_cons.mp hfree
      refine ⟨[], [42], b :: (free ++ stars) ++ more, by simp,
        Pattern.cons_mem_someBytes rfl (by simp), ?_, by simp⟩
      have hb41 : b ≠ 41 := fun hb41 => hparen (by simp [hb41])
      obtain ⟨tss, rfl, htss⟩ := Language.mem_kstar.mp hmore
      refine Language.mem_kstar.mpr ⟨(b :: (free ++ stars)) :: tss, by simp,
        List.forall_mem_cons.mpr ⟨?_, htss⟩⟩
      have hfirst : b :: free ∈ Pattern.byte (fun b => b != 41 && b != 42) *
          Pattern.bytes (· != 42) :=
        Pattern.cons_mem_byte_mul (by simpa [hb41] using hb) (Pattern.mem_bytes_iff.mpr hfree)
      exact Language.mem_mul.mpr ⟨b :: free, hfirst, stars, hstars, rfl⟩

theorem Closes.spells {t : Text} (h : Closes t) : Spells (40 :: 42 :: t) := by
  obtain ⟨free, stars, more, hfree, hstars, hmore, rfl⟩ := h
  have hopen : Text.ofString "(*" = [40, 42] := by decide
  have hclose : Text.ofString ")" = [41] := by decide
  have hfree := Pattern.mem_bytes_iff.mpr hfree
  simp only [Spells, TokenClass.pattern, Language.mem_mul]
  exact ⟨_, ⟨_, ⟨_, ⟨_, rfl, free, hfree, rfl⟩, stars, hstars, rfl⟩, more, hmore, rfl⟩, _, rfl, by
    simp [hopen, hclose]⟩

theorem append_of_close? {t body rest : Text} (h : close? t = some (body, rest)) :
    t = body ++ rest := by
  fun_induction close? t generalizing body with
  | case1 => simp at h
  | case2 => simp at h
  | case3 rest' =>
      obtain ⟨rfl, rfl⟩ := by simpa using h
      rfl
  | case4 b rest' _ _ ih =>
      obtain ⟨⟨body', rest''⟩, hclose, heq⟩ := Option.map_eq_some_iff.mp h
      obtain ⟨rfl, rfl⟩ := by simpa using heq
      rw [ih hclose]
      rfl

theorem closes_of_close? {t body rest : Text} (h : close? t = some (body, rest)) :
    Closes body := by
  fun_induction close? t generalizing body with
  | case1 => simp at h
  | case2 => simp at h
  | case3 rest' =>
      obtain ⟨rfl, rfl⟩ := by simpa using h
      exact closes_end
  | case4 b rest' _ hend ih =>
      obtain ⟨⟨body', rest''⟩, hclose, heq⟩ := Option.map_eq_some_iff.mp h
      obtain ⟨rfl, rfl⟩ := by simpa using heq
      by_cases hb : b = 42
      · subst hb
        refine (ih hclose).cons_star fun hhead => ?_
        obtain ⟨us, rfl⟩ := List.head?_eq_some_iff.mp hhead
        exact hend (us ++ rest'') rfl (by rw [append_of_close? hclose]; rfl)
      · exact (ih hclose).cons_free hb

end Comment

end Heptagon
