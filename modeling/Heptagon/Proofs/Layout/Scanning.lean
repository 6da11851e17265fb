import Heptagon.Layout
import Heptagon.Proofs.Grammar.Pattern
import Heptagon.Proofs.Units
import Mathlib.Data.List.TakeWhile

/-!
# What the scanner finds

The items of a source stand in it one after another, each with the bytes that
it is spelled with, and each spelled as its pattern says.  Before, between and
after them there are only blanks.
-/

namespace Heptagon

/-- The bytes of a span. -/
def Text.slice (source : Text) (s : Span) : Text := (source.drop s.start).take (s.stop - s.start)

/-- The lexeme is one that the scanner writes. -/
def Lexeme.IsToken : Lexeme → Prop
  | word w => w = .ofText w.text ∧ w.text ∈ TokenClass.identifier.pattern
  | capital t => t ∈ TokenClass.enumIdentifier.pattern
  | number t => t ∈ TokenClass.lNumber.pattern
  | symbol _ => True
  | apart => True

/-- Only blanks stand between two places of a source. -/
def Text.Blank (source : Text) (start stop : Nat) : Prop :=
  start ≤ stop ∧ ∀ b ∈ source.slice ⟨start, stop⟩, isBlank b = true

/-- Where the first item of a source may start: after the leading mark, if there is one. -/
def Text.origin (source : Text) : Nat :=
  if leadingMark.isPrefixOf source then leadingMark.length else 0

theorem Lexeme.isToken_shown_iff {l : Lexeme} : l.shown.IsToken ↔ l.IsToken := by
  cases l <;> rfl

/-- The item is spelled with some bytes. -/
def Item.Spells : Item → Text → Prop
  | lexeme l, t => l.text = t ∧ l.IsToken
  | comment, t => Comment.Spells t

/-- The items stand in a source one after another, from an offset to the end. -/
def Item.Stand (source : Text) : (offset : Nat) → List (Placed Item) → Prop
  | offset, [] => source.Blank offset source.length
  | offset, ⟨item, span⟩ :: items => source.Blank offset span.start ∧ span.start < span.stop ∧
      item.Spells (source.slice span) ∧ Stand source span.stop items

/-! ## One item -/

namespace Item

variable {b : UInt8} {t rest : Text}

/-- What an item takes from the front of a text. -/
structure Takes (t : Text) (item : Item) (taken rest : Text) : Prop where
  append : t = taken ++ rest
  ne_nil : taken ≠ []
  spells : item.Spells taken

theorem takes_word (hb : isSmall b = true) :
    Takes (b :: t) (word (b :: t)).1 (word (b :: t)).2.1 (word (b :: t)).2.2 := by
  have hbody : isSmallBody b = true := by simp [isSmallBody, hb]
  refine ⟨?_, by simp [word, Text.spanOf, hbody], ?_⟩
  · simp [word, Text.spanOf]
  · refine ⟨Word.text_ofText _, by rw [Word.text_ofText], ?_⟩
    simp only [Word.text_ofText, List.takeWhile_cons, hbody, if_true]
    refine Language.mem_mul.mpr ⟨_, Pattern.cons_mem_byte_mul hb ?_, _, ?_, rfl⟩
    · exact Pattern.mem_bytes_iff.mpr fun c hc => List.mem_takeWhile_imp hc
    · exact Pattern.mem_bytes_iff.mpr fun c hc => List.mem_takeWhile_imp hc

theorem takes_capital (hb : isCapital b = true) :
    Takes (b :: t) (capital (b :: t)).1 (capital (b :: t)).2.1 (capital (b :: t)).2.2 := by
  have hbody : isWordBody b = true := by simp [isWordBody, hb]
  refine ⟨by simp [capital, Text.spanOf], by simp [capital, Text.spanOf, hbody], rfl, ?_⟩
  simp only [List.takeWhile_cons, hbody, if_true]
  exact Pattern.cons_mem_byte_mul hb
    (Pattern.mem_bytes_iff.mpr fun c hc => List.mem_takeWhile_imp hc)

/-- Digits from a first one on. -/
theorem takeWhile_isDigit_mem (hb : isDigit b = true) :
    (b :: t).takeWhile isDigit ∈ Pattern.someBytes isDigit := by
  rw [List.takeWhile_cons, if_pos hb]
  exact Pattern.cons_mem_someBytes hb fun c hc => List.mem_takeWhile_imp hc

theorem takes_number (hb : isDigit b = true) :
    Takes (b :: t) (number (b :: t)).1 (number (b :: t)).2.1 (number (b :: t)).2.2 := by
  have hwhole := takeWhile_isDigit_mem (t := t) hb
  have hsplit : b :: t = (b :: t).takeWhile isDigit ++ (b :: t).dropWhile isDigit := by simp
  have hne : (b :: t).takeWhile isDigit ≠ [] := by simp [hb]
  have hplain : Takes (b :: t) (lexeme (.number ((b :: t).takeWhile isDigit)))
      ((b :: t).takeWhile isDigit) ((b :: t).dropWhile isDigit) :=
    ⟨hsplit, hne, rfl, (Language.mem_add _ _ _).mpr (.inr hwhole)⟩
  unfold number
  simp only [Text.spanOf]
  split
  · next d more hrest =>
      split
      · next hd =>
          have hpoint : Text.ofString "." = [46] := by decide
          refine ⟨?_, by simp, rfl, (Language.mem_add _ _ _).mpr (.inl ?_)⟩
          · rw [List.append_assoc, List.cons_append, List.takeWhile_append_dropWhile, ← hrest]
            exact hsplit
          · refine Language.mem_mul.mpr ⟨_, Language.mem_mul.mpr ⟨_, hwhole, _, rfl, rfl⟩, _,
              takeWhile_isDigit_mem (t := more) hd, ?_⟩
            simp [hpoint]
      · exact hplain
  · exact hplain

theorem takes_of_symbol? {item : Item} {taken : Text}
    (h : symbol? t = some (item, taken, rest)) : Takes t item taken rest := by
  obtain ⟨s, hs, heq⟩ := Option.map_eq_some_iff.mp h
  obtain ⟨rfl, rfl, rfl⟩ := by simpa using heq
  obtain ⟨us, rfl⟩ := List.isPrefixOf_iff_prefix.mp (Symbol.isPrefixOf_of_first? hs)
  exact ⟨by simp, s.text_ne_nil, rfl, trivial⟩

theorem takes_of_first? {item : Item} {taken : Text}
    (h : first? t = some (item, taken, rest)) : Takes t item taken rest := by
  unfold first? at h
  split at h
  · simp at h
  · obtain ⟨⟨body, rest'⟩, hclose, heq⟩ := Option.map_eq_some_iff.mp h
    obtain ⟨rfl, rfl, rfl⟩ := by simpa using heq
    exact ⟨by rw [Comment.append_of_close? hclose]; rfl, by simp,
      (Comment.closes_of_close? hclose).spells⟩
  · next b us _ =>
      split at h
      · next hb =>
          have heq := Option.some.inj h
          have := takes_word (t := us) hb
          simpa only [heq] using this
      · split at h
        · next hb =>
            have heq := Option.some.inj h
            have := takes_capital (t := us) hb
            simpa only [heq] using this
        · split at h
          · next hb =>
              have heq := Option.some.inj h
              have := takes_number (t := us) hb
              simpa only [heq] using this
          · exact takes_of_symbol? h

end Item

/-! ## All items -/

/-- What follows an item in a source. -/
theorem Text.drop_add_length {source rest : Text} (taken : Text) {offset : Nat}
    (h : source.drop offset = taken ++ rest) : source.drop (offset + taken.length) = rest := by
  rw [← List.drop_drop, h, List.drop_left]

theorem Text.slice_eq {source taken rest : Text} {offset : Nat}
    (h : source.drop offset = taken ++ rest) :
    source.slice ⟨offset, offset + taken.length⟩ = taken := by
  simp [slice, h]

namespace Text.Blank

variable {source : Text} {start stop : Nat}

theorem refl (source : Text) (offset : Nat) : source.Blank offset offset :=
  ⟨Nat.le_refl _, by simp [slice]⟩

/-- One blank more in front. -/
theorem cons {b : UInt8} {rest : Text} (hsource : source.drop start = b :: rest)
    (hb : isBlank b = true) (h : source.Blank (start + 1) stop) : source.Blank start stop := by
  obtain ⟨hle, hblank⟩ := h
  have hrest : source.drop (start + 1) = rest := drop_add_length [b] hsource
  obtain ⟨n, hn⟩ : ∃ n, stop - start = n + 1 := ⟨stop - start - 1, by omega⟩
  have hn' : stop - (start + 1) = n := by omega
  refine ⟨by omega, ?_⟩
  simp only [slice, hsource, hrest, hn, hn', List.take_succ_cons, List.forall_mem_cons] at hblank ⊢
  exact ⟨hb, hblank⟩

end Text.Blank

theorem Item.Stand.cons_blank {source : Text} {offset : Nat} {b : UInt8} {rest : Text}
    {items : List (Placed Item)} (hsource : source.drop offset = b :: rest)
    (hb : isBlank b = true) (h : Stand source (offset + 1) items) : Stand source offset items := by
  cases items with
  | nil => exact Text.Blank.cons hsource hb h
  | cons item items =>
      obtain ⟨hstart, hspan, hspells, hrest⟩ := h
      exact ⟨hstart.cons hsource hb, hspan, hspells, hrest⟩

theorem stand_of_scanFrom {source text : Text} {fuel offset : Nat} {items : List (Placed Item)}
    (hsource : source.drop offset = text) (hoffset : offset ≤ source.length)
    (h : scanFrom fuel offset text = some items) : Item.Stand source offset items := by
  fun_induction scanFrom fuel offset text generalizing items with
  | case1 fuel offset =>
      obtain rfl := by simpa using h
      have hlength : source.length ≤ offset := List.drop_eq_nil_iff.mp hsource
      exact ⟨hoffset, by simp [Text.slice, hsource]⟩
  | case2 => simp at h
  | case3 fuel offset b rest hb ih =>
      have hrest : source.drop (offset + 1) = rest :=
        Text.drop_add_length [b] hsource
      have hlength := congrArg List.length hsource
      simp only [List.length_drop, List.length_cons] at hlength
      exact (ih hrest (by omega) h).cons_blank hsource hb
  | case4 fuel offset b rest _ ih =>
      simp only [Option.bind_eq_bind, Option.bind_eq_some_iff, Prod.exists, Option.pure_def,
        Option.some.injEq] at h
      obtain ⟨item, taken, rest', hfirst, items', hitems, rfl⟩ := h
      have htakes := Item.takes_of_first? hfirst
      rw [htakes.append] at hsource
      have hlength := congrArg List.length hsource
      simp only [List.length_drop, List.length_append] at hlength
      have hpos := List.length_pos_iff.mpr htakes.ne_nil
      refine ⟨.refl _ _, ?_, ?_, ih _ _ (Text.drop_add_length _ hsource) (by omega) hitems⟩
      · exact Nat.lt_add_of_pos_right hpos
      · rw [Text.slice_eq hsource]
        exact htakes.spells

/-- The items of a source stand in it. -/
theorem stand_of_scan {source : Text} {items : List (Placed Item)}
    (h : scan source = some items) : Item.Stand source source.origin items := by
  unfold scan at h
  unfold Text.origin
  split at h
  · next hmark =>
      rw [if_pos hmark]
      exact stand_of_scanFrom rfl (List.isPrefixOf_iff_prefix.mp hmark).length_le h
  · next hmark =>
      rw [if_neg hmark]
      exact stand_of_scanFrom rfl (Nat.zero_le _) h

end Heptagon
