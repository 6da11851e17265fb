import Heptagon.Proofs.Grammar.Trees

/-!
# Tokens

A leaf is a token if the scanner writes its lexemes and its text is spelled as
its label says.  For the name of a state, which may be written with two
lexemes, this is a matter of putting two words together; a quote at the end of
the first one would be in the way.
-/

namespace Heptagon

/-- The leaf is a token: it is written with lexemes of the scanner, and its text is spelled as its
label says. -/
structure Leaf.IsToken (l : Leaf) : Prop where
  lexemes : ∀ x ∈ l.lexemes, x.IsToken
  spells : l.label.Spells l.text

open Pattern TokenClass

/-- A word that starts with a small letter is this letter, bytes that may follow it, and quotes. -/
theorem mem_identifier_iff {t : Text} : t ∈ identifier.pattern ↔
    ∃ (b : UInt8) (u quotes : Text), t = b :: u ++ quotes ∧ isSmall b = true ∧
      (∀ c ∈ u, isSmallBody c = true) ∧ ∀ c ∈ quotes, isQuote c = true := by
  constructor
  · intro h
    obtain ⟨_, hfront, quotes, hquotes, rfl⟩ := Language.mem_mul.mp h
    obtain ⟨_, ⟨b, hb, rfl⟩, u, hu, rfl⟩ := Language.mem_mul.mp hfront
    exact ⟨b, u, quotes, rfl, hb, mem_bytes_iff.mp hu, mem_bytes_iff.mp hquotes⟩
  · rintro ⟨b, u, quotes, rfl, hb, hu, hquotes⟩
    exact Language.mem_mul.mpr ⟨b :: u, cons_mem_byte_mul hb (mem_bytes_iff.mpr hu), quotes,
      mem_bytes_iff.mpr hquotes, rfl⟩

/-- A number is digits, which a point and digits may follow. -/
theorem mem_lNumber_iff {t : Text} : t ∈ lNumber.pattern ↔
    ∃ (b : UInt8) (u : Text), isDigit b = true ∧ (∀ c ∈ u, isDigit c = true) ∧
      (t = b :: u ∨ ∃ (d : UInt8) (v : Text), isDigit d = true ∧ (∀ c ∈ v, isDigit c = true) ∧
        t = b :: u ++ 46 :: d :: v) := by
  have hpoint : Text.ofString "." = [46] := by decide
  constructor
  · intro h
    rcases (Language.mem_add _ _ _).mp h with h | h
    · obtain ⟨_, hfront, fraction, hfraction, rfl⟩ := Language.mem_mul.mp h
      obtain ⟨whole, hwhole, _, rfl, rfl⟩ := Language.mem_mul.mp hfront
      obtain ⟨_, ⟨b, hb, rfl⟩, u, hu, rfl⟩ := Language.mem_mul.mp hwhole
      obtain ⟨_, ⟨d, hd, rfl⟩, v, hv, rfl⟩ := Language.mem_mul.mp hfraction
      exact ⟨b, u, hb, mem_bytes_iff.mp hu, .inr ⟨d, v, hd, mem_bytes_iff.mp hv, by simp [hpoint]⟩⟩
    · obtain ⟨_, ⟨b, hb, rfl⟩, u, hu, rfl⟩ := Language.mem_mul.mp h
      exact ⟨b, u, hb, mem_bytes_iff.mp hu, .inl rfl⟩
  · rintro ⟨b, u, hb, hu, rfl | ⟨d, v, hd, hv, rfl⟩⟩
    · exact (Language.mem_add _ _ _).mpr (.inr (cons_mem_someBytes hb hu))
    · refine (Language.mem_add _ _ _).mpr (.inl (Language.mem_mul.mpr ⟨_,
        Language.mem_mul.mpr ⟨_, cons_mem_someBytes hb hu, _, rfl, rfl⟩, _,
        cons_mem_someBytes hd hv, ?_⟩))
      simp [hpoint]

/-- A word without quotes is a small letter and bytes that may follow it. -/
theorem Word.mem_of_quoted {w : Word} (h : w.text ∈ identifier.pattern) (hquoted : w.quoted = false) :
    ∃ b t, w.text = b :: t ∧ isSmall b = true ∧ ∀ c ∈ t, isSmallBody c = true := by
  obtain ⟨b, t, quotes, htext, hb, ht, hquotes⟩ := mem_identifier_iff.mp h
  obtain rfl : quotes = [] := by
    cases quotes with
    | nil => rfl
    | cons q quotes =>
        have hq := hquotes q (by simp)
        have : w.quoted = true := by simp [Word.quoted, htext, hq]
        simp [hquoted] at this
  exact ⟨b, t, by simp [htext], hb, ht⟩

theorem isWordBody_of_isSmallBody {b : UInt8} (h : isSmallBody b = true) : isWordBody b = true := by
  simp [isWordBody, h]

theorem isWordBody_of_isCapital {b : UInt8} (h : isCapital b = true) : isWordBody b = true := by
  simp [isWordBody, h]

/-- A word that starts with a capital letter is a capital and bytes that may follow it. -/
theorem mem_enumIdentifier_iff {t : Text} : t ∈ enumIdentifier.pattern ↔
    ∃ b u, t = b :: u ∧ isCapital b = true ∧ ∀ c ∈ u, isWordBody c = true := by
  constructor
  · intro h
    obtain ⟨_, ⟨b, hb, rfl⟩, u, hu, rfl⟩ := Language.mem_mul.mp h
    exact ⟨b, u, rfl, hb, mem_bytes_iff.mp hu⟩
  · rintro ⟨b, u, rfl, hb, hu⟩
    exact cons_mem_byte_mul hb (mem_bytes_iff.mpr hu)

theorem mem_stateIdentifier_iff {t : Text} : t ∈ stateIdentifier.pattern ↔
    ∃ b u, t = b :: u ∧ (isSmall b || isCapital b) = true ∧ ∀ c ∈ u, isWordBody c = true := by
  constructor
  · intro h
    obtain ⟨_, ⟨b, hb, rfl⟩, u, hu, rfl⟩ := Language.mem_mul.mp h
    exact ⟨b, u, rfl, hb, mem_bytes_iff.mp hu⟩
  · rintro ⟨b, u, rfl, hb, hu⟩
    exact cons_mem_byte_mul hb (mem_bytes_iff.mpr hu)

theorem StateName.spells {s : StateName} (h : s.Normal) (hlexemes : ∀ x ∈ s.lexemes, x.IsToken) :
    s.text ∈ stateIdentifier.pattern := by
  refine mem_stateIdentifier_iff.mpr ?_
  cases s with
  | capital t =>
      have ht : t ∈ enumIdentifier.pattern := hlexemes (.capital t) (by simp [lexemes])
      obtain ⟨b, u, rfl, hb, hu⟩ := mem_enumIdentifier_iff.mp ht
      exact ⟨b, u, rfl, by simp [hb], hu⟩
  | small w =>
      have hw : (Lexeme.word w).IsToken := hlexemes (.word w) (by simp [lexemes])
      obtain ⟨b, u, htext, hb, hu⟩ := Word.mem_of_quoted hw.2 h
      exact ⟨b, u, htext, by simp [hb], fun c hc => isWordBody_of_isSmallBody (hu c hc)⟩
  | mixed w t =>
      have hw : (Lexeme.word w).IsToken := hlexemes (.word w) (by simp [lexemes])
      have ht : t ∈ enumIdentifier.pattern := hlexemes (.capital t) (by simp [lexemes])
      obtain ⟨b, u, htext, hb, hu⟩ := Word.mem_of_quoted hw.2 h
      obtain ⟨c, v, rfl, hc, hv⟩ := mem_enumIdentifier_iff.mp ht
      refine ⟨b, u ++ c :: v, by simp [text, htext], by simp [hb], ?_⟩
      simp only [List.forall_mem_append, List.forall_mem_cons]
      exact ⟨fun c hc => isWordBody_of_isSmallBody (hu c hc), isWordBody_of_isCapital hc, hv⟩

/-- A leaf of a program is a token if its lexemes are. -/
theorem Leaf.isToken_of_normal {l : Leaf} (h : (Tree.leaf l).Normal)
    (hlexemes : ∀ x ∈ l.lexemes, x.IsToken) :
    l.IsToken := by
  refine ⟨hlexemes, ?_⟩
  cases l with
  | name n =>
      have hn : (Lexeme.word n).IsToken := hlexemes (.word n) (by simp)
      exact ⟨identifier, rfl, hn.2⟩
  | variant t => exact ⟨enumIdentifier, rfl, hlexemes (.capital t) (by simp)⟩
  | state s => exact ⟨stateIdentifier, rfl, s.spells h hlexemes⟩
  | number t => exact ⟨lNumber, rfl, hlexemes (.number t) (by simp)⟩
  | keyword k => rfl
  | symbol s => rfl

end Heptagon
