import Heptagon.Proofs.Grammar.Tokens
import Heptagon.Proofs.Node.Placing
import Mathlib.Data.List.Find

/-!
# Scanning what is printed

Tokens printed with a space between any two are scanned as the lexemes that
write them (`Leaf.scan_printed`): no token runs into the next one, because a
blank goes on with no lexeme, and the two halves of a mixed state name come
apart where the first capital letter stands.

`Layout.Holds` says what such a layout is like: it has no comments, and the
lexemes of one token touch.
-/

namespace Heptagon

/-! ## Bytes -/

section

variable {b : UInt8}

theorem isBlank_iff : isBlank b = true ↔ 9 ≤ b.toNat ∧ b.toNat ≤ 13 ∨ b.toNat = 32 := by
  simp [isBlank, UInt8.le_iff_toNat_le, ← UInt8.toNat_inj]

theorem isDigit_iff : isDigit b = true ↔ 48 ≤ b.toNat ∧ b.toNat ≤ 57 := by
  simp [isDigit, UInt8.le_iff_toNat_le]

theorem isCapital_iff : isCapital b = true ↔ 65 ≤ b.toNat ∧ b.toNat ≤ 90 := by
  simp [isCapital, UInt8.le_iff_toNat_le]

theorem isSmall_iff : isSmall b = true ↔ 97 ≤ b.toNat ∧ b.toNat ≤ 122 := by
  simp [isSmall, UInt8.le_iff_toNat_le]

theorem isQuote_iff : isQuote b = true ↔ b.toNat = 39 := by
  simp [isQuote, ← UInt8.toNat_inj]

theorem isSmallBody_iff : isSmallBody b = true ↔
    (97 ≤ b.toNat ∧ b.toNat ≤ 122 ∨ 48 ≤ b.toNat ∧ b.toNat ≤ 57) ∨ b.toNat = 95 := by
  simp [isSmallBody, isSmall_iff, isDigit_iff, isUnderscore, ← UInt8.toNat_inj]

theorem isWordBody_iff : isWordBody b = true ↔
    isSmallBody b = true ∨ 65 ≤ b.toNat ∧ b.toNat ≤ 90 := by
  simp [isWordBody, isCapital_iff]

/-- A blank goes on with no word and no number. -/
theorem not_isWordBody_of_isBlank (h : isBlank b = true) : isWordBody b = false := by
  rw [← Bool.not_eq_true, isWordBody_iff, isSmallBody_iff]
  rw [isBlank_iff] at h
  omega

theorem not_isDigit_of_isBlank (h : isBlank b = true) : isDigit b = false := by
  rw [← Bool.not_eq_true, isDigit_iff]
  rw [isBlank_iff] at h
  omega

/-- A word that starts small goes on neither with a blank nor with a capital letter. -/
theorem not_isSmallBody_of_ends (h : isBlank b = true ∨ isCapital b = true) :
    isSmallBody b = false := by
  rw [← Bool.not_eq_true, isSmallBody_iff]
  rw [isBlank_iff, isCapital_iff] at h
  omega

theorem not_isQuote_of_ends (h : isBlank b = true ∨ isCapital b = true) : isQuote b = false := by
  rw [← Bool.not_eq_true, isQuote_iff]
  rw [isBlank_iff, isCapital_iff] at h
  omega

theorem not_isSmallBody_of_isQuote (h : isQuote b = true) : isSmallBody b = false := by
  rw [← Bool.not_eq_true, isSmallBody_iff]
  rw [isQuote_iff] at h
  omega

/-- What starts a word or a number starts nothing else. -/
theorem not_isBlank_of_isSmall (h : isSmall b = true) : isBlank b = false := by
  rw [← Bool.not_eq_true, isBlank_iff]
  rw [isSmall_iff] at h
  omega

theorem not_isBlank_of_isCapital (h : isCapital b = true) : isBlank b = false ∧ isSmall b = false := by
  rw [← Bool.not_eq_true, ← Bool.not_eq_true, isBlank_iff, isSmall_iff]
  rw [isCapital_iff] at h
  omega

theorem not_isBlank_of_isDigit (h : isDigit b = true) :
    isBlank b = false ∧ isSmall b = false ∧ isCapital b = false := by
  simp only [← Bool.not_eq_true, isBlank_iff, isSmall_iff, isCapital_iff]
  rw [isDigit_iff] at h
  omega

end

/-- The stretch of one class ends where a byte of another class follows. -/
theorem Text.spanOf_append {p : UInt8 → Bool} {t rest : Text} (ht : ∀ b ∈ t, p b = true)
    (hrest : ∀ b ∈ rest.head?, p b = false) : (t ++ rest).spanOf p = (t, rest) := by
  rw [spanOf, List.takeWhile_append_of_pos ht, List.dropWhile_append_of_pos ht]
  cases rest with
  | nil => simp
  | cons b rest => simp [hrest b rfl]

/-! ## One lexeme -/

/-- The text that follows does not go on with the lexeme. -/
def Lexeme.EndsBefore : Lexeme → Text → Prop
  | word _, rest => ∀ b ∈ rest.head?, isSmallBody b = false ∧ isQuote b = false
  | capital _, rest => ∀ b ∈ rest.head?, isWordBody b = false
  | number _, rest => ∀ b ∈ rest.head?, isDigit b = false ∧ b ≠ 46
  | _, rest => ∀ b ∈ rest.head?, isBlank b = true

/-- A blank goes on with no lexeme. -/
theorem Lexeme.EndsBefore.of_blank {x : Lexeme} {rest : Text}
    (h : ∀ b ∈ rest.head?, isBlank b = true) : x.EndsBefore rest := by
  cases x with
  | word w =>
      exact fun b hb => ⟨not_isSmallBody_of_ends (.inl (h b hb)), not_isQuote_of_ends (.inl (h b hb))⟩
  | capital t => exact fun b hb => not_isWordBody_of_isBlank (h b hb)
  | number t =>
      refine fun b hb => ⟨not_isDigit_of_isBlank (h b hb), ?_⟩
      rintro rfl
      simpa [isBlank] using h 46 hb
  | _ => exact h

namespace Item

variable {b : UInt8} {t rest : Text}

/-- Two bytes that do not start a comment. -/
theorem first?_cons (h : b = 40 → t.head? ≠ some 42) : first? (b :: t) =
    if isSmall b then some (word (b :: t))
    else if isCapital b then some (capital (b :: t))
    else if isDigit b then some (number (b :: t))
    else symbol? (b :: t) := by
  unfold first?
  split
  · next heq => simp at heq
  · next rest heq =>
      obtain ⟨rfl, rfl⟩ := List.cons.inj heq
      simp at h
  · next heq =>
      obtain ⟨rfl, rfl⟩ := List.cons.inj heq
      rfl

theorem first?_word {w : Word} (hw : (Lexeme.word w).IsToken)
    (hrest : (Lexeme.word w).EndsBefore rest) :
    first? (w.text ++ rest) = some (.lexeme (.word w), w.text, rest) := by
  obtain ⟨hword, hpattern⟩ := hw
  obtain ⟨b, t, quotes, htext, hb, ht, hquotes⟩ := mem_identifier_iff.mp hpattern
  have hbody : ∀ c ∈ b :: t, isSmallBody c = true :=
    List.forall_mem_cons.mpr ⟨by simp [isSmallBody, hb], ht⟩
  have hquote : ∀ c ∈ (quotes ++ rest).head?, isSmallBody c = false := by
    intro c hc
    cases quotes with
    | nil => exact (hrest c hc).1
    | cons q quotes =>
        obtain rfl : q = c := by simpa using hc
        exact not_isSmallBody_of_isQuote (hquotes q (by simp))
  have hends : ∀ c ∈ rest.head?, isQuote c = false := fun c hc => (hrest c hc).2
  have hparen : b ≠ 40 := by
    rintro rfl
    simp [isSmall] at hb
  have hsplit : w.text ++ rest = b :: t ++ (quotes ++ rest) := by simp [htext]
  rw [hsplit, List.cons_append, first?_cons (fun h => absurd h hparen), if_pos hb, word,
    ← List.cons_append, Text.spanOf_append hbody hquote]
  simp only [Text.spanOf_append hquotes hends, ← htext, ← hword]

theorem first?_capital (ht : (Lexeme.capital t).IsToken)
    (hrest : (Lexeme.capital t).EndsBefore rest) :
    first? (t ++ rest) = some (.lexeme (.capital t), t, rest) := by
  obtain ⟨b, u, rfl, hb, hu⟩ := mem_enumIdentifier_iff.mp ht
  have hbody : ∀ c ∈ b :: u, isWordBody c = true :=
    List.forall_mem_cons.mpr ⟨isWordBody_of_isCapital hb, hu⟩
  have hparen : b ≠ 40 := by
    rintro rfl
    simp [isCapital] at hb
  rw [List.cons_append, first?_cons (fun h => absurd h hparen),
    if_neg (by simp [(not_isBlank_of_isCapital hb).2]), if_pos hb, capital, ← List.cons_append,
    Text.spanOf_append hbody hrest]

theorem first?_of_isDigit (hb : isDigit b = true) : first? (b :: t) = some (number (b :: t)) := by
  have hparen : b ≠ 40 := by
    rintro rfl
    simp [isDigit] at hb
  obtain ⟨-, hsmall, hcapital⟩ := not_isBlank_of_isDigit hb
  rw [first?_cons (fun h => absurd h hparen), if_neg (by simp [hsmall]),
    if_neg (by simp [hcapital]), if_pos hb]

/-- Digits are a whole number if no fraction follows. -/
theorem number_eq_whole {t : Text} (ht : ∀ c ∈ t, isDigit c = true)
    (hrest : ∀ c ∈ rest.head?, isDigit c = false)
    (hfraction : ∀ d, [46, d] <+: rest → isDigit d = false) :
    number (t ++ rest) = (.lexeme (.number t), t, rest) := by
  rw [number, Text.spanOf_append ht hrest]
  dsimp only
  split
  · next d more =>
      rw [if_neg (by simp [hfraction d ⟨more, rfl⟩])]
  · rfl

theorem number_eq_fraction {t v : Text} {d : UInt8} (ht : ∀ c ∈ t, isDigit c = true)
    (hd : isDigit d = true) (hv : ∀ c ∈ d :: v, isDigit c = true)
    (hrest : ∀ c ∈ rest.head?, isDigit c = false) :
    number (t ++ 46 :: d :: v ++ rest) =
      (.lexeme (.number (t ++ 46 :: d :: v)), t ++ 46 :: d :: v, rest) := by
  rw [List.append_assoc, number, List.cons_append, Text.spanOf_append ht (by simp [isDigit])]
  simp only [List.cons_append, if_pos hd]
  rw [← List.cons_append, Text.spanOf_append hv hrest]

theorem first?_number (ht : (Lexeme.number t).IsToken)
    (hrest : (Lexeme.number t).EndsBefore rest) :
    first? (t ++ rest) = some (.lexeme (.number t), t, rest) := by
  have hends : ∀ c ∈ rest.head?, isDigit c = false := fun c hc => (hrest c hc).1
  obtain ⟨b, u, hb, hu, rfl | ⟨d, v, hd, hv, rfl⟩⟩ := mem_lNumber_iff.mp ht
  · have hdigits : ∀ c ∈ b :: u, isDigit c = true := List.forall_mem_cons.mpr ⟨hb, hu⟩
    have hpoint : ∀ c, [46, c] <+: rest → isDigit c = false := by
      rintro c ⟨more, rfl⟩
      exact absurd rfl (hrest 46 rfl).2
    rw [← number_eq_whole hdigits hends hpoint]
    exact first?_of_isDigit hb
  · have hdigits : ∀ c ∈ b :: u, isDigit c = true := List.forall_mem_cons.mpr ⟨hb, hu⟩
    rw [← number_eq_fraction hdigits hd (List.forall_mem_cons.mpr ⟨hd, hv⟩) hends]
    exact first?_of_isDigit hb

/-- A symbol starts with a byte of no other class; only a parenthesis starts like a comment. -/
theorem exists_text_symbol (s : Symbol) : ∃ b t, s.text = b :: t ∧ isBlank b = false ∧
    isSmall b = false ∧ isCapital b = false ∧ isDigit b = false ∧ (b = 40 → t = []) := by
  cases s <;> exact ⟨_, _, rfl, by decide⟩

/-- A blank is part of no symbol, so a longer symbol does not reach behind it. -/
theorem first?_symbol_append {s : Symbol} (hrest : ∀ c ∈ rest.head?, isBlank c = true) :
    Symbol.first? (s.text ++ rest) = some s := by
  have hself : Symbol.first? s.text = some s := by cases s <;> decide
  have hblank : ∀ s' ∈ Symbol.all, s'.text.all (!isBlank ·) = true := by decide
  rw [← hself, Symbol.first?, Symbol.first?]
  refine List.find?_congr fun s' hs' => ?_
  rw [Bool.eq_iff_iff, List.isPrefixOf_iff_prefix, List.isPrefixOf_iff_prefix]
  constructor
  · intro hprefix
    rcases List.prefix_or_prefix_of_prefix hprefix (List.prefix_append s.text rest) with h | h
    · exact h
    · obtain ⟨u, hu⟩ := h
      rw [← hu] at hprefix ⊢
      cases u with
      | nil => simp
      | cons c u =>
          obtain ⟨v, hv⟩ := (List.prefix_append_right_inj _).mp hprefix
          have hc := hrest c (by simp [← hv])
          have hall := List.all_eq_true.mp (hblank s' s'.mem_all) c (by simp [← hu])
          simp [hc] at hall
  · exact fun hprefix => hprefix.trans (List.prefix_append _ _)

theorem first?_symbol {s : Symbol} (hrest : ∀ c ∈ rest.head?, isBlank c = true) :
    first? (s.text ++ rest) = some (.lexeme (.symbol s), s.text, rest) := by
  obtain ⟨b, t, htext, -, hsmall, hcapital, hdigit, hparen⟩ := exists_text_symbol s
  have hcomment : b = 40 → (t ++ rest).head? ≠ some 42 := by
    intro hb hhead
    rw [hparen hb, List.nil_append] at hhead
    simpa [isBlank] using hrest 42 hhead
  have hfirst := first?_symbol_append (s := s) hrest
  rw [htext, List.cons_append] at hfirst ⊢
  rw [first?_cons hcomment, if_neg (by simp [hsmall]), if_neg (by simp [hcapital]),
    if_neg (by simp [hdigit]), symbol?, hfirst]
  simp [htext]

/-- A lexeme is scanned from its text if the text after it does not go on with it. -/
theorem first?_text {x : Lexeme} (hx : x.IsToken) (hrest : x.EndsBefore rest) :
    first? (x.text ++ rest) = some (.lexeme x.shown, x.text, rest) := by
  cases x with
  | word w => exact first?_word hx hrest
  | capital t => exact first?_capital hx hrest
  | number t => exact first?_number hx hrest
  | symbol s => exact first?_symbol hrest
  | apart => exact first?_symbol hrest

end Item

/-- The text of a lexeme starts neither with a blank nor with the leading mark. -/
theorem Lexeme.IsToken.exists_text {x : Lexeme} (h : x.IsToken) :
    ∃ b t, x.text = b :: t ∧ isBlank b = false ∧ b ≠ 0xEF := by
  cases x with
  | word w =>
      obtain ⟨b, t, quotes, htext, hb, -⟩ := mem_identifier_iff.mp h.2
      refine ⟨b, t ++ quotes, by simp [text, htext], not_isBlank_of_isSmall hb, ?_⟩
      rintro rfl
      simp [isSmall] at hb
  | capital t =>
      obtain ⟨b, u, rfl, hb, -⟩ := mem_enumIdentifier_iff.mp h
      refine ⟨b, u, rfl, (not_isBlank_of_isCapital hb).1, ?_⟩
      rintro rfl
      simp [isCapital] at hb
  | number t =>
      obtain ⟨b, u, rfl, hb⟩ : ∃ b u, t = b :: u ∧ isDigit b = true := by
        obtain ⟨b, u, hb, -, rfl | ⟨d, v, -, -, rfl⟩⟩ := mem_lNumber_iff.mp h <;> exact ⟨b, _, rfl, hb⟩
      refine ⟨b, u, rfl, (not_isBlank_of_isDigit hb).1, ?_⟩
      rintro rfl
      simp [isDigit] at hb
  | symbol s => cases s <;> exact ⟨_, _, rfl, by decide⟩
  | apart => exact ⟨_, _, rfl, by decide⟩

/-! ## Printed tokens -/

/-- The tokens with a single space between any two. -/
def Leaf.printed (ls : List Leaf) : Text := [32].intercalate (ls.map text)

/-- The tokens with a space before each. -/
def Leaf.spaced (ls : List Leaf) : Text := ls.flatMap fun l => 32 :: l.text

theorem Leaf.printed_cons (l : Leaf) (ls : List Leaf) : printed (l :: ls) = l.text ++ spaced ls := by
  induction ls generalizing l with
  | nil => simp [printed, spaced, List.intercalate]
  | cons m ls ih =>
      have hm := ih m
      simp only [printed, spaced, List.intercalate, List.map_cons, List.flatMap_cons] at hm ⊢
      simp [hm]

/-- The items write the units, and the lexemes of one unit touch. -/
inductive Item.Write : Units → List (Placed Item) → Prop
  | nil : Write [] []
  | one {x : Lexeme} {s : Span} {us : Units} {items : List (Placed Item)} (h : Write us items) :
      Write ([x] :: us) (⟨.lexeme x, s⟩ :: items)
  | two {x y : Lexeme} {s t : Span} {us : Units} {items : List (Placed Item)}
      (htouch : s.stop = t.start) (h : Write us items) :
      Write ([x, y] :: us) (⟨.lexeme x, s⟩ :: ⟨.lexeme y, t⟩ :: items)

section

variable {rest : Text} {us : Units}

/-- The text is scanned as the units from every offset on. -/
def Text.ScansAs (t : Text) (us : Units) : Prop :=
  ∀ fuel offset, t.length ≤ fuel → ∃ items, scanFrom fuel offset t = some items ∧ Item.Write us items

theorem scanFrom_lexeme {x : Lexeme} (hx : x.IsToken) (hrest : x.EndsBefore rest)
    (fuel offset : Nat) :
    scanFrom (fuel + 1) offset (x.text ++ rest) =
      (scanFrom fuel (offset + x.text.length) rest).map
        (⟨.lexeme x.shown, ⟨offset, offset + x.text.length⟩⟩ :: ·) := by
  obtain ⟨b, t, htext, hb, -⟩ := hx.exists_text
  have hfirst := Item.first?_text hx hrest
  rw [htext, List.cons_append] at hfirst ⊢
  rw [scanFrom, if_neg (by simp [hb]), hfirst, Option.map_eq_bind]
  rfl

/-- One lexeme in front of a text that is scanned. -/
theorem Text.ScansAs.cons {x : Lexeme} (hx : x.IsToken) (hshown : x.shown = x)
    (hblank : x.EndsBefore rest) (hrest : rest.ScansAs us) : (x.text ++ rest).ScansAs ([x] :: us) := by
  intro fuel offset hfuel
  obtain ⟨b, t, htext, -, -⟩ := hx.exists_text
  simp only [List.length_append, htext, List.length_cons] at hfuel
  obtain ⟨fuel, rfl⟩ : ∃ n, fuel = n + 1 := ⟨fuel - 1, by omega⟩
  obtain ⟨items, hscan, hwrite⟩ := hrest fuel (offset + x.text.length) (by omega)
  refine ⟨_, by rw [scanFrom_lexeme hx hblank, hscan]; rfl, ?_⟩
  rw [hshown]
  exact .one hwrite

/-- A mixed state name in front of a text that is scanned: its halves touch. -/
theorem Text.ScansAs.cons_mixed {w : Word} {t : Text} (hw : (Lexeme.word w).IsToken)
    (ht : (Lexeme.capital t).IsToken) (hblank : ∀ b ∈ rest.head?, isBlank b = true)
    (hrest : rest.ScansAs us) : (w.text ++ t ++ rest).ScansAs ([.word w, .capital t] :: us) := by
  intro fuel offset hfuel
  obtain ⟨b, u, hb, -, -⟩ := hw.exists_text
  obtain ⟨c, v, rfl, hc, hv⟩ := mem_enumIdentifier_iff.mp ht
  simp only [Lexeme.text] at hb
  simp only [List.length_append, hb, List.length_cons] at hfuel
  obtain ⟨fuel, rfl⟩ : ∃ n, fuel = n + 1 + 1 := ⟨fuel - 2, by omega⟩
  obtain ⟨items, hscan, hwrite⟩ :=
    hrest fuel (offset + w.text.length + (c :: v).length) (by omega)
  have hends : (Lexeme.word w).EndsBefore (c :: v ++ rest) := fun d hd => by
    obtain rfl : c = d := by simpa using hd
    exact ⟨not_isSmallBody_of_ends (.inr hc), not_isQuote_of_ends (.inr hc)⟩
  have hcapital := scanFrom_lexeme ht (.of_blank hblank) fuel (offset + w.text.length)
  have hword := scanFrom_lexeme hw hends (fuel + 1) offset
  simp only [Lexeme.text, Lexeme.shown_word, Lexeme.shown_capital] at hcapital hword
  rw [List.append_assoc, hword, hcapital, hscan]
  exact ⟨_, rfl, .two rfl hwrite⟩

/-- One token in front of a text that is scanned. -/
theorem Text.ScansAs.cons_leaf {l : Leaf} (h : l.IsToken)
    (hblank : ∀ b ∈ rest.head?, isBlank b = true) (hrest : rest.ScansAs us) :
    (l.text ++ rest).ScansAs (l.lexemes :: us) := by
  have hone : ∀ {x : Lexeme}, x.IsToken → x.shown = x → (x.text ++ rest).ScansAs ([x] :: us) :=
    fun hx hshown => hrest.cons hx hshown (.of_blank hblank)
  have hlexemes := h.lexemes
  cases l with
  | name n => exact hone (x := .word n) (hlexemes _ (by simp)) rfl
  | variant t => exact hone (x := .capital t) (hlexemes _ (by simp)) rfl
  | number t => exact hone (x := .number t) (hlexemes _ (by simp)) rfl
  | keyword k => exact hone (x := .kw k) (hlexemes _ (by simp)) rfl
  | symbol s => exact hone (x := .symbol s) (hlexemes _ (by simp)) rfl
  | state s =>
      cases s with
      | capital t => exact hone (x := .capital t) (hlexemes _ (by simp [StateName.lexemes])) rfl
      | small w => exact hone (x := .word w) (hlexemes _ (by simp [StateName.lexemes])) rfl
      | mixed w t =>
          exact hrest.cons_mixed (hlexemes _ (by simp [StateName.lexemes]))
            (hlexemes _ (by simp [StateName.lexemes])) hblank

theorem Leaf.head?_spaced (ls : List Leaf) : ∀ b ∈ (spaced ls).head?, isBlank b = true := by
  cases ls with
  | nil => simp [spaced]
  | cons l ls =>
      intro b hb
      obtain rfl : (32 : UInt8) = b := by simpa [spaced] using hb
      decide

theorem Leaf.spaced_scansAs {ls : List Leaf} (h : ∀ l ∈ ls, l.IsToken) :
    (spaced ls).ScansAs (ls.map Leaf.lexemes) := by
  induction ls with
  | nil => exact fun fuel offset _ => ⟨[], by unfold scanFrom; rfl, .nil⟩
  | cons l ls ih =>
      obtain ⟨hl, hls⟩ := List.forall_mem_cons.mp h
      intro fuel offset hfuel
      have hsplit : spaced (l :: ls) = 32 :: (l.text ++ spaced ls) := by simp [spaced]
      rw [hsplit, List.length_cons] at hfuel
      obtain ⟨fuel, rfl⟩ : ∃ n, fuel = n + 1 := ⟨fuel - 1, by omega⟩
      rw [hsplit, scanFrom, if_pos (by decide)]
      exact (ih hls).cons_leaf hl (head?_spaced ls) fuel (offset + 1) (by omega)

/-- Printed tokens are scanned as the lexemes that write them. -/
theorem Leaf.scan_printed {ls : List Leaf} (h : ∀ l ∈ ls, l.IsToken) :
    ∃ items, scan (printed ls) = some items ∧ Item.Write (ls.map Leaf.lexemes) items := by
  cases ls with
  | nil => exact ⟨[], by decide, .nil⟩
  | cons l ls =>
      obtain ⟨hl, hls⟩ := List.forall_mem_cons.mp h
      have hscans := (spaced_scansAs hls).cons_leaf hl (head?_spaced ls)
      rw [printed_cons]
      unfold scan
      rw [if_neg]
      · exact hscans _ _ (Nat.le_refl _)
      · intro hmark
        obtain ⟨u, hu⟩ := List.isPrefixOf_iff_prefix.mp hmark
        obtain ⟨x, xs, hx, htext⟩ : ∃ x xs, x ∈ l.lexemes ∧ l.text = x.text ++ xs := by
          rcases l.lexemes_cases with ⟨x, hx, htext⟩ | ⟨x, y, hxy, htext⟩
          · exact ⟨x, [], by simp [hx], by simp [htext]⟩
          · exact ⟨x, y.text, by simp [hxy], htext⟩
        obtain ⟨b, t, hb, -, hne⟩ := (hl.lexemes x hx).exists_text
        rw [htext, hb] at hu
        exact hne (by simpa [Text.leadingMark] using (List.cons.inj hu).1.symm)

end

/-! ## Layouts -/

/-- The layout has the lexemes of the units and no comments, and the lexemes of one unit touch. -/
structure Layout.Holds (l : Layout) (us : Units) : Prop where
  lexemes : l.lexemes = us.flatten
  slots : Slot.Hold us l.slots
  trailing : l.trailing = []

theorem Layout.holds_ofItems {us : Units} {items : List (Placed Item)} (h : Item.Write us items) :
    (ofItems items).Holds us := by
  induction h with
  | nil => exact ⟨rfl, .nil, rfl⟩
  | one _ ih => exact ⟨congrArg (_ :: ·) ih.lexemes, .one ih.slots, ih.trailing⟩
  | two htouch _ ih =>
      exact ⟨congrArg (_ :: _ :: ·) ih.lexemes, .two htouch ih.slots, ih.trailing⟩

theorem Layout.enumerationsWhole_of_comments {ws : List (Lexeme × Slot)}
    (h : ∀ w ∈ ws, w.2.comments = []) : enumerationsWhole ws = true := by
  fun_induction enumerationsWhole ws with
  | case1 t s s' rest ih =>
      obtain ⟨-, hrest⟩ := List.forall_mem_cons.mp h
      have hempty : s'.comments = [] := hrest (.symbol .bar, s') (by simp)
      simp [hempty, ih hrest]
  | case2 w rest _ ih => exact ih (List.forall_mem_cons.mp h).2
  | case3 => rfl

theorem Layout.Holds.enumerationsWhole {l : Layout} {us : Units} (h : l.Holds us) :
    Layout.enumerationsWhole l.written = true :=
  enumerationsWhole_of_comments fun w hw =>
    h.slots.comments_eq_nil w.2 (List.mem_map_of_mem hw)

end Heptagon
