import Heptagon.Proofs.Layout.Printing

/-!
# What an item depends on

An item does not depend on all that follows it.

* A comment ends at its own last byte (`Item.first?_comment_congr`).
* Every other item ends where the bytes behind it do not go on with it.  A
  blank or a parenthesis goes on with nothing, so it is the same item if the
  text behind it is changed from such a byte on
  (`Item.first?_lexeme_congr`).

Which bytes a comment may have is said by its pattern.  The scanner reads a
comment of the pattern as a whole, unless a byte of it is zero
(`Item.first?_of_spells`).
-/

namespace Heptagon

/-! ## What goes on with an item -/

/-- No lexeme goes on with the byte. -/
def breaksOff (b : UInt8) : Bool := isBlank b || b == 40 || b == 41

/-- Up to the first byte that goes on with no lexeme, the text is the beginning of another one. -/
def Text.Interrupts (rest rest' : Text) : Prop :=
  ∀ u, (∀ b ∈ u, breaksOff b = false) → u <+: rest' → u <+: rest

namespace Text.Interrupts

variable {rest rest' : Text}

/-- A text that starts with a break goes on with nothing. -/
theorem of_head (h : ∀ b ∈ rest'.head?, breaksOff b = true) : rest.Interrupts rest' := by
  intro u hu hprefix
  cases u with
  | nil => exact List.nil_prefix
  | cons b u =>
      obtain ⟨v, rfl⟩ := hprefix
      have hb := h b rfl
      simp [hu b] at hb

/-- Blanks in front of a text go on with nothing; if there are none, it is up to the text. -/
theorem append_blanks {w : Text} (hw : ∀ b ∈ w, isBlank b = true)
    (h : w = [] → rest.Interrupts rest') : rest.Interrupts (w ++ rest') := by
  cases w with
  | nil => exact h rfl
  | cons c w =>
      refine .of_head fun d hd => ?_
      obtain rfl := Option.some.inj hd
      simp [breaksOff, hw c (by simp)]

theorem append_left (h : rest.Interrupts rest') (t : Text) :
    Interrupts (t ++ rest) (t ++ rest') := by
  intro u hu hprefix
  rcases List.prefix_or_prefix_of_prefix hprefix (List.prefix_append t rest') with hut | htu
  · exact hut.trans (List.prefix_append t rest)
  · obtain ⟨v, rfl⟩ := htu
    have hv := h v (fun b hb => hu b (List.mem_append_right t hb))
      ((List.prefix_append_right_inj t).mp hprefix)
    exact (List.prefix_append_right_inj t).mpr hv

end Text.Interrupts

theorem breaksOff_eq_false_of_isWordBody {b : UInt8} (h : isWordBody b = true) :
    breaksOff b = false := by
  have hblank : isBlank b = false := by
    by_contra hb
    simp [not_isWordBody_of_isBlank (by simpa using hb)] at h
  have hparens : b ≠ 40 ∧ b ≠ 41 := by
    constructor <;> rintro rfl <;>
      simp [isWordBody, isSmallBody, isSmall, isDigit, isUnderscore, isCapital] at h
  simp [breaksOff, hblank, hparens]

theorem breaksOff_eq_false_of_isSmallBody {b : UInt8} (h : isSmallBody b = true) :
    breaksOff b = false :=
  breaksOff_eq_false_of_isWordBody (isWordBody_of_isSmallBody h)

theorem breaksOff_eq_false_of_isDigit {b : UInt8} (h : isDigit b = true) : breaksOff b = false :=
  breaksOff_eq_false_of_isSmallBody (by simp [isSmallBody, h])

theorem breaksOff_eq_false_of_isQuote {b : UInt8} (h : isQuote b = true) : breaksOff b = false := by
  obtain rfl : b = 39 := by simpa [isQuote] using h
  decide

namespace Text

/-- What ends before the one text, a stretch of some class or a number without a fraction, ends
before the other one. -/
structure EndsWords (rest rest' : Text) : Prop where
  stretch : ∀ p : UInt8 → Bool, (∀ b, p b = true → breaksOff b = false) →
    (∀ b ∈ rest.head?, p b = false) → ∀ b ∈ rest'.head?, p b = false
  fraction : (∀ d, [46, d] <+: rest → isDigit d = false) →
    ∀ d, [46, d] <+: rest' → isDigit d = false

/-- A symbol that ends before the one text ends before the other one, and a parenthesis that opens no
comment before the one opens none before the other. -/
structure EndsSymbols (rest rest' : Text) : Prop where
  symbol : ∀ s : Symbol, Symbol.first? (s.text ++ rest) = some s →
    Symbol.first? (s.text ++ rest') = some s
  star : rest'.head? = some 42 → rest.head? = some 42

variable {rest rest' : Text}

theorem Interrupts.endsWords (h : rest.Interrupts rest') : rest.EndsWords rest' where
  stretch p hp hrest b hb := by
    obtain ⟨v, rfl⟩ := List.head?_eq_some_iff.mp hb
    by_contra hpb
    have hpb : p b = true := by simpa using hpb
    obtain ⟨w, rfl⟩ := h [b] (by simpa using hp b hpb) ⟨v, rfl⟩
    simp [hrest b rfl] at hpb
  fraction hrest d hprefix := by
    by_contra hd
    have hd : isDigit d = true := by simpa using hd
    have hbytes : ∀ b ∈ [46, d], breaksOff b = false := by
      simp only [List.forall_mem_cons]
      exact ⟨by decide, breaksOff_eq_false_of_isDigit hd, by simp⟩
    simp [hrest d (h [46, d] hbytes hprefix)] at hd

end Text

/-- The longest stretch of a class has bytes of the class only. -/
theorem Text.forall_mem_takeWhile {p : UInt8 → Bool} (t : Text) : ∀ b ∈ t.takeWhile p, p b = true :=
  fun _ => List.mem_takeWhile_imp

/-- The first byte after the longest stretch of a class is not of the class. -/
theorem Text.head?_dropWhile {p : UInt8 → Bool} (t : Text) :
    ∀ b ∈ (t.dropWhile p).head?, p b = false := by
  intro b hb
  have := List.head?_dropWhile_not p t
  rw [Option.mem_def.mp hb] at this
  simpa using this

/-! ## One lexeme -/

section

variable {rest rest' : Text}

/-- Behind a symbol, a longer one does not become possible. -/
theorem Symbol.first?_congr {s : Symbol} (h : first? (s.text ++ rest) = some s)
    (hrest : ∀ u, (∀ b ∈ u, (breaksOff b || isWordBody b) = false) → u <+: rest' → u <+: rest) :
    first? (s.text ++ rest') = some s := by
  have hinner : ∀ s' ∈ all, s'.text.tail.all (fun b => !(breaksOff b || isWordBody b)) = true := by
    decide
  rw [first?, List.find?_eq_some_iff_append] at h ⊢
  obtain ⟨-, before, after, hall, hbefore⟩ := h
  refine ⟨by simp, before, after, hall, fun s' hs' => ?_⟩
  have hnot := hbefore s' hs'
  rw [Bool.not_eq_true', ← Bool.not_eq_true, List.isPrefixOf_iff_prefix] at hnot ⊢
  intro hprefix
  apply hnot
  -- the longer symbol goes on into what follows, with bytes that are no breaks
  rcases List.prefix_or_prefix_of_prefix hprefix (List.prefix_append s.text rest') with hshort | hlong
  · exact hshort.trans (List.prefix_append _ _)
  · obtain ⟨u, hu⟩ := hlong
    rw [← hu] at hprefix ⊢
    refine (List.prefix_append_right_inj _).mpr
      (hrest u (fun b hb => ?_) ((List.prefix_append_right_inj _).mp hprefix))
    have htail : b ∈ s'.text.tail := by
      obtain ⟨c, t, htext, -⟩ := Item.exists_text_symbol s
      rw [← hu, htext]
      exact List.mem_append_right t hb
    simpa using List.all_eq_true.mp (hinner s' s'.mem_all) b htail

namespace Text

theorem EndsSymbols.of_starts
    (h : ∀ u, (∀ b ∈ u, (breaksOff b || isWordBody b) = false) → u <+: rest' → u <+: rest) :
    rest.EndsSymbols rest' where
  symbol _ hs := Symbol.first?_congr hs h
  star hhead := by
    obtain ⟨v, hv⟩ := List.head?_eq_some_iff.mp hhead
    obtain ⟨w, rfl⟩ := h [42] (by decide +kernel) ⟨v, hv.symm⟩
    rfl

theorem Interrupts.endsSymbols (h : rest.Interrupts rest') : rest.EndsSymbols rest' :=
  .of_starts fun u hu => h u fun b hb => (Bool.or_eq_false_iff.mp (hu b hb)).1

end Text

namespace Item

/-- A word takes its quotes if its other bytes end before them. -/
theorem word_append {body quotes : Text} (hbody : ∀ b ∈ body, isSmallBody b = true)
    (hquotes : ∀ b ∈ quotes, isQuote b = true) (hrest : ∀ b ∈ rest.head?, isQuote b = false)
    (hends : quotes = [] → ∀ b ∈ rest.head?, isSmallBody b = false) :
    word (body ++ quotes ++ rest) =
      (.lexeme (.word (.ofText (body ++ quotes))), body ++ quotes, rest) := by
  have hquote : ∀ b ∈ (quotes ++ rest).head?, isSmallBody b = false := by
    intro b hb
    cases quotes with
    | nil => exact hends rfl b hb
    | cons q quotes =>
        obtain rfl : q = b := by simpa using hb
        exact not_isSmallBody_of_isQuote (hquotes q (by simp))
  rw [List.append_assoc, word, Text.spanOf_append hbody hquote]
  simp only [Text.spanOf_append hquotes hrest]

theorem word_congr {t : Text} (hrest : Text.EndsWords (word t).2.2 rest') :
    word ((word t).2.1 ++ rest') = ((word t).1, (word t).2.1, rest') := by
  refine word_append (Text.forall_mem_takeWhile t) (Text.forall_mem_takeWhile _)
    (hrest.stretch _ (fun _ => breaksOff_eq_false_of_isQuote) (Text.head?_dropWhile _)) ?_
  intro hquotes
  refine hrest.stretch _ (fun _ => breaksOff_eq_false_of_isSmallBody) ?_
  have hnone : (t.dropWhile isSmallBody).dropWhile isQuote = t.dropWhile isSmallBody := by
    have hsplit := List.takeWhile_append_dropWhile (p := isQuote) (l := t.dropWhile isSmallBody)
    rwa [hquotes, List.nil_append] at hsplit
  show ∀ b ∈ ((t.dropWhile isSmallBody).dropWhile isQuote).head?, isSmallBody b = false
  rw [hnone]
  exact Text.head?_dropWhile t

theorem capital_congr {t : Text} (hrest : Text.EndsWords (capital t).2.2 rest') :
    capital ((capital t).2.1 ++ rest') = ((capital t).1, (capital t).2.1, rest') := by
  have hends := hrest.stretch _ (fun _ => breaksOff_eq_false_of_isWordBody) (Text.head?_dropWhile t)
  have hspan := Text.spanOf_append (Text.forall_mem_takeWhile t) hends
  show capital (t.takeWhile isWordBody ++ rest') = _
  rw [capital, hspan]
  rfl

/-- A number is whole, or a point and a digit follow its first digits. -/
theorem number_cases (t : Text) :
    (number t = (.lexeme (.number (t.takeWhile isDigit)), t.takeWhile isDigit,
        t.dropWhile isDigit) ∧ ∀ d, [46, d] <+: t.dropWhile isDigit → isDigit d = false) ∨
      ∃ d v, isDigit d = true ∧ (∀ c ∈ d :: v, isDigit c = true) ∧
        (number t).1 = .lexeme (.number (t.takeWhile isDigit ++ 46 :: d :: v)) ∧
        (number t).2.1 = t.takeWhile isDigit ++ 46 :: d :: v ∧
        ∀ c ∈ (number t).2.2.head?, isDigit c = false := by
  unfold number
  simp only [Text.spanOf]
  split
  · next d more heq =>
      split
      · next hd =>
          have htake : (d :: more).takeWhile isDigit = d :: more.takeWhile isDigit := by simp [hd]
          refine .inr ⟨d, more.takeWhile isDigit, hd, ?_, by rw [htake], by rw [htake],
            Text.head?_dropWhile _⟩
          exact List.forall_mem_cons.mpr ⟨hd, Text.forall_mem_takeWhile more⟩
      · next hd =>
          refine .inl ⟨rfl, fun e he => ?_⟩
          obtain ⟨u, hu⟩ := he
          rw [heq] at hu
          obtain ⟨rfl, -⟩ : e = d ∧ u = more := by simpa using hu
          simpa using hd
  · next hnone =>
      refine .inl ⟨rfl, fun d hd => ?_⟩
      obtain ⟨u, hu⟩ := hd
      exact absurd hu.symm (hnone d u)

theorem number_congr {t : Text} (hrest : Text.EndsWords (number t).2.2 rest') :
    number ((number t).2.1 ++ rest') = ((number t).1, (number t).2.1, rest') := by
  have hwhole := Text.forall_mem_takeWhile (p := isDigit) t
  have hdigit : ∀ b, isDigit b = true → breaksOff b = false := fun _ =>
    breaksOff_eq_false_of_isDigit
  rcases number_cases t with ⟨heq, hfraction⟩ | ⟨d, v, hd, hv, hitem, htaken, hends⟩
  · rw [heq] at hrest ⊢
    exact number_eq_whole hwhole (hrest.stretch _ hdigit (Text.head?_dropWhile t))
      (hrest.fraction hfraction)
  · rw [hitem, htaken]
    exact number_eq_fraction hwhole hd hv (hrest.stretch _ hdigit hends)

/-- The scanner sets no parenthesis apart. -/
theorem shown_of_first? {l : Lexeme} {t taken : Text}
    (h : first? t = some (.lexeme l, taken, rest)) : l.shown = l := by
  unfold first? at h
  split at h
  · simp at h
  · obtain ⟨⟨body, after⟩, -, heq⟩ := Option.map_eq_some_iff.mp h
    simp at heq
  · next b us _ =>
      split at h
      · obtain ⟨rfl, -⟩ := by simpa [word] using h
        rfl
      · split at h
        · obtain ⟨rfl, -⟩ := by simpa [capital] using h
          rfl
        · split at h
          · have hitem := congrArg Prod.fst (Option.some.inj h)
            rcases number_cases (b :: us) with ⟨heq, -⟩ | ⟨d, v, -, -, heq, -⟩ <;>
            · obtain rfl : _ = l := by simpa [heq] using hitem
              rfl
          · obtain ⟨s, -, heq⟩ := Option.map_eq_some_iff.mp h
            obtain ⟨rfl, -⟩ := by simpa using heq
            rfl

theorem first?_of_isSmall {b : UInt8} {t : Text} (hb : isSmall b = true) :
    first? (b :: t) = some (word (b :: t)) := by
  have hparen : b ≠ 40 := by
    rintro rfl
    simp [isSmall] at hb
  rw [first?_cons fun h => absurd h hparen, if_pos hb]

theorem first?_of_isCapital {b : UInt8} {t : Text} (hb : isCapital b = true) :
    first? (b :: t) = some (capital (b :: t)) := by
  have hparen : b ≠ 40 := by
    rintro rfl
    simp [isCapital] at hb
  rw [first?_cons fun h => absurd h hparen, if_neg (by simp [(not_isBlank_of_isCapital hb).2]),
    if_pos hb]

/-- A text is that of a symbol if it starts with no other item. -/
theorem first?_of_not {b : UInt8} {t : Text} (hsmall : isSmall b = false)
    (hcapital : isCapital b = false) (hdigit : isDigit b = false)
    (hcomment : b = 40 → t.head? ≠ some 42) : first? (b :: t) = symbol? (b :: t) := by
  rw [first?_cons hcomment, if_neg (by simp [hsmall]), if_neg (by simp [hcapital]),
    if_neg (by simp [hdigit])]

/-- A parenthesis that opens no comment opens none before a text that a symbol ends before. -/
theorem head?_ne_star_congr {b : UInt8} {t u : Text} (hsplit : b :: t = b :: u ++ rest)
    (hempty : b = 40 → u = []) (hcomment : b = 40 → t.head? ≠ some 42)
    (hrest : rest.EndsSymbols rest') : b = 40 → (u ++ rest').head? ≠ some 42 := by
  intro hb hhead
  rw [hempty hb, List.nil_append] at hhead
  refine hcomment hb ?_
  rw [(List.cons.inj hsplit).2, hempty hb]
  exact hrest.star hhead

/-- A lexeme stays the same before another text that it ends before. -/
theorem first?_lexeme_of_ends {l : Lexeme} {t taken : Text}
    (h : first? t = some (.lexeme l, taken, rest))
    (hwords : (∀ s, l ≠ .symbol s) → rest.EndsWords rest') (hsymbols : rest.EndsSymbols rest') :
    first? (taken ++ rest') = some (.lexeme l, taken, rest') := by
  obtain ⟨happend, hne, -⟩ := takes_of_first? h
  obtain ⟨b, u, rfl⟩ := List.exists_cons_of_ne_nil hne
  rw [happend, List.cons_append] at h
  rw [List.cons_append]
  -- the first byte says which reader takes the lexeme, and it is the same in both texts
  by_cases hsmall : isSmall b = true
  · rw [first?_of_isSmall hsmall, Option.some.injEq] at h ⊢
    have hends : rest.EndsWords rest' := by
      refine hwords fun s hs => ?_
      subst hs
      simpa [word] using congrArg Prod.fst h
    have := word_congr (t := b :: (u ++ rest)) (by rwa [h])
    rwa [h] at this
  by_cases hcapital : isCapital b = true
  · rw [first?_of_isCapital hcapital, Option.some.injEq] at h ⊢
    have hends : rest.EndsWords rest' := by
      refine hwords fun s hs => ?_
      subst hs
      simpa [capital] using congrArg Prod.fst h
    have := capital_congr (t := b :: (u ++ rest)) (by rwa [h])
    rwa [h] at this
  by_cases hdigit : isDigit b = true
  · rw [first?_of_isDigit hdigit, Option.some.injEq] at h ⊢
    have hends : rest.EndsWords rest' := by
      refine hwords fun s hs => ?_
      subst hs
      have hitem := congrArg Prod.fst h
      rcases number_cases (b :: (u ++ rest)) with ⟨heq, -⟩ | ⟨d, v, -, -, heq, -⟩ <;>
        simp [heq] at hitem
    have := number_congr (t := b :: (u ++ rest)) (by rwa [h])
    rwa [h] at this
  -- what is left is a symbol, and neither text has a comment at its front
  have hcomment : b = 40 → (u ++ rest).head? ≠ some 42 := by
    rintro rfl hhead
    obtain ⟨v, hv⟩ := List.head?_eq_some_iff.mp hhead
    simp [hv, first?] at h
  simp only [Bool.not_eq_true] at hsmall hcapital hdigit
  rw [first?_of_not hsmall hcapital hdigit hcomment] at h
  obtain ⟨s, hs, heq⟩ := Option.map_eq_some_iff.mp h
  obtain ⟨hl, htext, -⟩ := by simpa using heq
  have hparen : b = 40 → u = [] := by
    obtain ⟨c, v, hc, -, -, -, -, hparen⟩ := exists_text_symbol s
    rw [hc] at htext
    obtain ⟨rfl, rfl⟩ := List.cons.inj htext
    exact hparen
  rw [first?_of_not hsmall hcapital hdigit (head?_ne_star_congr rfl hparen hcomment hsymbols)]
  rw [← List.cons_append, ← htext] at hs ⊢
  simp [symbol?, hsymbols.symbol s hs, hl]

/-- A lexeme stays the same if the text behind it is changed from a break on. -/
theorem first?_lexeme_congr {l : Lexeme} {t taken : Text}
    (h : first? t = some (.lexeme l, taken, rest)) (hrest : rest.Interrupts rest') :
    first? (taken ++ rest') = some (.lexeme l, taken, rest') :=
  first?_lexeme_of_ends h (fun _ => hrest.endsWords) hrest.endsSymbols

end Item

end

/-! ## One comment -/

open Computability

namespace Comment

/-- A byte before the end of a comment. -/
theorem close?_cons {b : UInt8} {t : Text} (hzero : b ≠ 0) (hend : b = 42 → t.head? ≠ some 41) :
    close? (b :: t) = (close? t).map fun (body, rest) => (b :: body, rest) := by
  refine close?.eq_4 b t hzero ?_
  rintro rest rfl rfl
  simp at hend

/-- A comment does not depend on what follows it. -/
theorem close?_congr {t body rest : Text} (h : close? t = some (body, rest)) (rest' : Text) :
    close? (body ++ rest') = some (body, rest') := by
  fun_induction close? t generalizing body with
  | case1 => simp at h
  | case2 => simp at h
  | case3 after =>
      obtain ⟨rfl, -⟩ := by simpa using h
      rfl
  | case4 b t hzero hend ih =>
      obtain ⟨⟨body', rest''⟩, hclose, heq⟩ := Option.map_eq_some_iff.mp h
      obtain ⟨rfl, rfl⟩ := by simpa using heq
      rw [List.cons_append, close?_cons hzero ?_, ih hclose]
      · rfl
      · rintro rfl hhead
        obtain ⟨c, cs, rfl⟩ : ∃ c cs, body' = c :: cs := by
          cases body' with
          | nil =>
              obtain ⟨_, _, _, _, _, _, hnil⟩ := closes_of_close? hclose
              simp at hnil
          | cons c cs => exact ⟨c, cs, rfl⟩
        obtain rfl : c = 41 := by simpa using hhead
        exact hend _ rfl (append_of_close? hclose)

/-- A byte is zero in no comment. -/
theorem forall_ne_zero_of_close? {t body rest : Text} (h : close? t = some (body, rest)) :
    ∀ b ∈ body, b ≠ 0 := by
  fun_induction close? t generalizing body with
  | case1 => simp at h
  | case2 => simp at h
  | case3 after =>
      obtain ⟨rfl, -⟩ := by simpa using h
      decide +kernel
  | case4 b t hzero _ ih =>
      obtain ⟨⟨body', rest''⟩, hclose, heq⟩ := Option.map_eq_some_iff.mp h
      obtain ⟨rfl, rfl⟩ := by simpa using heq
      exact List.forall_mem_cons.mpr ⟨hzero, ih hclose⟩

/-- Bytes that are not stars do not close a comment. -/
theorem close?_append {free t : Text} (h : ∀ b ∈ free, b ≠ 42 ∧ b ≠ 0) :
    close? (free ++ t) = (close? t).map fun (body, rest) => (free ++ body, rest) := by
  induction free with
  | nil => simp
  | cons b free ih =>
      obtain ⟨⟨hstar, hzero⟩, hfree⟩ := List.forall_mem_cons.mp h
      rw [List.cons_append, close?_cons hzero fun hb => absurd hb hstar, ih hfree, Option.map_map]
      rfl

/-- Stars do not close a comment if no parenthesis follows. -/
theorem close?_stars {stars t : Text} (h : ∀ b ∈ stars, b = 42) (ht : t.head? ≠ some 41) :
    close? (stars ++ t) = (close? t).map fun (body, rest) => (stars ++ body, rest) := by
  induction stars with
  | nil => simp
  | cons b stars ih =>
      obtain ⟨rfl, hstars⟩ := List.forall_mem_cons.mp h
      rw [List.cons_append, close?_cons (by decide), ih hstars, Option.map_map]
      · rfl
      · intro _ hhead
        cases stars with
        | nil => exact ht hhead
        | cons c stars =>
            obtain ⟨rfl, -⟩ := List.forall_mem_cons.mp hstars
            simp at hhead

/-- Stars and what may come between them, up to the end. -/
theorem close?_more {stars more rest : Text} (hstars : stars ∈ Pattern.someBytes (· == 42))
    (hmore : more ∈ (Pattern.byte (fun b => b != 41 && b != 42) * Pattern.bytes (· != 42) *
      Pattern.someBytes (· == 42))∗) (hzero : ∀ b ∈ more, b ≠ 0) :
    close? (stars ++ (more ++ 41 :: rest)) = some (stars ++ (more ++ [41]), rest) := by
  have hall : ∀ {us : Text}, us ∈ Pattern.someBytes (· == 42) → ∀ b ∈ us, b = 42 := by
    intro us hus
    obtain ⟨_, ⟨b, hb, rfl⟩, t, ht, rfl⟩ := Language.mem_mul.mp hus
    intro c hc
    rcases List.mem_append.mp hc with hc | hc
    · obtain rfl := List.mem_singleton.mp hc
      simpa using hb
    · simpa using Pattern.mem_bytes_iff.mp ht c hc
  obtain ⟨tss, rfl, htss⟩ := Language.mem_kstar.mp hmore
  clear hmore
  induction tss generalizing stars with
  | nil =>
      -- the last star closes the comment
      obtain ⟨front, rfl⟩ : ∃ front, stars = front ++ [42] := by
        obtain ⟨front, b, rfl⟩ := List.eq_nil_or_concat' stars |>.resolve_left (by
          rintro rfl
          obtain ⟨_, ⟨b, -, rfl⟩, t, -, ht⟩ := Language.mem_mul.mp hstars
          simp at ht)
        obtain rfl : b = 42 := hall hstars b (by simp)
        exact ⟨front, rfl⟩
      have hfront : ∀ b ∈ front, b = 42 := fun b hb =>
        hall hstars b (List.mem_append_left _ hb)
      have hclose : close? (42 :: 41 :: rest) = some ([42, 41], rest) := rfl
      simp [close?_stars (t := 42 :: 41 :: rest) hfront (by simp), hclose]
  | cons ts tss ih =>
      obtain ⟨hts, hothers⟩ := List.forall_mem_cons.mp htss
      obtain ⟨_, hfront, stars', hstars', rfl⟩ := Language.mem_mul.mp hts
      obtain ⟨_, ⟨b, hb, rfl⟩, free, hfree, rfl⟩ := Language.mem_mul.mp hfront
      obtain ⟨hparen, hstar⟩ : b ≠ 41 ∧ b ≠ 42 := by simpa using hb
      simp only [List.flatten_cons, List.forall_mem_append] at hzero
      obtain ⟨⟨⟨hzerob, hzerofree⟩, -⟩, hzero⟩ := hzero
      have hrest := ih hstars' hothers hzero
      have hbytes : ∀ c ∈ b :: free, c ≠ 42 ∧ c ≠ 0 := by
        refine List.forall_mem_cons.mpr ⟨⟨hstar, hzerob b (by simp)⟩, fun c hc => ?_⟩
        exact ⟨by simpa using Pattern.mem_bytes_iff.mp hfree c hc, hzerofree c hc⟩
      have hsplit : stars ++ ((([b] ++ free ++ stars') :: tss).flatten ++ 41 :: rest) =
          stars ++ (b :: free ++ (stars' ++ (tss.flatten ++ 41 :: rest))) := by simp
      rw [hsplit, close?_stars (hall hstars) (by simpa using hparen), close?_append hbytes, hrest]
      simp

/-- A comment is read from its own bytes if none is zero. -/
theorem close?_of_closes {body : Text} (h : Closes body) (hzero : ∀ b ∈ body, b ≠ 0) (rest : Text) :
    close? (body ++ rest) = some (body, rest) := by
  obtain ⟨free, stars, more, hfree, hstars, hmore, rfl⟩ := h
  simp only [List.forall_mem_append] at hzero
  have hbytes : ∀ b ∈ free, b ≠ 42 ∧ b ≠ 0 := fun b hb => ⟨by simpa using hfree b hb, hzero.1 b hb⟩
  have hsplit : free ++ (stars ++ (more ++ [41])) ++ rest =
      free ++ (stars ++ (more ++ 41 :: rest)) := by simp
  rw [hsplit, close?_append hbytes]
  simp only [close?_more hstars hmore hzero.2.2.1, Option.map_some]

/-- A comment is its opening bytes and what closes it. -/
theorem Spells.exists_closes {c : Text} (h : Spells c) :
    ∃ body, c = 40 :: 42 :: body ∧ Closes body := by
  obtain ⟨opened, hopened, _, rfl, rfl⟩ := Language.mem_mul.mp h
  obtain ⟨starred, hstarred, more, hmore, rfl⟩ := Language.mem_mul.mp hopened
  obtain ⟨front, hfront, stars, hstars, rfl⟩ := Language.mem_mul.mp hstarred
  obtain ⟨_, rfl, free, hfree, rfl⟩ := Language.mem_mul.mp hfront
  have hopen : Text.ofString "(*" = [40, 42] := by decide
  have hclose : Text.ofString ")" = [41] := by decide
  exact ⟨free ++ (stars ++ (more ++ [41])), by simp [hopen, hclose],
    free, stars, more, Pattern.mem_bytes_iff.mp hfree, hstars, hmore, rfl⟩

end Comment

namespace Item

theorem number_ne_comment (t : Text) : (number t).1 ≠ .comment := by
  rcases number_cases t with ⟨heq, -⟩ | ⟨d, v, -, -, hitem, -⟩
  · simp [heq]
  · simp [hitem]

/-- Only the opening bytes of a comment start one. -/
theorem exists_close?_of_first? {t taken rest : Text}
    (h : first? t = some (.comment, taken, rest)) :
    ∃ us body, t = 40 :: 42 :: us ∧ Comment.close? us = some (body, rest) ∧
      taken = 40 :: 42 :: body := by
  unfold first? at h
  split at h
  · simp at h
  · next us =>
      obtain ⟨⟨body, after⟩, hclose, heq⟩ := Option.map_eq_some_iff.mp h
      obtain ⟨rfl, rfl⟩ := by simpa using heq
      exact ⟨us, body, rfl, hclose, rfl⟩
  · split at h
    · simp [word] at h
    · split at h
      · simp [capital] at h
      · split at h
        · exact absurd (congrArg Prod.fst (Option.some.inj h)) (number_ne_comment _)
        · simp [symbol?] at h

/-- A comment is the same item whatever follows it. -/
theorem first?_comment_congr {t taken rest : Text} (h : first? t = some (.comment, taken, rest))
    (rest' : Text) : first? (taken ++ rest') = some (.comment, taken, rest') := by
  obtain ⟨us, body, -, hclose, rfl⟩ := exists_close?_of_first? h
  simp [first?, Comment.close?_congr hclose rest']

/-- An item stays the same if the text behind it is changed from a break on. -/
theorem first?_congr {t taken rest rest' : Text} {item : Item}
    (h : first? t = some (item, taken, rest)) (hrest : rest.Interrupts rest') :
    first? (taken ++ rest') = some (item, taken, rest') := by
  cases item with
  | lexeme l => exact first?_lexeme_congr h hrest
  | comment => exact first?_comment_congr h rest'

theorem first?_of_spells {c : Text} (h : Comment.Spells c) (hzero : ∀ b ∈ c, b ≠ 0) (rest : Text) :
    first? (c ++ rest) = some (.comment, c, rest) := by
  obtain ⟨body, rfl, hcloses⟩ := h.exists_closes
  have hbody : ∀ b ∈ body, b ≠ 0 := fun b hb => hzero b (by simp [hb])
  simp [first?, Comment.close?_of_closes hcloses hbody rest]

end Item

end Heptagon
