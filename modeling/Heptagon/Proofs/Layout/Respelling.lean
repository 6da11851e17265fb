import Heptagon.Proofs.Layout.Respacing

/-!
# Scanning a text with a token in another spelling

A name or number is spelled anew by putting another text in its place.  If no
byte of a name stands directly before it or behind it, and no point behind a
number, the other items stay the same and move with the text behind
(`scan_respelled`).

1. The token has lexemes of its own in the new text (`Text.Scans.leaf`).
2. The items before it stay because the new text starts like the old one, with a
   letter or with a digit (`Item.first?_lexeme_of_startsLike`).  A word or number
   that touched the token would have gone on with it, so only a symbol or comment
   does, and these do not go on with letters and digits.
3. The items behind it are scanned as before, from another offset on.
-/

namespace Heptagon

/-- The byte belongs to a word or number; a quote may end a word. -/
def isNameByte (b : UInt8) : Bool := isWordBody b || isQuote b

theorem isNameByte_of_isWordBody {b : UInt8} (h : isWordBody b = true) : isNameByte b = true := by
  simp [isNameByte, h]

theorem not_isNameByte {b : UInt8} (h : isNameByte b = false) : isWordBody b = false ∧
    isSmallBody b = false ∧ isDigit b = false ∧ isQuote b = false := by
  obtain ⟨hbody, hquote⟩ := Bool.or_eq_false_iff.mp h
  obtain ⟨hsmall, -⟩ := Bool.or_eq_false_iff.mp hbody
  obtain ⟨hstart, -⟩ := Bool.or_eq_false_iff.mp hsmall
  exact ⟨hbody, hsmall, (Bool.or_eq_false_iff.mp hstart).2, hquote⟩

theorem isWordBody_of_isDigit {b : UInt8} (h : isDigit b = true) : isWordBody b = true :=
  isWordBody_of_isSmallBody (by simp [isSmallBody, h])

/-- A letter is no digit. -/
theorem not_isDigit_of_isLetter {b : UInt8} (h : (isSmall b || isCapital b) = true) :
    isDigit b = false := by
  rw [← Bool.not_eq_true, isDigit_iff]
  rw [Bool.or_eq_true, isSmall_iff, isCapital_iff] at h
  omega

theorem isWordBody_of_isLetter {b : UInt8} (h : (isSmall b || isCapital b) = true) :
    isWordBody b = true := by
  rcases Bool.or_eq_true_iff.mp h with h | h
  · exact isWordBody_of_isSmallBody (by simp [isSmallBody, h])
  · exact isWordBody_of_isCapital h

/-- Two texts both start with a letter or both with a digit. -/
inductive Text.StartsLike : Text → Text → Prop
  | letter {b b' : UInt8} (t t' : Text) (hb : (isSmall b || isCapital b) = true)
      (hb' : (isSmall b' || isCapital b') = true) : StartsLike (b :: t) (b' :: t')
  | digit {b b' : UInt8} (t t' : Text) (hb : isDigit b = true) (hb' : isDigit b' = true) :
      StartsLike (b :: t) (b' :: t')

namespace Text.StartsLike

variable {rest rest' : Text}

theorem append (h : rest.StartsLike rest') (u u' : Text) :
    Text.StartsLike (rest ++ u) (rest' ++ u') := by
  cases h with
  | letter t t' hb hb' => exact .letter (t ++ u) (t' ++ u') hb hb'
  | digit t t' hb hb' => exact .digit (t ++ u) (t' ++ u') hb hb'

theorem exists_cons (h : rest.StartsLike rest') :
    ∃ b b' t t', rest = b :: t ∧ rest' = b' :: t' ∧ isWordBody b' = true ∧
      (isDigit b' = true → isDigit b = true) := by
  cases h with
  | letter t t' hb hb' =>
      exact ⟨_, _, t, t', rfl, rfl, isWordBody_of_isLetter hb', fun h => by
        simp [not_isDigit_of_isLetter hb'] at h⟩
  | digit t t' hb hb' => exact ⟨_, _, t, t', rfl, rfl, isWordBody_of_isDigit hb', fun _ => hb⟩

/-- Symbols do not go on with letters and digits. -/
theorem endsSymbols (h : rest.StartsLike rest') (u : Text) :
    Text.EndsSymbols (u ++ rest) (u ++ rest') := by
  obtain ⟨b, b', t, t', rfl, rfl, hb', -⟩ := h.exists_cons
  refine .of_starts fun v hv hprefix => ?_
  rcases List.prefix_or_prefix_of_prefix hprefix (List.prefix_append u (b' :: t')) with hvu | huv
  · exact hvu.trans (List.prefix_append u _)
  · obtain ⟨w, rfl⟩ := huv
    cases w with
    | nil => simp
    | cons c w =>
        obtain ⟨rfl, -⟩ := List.cons_prefix_cons.mp ((List.prefix_append_right_inj u).mp hprefix)
        simpa [hb'] using hv c (by simp)

/-- A word or number that is behind some bytes does not matter to one before these bytes. -/
theorem endsWords (h : rest.StartsLike rest') (c : UInt8) (u : Text) :
    Text.EndsWords (c :: u ++ rest) (c :: u ++ rest') where
  stretch p _ hrest b hb := hrest b hb
  fraction hrest d hd := by
    obtain ⟨b, b', t, t', rfl, rfl, -, hdigit⟩ := h.exists_cons
    obtain ⟨hc, hmore⟩ := List.cons_prefix_cons.mp hd
    subst hc
    cases u with
    | nil =>
        obtain ⟨rfl, -⟩ := List.cons_prefix_cons.mp hmore
        have hb := hrest b (by simp)
        by_contra hb'
        simp [hdigit (by simpa using hb')] at hb
    | cons e u =>
        obtain ⟨rfl, -⟩ := List.cons_prefix_cons.mp hmore
        exact hrest d (by simp)

end Text.StartsLike

/-- All tokens of a class start with a letter, or all with a digit. -/
theorem Text.startsLike_of_mem {c : TokenClass} (hc : c ≠ .comment) {t t' : Text}
    (ht : t ∈ c.pattern) (ht' : t' ∈ c.pattern) : t.StartsLike t' := by
  cases c with
  | comment => exact absurd rfl hc
  | identifier =>
      obtain ⟨b, u, quotes, rfl, hb, -⟩ := mem_identifier_iff.mp ht
      obtain ⟨b', u', quotes', rfl, hb', -⟩ := mem_identifier_iff.mp ht'
      exact .letter _ _ (by simp [hb]) (by simp [hb'])
  | enumIdentifier =>
      obtain ⟨b, u, rfl, hb, -⟩ := mem_enumIdentifier_iff.mp ht
      obtain ⟨b', u', rfl, hb', -⟩ := mem_enumIdentifier_iff.mp ht'
      exact .letter u u' (by simp [hb]) (by simp [hb'])
  | stateIdentifier =>
      obtain ⟨b, u, rfl, hb, -⟩ := mem_stateIdentifier_iff.mp ht
      obtain ⟨b', u', rfl, hb', -⟩ := mem_stateIdentifier_iff.mp ht'
      exact .letter u u' hb hb'
  | lNumber =>
      have hdigit : ∀ {t : Text}, t ∈ TokenClass.lNumber.pattern →
          ∃ b u, t = b :: u ∧ isDigit b = true := by
        intro t ht
        obtain ⟨b, u, hb, -, rfl | ⟨d, v, -, -, rfl⟩⟩ := mem_lNumber_iff.mp ht <;>
          exact ⟨b, _, rfl, hb⟩
      obtain ⟨b, u, rfl, hb⟩ := hdigit ht
      obtain ⟨b', u', rfl, hb'⟩ := hdigit ht'
      exact .digit u u' hb hb'

/-! ## Lexemes -/

/-- The last byte of a word or number is one of a name. -/
theorem Lexeme.IsToken.getLast?_text {x : Lexeme} (h : x.IsToken)
    (hsymbol : ∀ s, x.shown ≠ .symbol s) : ∃ b ∈ x.text.getLast?, isNameByte b = true := by
  have hlast : ∀ {b : UInt8} {t : Text}, (∀ c ∈ b :: t, isNameByte c = true) → ∀ u : Text,
      ∃ c ∈ (u ++ b :: t).getLast?, isNameByte c = true := by
    intro b t ht u
    rw [List.getLast?_append_of_ne_nil _ (List.cons_ne_nil b t)]
    exact ⟨_, List.getLast?_eq_some_getLast (List.cons_ne_nil b t), ht _ (List.getLast_mem _)⟩
  have hdigits : ∀ {b : UInt8} {t : Text}, isDigit b = true → (∀ c ∈ t, isDigit c = true) →
      ∀ c ∈ b :: t, isNameByte c = true := fun {b t} hb ht c hc => by
    have hall : ∀ c ∈ b :: t, isDigit c = true := List.forall_mem_cons.mpr ⟨hb, ht⟩
    exact isNameByte_of_isWordBody (isWordBody_of_isDigit (hall c hc))
  cases x with
  | word w =>
      obtain ⟨b, t, quotes, htext, hb, ht, hquotes⟩ := mem_identifier_iff.mp h.2
      show ∃ c ∈ w.text.getLast?, isNameByte c = true
      rw [htext, List.cons_append]
      refine hlast (List.forall_mem_cons.mpr ⟨?_, fun c hc => ?_⟩) []
      · exact isNameByte_of_isWordBody (isWordBody_of_isLetter (by simp [hb]))
      · rcases List.mem_append.mp hc with hc | hc
        · exact isNameByte_of_isWordBody (isWordBody_of_isSmallBody (ht c hc))
        · simp [isNameByte, hquotes c hc]
  | capital t =>
      obtain ⟨b, u, rfl, hb, hu⟩ := mem_enumIdentifier_iff.mp h
      refine hlast (List.forall_mem_cons.mpr ⟨?_, fun c hc => ?_⟩) []
      · exact isNameByte_of_isWordBody (isWordBody_of_isCapital hb)
      · exact isNameByte_of_isWordBody (hu c hc)
  | number t =>
      obtain ⟨b, u, hb, hu, rfl | ⟨d, v, hd, hv, rfl⟩⟩ := mem_lNumber_iff.mp h
      · exact hlast (hdigits hb hu) []
      · have hfraction := hlast (hdigits hd hv) (b :: u ++ [46])
        rwa [List.append_assoc] at hfraction
  | symbol s => exact absurd rfl (hsymbol s)
  | apart => exact absurd rfl (hsymbol .parenOpen)

/-- A lexeme stays the same if a text behind it starts as before, unless it would go on into that
text. -/
theorem Item.first?_lexeme_of_startsLike {x : Lexeme} {taken u rest rest' : Text}
    (h : first? (taken ++ (u ++ rest)) = some (.lexeme x, taken, u ++ rest))
    (hrest : rest.StartsLike rest')
    (hlast : u = [] → ∀ b ∈ taken.getLast?, isNameByte b = false) :
    first? (taken ++ (u ++ rest')) = some (.lexeme x, taken, u ++ rest') := by
  refine first?_lexeme_of_ends h (fun hsymbol => ?_) (hrest.endsSymbols u)
  cases u with
  | cons c u => exact hrest.endsWords c u
  | nil =>
      -- a word or number that touches the changed text ends with a byte of a name
      obtain ⟨-, -, hx, htoken⟩ := takes_of_first? h
      obtain ⟨c, hc, hname⟩ := htoken.getLast?_text fun s => by
        rw [shown_of_first? h]
        exact hsymbol s
      rw [hx] at hc
      simp [hlast rfl c hc] at hname

/-- The items that lexemes are scanned as if they touch, from an offset on. -/
def Lexeme.items : (offset : Nat) → List Lexeme → List (Placed Item)
  | _, [] => []
  | offset, x :: xs =>
    ⟨.lexeme x, ⟨offset, offset + x.text.length⟩⟩ :: items (offset + x.text.length) xs

/-- The text that follows does not go on with the token. -/
def Leaf.EndsBefore (l : Leaf) (rest : Text) : Prop :=
  ∀ b ∈ rest.head?, isNameByte b = false ∧ (l.label = .named .lNumber → b ≠ 46)

namespace Text.Scans

variable {offset stop : Nat} {t rest rest' : Text} {items : List (Placed Item)}

/-- The lexeme that a text starts with. -/
theorem lexeme_of_first? {x : Lexeme}
    (hfirst : Item.first? (x.text ++ rest) = some (.lexeme x, x.text, rest))
    (h : rest.Scans (offset + x.text.length) items stop rest') :
    (x.text ++ rest).Scans offset
      (⟨.lexeme x, ⟨offset, offset + x.text.length⟩⟩ :: items) stop rest' := by
  obtain ⟨-, -, -, hx⟩ := Item.takes_of_first? hfirst
  obtain ⟨b, t, htext, hb, -⟩ := hx.exists_text
  generalize x.text = text at *
  subst htext
  exact .item hb hfirst h

/-- A lexeme in front of a text that does not go on with it. -/
theorem lexeme {x : Lexeme} (hx : x.IsToken) (hshown : x.shown = x) (hrest : x.EndsBefore rest)
    (h : rest.Scans (offset + x.text.length) items stop rest') :
    (x.text ++ rest).Scans offset
      (⟨.lexeme x, ⟨offset, offset + x.text.length⟩⟩ :: items) stop rest' := by
  have hfirst := Item.first?_text hx hrest
  rw [hshown] at hfirst
  exact .lexeme_of_first? hfirst h

/-- A name or number in front of a text that does not go on with it. -/
theorem leaf {l : Leaf} (hl : l.IsToken) (hnamed : l.label.isNamed = true)
    (hrest : l.EndsBefore rest) (h : rest.Scans (offset + l.text.length) items stop rest') :
    (l.text ++ rest).Scans offset (Lexeme.items offset l.lexemes ++ items) stop rest' := by
  have hone : ∀ {x : Lexeme}, l.lexemes = [x] → x.shown = x → x.EndsBefore rest →
      (l.text ++ rest).Scans offset (Lexeme.items offset l.lexemes ++ items) stop rest' := by
    intro x hx hshown hends
    have htext := l.flatMap_text_lexemes
    have htoken := hl.lexemes x (by simp [hx])
    rw [hx, List.flatMap_singleton] at htext
    rw [hx, ← htext]
    exact .lexeme htoken hshown hends (by rwa [htext])
  have hword : ∀ w, (Lexeme.word w).EndsBefore rest := fun w b hb => by
    obtain ⟨-, hsmall, -, hquote⟩ := not_isNameByte (hrest b hb).1
    exact ⟨hsmall, hquote⟩
  have hcapital : ∀ t, (Lexeme.capital t).EndsBefore rest := fun t b hb =>
    (not_isNameByte (hrest b hb).1).1
  cases l with
  | name n => exact hone rfl rfl (hword n)
  | variant t => exact hone rfl rfl (hcapital t)
  | number t =>
      refine hone rfl rfl fun b hb => ?_
      obtain ⟨-, -, hdigit, -⟩ := not_isNameByte (hrest b hb).1
      exact ⟨hdigit, (hrest b hb).2 rfl⟩
  | state s =>
      cases s with
      | capital t => exact hone rfl rfl (hcapital t)
      | small w => exact hone rfl rfl (hword w)
      | mixed w t =>
          have hw := hl.lexemes (.word w) (by simp [StateName.lexemes])
          have ht : (Lexeme.capital t).IsToken := hl.lexemes _ (by simp [StateName.lexemes])
          have hends : (Lexeme.word w).EndsBefore (t ++ rest) := by
            obtain ⟨c, v, rfl, hc, -⟩ := mem_enumIdentifier_iff.mp ht
            rintro d ⟨⟩
            exact ⟨not_isSmallBody_of_ends (.inr hc), not_isQuote_of_ends (.inr hc)⟩
          have htext : (Leaf.state (.mixed w t)).text ++ rest = w.text ++ (t ++ rest) :=
            List.append_assoc ..
          rw [htext]
          refine .lexeme hw rfl hends (.lexeme ht rfl (hcapital t) ?_)
          rwa [Nat.add_assoc, ← List.length_append]
  | keyword k => simp [Leaf.label, Label.isNamed] at hnamed
  | symbol s => simp [Leaf.label, Label.isNamed] at hnamed

/-- The same items are scanned from another offset on. -/
theorem carry {f : Nat → Nat} (h : t.Scans offset items stop rest)
    (hf : ∀ n, f (offset + n) = f offset + n) :
    t.Scans (f offset) (items.map (Placed.carry f f)) (f stop) rest := by
  induction h with
  | done => exact .done
  | @blank offset _ _ _ _ _ hb _ ih =>
      refine .blank hb ?_
      rw [← hf 1]
      exact ih fun n => by rw [Nat.add_assoc, hf, hf, Nat.add_assoc]
  | @item offset _ _ _ taken _ _ _ _ hb hfirst _ ih =>
      have hrest := ih fun n => by rw [Nat.add_assoc, hf, hf, Nat.add_assoc]
      rw [hf taken.length] at hrest
      rw [List.map_cons, Placed.carry, Span.carry, hf taken.length]
      exact .item hb hfirst hrest

/-- What is behind lexemes that touch each other. -/
theorem cut_items {xs : List Lexeme} {after : List (Placed Item)}
    (h : t.Scans offset (Lexeme.items offset xs ++ after) stop rest) :
    ∃ u, t = xs.flatMap Lexeme.text ++ u ∧
      u.Scans (offset + (xs.flatMap Lexeme.text).length) after stop rest := by
  induction xs generalizing t offset with
  | nil => exact ⟨t, rfl, h⟩
  | cons x xs ih =>
      rw [Lexeme.items, List.cons_append, ← List.nil_append (_ :: _)] at h
      obtain ⟨b, taken, v, -, hfront, hfirst, -, hmore⟩ := h.split
      obtain ⟨w, rfl, hw⟩ := hfront.exists_append
      obtain rfl : w = [] := by simpa using hw
      obtain ⟨-, -, hl, -⟩ := Item.takes_of_first? hfirst
      obtain ⟨u, rfl, hu⟩ := ih hmore
      refine ⟨u, ?_, ?_⟩
      · rw [List.flatMap_cons, hl, List.append_assoc]
        rfl
      · rwa [List.flatMap_cons, List.length_append, ← Nat.add_assoc]

end Text.Scans

/-! ## Whole sources -/

/-- Where an index is after another text has been put in place of a span, if it is not inside the
span. -/
def Text.moved (s : Span) (t : Text) (i : Nat) : Nat :=
  if i < s.stop then i else s.start + t.length + (i - s.stop)

section

variable {s : Span} {t : Text}

theorem Text.moved_of_lt {i : Nat} (h : i < s.stop) : moved s t i = i := if_pos h

theorem Text.moved_add (n : Nat) : moved s t (s.stop + n) = s.start + t.length + n := by
  rw [moved, if_neg (by omega), Nat.add_sub_cancel_left]

theorem Text.moved_injective (h : s.stop ≤ s.start + t.length) :
    Function.Injective (moved s t) := by
  intro i j hij
  simp only [moved] at hij
  split at hij <;> split at hij <;> omega

theorem Text.length_replace {source : Text} (hs : s.start ≤ s.stop)
    (hstop : s.stop ≤ source.length) : (source.replace s t).length = moved s t source.length := by
  obtain ⟨n, hn⟩ := Nat.exists_eq_add_of_le hstop
  rw [hn, moved_add, replace]
  simp only [List.length_append, List.length_take, List.length_drop]
  omega

end

/-- If a token has another text, the items before it stay and those behind it move, provided that
each lexeme before it stays and that the new text has lexemes that touch each other. -/
theorem scan_exchanged {source t : Text} {before after : List (Placed Item)} {l : Leaf}
    {xs : List Lexeme} {s : Span}
    (h : scan source = some (before ++ (Lexeme.items s.start l.lexemes ++ after)))
    (hstop : s.stop = s.start + l.text.length)
    (hbefore : ∀ v taken u x, source.take s.start = v ++ (taken ++ u) →
      Item.first? (taken ++ (u ++ (l.text ++ source.drop s.stop))) =
        some (.lexeme x, taken, u ++ (l.text ++ source.drop s.stop)) →
      Item.first? (taken ++ (u ++ (t ++ source.drop s.stop))) =
        some (.lexeme x, taken, u ++ (t ++ source.drop s.stop)))
    (htoken : ∀ {items stop}, Text.Scans (s.start + t.length) (source.drop s.stop) items stop [] →
      Text.Scans s.start (t ++ source.drop s.stop) (Lexeme.items s.start xs ++ items) stop []) :
    scan (source.replace s t) = some (before ++ (Lexeme.items s.start xs ++
      after.map (Placed.carry (Text.moved s t) (Text.moved s t)))) := by
  obtain ⟨mark, text, rfl, hmark, hscans⟩ := scan_eq_some_iff.mp h
  obtain ⟨x, ys, hx⟩ := List.exists_cons_of_ne_nil l.lexemes_ne_nil
  -- the source before, at and behind the token
  have hcut := hscans
  rw [hx, Lexeme.items, List.cons_append] at hcut
  obtain ⟨v, hfront, hmiddle⟩ := hcut.split_before
  rw [← List.cons_append, ← Lexeme.items, ← hx] at hmiddle
  obtain ⟨rest, rfl, hrest⟩ := hmiddle.cut_items
  rw [l.flatMap_text_lexemes] at hfront hrest
  rw [← hstop] at hrest
  obtain ⟨u, rfl, hstart⟩ := hfront.exists_append
  have hstart : s.start = (mark ++ u).length := by rw [List.length_append]; exact hstart
  have hsource : mark ++ (u ++ (l.text ++ rest)) = mark ++ u ++ l.text ++ rest := by simp
  have htake : (mark ++ (u ++ (l.text ++ rest))).take s.start = mark ++ u := by
    rw [hsource, hstart, List.append_assoc (mark ++ u), List.take_left]
  have hdrop : (mark ++ (u ++ (l.text ++ rest))).drop s.stop = rest := by
    rw [hsource, hstop, hstart, ← List.length_append, List.drop_left]
  rw [htake, hdrop] at hbefore
  rw [hdrop] at htoken
  rw [Text.replace, htake, hdrop]
  -- the same for the new source
  obtain ⟨u', hu', hfront'⟩ := hfront.congr_of_lexemes fun v taken w x hw => by
    refine hbefore (mark ++ v) taken w x ?_
    have hu : u = v ++ (taken ++ w) := List.append_cancel_right (hw.trans (by simp))
    rw [hu, List.append_assoc]
  obtain rfl := List.append_cancel_right hu'
  obtain ⟨f, hf⟩ : ∃ f, f = Text.moved s t := ⟨_, rfl⟩
  have hmoved : ∀ n, f (s.stop + n) = s.start + t.length + n := fun n => by
    rw [hf, Text.moved_add]
  have hfirst : f s.stop = s.start + t.length := hmoved 0
  have hbehind := hrest.carry (f := f) fun n => by rw [hmoved, hfirst]
  rw [hfirst] at hbehind
  have hnew := hfront'.trans (htoken hbehind)
  have hend : f (mark ++ (u ++ (l.text ++ rest))).length =
      (mark ++ (u ++ (t ++ rest))).length := by
    have hlength : (mark ++ (u ++ (l.text ++ rest))).length = s.stop + rest.length := by
      simp only [hstop, hstart, List.length_append]
      omega
    rw [hlength, hmoved, hstart]
    simp only [List.length_append]
    omega
  have hwhole : mark ++ u ++ t ++ rest = mark ++ (u ++ (t ++ rest)) := by simp
  rw [hend] at hnew
  rw [← hf, hwhole]
  exact scan_eq_some_iff.mpr ⟨mark, u ++ (t ++ rest), rfl, hmark, hnew⟩

/-- If a name or number has another text, and is spelled as it must be, the items before it stay and
those behind it move. -/
theorem scan_respelled {source : Text} {before after : List (Placed Item)} {l l' : Leaf} {s : Span}
    (h : scan source = some (before ++ (Lexeme.items s.start l.lexemes ++ after)))
    (hstop : s.stop = s.start + l.text.length) (hl' : l'.IsToken)
    (hnamed : l'.label.isNamed = true) (hlike : l.text.StartsLike l'.text)
    (hbefore : ∀ b ∈ (source.take s.start).getLast?, isNameByte b = false)
    (hafter : l'.EndsBefore (source.drop s.stop)) :
    scan (source.replace s l'.text) = some (before ++ (Lexeme.items s.start l'.lexemes ++
      after.map (Placed.carry (Text.moved s l'.text) (Text.moved s l'.text)))) := by
  refine scan_exchanged h hstop (fun v taken u x htake hfirst => ?_) (.leaf hl' hnamed hafter)
  refine Item.first?_lexeme_of_startsLike hfirst (hlike.append _ _) ?_
  rintro rfl b hb
  refine hbefore b ?_
  rw [htake, List.append_nil, List.getLast?_append, Option.mem_def.mp hb]
  rfl

end Heptagon
