import Heptagon.Proofs.Document.Respelling
import Heptagon.Proofs.Grammar.Capitals

/-!
# Words end where no word goes on

Directly behind a word of an accepted source there is no letter, digit or
underscore, with two exceptions: a name that ends in a quote is over there, and a
state whose name starts with a capital may touch the keyword before it
(`Document.touches_of_isWordBody`).

1. The scanner takes the longest word.  So a word that is not over can only be one
   of small letters with a capital behind it (`Item.exists_word_of_first?`).
2. Behind it, then, is a constructor or the name of a state, and it is a token of
   its own.
3. The grammar has a constructor only after a symbol, and a state only after one of
   three keywords (`Node.Derives.isChain_tokens`).
-/

namespace Heptagon

/-! ## Longest words -/

namespace Item

/-- A word without quotes is as long as it can be. -/
theorem isSmallBody_of_word (t : Text) (hquotes : (word t).2.1.any isQuote = false) :
    ∀ b ∈ (word t).2.2.head?, isSmallBody b = false := by
  have hnone : (t.dropWhile isSmallBody).takeWhile isQuote = [] := by
    by_contra hne
    obtain ⟨q, quotes, hquote⟩ := List.exists_cons_of_ne_nil hne
    have hq : isQuote q = true := Text.forall_mem_takeWhile _ q (hquote ▸ List.mem_cons_self)
    have hmem : q ∈ (word t).2.1 :=
      List.mem_append_right _
        (show q ∈ (t.dropWhile isSmallBody).takeWhile isQuote by simp [hquote])
    exact absurd (List.any_eq_true.mpr ⟨q, hmem, hq⟩) (by simp [hquotes])
  have hrest : (word t).2.2 = t.dropWhile isSmallBody := by
    have hsplit := List.takeWhile_append_dropWhile (p := isQuote) (l := t.dropWhile isSmallBody)
    rwa [hnone, List.nil_append] at hsplit
  rw [hrest]
  exact Text.head?_dropWhile t

/-- If a word goes on behind a lexeme that is a word, this is one of small letters. -/
theorem exists_word_of_first? {x : Lexeme} {t taken rest : Text} {b c : UInt8} {u : Text}
    (h : first? t = some (.lexeme x, taken, rest)) (hx : x.text = c :: u)
    (hc : isSmall c = true ∨ isCapital c = true) (hb : b ∈ rest.head?)
    (hbody : isWordBody b = true) :
    ∃ w, x = .word w ∧ (w.quoted = true ∨ isCapital b = true) := by
  obtain ⟨happend, -, htext, htoken⟩ := takes_of_first? h
  obtain rfl : c :: u = taken := hx.symm.trans htext
  rw [happend, List.cons_append] at h
  rcases hc with hsmall | hcapital
  · rw [first?_of_isSmall hsmall] at h
    have heq := Option.some.inj h
    have hitem := congrArg (·.1) heq
    have hrest := congrArg (·.2.2) heq
    refine ⟨_, (Item.lexeme.inj hitem).symm, or_iff_not_imp_left.mpr fun hquoted => ?_⟩
    rw [Word.quoted, Word.text_ofText, Bool.not_eq_true] at hquoted
    have hsmallBody := isSmallBody_of_word _ hquoted b (hrest ▸ hb)
    simpa [isWordBody, hsmallBody] using hbody
  · rw [first?_of_isCapital hcapital] at h
    have hrest : (c :: (u ++ rest)).dropWhile isWordBody = rest :=
      congrArg (·.2.2) (Option.some.inj h)
    have hends := Text.head?_dropWhile (c :: (u ++ rest)) b (hrest.symm ▸ hb)
    rw [hends] at hbody
    cases hbody

end Item

/-- A text that starts with a capital starts with a word of this kind. -/
theorem Text.Scans.exists_capital {offset stop : Nat} {t rest : Text} {b : UInt8}
    {items : List (Placed Item)} (h : Scans offset (b :: t) items stop rest) (hrest : rest = [])
    (hb : isCapital b = true) :
    ∃ u span after, items = ⟨.lexeme (.capital u), span⟩ :: after ∧ span.start = offset := by
  cases h with
  | done => cases hrest
  | blank hblank _ => simp [(not_isBlank_of_isCapital hb).1] at hblank
  | item _ hfirst _ =>
      rw [Item.first?_of_isCapital hb] at hfirst
      obtain ⟨rfl, -⟩ := Prod.mk.inj (Option.some.inj hfirst)
      exact ⟨_, _, _, rfl, rfl⟩

/-- The items of some lexemes are those of the first ones and of the others. -/
theorem Lexeme.items_append (offset : Nat) (xs ys : List Lexeme) : items offset (xs ++ ys) =
    items offset xs ++ items (offset + (xs.flatMap Lexeme.text).length) ys := by
  induction xs generalizing offset with
  | nil => rfl
  | cons x xs ih =>
      rw [List.cons_append, items, items, ih, List.cons_append, List.flatMap_cons,
        List.length_append, Nat.add_assoc]

/-- A word with a quote ends in one. -/
theorem Word.getLast_of_quoted {w : Word} (hw : w.text ∈ TokenClass.identifier.pattern)
    (hquoted : w.quoted = true) : ∃ q ∈ w.text.getLast?, isQuote q = true := by
  obtain ⟨b, u, quotes, htext, hb, hu, hquotes⟩ := mem_identifier_iff.mp hw
  rcases List.eq_nil_or_concat quotes with rfl | ⟨quotes, q, rfl⟩
  · obtain ⟨q, hq, hquote⟩ := List.any_eq_true.mp hquoted
    have hbody : isSmallBody q = true := by
      rw [htext, List.append_nil] at hq
      rcases List.mem_cons.mp hq with rfl | hq
      · simp [isSmallBody, hb]
      · exact hu q hq
    rw [not_isSmallBody_of_isQuote hquote] at hbody
    cases hbody
  · refine ⟨q, ?_, hquotes q (by simp)⟩
    rw [htext, List.concat_eq_append, ← List.append_assoc, List.getLast?_concat]
    rfl

/-- The first token is written with the first lexeme. -/
theorem Slot.Write.exists_first_token {tokens : List (Leaf × Span)} {x : Lexeme} {ls : List Lexeme}
    {slot : Slot} {slots : List Slot} (h : Write tokens (x :: ls) (slot :: slots)) :
    ∃ l s back, tokens = (l, s) :: back ∧ l.lexemes.head? = some x ∧ s.start = slot.span.start := by
  cases h with
  | one hl _ => exact ⟨_, _, _, rfl, by simp [hl], rfl⟩
  | two hl _ _ _ => exact ⟨_, _, _, rfl, by simp [hl], rfl⟩

/-! ## Words among the tokens -/

namespace Leaf

/-- The token is a word. -/
def isWord : Leaf → Bool
  | number _ | symbol _ => false
  | _ => true

/-- The last lexeme of a word, which starts with a letter. -/
theorem exists_lexemes_append {l : Leaf} (hl : l.IsToken) (hword : l.isWord = true) :
    ∃ xs x, l.lexemes = xs ++ [x] ∧ ∃ c u, x.text = c :: u ∧
      (isSmall c = true ∨ isCapital c = true) := by
  have hsmall : ∀ w : Word, (Lexeme.word w).IsToken → ∃ c u, (Lexeme.word w).text = c :: u ∧
      (isSmall c = true ∨ isCapital c = true) := by
    intro w hw
    obtain ⟨c, u, quotes, htext, hc, -⟩ := mem_identifier_iff.mp hw.2
    exact ⟨c, u ++ quotes, htext, .inl hc⟩
  have hcapital : ∀ t : Text, (Lexeme.capital t).IsToken →
      ∃ c u, (Lexeme.capital t).text = c :: u ∧ (isSmall c = true ∨ isCapital c = true) := by
    intro t ht
    obtain ⟨c, u, rfl, hc, -⟩ := mem_enumIdentifier_iff.mp ht
    exact ⟨c, u, rfl, .inr hc⟩
  have htokens := hl.lexemes
  cases l with
  | name n => exact ⟨[], _, rfl, hsmall n (htokens _ (by simp))⟩
  | variant t => exact ⟨[], _, rfl, hcapital t (htokens _ (by simp))⟩
  | keyword k => exact ⟨[], _, rfl, hsmall _ (htokens _ (by simp))⟩
  | state s =>
      cases s with
      | capital t => exact ⟨[], _, rfl, hcapital t (htokens _ (by simp [StateName.lexemes]))⟩
      | small w => exact ⟨[], _, rfl, hsmall w (htokens _ (by simp [StateName.lexemes]))⟩
      | mixed w t =>
          exact ⟨[.word w], _, rfl, hcapital t (htokens _ (by simp [StateName.lexemes]))⟩
  | number | symbol => cases hword

/-- A word that ends in a quote is a name. -/
theorem exists_name_of_quoted {l : Leaf} (hl : l.IsToken) {xs : List Lexeme} {w : Word}
    (hlexemes : l.lexemes = xs ++ [.word w]) (hquoted : w.quoted = true) :
    l = .name w := by
  obtain ⟨q, hq, hquote⟩ := List.any_eq_true.mp hquoted
  cases l with
  | name n =>
      obtain rfl : n = w := by
        have := (List.append_eq_singleton_iff.mp hlexemes.symm).resolve_right (by simp)
        simpa using this.2.symm
      rfl
  | keyword k =>
      have := (List.append_eq_singleton_iff.mp hlexemes.symm).resolve_right (by simp)
      obtain rfl : w = .keyword k := by simpa using this.2
      have hnone : (Word.keyword k).quoted = false := by cases k <;> decide
      simp [hnone] at hquoted
  | state s =>
      -- the pattern of a state has no quotes
      have hmem : q ∈ s.text := by
        have htext : _ = s.text := (Leaf.state s).flatMap_text_lexemes
        rw [hlexemes, List.flatMap_append, List.flatMap_singleton] at htext
        exact htext ▸ List.mem_append_right _ hq
      obtain ⟨b, u, htext, hb, hu⟩ := mem_stateIdentifier_iff.mp
        ((Label.spells_named_iff (c := .stateIdentifier)).mp hl.spells)
      have hbody : isWordBody q = true := by
        rw [show s.text = b :: u from htext] at hmem
        rcases List.mem_cons.mp hmem with rfl | hmem
        · rcases Bool.or_eq_true_iff.mp hb with hb | hb
          · exact isWordBody_of_isSmallBody (by simp [isSmallBody, hb])
          · exact isWordBody_of_isCapital hb
        · exact hu q hmem
      rw [isWordBody_iff, isSmallBody_iff] at hbody
      rw [isQuote_iff] at hquote
      omega
  | variant | number | symbol =>
      have := (List.append_eq_singleton_iff.mp hlexemes.symm).resolve_right (by simp)
      cases this.2

/-- A token that starts with a capital is a constructor or a state. -/
theorem isLed_of_capital {l : Leaf} {t : Text} (h : l.lexemes.head? = some (.capital t)) :
    l.label.isLed = true ∧ (l.label = .named .stateIdentifier → l = .state (.capital t)) := by
  cases l with
  | variant u => exact ⟨rfl, nofun⟩
  | state s =>
      refine ⟨rfl, fun _ => ?_⟩
      cases s with
      | capital u =>
          obtain rfl : u = t := by simpa [StateName.lexemes] using h
          rfl
      | small | mixed => simp [StateName.lexemes] at h
  | _ => simp at h

/-- The keywords that a state may follow. -/
def beforeState : List Keyword := [.state, .then_, .on_]

/-- A word before a constructor or a state is one of three keywords, and a state follows. -/
theorem exists_keyword_of_mem_leaders {l : Leaf} (hword : l.isWord = true) {b : Label}
    (h : l.label ∈ b.leaders) :
    b = .named .stateIdentifier ∧ ∃ k ∈ beforeState, l = .keyword k := by
  unfold Label.leaders at h
  cases l with
  | keyword k =>
      split at h <;> cases k <;>
        simp_all [label, Keyword.spelling, Symbol.spelling, beforeState]
  | number | symbol => cases hword
  | _ => split at h <;> simp [label] at h

end Leaf

/-! ## Documents -/

namespace Document

variable {source : Text} {d : Document}

/-- What is directly behind a token, if it is a capital: a token that starts with it. -/
theorem exists_next (h : ofSource? source = some d) {front back : List (Leaf × Span)} {l : Leaf}
    {s : Span} (htokens : d.tokens = front ++ (l, s) :: back) {b : UInt8}
    (hb : source[s.stop]? = some b) {xs : List Lexeme} {x : Lexeme}
    (hlexemes : l.lexemes = xs ++ [x]) :
    (∃ t taken, Item.first? t = some (.lexeme x, taken, source.drop s.stop)) ∧
      (isCapital b = true → ∃ l' s' t back', back = (l', s') :: back' ∧
        l'.lexemes.head? = some (.capital t) ∧ s'.start = s.stop) := by
  obtain ⟨items, hscan, hwrite, -⟩ := write_of_ofSource? h
  rw [htokens] at hwrite
  obtain ⟨before, after, hitems, hstop, -, hback⟩ := Layout.exists_token_items hscan hwrite
  -- the last lexeme is an item of its own
  obtain ⟨before', i, hcut, hvalue, hspan⟩ : ∃ before' i,
      items = before' ++ i :: after ∧ i.value = .lexeme x ∧ i.span.stop = s.stop := by
    have htext := l.flatMap_text_lexemes
    rw [hlexemes, List.flatMap_append, List.flatMap_singleton] at htext
    obtain ⟨start, hstart⟩ : ∃ n, n = s.start + (xs.flatMap Lexeme.text).length := ⟨_, rfl⟩
    rw [hlexemes, Lexeme.items_append, List.append_assoc, ← hstart] at hitems
    refine ⟨before ++ Lexeme.items s.start xs, ⟨.lexeme x, ⟨start, start + x.text.length⟩⟩, ?_,
      rfl, ?_⟩
    · rw [hitems, List.append_assoc]
      rfl
    · rw [hstop, ← htext, List.length_append, hstart, Nat.add_assoc]
  rw [hcut] at hscan
  obtain ⟨c, taken, -, -, hfirst, -, hafter, -⟩ := scan_cut hscan
  rw [hvalue, hspan] at hfirst
  rw [hspan] at hafter
  refine ⟨⟨_, _, hfirst⟩, fun hcapital => ?_⟩
  -- the text behind starts with a capital, and so do the items there
  obtain ⟨hlt, hget⟩ := List.getElem?_eq_some_iff.mp hb
  rw [List.drop_eq_getElem_cons hlt, hget] at hafter
  obtain ⟨t, span, after', rfl, hstart⟩ := hafter.exists_capital rfl hcapital
  obtain ⟨l', s', back', rfl, hhead, hstart'⟩ :=
    Slot.Write.exists_first_token (x := .capital t) hback
  exact ⟨l', s', t, back', rfl, hhead, hstart'.trans hstart⟩

/-- Where a letter, a digit or an underscore stands directly behind a word, the word is a name that
ends in a quote, or a state that starts with a capital touches the keyword before it. -/
theorem touches_of_isWordBody (h : ofSource? source = some d) {l : Leaf} {s : Span}
    (hmem : (l, s) ∈ d.tokens) (hword : l.isWord = true) {b : UInt8}
    (hb : source[s.stop]? = some b) (hbody : isWordBody b = true) :
    (l.label = .named .identifier ∧ (source.slice s).getLast?.any isQuote = true) ∨
      ∃ k ∈ Leaf.beforeState, l = .keyword k ∧ isCapital b = true ∧
        ∃ t s', (.state (.capital t), s') ∈ d.tokens ∧ s'.start = s.stop := by
  obtain ⟨p, hshows⟩ := exists_program h
  have hstands := stands_of_mem_tokens h hmem
  have htoken := isToken_of_mem_tokens h hmem hstands
  obtain ⟨front, back, htokens⟩ := List.append_of_mem hmem
  obtain ⟨xs, x, hlexemes, c, u, hx, hc⟩ := Leaf.exists_lexemes_append htoken hword
  obtain ⟨⟨t, taken, hfirst⟩, hnext⟩ := exists_next h htokens hb hlexemes
  have hhead : b ∈ (source.drop s.stop).head? := by
    rw [List.head?_drop]
    exact hb
  obtain ⟨w, rfl, hquoted | hcapital⟩ := Item.exists_word_of_first? hfirst hx hc hhead hbody
  · -- the word ends in a quote, so it is a name
    left
    obtain rfl := Leaf.exists_name_of_quoted htoken hlexemes hquoted
    obtain ⟨q, hq, hquote⟩ := Word.getLast_of_quoted (htoken.lexemes (.word w) (by simp)).2 hquoted
    have hslice : source.slice s = w.text := hstands.2.1
    refine ⟨rfl, ?_⟩
    rw [hslice, Option.mem_def.mp hq]
    exact hquote
  · -- a capital letter behind the word starts a token, and only a state name may stand there
    right
    obtain ⟨l', s', t, back', rfl, hhead', hstart⟩ := hnext hcapital
    obtain ⟨hisLed, hstate⟩ := Leaf.isLed_of_capital hhead'
    have hchain := hshows.derives.isChain_tokens.1
    rw [Node.tokenLabels, show d.root.tokens = d.tokens from rfl, htokens,
      List.map_append] at hchain
    have hleads := (List.isChain_cons_cons.mp (List.isChain_append.mp hchain).2.1).1
    obtain ⟨hlabel, k, hk, rfl⟩ := Leaf.exists_keyword_of_mem_leaders hword
      (Label.mem_leaders hleads hisLed)
    refine ⟨k, hk, rfl, hcapital, t, s', ?_, hstart⟩
    rw [htokens, ← hstate hlabel]
    simp

/-- A state that touches its keyword. -/
theorem touches_of_isWordBody_of_state : ∃ d,
    ofSource? (Text.ofString "fun f()returns()let automaton stateA do end tel") = some d ∧
      (.keyword .state, ⟨30, 35⟩) ∈ d.tokens ∧
      ∃ t s, (.state (.capital t), s) ∈ d.tokens ∧ s.start = 35 := by
  have htokens : (ofSource? (Text.ofString "fun f()returns()let automaton stateA do end tel")).map
      (fun d => decide ((.keyword .state, ⟨30, 35⟩) ∈ d.tokens)) = some true := by
    decide +kernel
  obtain ⟨d, hd, hmem⟩ := Option.map_eq_some_iff.mp htokens
  have hmem := of_decide_eq_true hmem
  have hnext : (Text.ofString "fun f()returns()let automaton stateA do end tel")[35]? =
      some 65 := by
    decide +kernel
  rcases touches_of_isWordBody hd hmem rfl hnext rfl with
    ⟨hname, -⟩ | ⟨-, -, -, -, t, s, hstate, hstart⟩
  · cases hname
  · exact ⟨d, hd, hmem, t, s, hstate, hstart⟩

/-- A letter directly behind a name that ends in a quote, and one directly behind a keyword. -/
theorem exists_touching :
    (∃ d, ofSource? (Text.ofString "fun f()returns()let x=g(a'b)tel") = some d ∧
      ∃ l s b, (l, s) ∈ d.tokens ∧ l.isWord = true ∧
        (Text.ofString "fun f()returns()let x=g(a'b)tel")[s.stop]? = some b ∧
        isWordBody b = true) ∧
    ∃ d, ofSource? (Text.ofString "fun f()returns()let automaton stateA do end tel") = some d ∧
      ∃ l s b, (l, s) ∈ d.tokens ∧ l.isWord = true ∧
        (Text.ofString "fun f()returns()let automaton stateA do end tel")[s.stop]? = some b ∧
        isWordBody b = true := by
  have hquoted : (ofSource? (Text.ofString "fun f()returns()let x=g(a'b)tel")).map
      (fun d => decide ((.name (.plain [97, 39]), ⟨24, 26⟩) ∈ d.tokens)) = some true := by
    decide +kernel
  have hstate : (ofSource? (Text.ofString "fun f()returns()let automaton stateA do end tel")).map
      (fun d => decide ((.keyword .state, ⟨30, 35⟩) ∈ d.tokens)) = some true := by
    decide +kernel
  obtain ⟨d, hd, hname⟩ := Option.map_eq_some_iff.mp hquoted
  obtain ⟨d', hd', hkeyword⟩ := Option.map_eq_some_iff.mp hstate
  exact ⟨⟨d, hd, _, _, 98, of_decide_eq_true hname, rfl, by decide +kernel, rfl⟩,
    ⟨d', hd', _, _, 65, of_decide_eq_true hkeyword, rfl, by decide +kernel, rfl⟩⟩

end Document

end Heptagon
