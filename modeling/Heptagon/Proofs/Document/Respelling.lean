import Heptagon.Proofs.Document.Replacing

/-!
# Documents in another spelling

Any leaves of a document can have other texts of their patterns, and the source
is accepted still, with the same rows at other places
(`Document.rows_respelled`).  A name that is spelled like no keyword must stay
so, and a leaf that touches a word or number cannot be changed alone.

The leaves are respelled one by one, from the last one to the first one.  What
is before a leaf that changes does not move, so each of them is found at its
place in the source, between the bytes that it had around it
(`Row.Respells.of_take_eq`).
-/

namespace Heptagon

/-! ## One token -/

/-- The labels of tokens that can be spelled in more than one way. -/
def Label.respellable : List Label :=
  [.named .identifier, .named .enumIdentifier, .named .stateIdentifier, .named .lNumber]

theorem Label.isNamed_of_mem_respellable {label : Label} (h : label ∈ respellable) :
    label.isNamed = true := by
  simp only [respellable, List.mem_cons, List.not_mem_nil, or_false] at h
  rcases h with rfl | rfl | rfl | rfl <;> rfl

/-- A token that is no keyword or symbol can have any text of its pattern; a name that is spelled
like no keyword must stay so. -/
theorem Leaf.exists_respelled {l : Leaf} {t : Text} (hl : l.IsToken)
    (hlabel : l.label ∈ Label.respellable) (hspells : l.label.Spells t)
    (hname : l.label = .named .identifier →
      Keyword.ofText? l.text = none ∧ Keyword.ofText? t = none) :
    ∃ l' : Leaf, l.Alike l' ∧ l'.text = t ∧ l'.IsToken ∧ l.text.StartsLike l'.text := by
  have hlike : ∀ {c : TokenClass}, l.label = .named c.kind → c ≠ .comment → l.text.StartsLike t := by
    intro c hc hne
    have hold := hl.spells
    rw [hc] at hold hspells
    exact Text.startsLike_of_mem hne (Label.spells_named_iff.mp hold)
      (Label.spells_named_iff.mp hspells)
  cases l with
  | name n =>
      obtain ⟨hplain, hplain'⟩ := hname rfl
      have hword : (Lexeme.word n).IsToken := hl.lexemes _ (by simp)
      -- the name is no keyword before and after
      have hn : n = .plain n.text := by
        have := hword.1
        rwa [Word.ofText, show Keyword.ofText? n.text = none from hplain] at this
      have hmem : t ∈ TokenClass.identifier.pattern :=
        (Label.spells_named_iff (c := .identifier)).mp hspells
      refine ⟨.name (.plain t), .name (hn ▸ .plain _ _), rfl, ⟨?_, hspells⟩,
        hlike (c := .identifier) rfl (by decide)⟩
      exact List.forall_mem_singleton.mpr ⟨by simp [Word.ofText, Word.text, hplain'], hmem⟩
  | variant u =>
      have hmem : t ∈ TokenClass.enumIdentifier.pattern :=
        (Label.spells_named_iff (c := .enumIdentifier)).mp hspells
      exact ⟨.variant t, .variant u t, rfl, ⟨List.forall_mem_singleton.mpr hmem, hspells⟩,
        hlike (c := .enumIdentifier) rfl (by decide)⟩
  | state s =>
      have hmem : t ∈ TokenClass.stateIdentifier.pattern :=
        (Label.spells_named_iff (c := .stateIdentifier)).mp hspells
      obtain ⟨hnormal, hlexemes⟩ := StateName.isToken_ofText hmem
      have htext : (Leaf.state (.ofText t)).text = t := StateName.text_ofText t
      exact ⟨.state (.ofText t), .state fun _ => hnormal, htext, ⟨hlexemes, by rwa [htext]⟩,
        htext.symm ▸ hlike (c := .stateIdentifier) rfl (by decide)⟩
  | number u =>
      have hmem : t ∈ TokenClass.lNumber.pattern :=
        (Label.spells_named_iff (c := .lNumber)).mp hspells
      exact ⟨.number t, .number u t, rfl, ⟨List.forall_mem_singleton.mpr hmem, hspells⟩,
        hlike (c := .lNumber) rfl (by decide)⟩
  | keyword k => simp [label, Label.respellable] at hlabel
  | symbol s => simp [label, Label.respellable] at hlabel

/-- A leaf of a source can have another text: the text is of its pattern, a name is spelled like no
keyword, before or after, and no byte of a name stands directly before the leaf or behind it, nor a
point behind a number. -/
structure Row.Respells (source : Text) (r : Row) (t : Text) : Prop where
  label : r.label ∈ Label.respellable
  spells : r.label.Spells t
  name : r.label = .named .identifier →
    Keyword.ofText? (source.slice r.span) = none ∧ Keyword.ofText? t = none
  before : ∀ b ∈ (source.take r.span.start).getLast?, isNameByte b = false
  behind : ∀ b ∈ (source.drop r.span.stop).head?,
    isNameByte b = false ∧ (r.label = .named .lNumber → b ≠ 46)

namespace Document

variable {source : Text} {d : Document} {r : Row} {t : Text}

theorem isToken_of_mem_tokens (h : ofSource? source = some d) {l : Leaf} {s : Span}
    (hmem : (l, s) ∈ d.tokens) (hstands : (Node.token l s).Stands source) : l.IsToken := by
  obtain ⟨items, -, hnodes, -⟩ := ofSource?_eq_some_iff.mp h
  obtain ⟨-, inner, hinner, hchildren⟩ := nodes?_eq_some_iff.mp hnodes
  obtain ⟨p, hfits, -, hplace⟩ := Program.of_placed? hinner
  rw [tokens, hchildren, Node.tokensAll_append, Node.tokensAll_map_comment, List.append_nil] at hmem
  refine Leaf.isToken_of_normal (hfits.normal_leaves l ?_) hstands.2.2
  rw [Program.leaves, ← Program.map_tokens_of_place hplace]
  exact List.mem_map_of_mem hmem

/-- A leaf that can have another text is a token of the source, and there is a token like it with
that text. -/
theorem exists_token (h : ofSource? source = some d) (hr : r ∈ d.leafRows)
    (ht : r.Respells source t) : ∃ l l' : Leaf, r.label = l.label ∧ (l, r.span) ∈ d.tokens ∧
      source.slice r.span = l.text ∧ l.Alike l' ∧ l'.text = t ∧ l'.IsToken ∧
      l.text.StartsLike l'.text := by
  obtain ⟨p, hshows⟩ := exists_program h
  rcases mem_leafRows hshows hr with ⟨hcomment, -⟩ | ⟨l, hlabel, hmem, hstands⟩
  · have hlabel := ht.label
    rw [hcomment] at hlabel
    exact absurd hlabel (by decide)
  · have hslice := hstands.2.1
    obtain ⟨l', halike, htext, hl', hlike⟩ := Leaf.exists_respelled
      (isToken_of_mem_tokens h hmem hstands) (hlabel ▸ ht.label) (hlabel ▸ ht.spells)
      fun hname => hslice ▸ ht.name (hlabel.trans hname)
    exact ⟨l, l', hlabel, hmem, hslice, halike, htext, hl', hlike⟩

/-- A leaf that can have another text starts with a letter or digit. -/
theorem exists_isNameByte (h : ofSource? source = some d) (hr : r ∈ d.leafRows)
    (ht : r.Respells source t) :
    ∃ b ∈ (source.drop r.span.start).head?, isNameByte b = true := by
  obtain ⟨l, l', -, -, hslice, -, -, -, hlike⟩ := exists_token h hr ht
  obtain ⟨b, u, htext, hb⟩ : ∃ b u, l.text = b :: u ∧ isWordBody b = true := by
    generalize l.text = text, l'.text = text' at hlike
    cases hlike with
    | letter u _ hb _ => exact ⟨_, u, rfl, isWordBody_of_isLetter hb⟩
    | digit u _ hb _ => exact ⟨_, u, rfl, isWordBody_of_isDigit hb⟩
  have hdrop := @Text.slice_append_drop source _ _ ((cut_of_ofSource? h).nonempty r hr).1.le
  refine ⟨b, ?_, isNameByte_of_isWordBody hb⟩
  rw [← hdrop]
  show b ∈ (source.slice r.span ++ _).head?
  rw [hslice, htext]
  rfl

/-- A leaf in another spelling leaves the document as it is, but for the places behind it. -/
theorem rows_replace (h : ofSource? source = some d) (hr : r ∈ d.leafRows)
    (ht : r.Respells source t) : ∃ d', ofSource? (source.replace r.span t) = some d' ∧
      d'.rows = d.rows.map (.carry (Text.moved r.span t) (Text.moved r.span t)) := by
  obtain ⟨l, l', hlabel, hmem, -, halike, rfl, hl', hlike⟩ := exists_token h hr ht
  have hlabel' : l'.label = r.label :=
    (halike.label_eq (hlabel ▸ Label.isNamed_of_mem_respellable ht.label)).trans hlabel.symm
  obtain ⟨front, back, htokens⟩ := List.append_of_mem hmem
  obtain ⟨x⟩ := exists_exchange h htokens fun hstop hscan => scan_respelled hscan hstop hl'
    (hlabel' ▸ Label.isNamed_of_mem_respellable ht.label) hlike ht.before
    fun b hb => ⟨(ht.behind b hb).1, fun hl => (ht.behind b hb).2 (hlabel' ▸ hl)⟩
  exact x.rows_of_alike (fun _ label => label) h halike (hlabel'.trans hlabel)
    (fun _ _ => rfl) fun _ _ => rfl

end Document

/-! ## Many tokens -/

/-- The source with other texts in place of some of its leaves.  They are put in from the last one
on, so those before are still at their places. -/
def Text.respell (source : Text) (changes : List (Row × Text)) : Text :=
  changes.foldr (fun c text => text.replace c.1.span c.2) source

/-- Where an index of a source is once some leaves have other texts, if it is not inside one of
them. -/
def Text.respelledAt (changes : List (Row × Text)) (i : Nat) : Nat :=
  changes.foldr (fun c i => moved c.1.span c.2 i) i

section

variable {source source' t : Text} {n : Nat} {changes : List (Row × Text)}

theorem Text.take_replace {s : Span} (hn : n ≤ s.start) (hs : s.start ≤ source.length) :
    (source.replace s t).take n = source.take n := by
  rw [replace, List.append_assoc, List.take_append_of_le_length (by simp; omega), List.take_take,
    Nat.min_eq_left hn]

/-- What is before the leaves that change stays. -/
theorem Text.take_respell (hspans : ∀ c ∈ changes, n ≤ c.1.span.start ∧
      c.1.span.start < c.1.span.stop ∧ c.1.span.stop ≤ source.length)
    (hordered : changes.Pairwise fun c c' => c.1.span.stop ≤ c'.1.span.start) :
    (source.respell changes).take n = source.take n := by
  induction changes generalizing n with
  | nil => rfl
  | cons c changes ih =>
      obtain ⟨⟨hn, hlt, hle⟩, hspans⟩ := List.forall_mem_cons.mp hspans
      obtain ⟨hfirst, hordered⟩ := List.pairwise_cons.mp hordered
      have hsame : ∀ m ≤ c.1.span.start, (source.respell changes).take m = source.take m :=
        fun m hm => ih (fun c' hc' => ⟨hm.trans (hlt.le.trans (hfirst c' hc')), (hspans c' hc').2⟩)
          hordered
      have hlength := congrArg List.length (hsame _ le_rfl)
      simp only [List.length_take] at hlength
      have hstart : c.1.span.start ≤ (source.respell changes).length := by omega
      exact (take_replace hn hstart).trans (hsame n hn)

theorem Text.respelledAt_of_lt (h : ∀ c ∈ changes, n < c.1.span.stop) :
    respelledAt changes n = n := by
  induction changes with
  | nil => rfl
  | cons c changes ih =>
      obtain ⟨hc, hchanges⟩ := List.forall_mem_cons.mp h
      show moved c.1.span c.2 (respelledAt changes n) = n
      rw [ih hchanges, moved_of_lt hc]

/-- A leaf can have another text in every source that is the same up to the byte behind the leaf. -/
theorem Row.Respells.of_take_eq {r : Row} (h : r.Respells source t)
    (hspan : r.span.start ≤ r.span.stop)
    (hsame : source'.take (r.span.stop + 1) = source.take (r.span.stop + 1)) :
    r.Respells source' t := by
  have htake : ∀ m ≤ r.span.stop + 1, source'.take m = source.take m := fun m hm => by
    rw [← Nat.min_eq_left hm, ← List.take_take, ← List.take_take, hsame]
  have hslice : source'.slice r.span = source.slice r.span := by
    rw [Text.slice, Text.slice, ← List.drop_take, ← List.drop_take]
    rw [htake _ (by omega)]
  have hbehind : (source'.drop r.span.stop).head? = (source.drop r.span.stop).head? := by
    rw [List.head?_drop, List.head?_drop, ← List.getElem?_take_of_lt (Nat.lt_succ_self _), hsame,
      List.getElem?_take_of_lt (Nat.lt_succ_self _)]
  exact ⟨h.label, h.spells, fun hname => hslice ▸ h.name hname,
    htake r.span.start (by omega) ▸ h.before, hbehind ▸ h.behind⟩

end

namespace Row

variable {start stop start' stop' : Nat → Nat}

theorem childless_map_carry (rows : List Row) :
    childless (rows.map (.carry start stop)) = (childless rows).map (.carry start stop) := by
  fun_induction childless rows with
  | case1 => rfl
  | case2 r => rfl
  | case3 r s rows hlt ih => exact (if_pos hlt).trans ih
  | case4 r s rows hlt ih => exact (if_neg hlt).trans (congrArg (_ :: ·) ih)

theorem carry_comp_carry :
    carry start' stop' ∘ carry start stop = carry (start' ∘ start) (stop' ∘ stop) := rfl

end Row

namespace Document

variable {source : Text} {d d' : Document} {changes : List (Row × Text)}

theorem leafRows_of_rows_eq {start stop : Nat → Nat}
    (h : d'.rows = d.rows.map (.carry start stop)) :
    d'.leafRows = d.leafRows.map (.carry start stop) := by
  rw [leafRows, h, ← List.map_tail, Row.childless_map_carry, leafRows]

/-- Some leaves of an accepted source have other texts of their patterns: the source is accepted
still, and its rows are the old ones at the places where they are then. -/
theorem rows_respelled (h : ofSource? source = some d)
    (hleaves : (changes.map Prod.fst).Sublist d.leafRows)
    (hspelled : ∀ c ∈ changes, c.1.Respells source c.2) :
    ∃ d', ofSource? (source.respell changes) = some d' ∧
      d'.rows = d.rows.map (.carry (Text.respelledAt changes) (Text.respelledAt changes)) := by
  induction changes with
  | nil => exact ⟨d, h, (List.map_id _).symm⟩
  | cons c changes ih =>
      obtain ⟨r, t⟩ := c
      obtain ⟨ht, hspelled⟩ := List.forall_mem_cons.mp hspelled
      obtain ⟨d₁, hd₁, hrows₁⟩ := ih ((List.sublist_cons_self _ _).trans hleaves) hspelled
      have hcut := cut_of_ofSource? h
      have hspans : ∀ c ∈ changes, c.1 ∈ d.leafRows := fun c hc =>
        hleaves.subset (List.mem_cons_of_mem _ (List.mem_map_of_mem hc))
      have hr : r ∈ d.leafRows := hleaves.subset List.mem_cons_self
      have hordered := hcut.ordered.sublist hleaves
      rw [List.map_cons, List.pairwise_cons, List.forall_mem_map, List.pairwise_map] at hordered
      obtain ⟨hfirst, hordered⟩ := hordered
      -- the leaves behind do not touch this one
      have hapart : ∀ c ∈ changes, r.span.stop + 1 ≤ c.1.span.start := by
        intro c hc
        refine Nat.lt_of_le_of_ne (hfirst c hc) fun htouch => ?_
        obtain ⟨b, hb, hname⟩ := exists_isNameByte h (hspans c hc) (hspelled c hc)
        rw [← htouch] at hb
        simp [(ht.behind b hb).1] at hname
      obtain ⟨hlt, hle⟩ := hcut.nonempty r hr
      have ht₁ : r.Respells (source.respell changes) t := ht.of_take_eq hlt.le
        (Text.take_respell (fun c hc => ⟨hapart c hc, hcut.nonempty c.1 (hspans c hc)⟩) hordered)
      have hr₁ : r ∈ d₁.leafRows := by
        have hstays : ∀ i ≤ r.span.stop, Text.respelledAt changes i = i := fun i hi =>
          Text.respelledAt_of_lt fun c hc =>
            ((hi.trans (hfirst c hc)).trans_lt (hcut.nonempty c.1 (hspans c hc)).1)
        rw [leafRows_of_rows_eq hrows₁]
        refine List.mem_map.mpr ⟨r, hr, ?_⟩
        rw [Row.carry, Span.carry, hstays _ hlt.le, hstays _ le_rfl]
      obtain ⟨d', hd', hrows'⟩ := rows_replace hd₁ hr₁ ht₁
      refine ⟨d', hd', ?_⟩
      rw [hrows', hrows₁, List.map_map, Row.carry_comp_carry]
      rfl

/-- A state that gets the name of a keyword, and a number that gets longer. -/
theorem rows_respelled_of_state :
    ∃ d d', ofSource? (Text.ofString "fun f()returns()let automaton state A do x=1 end tel") =
        some d ∧
      ofSource? (Text.ofString "fun f()returns()let automaton state until do x=1.5 end tel") =
        some d' ∧
      ∃ f, d'.rows = d.rows.map (.carry f f) ∧ f 44 = 50 := by
  have haccepts : accepts
      (Text.ofString "fun f()returns()let automaton state A do x=1 end tel") = true := by
    decide +kernel
  obtain ⟨d, hd⟩ := Option.isSome_iff_exists.mp haccepts
  have hrows : (ofSource? (Text.ofString
      "fun f()returns()let automaton state A do x=1 end tel")).map (fun d =>
        d.leafRows.filter (fun r => r.label ∈ [.named .stateIdentifier, .named .lNumber])) =
      some [⟨4, .named .stateIdentifier, false, ⟨36, 37⟩⟩, ⟨9, .named .lNumber, false, ⟨43, 44⟩⟩] := by
    decide +kernel
  rw [hd, Option.map_some, Option.some.injEq] at hrows
  have hstate : (⟨4, .named .stateIdentifier, false, ⟨36, 37⟩⟩ : Row).Respells
      (Text.ofString "fun f()returns()let automaton state A do x=1 end tel")
      (Text.ofString "until") :=
    ⟨by decide, (Label.spells_named_iff (c := .stateIdentifier)).mpr
      (mem_stateIdentifier_iff.mpr ⟨117, _, rfl, by decide, by decide +kernel⟩), by simp,
      by decide +kernel, by decide +kernel⟩
  have hnumber : (⟨9, .named .lNumber, false, ⟨43, 44⟩⟩ : Row).Respells
      (Text.ofString "fun f()returns()let automaton state A do x=1 end tel")
      (Text.ofString "1.5") :=
    ⟨by decide, (Label.spells_named_iff (c := .lNumber)).mpr (mem_lNumber_iff.mpr
      ⟨49, [], by decide, by simp, .inr ⟨53, [], by decide, by simp, rfl⟩⟩), by simp,
      by decide +kernel, by decide +kernel⟩
  have hleaves : List.Sublist
      ([((⟨4, .named .stateIdentifier, false, ⟨36, 37⟩⟩ : Row), Text.ofString "until"),
        (⟨9, .named .lNumber, false, ⟨43, 44⟩⟩, Text.ofString "1.5")].map Prod.fst) d.leafRows := by
    rw [List.map_cons, List.map_singleton, ← hrows]
    exact List.filter_sublist
  obtain ⟨d', hd', hrows'⟩ := rows_respelled hd hleaves
    (List.forall_mem_cons.mpr ⟨hstate, List.forall_mem_singleton.mpr hnumber⟩)
  exact ⟨d, d', hd, hd', _, hrows', by decide +kernel⟩

end Document

end Heptagon
