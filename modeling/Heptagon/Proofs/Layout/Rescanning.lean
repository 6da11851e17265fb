import Heptagon.Proofs.Layout.Item

/-!
# Scanning a changed text

`Text.Scans` is the scanner without its count of steps.  It says which items
stand at the front of a text and what follows them, so that a scan can be cut
behind any item and put together again (`Text.Scans.split`,
`Text.Scans.trans`).  What follows the items may change if the new text starts
with a byte that goes on with no lexeme (`Text.Scans.congr`).

The changes of this file put something there that starts with a blank or with a
comment.

* A comment is replaced by blanks, and the other items stay
  (`scan_replace_blanks`).
* A comment is replaced by another one of the same length, and all items stay
  (`scan_replace_comment`).
* A comment is put behind a lexeme, and the items after it move on
  (`scan_insert_comment`).
-/

namespace Heptagon

/-- Some items stand at the front of the text that starts at an offset; the rest of the text starts
at another one. -/
inductive Text.Scans : (offset : Nat) → Text → List (Placed Item) → (stop : Nat) → Text → Prop
  | done {offset : Nat} {rest : Text} : Scans offset rest [] offset rest
  | blank {offset stop : Nat} {b : UInt8} {t rest : Text} {items : List (Placed Item)}
      (hb : isBlank b = true) (h : Scans (offset + 1) t items stop rest) :
      Scans offset (b :: t) items stop rest
  | item {offset stop : Nat} {b : UInt8} {t taken after rest : Text} {item : Item}
      {items : List (Placed Item)} (hb : isBlank b = false)
      (hfirst : Item.first? (b :: t) = some (item, taken, after))
      (h : Scans (offset + taken.length) after items stop rest) :
      Scans offset (b :: t) (⟨item, ⟨offset, offset + taken.length⟩⟩ :: items) stop rest

/-- The span from where one that starts there does to where one that stops there does. -/
def Span.carry (start stop : Nat → Nat) (s : Span) : Span := ⟨start s.start, stop s.stop⟩

/-- The span further on in a text. -/
def Span.moveBy (n : Nat) (s : Span) : Span := ⟨s.start + n, s.stop + n⟩

/-- The item further on in a text. -/
def Placed.moveBy (n : Nat) (i : Placed Item) : Placed Item := ⟨i.value, i.span.moveBy n⟩

namespace Text.Scans

variable {offset stop : Nat} {t rest : Text} {items : List (Placed Item)}

/-- What is scanned stands in front of the rest. -/
theorem exists_append (h : t.Scans offset items stop rest) :
    ∃ u, t = u ++ rest ∧ stop = offset + u.length := by
  induction h with
  | done => exact ⟨[], rfl, rfl⟩
  | @blank offset stop b t rest items hb _ ih =>
      obtain ⟨u, rfl, rfl⟩ := ih
      exact ⟨b :: u, rfl, by simp; omega⟩
  | @item offset stop b t taken after rest item items hb hfirst _ ih =>
      obtain ⟨u, rfl, rfl⟩ := ih
      refine ⟨taken ++ u, ?_, by simp; omega⟩
      rw [(Item.takes_of_first? hfirst).append, List.append_assoc]

theorem trans {middle : Nat} {t' : Text} {items' : List (Placed Item)}
    (h : t.Scans offset items middle t') (h' : t'.Scans middle items' stop rest) :
    t.Scans offset (items ++ items') stop rest := by
  induction h with
  | done => exact h'
  | blank hb _ ih => exact .blank hb (ih h')
  | item hb hfirst _ ih => exact .item hb hfirst (ih h')

/-- A scan can be cut before each of its items. -/
theorem split {before after : List (Placed Item)} {i : Placed Item}
    (h : t.Scans offset (before ++ i :: after) stop rest) :
    ∃ b taken u, isBlank b = false ∧ t.Scans offset before i.span.start (b :: taken ++ u) ∧
      Item.first? (b :: taken ++ u) = some (i.value, b :: taken, u) ∧
      i.span.stop = i.span.start + (b :: taken).length ∧ u.Scans i.span.stop after stop rest := by
  generalize hitems : before ++ i :: after = items at h
  induction h generalizing before with
  | done => simp at hitems
  | blank hb _ ih =>
      obtain ⟨c, taken, u, hc, hbefore, hfirst, hstop, hafter⟩ := ih hitems
      exact ⟨c, taken, u, hc, .blank hb hbefore, hfirst, hstop, hafter⟩
  | @item offset stop b t taken u rest item items hb hfirst h ih =>
      cases before with
      | nil =>
          obtain ⟨rfl, rfl⟩ := List.cons.inj hitems
          obtain ⟨happend, hne, -⟩ := Item.takes_of_first? hfirst
          obtain ⟨c, taken, rfl⟩ := List.exists_cons_of_ne_nil hne
          obtain ⟨rfl, rfl⟩ := List.cons.inj happend
          exact ⟨b, taken, u, hb, .done, hfirst, rfl, h⟩
      | cons j before =>
          obtain ⟨rfl, hrest⟩ := List.cons.inj hitems
          obtain ⟨c, taken', u', hc, hbefore, hfirst', hstop, hafter⟩ := ih hrest
          exact ⟨c, taken', u', hc, .item hb hfirst hbefore, hfirst', hstop, hafter⟩

/-- The items stand behind the offset, and none of them is empty. -/
theorem bounds (h : t.Scans offset items stop rest) :
    ∀ i ∈ items, offset ≤ i.span.start ∧ i.span.start < i.span.stop := by
  induction h with
  | done => simp
  | blank _ _ ih => exact fun i hi => ⟨(Nat.le_succ _).trans (ih i hi).1, (ih i hi).2⟩
  | @item offset _ _ _ taken _ _ _ items _ hfirst _ ih =>
      obtain ⟨-, hne, -⟩ := Item.takes_of_first? hfirst
      have hpos := List.length_pos_iff.mpr hne
      refine List.forall_mem_cons.mpr ⟨⟨Nat.le_refl _, by simpa using hpos⟩,
        fun i hi => ⟨(Nat.le_add_right _ _).trans (ih i hi).1, (ih i hi).2⟩⟩

/-- A scan can be cut directly before each of its items. -/
theorem split_before {before after : List (Placed Item)} {i : Placed Item}
    (h : t.Scans offset (before ++ i :: after) stop rest) :
    ∃ u, t.Scans offset before i.span.start u ∧ u.Scans i.span.start (i :: after) stop rest := by
  obtain ⟨b, taken, u, hb, hbefore, hfirst, hstop, hafter⟩ := h.split
  refine ⟨_, hbefore, ?_⟩
  obtain ⟨item, ⟨start, stop'⟩⟩ := i
  simp only at hstop hafter hfirst ⊢
  subst hstop
  exact .item hb hfirst hafter

/-- The text behind the items may change if each lexeme before it stays. -/
theorem congr_of_lexemes (h : t.Scans offset items stop rest) {rest' : Text}
    (hstays : ∀ v taken u l, t = v ++ (taken ++ (u ++ rest)) →
      Item.first? (taken ++ (u ++ rest)) = some (.lexeme l, taken, u ++ rest) →
      Item.first? (taken ++ (u ++ rest')) = some (.lexeme l, taken, u ++ rest')) :
    ∃ u, t = u ++ rest ∧ (u ++ rest').Scans offset items stop rest' := by
  induction h with
  | done => exact ⟨[], rfl, .done⟩
  | @blank _ _ b _ _ _ hb _ ih =>
      obtain ⟨u, rfl, hu⟩ := ih fun v taken u l ht =>
        hstays (b :: v) taken u l (by rw [ht, List.cons_append])
      exact ⟨b :: u, rfl, .blank hb hu⟩
  | @item offset stop b t taken after rest item items hb hfirst _ ih =>
      obtain ⟨happend, hne, -⟩ := Item.takes_of_first? hfirst
      obtain ⟨u, rfl, hu⟩ := ih fun v taken' u l ht =>
        hstays (taken ++ v) taken' u l (by rw [happend, ht, List.append_assoc])
      have hfirst' : Item.first? (taken ++ (u ++ rest')) = some (item, taken, u ++ rest') := by
        cases item with
        | lexeme l => exact hstays [] taken u l happend (happend ▸ hfirst)
        | comment => exact Item.first?_comment_congr hfirst _
      obtain ⟨c, taken, rfl⟩ := List.exists_cons_of_ne_nil hne
      obtain ⟨rfl, rfl⟩ := List.cons.inj happend
      refine ⟨b :: taken ++ u, by simp, ?_⟩
      rw [List.append_assoc]
      exact .item hb hfirst' hu

/-- The text behind the items may change from a break on. -/
theorem congr (h : t.Scans offset items stop rest) {rest' : Text} (hrest : rest.Interrupts rest') :
    ∃ u, t = u ++ rest ∧ (u ++ rest').Scans offset items stop rest' :=
  h.congr_of_lexemes fun _ _ u _ _ hfirst => Item.first?_lexeme_congr hfirst (hrest.append_left u)

theorem moveBy (h : t.Scans offset items stop rest) (n : Nat) :
    t.Scans (offset + n) (items.map (.moveBy n)) (stop + n) rest := by
  induction h with
  | done => exact .done
  | @blank offset _ _ _ _ _ hb _ ih =>
      rw [Nat.add_right_comm] at ih
      exact .blank hb ih
  | @item offset _ _ _ taken _ _ _ _ hb hfirst _ ih =>
      rw [Nat.add_right_comm] at ih
      have := Scans.item hb hfirst ih
      rwa [Nat.add_right_comm] at this

/-- Blanks are scanned as nothing. -/
theorem blanks {n : Nat} (h : t.Scans (offset + n) items stop rest) :
    Scans offset (List.replicate n 32 ++ t) items stop rest := by
  induction n generalizing offset with
  | zero => exact h
  | succ n ih => exact .blank (by decide) (ih (by rwa [Nat.add_right_comm]))

theorem shown_eq (h : t.Scans offset items stop rest) {l : Lexeme} {s : Span}
    (hmem : ⟨.lexeme l, s⟩ ∈ items) : l.shown = l := by
  induction h with
  | done => simp at hmem
  | blank _ _ ih => exact ih hmem
  | item _ hfirst _ ih =>
      rcases List.mem_cons.mp hmem with heq | hmem
      · obtain ⟨rfl, -⟩ := Placed.mk.inj heq
        exact Item.shown_of_first? hfirst
      · exact ih hmem

/-- The scanner needs as many steps as there are bytes. -/
theorem scanFrom_eq (h : t.Scans offset items stop []) {fuel : Nat} (hfuel : t.length ≤ fuel) :
    scanFrom fuel offset t = some items := by
  generalize hrest : ([] : Text) = rest at h
  induction h generalizing fuel with
  | done =>
      subst hrest
      cases fuel <;> rfl
  | blank hb _ ih =>
      obtain ⟨fuel, rfl⟩ : ∃ n, fuel = n + 1 := ⟨fuel - 1, by simp at hfuel; omega⟩
      rw [scanFrom, if_pos hb]
      exact ih (by simpa using hfuel) hrest
  | @item offset stop b t taken after rest item items hb hfirst _ ih =>
      obtain ⟨happend, hne, -⟩ := Item.takes_of_first? hfirst
      have hlength := congrArg List.length happend
      have hpos := List.length_pos_iff.mpr hne
      simp only [List.length_append, List.length_cons] at hlength hfuel
      obtain ⟨fuel, rfl⟩ : ∃ n, fuel = n + 1 := ⟨fuel - 1, by omega⟩
      rw [scanFrom, if_neg (by simp [hb]), hfirst]
      have hafter : after.length ≤ fuel := by omega
      simp [ih hafter hrest]

end Text.Scans

theorem Text.scans_of_scanFrom {fuel offset : Nat} {t : Text} {items : List (Placed Item)}
    (h : scanFrom fuel offset t = some items) : t.Scans offset items (offset + t.length) [] := by
  fun_induction scanFrom fuel offset t generalizing items with
  | case1 =>
      obtain rfl := by simpa using h
      exact .done
  | case2 => simp at h
  | case3 fuel offset b t hb ih =>
      have := ih h
      rw [Nat.add_right_comm] at this
      exact .blank hb this
  | case4 fuel offset b t hb ih =>
      simp only [Option.bind_eq_bind, Option.bind_eq_some_iff, Prod.exists, Option.pure_def,
        Option.some.injEq] at h
      obtain ⟨item, taken, after, hfirst, items', hitems, rfl⟩ := h
      have hlength := congrArg List.length (Item.takes_of_first? hfirst).append
      simp only [List.length_append] at hlength
      have hafter := ih _ _ hitems
      rw [Nat.add_assoc, ← hlength] at hafter
      exact .item (by simpa using hb) hfirst hafter

/-! ## Whole sources -/

/-- No item starts like the mark that may stand in front of a source. -/
theorem Text.not_scans_mark {offset stop : Nat} {t : Text} {items : List (Placed Item)} :
    ¬ Scans offset (0xEF :: t) items stop [] := by
  intro h
  cases h with
  | blank hb _ => simp [isBlank] at hb
  | @item _ _ _ _ taken _ _ item _ _ hfirst _ =>
      cases item with
      | lexeme l =>
          obtain ⟨happend, -, hspells⟩ := Item.takes_of_first? hfirst
          obtain ⟨b, u, htext, -, hmark⟩ := hspells.2.exists_text
          rw [← hspells.1, htext] at happend
          exact hmark (List.cons.inj happend).1.symm
      | comment =>
          obtain ⟨us, body, heq, -, -⟩ := Item.exists_close?_of_first? hfirst
          simp at heq

/-- A source is scanned behind the mark that may stand in front of it. -/
theorem scan_eq_some_iff {source : Text} {items : List (Placed Item)} :
    scan source = some items ↔ ∃ mark text : Text, source = mark ++ text ∧
      (mark = [] ∨ mark = Text.leadingMark) ∧ text.Scans mark.length items source.length [] := by
  constructor
  · intro h
    unfold scan at h
    split at h
    · next hmark =>
        obtain ⟨text, rfl⟩ := List.isPrefixOf_iff_prefix.mp hmark
        rw [List.drop_left] at h
        exact ⟨_, text, rfl, .inr rfl, by simpa using Text.scans_of_scanFrom h⟩
    · exact ⟨[], source, rfl, .inl rfl, by simpa using Text.scans_of_scanFrom h⟩
  · rintro ⟨mark, text, rfl, rfl | rfl, h⟩
    · unfold scan
      rw [if_neg]
      · exact h.scanFrom_eq (by simp)
      · intro hmark
        obtain ⟨u, rfl⟩ := List.isPrefixOf_iff_prefix.mp hmark
        exact Text.not_scans_mark h
    · unfold scan
      rw [if_pos (List.isPrefixOf_iff_prefix.mpr (List.prefix_append _ _)), List.drop_left]
      exact h.scanFrom_eq (by simp)

theorem shown_eq_of_scan {source : Text} {items : List (Placed Item)}
    (h : scan source = some items) {l : Lexeme} {s : Span} (hmem : ⟨.lexeme l, s⟩ ∈ items) :
    l.shown = l := by
  obtain ⟨mark, text, rfl, -, hscans⟩ := scan_eq_some_iff.mp h
  exact hscans.shown_eq hmem

/-- The source with other bytes in place of a span. -/
def Text.replace (source : Text) (s : Span) (t : Text) : Text :=
  source.take s.start ++ t ++ source.drop s.stop

/-- What a source is before, at and behind one of its items, and what it is if the text from the
item on is changed. -/
theorem scan_cut {source : Text} {before after : List (Placed Item)} {i : Placed Item}
    (h : scan source = some (before ++ i :: after)) :
    ∃ b taken, isBlank b = false ∧ source.drop i.span.start = b :: taken ++ source.drop i.span.stop ∧
      Item.first? (b :: taken ++ source.drop i.span.stop) =
        some (i.value, b :: taken, source.drop i.span.stop) ∧
      i.span.stop = i.span.start + (b :: taken).length ∧
      Text.Scans i.span.stop (source.drop i.span.stop) after source.length [] ∧
      ∀ {rest : Text} {items : List (Placed Item)},
        Text.Interrupts (b :: taken ++ source.drop i.span.stop) rest →
        rest.Scans i.span.start items (i.span.start + rest.length) [] →
        scan (source.take i.span.start ++ rest) = some (before ++ items) := by
  obtain ⟨mark, text, rfl, hmark, hscans⟩ := scan_eq_some_iff.mp h
  obtain ⟨b, taken, rest, hb, hbefore, hfirst, hstop, hafter⟩ := hscans.split
  obtain ⟨u, rfl, hstart⟩ := hbefore.exists_append
  have hsplit : mark ++ (u ++ (b :: taken ++ rest)) = mark ++ u ++ (b :: taken ++ rest) := by simp
  have hlength : i.span.start = (mark ++ u).length := by simpa using hstart
  have hdrop : (mark ++ (u ++ (b :: taken ++ rest))).drop i.span.start = b :: taken ++ rest := by
    rw [hsplit, hlength, List.drop_left]
  have hdrop' : (mark ++ (u ++ (b :: taken ++ rest))).drop i.span.stop = rest := by
    rw [hstop, ← List.drop_drop, hdrop, List.drop_left]
  have htake : (mark ++ (u ++ (b :: taken ++ rest))).take i.span.start = mark ++ u := by
    rw [hsplit, hlength, List.take_left]
  refine ⟨b, taken, hb, by rw [hdrop, hdrop'], by rw [hdrop']; exact hfirst, hstop,
    by rw [hdrop']; exact hafter, fun {rest' items} hrest hitems => ?_⟩
  rw [hdrop'] at hrest
  obtain ⟨u', hu', hfront⟩ := hbefore.congr hrest
  obtain rfl : u = u' := List.append_cancel_right hu'
  refine scan_eq_some_iff.mpr ⟨mark, u ++ rest', by rw [htake, List.append_assoc], hmark, ?_⟩
  have hend : ((mark ++ (u ++ (b :: taken ++ rest))).take i.span.start ++ rest').length =
      i.span.start + rest'.length := by
    rw [htake, List.length_append, hlength]
  rw [hend]
  exact hfront.trans hitems

/-- The items of a source follow each other. -/
theorem Item.Stand.pairwise {source : Text} {offset : Nat} {items : List (Placed Item)}
    (h : Stand source offset items) :
    (∀ i ∈ items, offset ≤ i.span.start ∧ i.span.start < i.span.stop) ∧
      items.Pairwise fun i j => i.span.stop ≤ j.span.start := by
  induction items generalizing offset with
  | nil => simp
  | cons i items ih =>
      obtain ⟨⟨hstart, -⟩, hspan, -, hrest⟩ := h
      obtain ⟨hle, hpairwise⟩ := ih hrest
      refine ⟨List.forall_mem_cons.mpr ⟨⟨hstart, hspan⟩, fun j hj => ⟨?_, (hle j hj).2⟩⟩,
        List.pairwise_cons.mpr ⟨fun j hj => (hle j hj).1, hpairwise⟩⟩
      exact hstart.trans (hspan.le.trans (hle j hj).1)

section

variable {source : Text} {before after : List (Placed Item)}

/-- Blanks in place of a comment. -/
theorem scan_replace_blanks {c : Span} (h : scan source = some (before ++ ⟨.comment, c⟩ :: after)) :
    scan (source.replace c (List.replicate (c.stop - c.start) 32)) = some (before ++ after) := by
  obtain ⟨b, taken, -, hdrop, -, hstop, hafter, hchange⟩ := scan_cut h
  simp only at hdrop hstop hafter hchange
  have hlength : c.stop - c.start = taken.length + 1 := by simp [hstop]
  have hsource := congrArg List.length hdrop
  simp only [List.length_drop, List.length_append, List.length_cons] at hsource
  rw [Text.replace, List.append_assoc]
  refine hchange (.of_head ?_) ?_
  · rw [hlength]
    simp [List.replicate_succ, breaksOff, isBlank]
  · have hend : c.start + (List.replicate (c.stop - c.start) 32 ++ source.drop c.stop).length =
        source.length := by
      simp only [List.length_append, List.length_replicate, List.length_drop]
      omega
    rw [hend]
    have hstart : c.start + (c.stop - c.start) = c.stop := by omega
    exact Text.Scans.blanks (by rwa [hstart])

/-- Another comment in place of one of the same length. -/
theorem scan_replace_comment {c : Span} {t : Text}
    (h : scan source = some (before ++ ⟨.comment, c⟩ :: after)) (ht : Comment.Spells t)
    (hzero : ∀ b ∈ t, b ≠ 0) (hlength : t.length = c.stop - c.start) :
    scan (source.replace c t) = some (before ++ ⟨.comment, c⟩ :: after) := by
  obtain ⟨b, taken, -, hdrop, -, hstop, hafter, hchange⟩ := scan_cut h
  simp only [List.length_cons] at hdrop hstop hafter hchange
  have hsource := congrArg List.length hdrop
  simp only [List.length_drop, List.length_append, List.length_cons] at hsource
  have hend : c.start + (t ++ source.drop c.stop).length = source.length := by
    simp only [List.length_append, List.length_drop]
    omega
  obtain ⟨start, stop⟩ := c
  obtain rfl : stop = start + t.length := by simp only at hstop hlength; omega
  have hfirst := Item.first?_of_spells ht hzero (source.drop (start + t.length))
  obtain ⟨body, rfl, -⟩ := ht.exists_closes
  rw [Text.replace, List.append_assoc]
  refine hchange (.of_head (by simp [breaksOff])) ?_
  rw [hend]
  exact .item (by decide) hfirst hafter

/-- A comment with blanks around it behind a lexeme. -/
theorem scan_insert_comment {l : Lexeme} {s : Span} {t : Text}
    (h : scan source = some (before ++ ⟨.lexeme l, s⟩ :: after)) (ht : Comment.Spells t)
    (hzero : ∀ b ∈ t, b ≠ 0) :
    scan (source.replace ⟨s.stop, s.stop⟩ (32 :: t ++ [32])) =
      some (before ++ ⟨.lexeme l, s⟩ :: ⟨.comment, ⟨s.stop + 1, s.stop + 1 + t.length⟩⟩ ::
        after.map (.moveBy (t.length + 2))) := by
  obtain ⟨b, taken, hb, hdrop, hfirst, hstop, hafter, hchange⟩ := scan_cut h
  simp only at hdrop hfirst hstop hafter hchange
  have hrest : Text.Interrupts (source.drop s.stop) (32 :: (t ++ 32 :: source.drop s.stop)) :=
    .of_head (by simp [breaksOff, isBlank])
  have hcomment := Item.first?_of_spells ht hzero (32 :: source.drop s.stop)
  have hlexeme := Item.first?_lexeme_congr hfirst hrest
  have htake : source.take s.stop = source.take s.start ++ b :: taken := by
    rw [hstop, List.take_add, hdrop, List.take_left]
  have hend : s.start + (b :: taken ++ 32 :: (t ++ 32 :: source.drop s.stop)).length =
      source.length + (t.length + 2) := by
    have hsource := congrArg List.length hdrop
    simp only [List.length_drop, List.length_append, List.length_cons] at hsource ⊢
    omega
  rw [Text.replace, htake]
  have hsplit : source.take s.start ++ b :: taken ++ (32 :: t ++ [32]) ++ source.drop s.stop =
      source.take s.start ++ (b :: taken ++ 32 :: (t ++ 32 :: source.drop s.stop)) := by simp
  rw [hsplit]
  refine hchange (hrest.append_left _) ?_
  rw [hend]
  obtain ⟨start, stop⟩ := s
  obtain rfl : stop = start + (b :: taken).length := hstop
  -- the lexeme, a blank, the comment, a blank, and what was behind the lexeme
  refine .item hb hlexeme (.blank (by decide) ?_)
  have hmoved := hafter.moveBy (t.length + 2)
  obtain ⟨body, rfl, -⟩ := ht.exists_closes
  refine .item (by decide) hcomment (.blank (by decide) ?_)
  have hstart : start + (b :: taken).length + 1 + (40 :: 42 :: body).length + 1 =
      start + (b :: taken).length + ((40 :: 42 :: body).length + 2) := by omega
  rw [hstart]
  exact hmoved

end

end Heptagon
