import Heptagon.Proofs.Document.Replacing
import Heptagon.Proofs.Layout.Parenthesizing
import Heptagon.Proofs.Parenthesizing.Node

/-!
# Layouts with two parentheses more

If parentheses are put around some lexemes of a source, its layout has these two
more (`Layout.exists_parenthesize`).  The comments before the lexemes then stand
before the new parenthesis.
-/

namespace Heptagon

/-- An expression does not start with an asterisk. -/
theorem Lexeme.IsToken.head?_text_ne {x : Lexeme} (h : x.IsToken) (hstarts : x.startsExpr = true) :
    x.text.head? ≠ some 42 := by
  cases x with
  | word w =>
      obtain ⟨b, t, quotes, htext, hb, -⟩ := mem_identifier_iff.mp h.2
      rw [text, htext]
      rintro heq
      obtain rfl : b = 42 := by simpa using heq
      simp [isSmall] at hb
  | capital t => simp [startsExpr] at hstarts
  | number t =>
      obtain ⟨b, u, hb, -, heq⟩ := mem_lNumber_iff.mp h
      rintro hhead
      obtain rfl : b = 42 := by
        rcases heq with rfl | ⟨d, v, -, -, rfl⟩ <;> simpa [text] using hhead
      simp [isDigit] at hb
  | symbol s => cases s <;> first | decide | simp [startsExpr] at hstarts
  | apart => decide

namespace Layout

variable {items before : List (Placed Item)} {ws mid back : List (Lexeme × Slot)} {x : Lexeme}
  {cs : List Span} {s : Span}

/-- Items can be cut behind a lexeme. -/
theorem exists_items_of_append (h : (ofItems items).written = mid ++ back) :
    ∃ more after, items = more ++ after ∧ ofItems more = ⟨mid, []⟩ ∧
      ofItems after = ⟨back, (ofItems items).trailing⟩ ∧
      more.getLast?.map (·.span) = mid.getLast?.map (·.2.span) := by
  rcases List.eq_nil_or_concat mid with rfl | ⟨init, ⟨y, t⟩, rfl⟩
  · exact ⟨[], items, rfl, rfl, by rw [← List.nil_append back, ← h], rfl⟩
  · obtain ⟨more, after, rfl, hmore, hafter⟩ := exists_items (by simpa using h)
    rw [ofItems_append_lexeme]
    exact ⟨more ++ [⟨.lexeme y, t.span⟩], after, by simp,
      by simp [ofItems_append_lexeme, hmore, ofItems], by rw [← hafter], by simp⟩

theorem ofItems_map_moveBy (n : Nat) (items : List (Placed Item)) :
    ofItems (items.map (.moveBy n)) = (ofItems items).mapSpans (.moveBy n) := by
  rw [← ofItems_map]
  rfl

/-- The lexeme of a layout further on in a text. -/
def moved (n : Nat) (w : Lexeme × Slot) : Lexeme × Slot := (w.1, w.2.moveBy n)

/-- The lexemes of a source with parentheses around some of them. -/
def inParens (s : Span) (ws : List (Lexeme × Slot)) (x : Lexeme) (first : Slot)
    (mid back : List (Lexeme × Slot)) : List (Lexeme × Slot) :=
  ws ++ (.symbol .parenOpen, ⟨first.comments, ⟨s.start, s.start + 1⟩⟩) ::
    (((x, ⟨[], first.span⟩) :: mid).map (moved 1) ++
      (.symbol .parenClose, ⟨[], ⟨s.stop + 1, s.stop + 2⟩⟩) :: back.map (moved 2))

variable {source : Text} {first : Slot}

/-- Parentheses around some lexemes of a source, the first of which can start an expression. -/
theorem exists_parenthesize (hscan : scan source = some items)
    (hwritten : (ofItems items).written = ws ++ (x, first) :: (mid ++ back))
    (hstart : first.span.start = s.start)
    (hstop : ∃ w ∈ ((x, first) :: mid).getLast?, w.2.span.stop = s.stop)
    (hstarts : x.startsExpr = true) :
    ∃ items', scan (source.parenthesize s) = some items' ∧
      ofItems items' =
        ⟨inParens s ws x first mid back, (ofItems items).trailing.map (.moveBy 2)⟩ ∧
      items'.head?.map (·.span.start) = items.head?.map (·.span.start) := by
  obtain ⟨before, rest, rfl, hbefore, hrest⟩ := exists_items hwritten
  obtain ⟨more, after, rfl, hmore, hafter, hlast⟩ := exists_items_of_append hrest
  have htrailing : (ofItems (before ++ ⟨.lexeme x, first.span⟩ :: (more ++ after))).trailing =
      (ofItems after).trailing := by
    rw [ofItems_append_lexeme, hafter]
  obtain ⟨last, hlast', hstop'⟩ : ∃ last ∈ (⟨.lexeme x, first.span⟩ :: more).getLast?,
      last.span.stop = s.stop := by
    obtain ⟨w, hw, hstop⟩ := hstop
    refine ⟨_, List.getLast?_cons, ?_⟩
    obtain rfl : mid.getLast?.getD (x, first) = w := by simpa [List.getLast?_cons] using hw
    cases hmid : mid.getLast? <;> cases hmore' : more.getLast? <;> simp_all
  have hhead : (source.drop first.span.start).head? ≠ some 42 := by
    obtain ⟨b, taken, -, hdrop, hitem, -, -, -⟩ := scan_cut hscan
    obtain ⟨-, -, htext, htoken⟩ := Item.takes_of_first? hitem
    rw [hdrop, ← htext, List.head?_append_of_ne_nil]
    · exact htoken.head?_text_ne hstarts
    · simp [htext]
  rw [← List.cons_append] at hscan
  have hnew := scan_parenthesize hscan rfl hlast' hhead
  rw [hstop', hstart] at hnew
  refine ⟨_, hnew, ?_, ?_⟩
  · have hinner : ofItems ((⟨.lexeme x, first.span⟩ :: more).map (.moveBy 1)) =
        ⟨((x, ⟨[], first.span⟩) :: mid).map (moved 1), []⟩ := by
      rw [ofItems_map_moveBy, ofItems, hmore]
      rfl
    rw [ofItems_append_lexeme, ofItems_append_lexeme, hbefore, hinner, ofItems_map_moveBy, htrailing,
      inParens, hafter]
    rfl
  · cases before with
    | nil => simp [hstart]
    | cons i before => rfl

/-- A parenthesis neither ends an enumeration nor goes on with one. -/
theorem enumerationsWhole_inParens
    (h : enumerationsWhole (ws ++ (x, first) :: (mid ++ back)) = true) :
    enumerationsWhole (inParens s ws x first mid back) = true := by
  have hmoved : ∀ {n : Nat} {ws : List (Lexeme × Slot)}, ws.IsChain Whole →
      (ws.map (moved n)).IsChain Whole := fun h =>
    (List.isChain_map _).mpr (h.imp fun _ _ h => whole_mapSpans.mpr h)
  rw [enumerationsWhole_iff] at h ⊢
  obtain ⟨hws, hinner, -⟩ := List.isChain_append.mp h
  rw [← List.cons_append] at hinner
  obtain ⟨hmid, hback, -⟩ := List.isChain_append.mp hinner
  obtain ⟨hfirst, hmid⟩ := List.isChain_cons.mp hmid
  rw [inParens, isChain_whole_iff (by simp) (by simp), isChain_whole_iff (by simp) (by simp)]
  exact ⟨hws, hmoved (List.isChain_cons.mpr ⟨hfirst, hmid⟩), hmoved hback⟩

theorem map_fst_inParens : (inParens s ws x first mid back).map Prod.fst =
    ws.map Prod.fst ++ .symbol .parenOpen ::
      (x :: mid.map Prod.fst ++ .symbol .parenClose :: back.map Prod.fst) := by
  simp [inParens, moved, Function.comp_def]

theorem map_snd_inParens : (inParens s ws x first mid back).map Prod.snd =
    ws.map Prod.snd ++ Slot.inParens s first (mid.map Prod.snd) (back.map Prod.snd) := by
  simp [inParens, Slot.inParens, moved, Function.comp_def]

/-- The layout of a source with parentheses around an expression. -/
theorem exists_items_of_wraps {w : Tree} {ls : List Leaf} {slots' : List Slot} {us' : List Lexeme}
    (hscan : scan source = some items) (hslots : Slot.Wraps s w ls (ofItems items).slots slots')
    (htext : Lexeme.Wraps w ls (ofItems items).lexemes us') :
    ∃ items', scan (source.parenthesize s) = some items' ∧ (ofItems items').lexemes = us' ∧
      (ofItems items').slots = slots' ∧
      (ofItems items').trailing = (ofItems items).trailing.map (.moveBy 2) ∧
      (enumerationsWhole (ofItems items).written = true →
        enumerationsWhole (ofItems items').written = true) ∧
      items'.head?.map (·.span.start) = items.head?.map (·.span.start) := by
  obtain ⟨front, first, middle, back, heq, rfl, hfront, hwidth, hstart, last, hlast, hstop⟩ :=
    hslots
  obtain ⟨before, inner, after, hlexemes, rfl, hbefore, hinner, x, hx, hstarts⟩ := htext
  obtain ⟨xs, rfl⟩ := List.head?_eq_some_iff.mp hx
  have hbefore : before.length = front.length := by
    rw [hfront, ← hbefore, List.length_map]
  have hinner : xs.length = middle.length := by
    have := congrArg List.length hinner
    rw [List.length_map, Tree.length_flatMap_leaves, ← hwidth, List.length_cons] at this
    omega
  have hafter : after.length = back.length := by
    have hlength : (ofItems items).lexemes.length = (ofItems items).slots.length := by
      rw [lexemes, slots, List.length_map, List.length_map]
    simp only [hlexemes, heq, List.length_append, List.length_cons] at hlength
    omega
  have hwritten : (ofItems items).written =
      before.zip front ++ (x, first) :: (xs.zip middle ++ after.zip back) := by
    rw [written_eq_zip, hlexemes, heq, List.cons_append, List.zip_append hbefore,
      List.zip_cons_cons, List.zip_append hinner]
  have hmiddle : first :: middle = ((x, first) :: xs.zip middle).map Prod.snd := by
    rw [List.map_cons, List.map_snd_zip hinner.ge]
  have hend : ∃ w ∈ ((x, first) :: xs.zip middle).getLast?, w.2.span.stop = s.stop := by
    rw [hmiddle, List.getLast?_map] at hlast
    obtain ⟨w, hw, rfl⟩ := Option.map_eq_some_iff.mp hlast
    exact ⟨w, hw, hstop⟩
  obtain ⟨items', hscan', hitems', hhead⟩ := exists_parenthesize hscan hwritten hstart hend hstarts
  refine ⟨items', hscan', ?_, ?_, ?_, ?_, hhead⟩
  · rw [lexemes, hitems', map_fst_inParens, List.map_fst_zip hbefore.le, List.map_fst_zip hinner.le,
      List.map_fst_zip hafter.le]
  · rw [slots, hitems', map_snd_inParens, List.map_snd_zip hbefore.ge, List.map_snd_zip hinner.ge,
      List.map_snd_zip hafter.ge]
  · rw [hitems']
  · intro hwhole
    rw [hwritten] at hwhole
    rw [hitems']
    exact enumerationsWhole_inParens hwhole

end Layout

end Heptagon
