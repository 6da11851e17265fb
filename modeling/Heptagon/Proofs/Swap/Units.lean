import Heptagon.Proofs.Swap.Expr

/-!
# Texts after a swap

A swap takes place in a whole expression, before which something stands that
does not open or go on with a list (`Units.Turns`).  So whether a parenthesis is
set apart before the text is read is as it was, and no new one is
(`Units.Turns.joined`).
-/

namespace Heptagon

variable {w : Swap} {ls : List Leaf} {us us' vs : Units}

/-- Whether a lexeme may stand in a list of targets, or before it or behind it. -/
def Lexeme.lists : Lexeme → Bool
  | .symbol .parenOpen | .symbol .parenClose | .symbol .comma | .apart => true
  | _ => false

/-- The second text is the first one with the swap made in one of its expressions; nothing that
belongs to a list stands before this. -/
def Units.Turns (w : Swap) (ls : List Leaf) (us us' : Units) : Prop :=
  ∃ (front back : List Lexeme) (e e' : Expr) (ms ls' : List Leaf),
    us.flatten = front ++ (e.lexemes ++ back) ∧ us'.flatten = front ++ (e'.lexemes ++ back) ∧
    ls = ms ++ ls' ∧ front.map Lexeme.shown = ms.flatMap Leaf.lexemes ∧
    (∃ l ∈ front.getLast?, l.lists = false) ∧ e.Normal ∧ e.Turned w ls' e'

namespace Units.Turns

theorem append_right (h : Turns w ls us us') (vs : Units) : Turns w ls (us ++ vs) (us' ++ vs) := by
  obtain ⟨front, back, e, e', ms, ls', hus, hus', rest⟩ := h
  exact ⟨front, back ++ vs.flatten, e, e', ms, ls', by simp [hus], by simp [hus'], rest⟩

theorem append_left (h : Turns w ls us us') {ts : List Tree} (hts : Tree.unitsAll ts = vs.shown) :
    Turns w (Tree.leavesAll ts ++ ls) (vs ++ us) (vs ++ us') := by
  obtain ⟨front, back, e, e', ms, ls', hus, hus', rfl, hfront, ⟨l, hl, hlists⟩, rest⟩ := h
  refine ⟨vs.flatten ++ front, back, e, e', Tree.leavesAll ts ++ ms, ls', by simp [hus],
    by simp [hus'], by simp, ?_, ⟨l, ?_, hlists⟩, rest⟩
  · rw [List.map_append, hfront, ← Units.flatten_shown, ← hts, Tree.unitsAll, List.flatMap_append,
      List.flatMap_def, List.flatMap_def]
  · rw [List.getLast?_append_of_ne_nil]
    · exact hl
    · rintro rfl
      simp at hl

theorem append_tree (h : Turns w ls us us') {t : Tree} (ht : Tree.unitsAll [t] = vs.shown) :
    Turns w (t.leaves ++ ls) (vs ++ us) (vs ++ us') := by
  simpa using h.append_left ht

theorem cons (h : Turns w ls us us') {u : List Lexeme} {m : Leaf}
    (hu : m.lexemes = u.map Lexeme.shown) : Turns w (m :: ls) (u :: us) (u :: us') := by
  have hunits : Tree.unitsAll [.leaf m] = shown [u] := by simp [hu]
  exact h.append_left hunits

/-- An expression after a lexeme that belongs to no list. -/
theorem of_turned {e e' : Expr} (he : e.Normal) (h : e.Turned w ls e') {l : Lexeme} {m : Leaf}
    (hl : l.lists = false) (hm : m.lexemes = [l.shown]) :
    Turns w (m :: ls) ([l] :: ofLexemes e.lexemes) ([l] :: ofLexemes e'.lexemes) :=
  ⟨[l], [], e, e', [m], ls, by simp, by simp, rfl, by simp [hm], ⟨l, rfl, hl⟩, he, h⟩

/-- The text itself is one after the swap. -/
theorem lexemes (h : Turns w ls us us') : Lexeme.Turns w ls us.flatten us'.flatten := by
  obtain ⟨front, back, e, e', ms, ls', hus, hus', rfl, hfront, -, -, hturned⟩ := h
  rw [hus, hus']
  exact (hturned.lexemes.append_right back).append_left hfront

end Units.Turns

/-! ## Lists of parts -/

/-- The swap is made in one part of a list of parts. -/
theorem Tree.exists_turned_flatMap {α : Type} {R : α → α → Prop} {f : α → List Tree}
    {g : α → Units} (hrefl : ∀ a, R a a) (hunits : ∀ a, unitsAll (f a) = (g a).shown) {as : List α}
    (hf : ∀ a ∈ as, ∀ {ls ts'}, w.Allows ls → w.TurnsAll ls (f a) ts' →
      ∃ a', f a' = ts' ∧ R a a' ∧ Units.Turns w ls (g a) (g a')) {ts' : List Tree}
    (hls : w.Allows ls) (h : w.TurnsAll ls (as.flatMap f) ts') :
    ∃ as', as'.flatMap f = ts' ∧ List.Forall₂ R as as' ∧
      Units.Turns w ls (as.flatMap g) (as'.flatMap g) := by
  have hsame : ∀ bs : List α, List.Forall₂ R bs bs := fun bs =>
    List.forall₂_same.mpr fun a _ => hrefl a
  induction as generalizing ls ts' with
  | nil => simp at h
  | cons a as ih =>
      obtain ⟨ha, has⟩ := List.forall_mem_cons.mp hf
      rw [List.flatMap_cons] at h
      replace h := turnsAll_append.mp h
      obtain ⟨us, h, rfl⟩ | ⟨ms, us, rfl, h, rfl⟩ := h
      · obtain ⟨a', rfl, hR, hturns⟩ := ha hls h
        exact ⟨a' :: as, rfl, .cons hR (hsame as), by simpa using hturns.append_right _⟩
      · obtain ⟨as', rfl, hR, hturns⟩ := ih has hls.of_append h
        exact ⟨a :: as', rfl, .cons (hrefl a) hR, by simpa using hturns.append_left (hunits a)⟩

/-! ## Texts as they are read first -/

namespace Lexeme

variable {ts us us' : List Lexeme}

theorem holdsOperators_cons (hus : ∀ l ∈ us.head?, l.closes = false) (found : Bool) (x : Lexeme) :
    holdsOperators found (x :: us) = false := by
  cases us with
  | nil => cases x <;> rfl
  | cons y us =>
      have hy : y.closes = false := hus y rfl
      cases x with
      | word w =>
          cases y with
          | symbol s => cases s <;> first | rfl | simp [closes] at hy
          | _ => rfl
      | _ => rfl

/-- Whether a list of targets holds a word that needs an operand is decided before what stands
behind something that belongs to no list. -/
theorem holdsOperators_append_congr (hus : ∀ l ∈ us.head?, l.closes = false)
    (hus' : ∀ l ∈ us'.head?, l.closes = false) : (found : Bool) → (ts : List Lexeme) →
    (∃ l ∈ ts.getLast?, l.lists = false) →
      holdsOperators found (ts ++ us) = holdsOperators found (ts ++ us')
  | _, [], h => by simp at h
  | found, [x], _ => by
      rw [List.singleton_append, List.singleton_append, holdsOperators_cons hus,
        holdsOperators_cons hus']
  | _, [x, y], h => by
      have hy : y.lists = false := by simpa using h
      cases x with
      | word w =>
          cases y with
          | symbol s => cases s <;> first | rfl | simp [lists] at hy
          | _ => rfl
      | _ => rfl
  | found, x :: y :: z :: ts, h => by
      -- a name and a comma are passed over, and everything else decides
      have hlast : ∃ l ∈ (z :: ts).getLast?, l.lists = false := by simpa using h
      cases x with
      | word w =>
          cases y with
          | symbol s =>
              cases s with
              | comma => exact holdsOperators_append_congr hus hus' _ (z :: ts) hlast
              | parenClose =>
                  cases z with
                  | symbol s => cases s <;> rfl
                  | _ => rfl
              | _ => rfl
          | _ => rfl
      | _ => rfl

/-- What stands behind something that belongs to no list makes no difference to how what is before
it is read first. -/
theorem exists_joined_append (hus : ∀ l ∈ us.head?, l.closes = false)
    (hus' : ∀ l ∈ us'.head?, l.closes = false) : (ts : List Lexeme) →
    (∃ l ∈ ts.getLast?, l.lists = false) → ∃ front, front.map shown = ts.map shown ∧
      joined (ts ++ us) = front ++ joined us ∧ joined (ts ++ us') = front ++ joined us'
  | [], h => by simp at h
  | [x], h => by
      have hx : x.lists = false := by simpa using h
      have hopen : x ≠ .symbol .parenOpen := by rintro rfl; simp [lists] at hx
      have hapart : x ≠ .apart := by rintro rfl; simp [lists] at hx
      exact ⟨[x], rfl, joined_cons hopen hapart _, joined_cons hopen hapart _⟩
  | x :: y :: ts, h => by
      have hlast : ∃ l ∈ (y :: ts).getLast?, l.lists = false := by simpa using h
      obtain ⟨front, hfront, hjoined, hjoined'⟩ := exists_joined_append hus hus' (y :: ts) hlast
      generalize y :: ts = zs at hlast hfront hjoined hjoined' ⊢
      rw [List.cons_append, List.cons_append]
      by_cases hx : ∃ o : Opening, x = o.lexeme
      · obtain ⟨o, rfl⟩ := hx
        refine ⟨(if holdsOperators false (zs ++ us) then .apart else .symbol .parenOpen) ::
          front, ?_, ?_, ?_⟩
        · rw [List.map_cons, hfront, List.map_cons, Opening.shown_lexeme]
          split <;> rfl
        · rw [joined_opening, hjoined, List.cons_append]
        · rw [joined_opening, hjoined', List.cons_append,
            holdsOperators_append_congr hus hus' _ _ hlast]
      · have hopen : x ≠ .symbol .parenOpen := fun h => hx ⟨.plain, h⟩
        have hapart : x ≠ .apart := fun h => hx ⟨.apart, h⟩
        exact ⟨x :: front, by rw [List.map_cons, hfront, List.map_cons],
          by rw [joined_cons hopen hapart, hjoined, List.cons_append],
          by rw [joined_cons hopen hapart, hjoined', List.cons_append]⟩

end Lexeme

theorem Expr.closes_eq_false (e : Expr) (ts : List Lexeme) :
    ∀ l ∈ (e.lexemes ++ ts).head?, l.closes = false := by
  obtain ⟨x, xs, hxs, hx⟩ := e.exists_lexemes_eq_cons
  rw [hxs]
  rintro l hl
  obtain rfl : x = l := by simpa using hl
  cases x with
  | symbol s => cases s <;> first | rfl | simp [Lexeme.startsExpr] at hx
  | _ => rfl

/-- As it is read first, the text is one after the swap as well. -/
theorem Units.Turns.joined (h : Turns w ls us us') :
    Lexeme.Turns w ls (Lexeme.joined us.flatten) (Lexeme.joined us'.flatten) := by
  obtain ⟨front, back, e, e', ms, ls', hus, hus', rfl, hms, hlast, he, hturned⟩ := h
  obtain ⟨start, hstart, hjoined, hjoined'⟩ := Lexeme.exists_joined_append (e.closes_eq_false back)
    (e'.closes_eq_false back) front hlast
  rw [hus, hus', hjoined, hjoined', e.joined_lexemes_append he,
    e'.joined_lexemes_append hturned.normal]
  exact (hturned.lexemes.map_shown.append_right _).append_left (hstart.trans hms)

end Heptagon
