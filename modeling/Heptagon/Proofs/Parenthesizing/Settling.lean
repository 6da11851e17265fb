import Heptagon.Proofs.Document.Settling
import Heptagon.Proofs.Parenthesizing.Layout

/-!
# Setting parentheses apart in a text with two more

If the same parentheses are set apart in a source with two more, which stand
around an expression, then what is read there in the end differs by these two,
as what is read first does (`Slot.Wraps.separateFrom_eq`).
-/

namespace Heptagon

/-- Where what starts at an index is after parentheses have been put around a span. -/
def Span.startAround (s : Span) (i : Nat) : Nat :=
  if i < s.start then i else if i < s.stop then i + 1 else i + 2

theorem Span.startAround_injective (s : Span) : Function.Injective s.startAround := by
  intro i j h
  simp only [startAround] at h
  split at h <;> split at h <;> (try split at h) <;> (try split at h) <;> omega

/-- Nothing else starts where the new parenthesis does. -/
theorem Span.startAround_ne (s : Span) (i : Nat) : s.startAround i ≠ s.start := by
  simp only [startAround]
  split
  · omega
  · split <;> omega

/-- Slots inside the span move by one place, and those behind it by two. -/
theorem Slot.startAround_eq {s : Span} {front middle back : List Slot} {first : Slot}
    (hpairwise : (front ++ (first :: middle ++ back)).Pairwise fun s t =>
      s.span.stop ≤ t.span.start)
    (hspans : ∀ t ∈ front ++ (first :: middle ++ back), t.span.start < t.span.stop)
    (hstart : first.span.start = s.start)
    (hstop : ∃ last ∈ (first :: middle).getLast?, last.span.stop = s.stop) :
    (∀ t ∈ front, s.startAround t.span.start = t.span.start) ∧
      (∀ t ∈ first :: middle, s.startAround t.span.start = t.span.start + 1) ∧
      ∀ t ∈ back, s.startAround t.span.start = t.span.start + 2 := by
  obtain ⟨last, hlast, hstop⟩ := hstop
  obtain ⟨init, hinit⟩ := List.getLast?_eq_some_iff.mp hlast
  obtain ⟨-, hinside, hfront⟩ := List.pairwise_append.mp hpairwise
  obtain ⟨hinside, -, hback⟩ := List.pairwise_append.mp hinside
  have hle : ∀ t ∈ first :: middle, s.start ≤ t.span.start ∧ t.span.stop ≤ s.stop := by
    intro t ht
    constructor
    · rcases List.mem_cons.mp ht with rfl | ht
      · exact hstart.ge
      · have := (List.pairwise_cons.mp hinside).1 t ht
        have := hspans first (by simp)
        omega
    · rw [hinit] at ht hinside
      rcases List.mem_append.mp ht with ht | ht
      · have := (List.pairwise_append.mp hinside).2.2 t ht last (by simp)
        have := hspans last (by simp [hinit])
        omega
      · rw [List.mem_singleton.mp ht, hstop]
  refine ⟨fun t ht => ?_, fun t ht => ?_, fun t ht => ?_⟩
  · have := hspans t (by simp [ht])
    have := hfront t ht first (by simp)
    rw [Span.startAround, if_pos (by omega)]
  · have := hspans t (List.mem_append_right _ (List.mem_append_left _ ht))
    obtain ⟨hge, hlt⟩ := hle t ht
    rw [Span.startAround, if_neg (by omega), if_pos (by omega)]
  · have := hback last (by simp [hinit]) t ht
    have := hle last (by simp [hinit])
    have := hspans last (by simp [hinit])
    rw [Span.startAround, if_neg (by omega), if_neg (by omega)]

/-- If what is read first differs by two parentheses, and what is read in the end sets the same ones
apart, then it differs by two parentheses as well. -/
theorem Slot.Wraps.separateFrom_eq {s : Span} {w : Tree} {ls : List Leaf} {slots slots' : List Slot}
    {starts : List Nat} {ts ts' us us' : List Lexeme} (h : Wraps s w ls slots slots')
    (hpairwise : slots.Pairwise fun s t => s.span.stop ≤ t.span.start)
    (hspans : ∀ t ∈ slots, t.span.start < t.span.stop)
    (hts : Lexeme.Wraps w ls ts ts') (hus : Lexeme.Wraps w ls us us')
    (heq : Lexeme.separateFrom starts ts slots = us) :
    Lexeme.separateFrom (starts.map s.startAround) ts' slots' = us' := by
  obtain ⟨front, first, middle, back, rfl, rfl, hfront, hwidth, hstart, hstop⟩ := h
  rw [← List.cons_append] at hpairwise hspans heq
  obtain ⟨hstays, hmoves, hbehind⟩ := Slot.startAround_eq hpairwise hspans hstart hstop
  obtain ⟨before, inner, after, rfl, rfl, hbefore, hinner, -⟩ := hts
  obtain ⟨before', inner', after', rfl, rfl, hbefore', hinner', -⟩ := hus
  -- the parts of the first text are set apart as the parts of the second one
  have hbefore : before.length = front.length := by
    rw [hfront, ← hbefore, List.length_map]
  have hinner : inner.length = (first :: middle).length := by
    rw [List.length_cons, hwidth, ← Tree.length_flatMap_leaves, ← hinner, List.length_map]
  have hbefore' : before'.length = front.length := by
    rw [hfront, ← hbefore', List.length_map]
  have hinner' : inner'.length = (first :: middle).length := by
    rw [List.length_cons, hwidth, ← Tree.length_flatMap_leaves, ← hinner', List.length_map]
  rw [Lexeme.separateFrom_append hbefore, Lexeme.separateFrom_append hinner] at heq
  obtain ⟨hfirst, hrest⟩ := List.append_inj heq
    (by rw [Lexeme.length_separateFrom hbefore, hbefore, hbefore'])
  obtain ⟨hsecond, hthird⟩ := List.append_inj hrest
    (by rw [Lexeme.length_separateFrom hinner, hinner, hinner'])
  -- and start where the places are moved to
  have hmem : ∀ {i j}, s.startAround i = j → (j ∈ starts.map s.startAround ↔ i ∈ starts) := by
    rintro i j rfl
    exact List.mem_map_of_injective s.startAround_injective
  have hopen : (starts.map s.startAround).contains s.start = false := by
    simpa using fun i _ => s.startAround_ne i
  have hfront' : Lexeme.separateFrom (starts.map s.startAround) before front = before' :=
    (Lexeme.separateFrom_congr (List.forall₂_same.mpr fun t ht => hmem (hstays t ht))).trans hfirst
  have hmiddle' : Lexeme.separateFrom (starts.map s.startAround) inner
      ((⟨[], first.span⟩ :: middle).map (moveBy 1)) = inner' :=
    (Lexeme.separateFrom_congr (.cons (hmem (hmoves first (by simp)))
      (List.forall₂_map_right_iff.mpr (List.forall₂_same.mpr fun t ht =>
        hmem (hmoves t (by simp [ht])))))).trans hsecond
  have hback' :
      Lexeme.separateFrom (starts.map s.startAround) after (back.map (moveBy 2)) = after' :=
    (Lexeme.separateFrom_congr (List.forall₂_map_right_iff.mpr (List.forall₂_same.mpr fun t ht =>
      hmem (hbehind t ht)))).trans hthird
  rw [inParens, Lexeme.separateFrom_append hbefore, Lexeme.separateFrom_cons,
    Lexeme.separateFrom_append (by simpa using hinner), Lexeme.separateFrom_cons, hopen, hfront',
    hmiddle', hback']
  rfl

end Heptagon
