import Heptagon.Proofs.Layout.Rescanning

/-!
# Scanning a text with two parentheses more

A parenthesis goes on with nothing, and but for a comment nothing goes on with
it.  So if parentheses are put directly around some items of a source, which do
not start with an asterisk, the items stay, and the parentheses are two more
(`scan_parenthesize`).
-/

namespace Heptagon

/-- The source with parentheses around what is at a span. -/
def Text.parenthesize (source : Text) (s : Span) : Text :=
  source.take s.start ++ 40 :: (source.slice s ++ 41 :: source.drop s.stop)

theorem Text.length_parenthesize {source : Text} {s : Span} (hs : s.start ≤ s.stop)
    (hstop : s.stop ≤ source.length) : (source.parenthesize s).length = source.length + 2 := by
  simp only [parenthesize, slice, List.length_append, List.length_cons, List.length_take,
    List.length_drop]
  omega

namespace Item

/-- An opening parenthesis is a lexeme unless it starts a comment. -/
theorem first?_parenOpen {rest : Text} (h : rest.head? ≠ some 42) :
    first? (40 :: rest) = some (.lexeme (.symbol .parenOpen), [40], rest) := by
  rw [first?_cons fun _ => h]
  rfl

theorem first?_parenClose (rest : Text) :
    first? (41 :: rest) = some (.lexeme (.symbol .parenClose), [41], rest) := rfl

end Item

/-- A scan can be cut directly behind each of its items. -/
theorem Text.Scans.split_after {offset stop : Nat} {t rest : Text}
    {before after : List (Placed Item)} {i : Placed Item}
    (h : t.Scans offset (before ++ i :: after) stop rest) :
    ∃ u, t.Scans offset (before ++ [i]) i.span.stop u ∧ u.Scans i.span.stop after stop rest := by
  obtain ⟨b, taken, u, hb, hbefore, hfirst, hstop, hafter⟩ := h.split
  obtain ⟨item, ⟨start, stop'⟩⟩ := i
  obtain rfl : stop' = start + (b :: taken).length := hstop
  exact ⟨u, hbefore.trans (.item hb hfirst .done), hafter⟩

/-- Parentheses around some items of a source. -/
theorem scan_parenthesize {source : Text} {before inner after : List (Placed Item)}
    {first last : Placed Item}
    (h : scan source = some (before ++ (inner ++ after)))
    (hfirst : first ∈ inner.head?) (hlast : last ∈ inner.getLast?)
    (hstar : (source.drop first.span.start).head? ≠ some 42) :
    scan (source.parenthesize ⟨first.span.start, last.span.stop⟩) = some (before ++
      ⟨.lexeme (.symbol .parenOpen), ⟨first.span.start, first.span.start + 1⟩⟩ ::
        (inner.map (.moveBy 1) ++
          ⟨.lexeme (.symbol .parenClose), ⟨last.span.stop + 1, last.span.stop + 2⟩⟩ ::
            after.map (.moveBy 2))) := by
  obtain ⟨init, hinit⟩ := List.getLast?_eq_some_iff.mp hlast
  obtain ⟨more, hmore⟩ := List.head?_eq_some_iff.mp hfirst
  have hitems : before ++ (inner ++ after) = before ++ first :: (more ++ after) := by simp [hmore]
  rw [hitems] at h
  obtain ⟨b, taken, hb, hdrop, hitem, hstop, hafter, hchange⟩ := scan_cut h
  -- the items from the first one on, cut behind the last one
  have hscans : Text.Scans first.span.start (source.drop first.span.start) (init ++ last :: after)
      source.length [] := by
    have hcons : init ++ last :: after = first :: (more ++ after) := by
      rw [← List.cons_append, ← hmore, hinit]
      simp
    obtain ⟨item, ⟨start, stop⟩⟩ := first
    obtain rfl : stop = start + (b :: taken).length := hstop
    rw [hcons, hdrop]
    exact .item hb hitem hafter
  obtain ⟨u, hinner, hback⟩ := hscans.split_after
  rw [← hinit] at hinner
  have hclose : u.Interrupts (41 :: u) := .of_head (by simp [breaksOff])
  obtain ⟨v, hv, hinner'⟩ := hinner.congr hclose
  obtain ⟨v', hv', hend⟩ := hinner.exists_append
  obtain rfl : v' = v := List.append_cancel_right (hv'.symm.trans hv)
  have hslice : source.slice ⟨first.span.start, last.span.stop⟩ = v' := by
    rw [hend]
    exact Text.slice_eq hv
  have hrest : source.drop last.span.stop = u := by
    rw [hend]
    exact Text.drop_add_length v' hv
  have hopen : (v' ++ 41 :: u).head? ≠ some 42 := by
    rw [hv] at hstar
    cases v' with
    | nil => simp
    | cons c v' => exact hstar
  have hlength : first.span.start + (40 :: (v' ++ 41 :: u)).length = source.length + 2 := by
    obtain ⟨w, hw, hstop⟩ := hback.exists_append
    obtain rfl : u = w := by simpa using hw
    simp only [List.length_cons, List.length_append]
    omega
  rw [Text.parenthesize, hslice, hrest]
  refine hchange (.of_head (by simp [breaksOff])) ?_
  rw [hlength]
  refine .item (by decide) (Item.first?_parenOpen hopen) ((hinner'.moveBy 1).trans ?_)
  exact .item (by decide) (Item.first?_parenClose u) (hback.moveBy 2)

end Heptagon
