import Heptagon.Proofs.Layout.Rescanning

/-!
# Scanning two sources as one

Two sources with a newline between them are scanned one after the other
(`scan_append_newline`), since no item goes on behind a newline, and no mark may
stand in front of the second one.  The other way round, a source can be cut in
front of any of its items: what is before it and what is from it on are scanned as
before (`scan_take_drop`).
-/

namespace Heptagon

/-- What is scanned further on in a text can be scanned by itself. -/
theorem Text.Scans.exists_moveBy {offset stop n : Nat} {t rest : Text} {items : List (Placed Item)}
    (h : t.Scans (offset + n) items stop rest) : ∃ items' stop',
      items = items'.map (.moveBy n) ∧ stop = stop' + n ∧ t.Scans offset items' stop' rest := by
  generalize hstart : offset + n = start at h
  induction h generalizing offset with
  | done => exact ⟨[], offset, rfl, hstart.symm, .done⟩
  | blank hb _ ih =>
      obtain ⟨items', stop', hitems, hstop, hscans⟩ := ih (by omega : offset + 1 + n = _)
      exact ⟨items', stop', hitems, hstop, .blank hb hscans⟩
  | @item start stop b t taken after rest item items hb hfirst _ ih =>
      obtain ⟨items', stop', rfl, hstop, hscans⟩ := ih (by omega : offset + taken.length + n = _)
      refine ⟨_ :: items', stop', ?_, hstop, .item hb hfirst hscans⟩
      rw [List.map_cons, Placed.moveBy, Span.moveBy, ← hstart, Nat.add_right_comm]

section

variable {source a b : Text} {before after items items' : List (Placed Item)} {i : Placed Item}

/-- Two sources with a newline between them are scanned one after the other. -/
theorem scan_append_newline (ha : scan a = some items) (hb : scan b = some items')
    (hmark : ¬ Text.leadingMark <+: b) :
    scan (a ++ newline :: b) = some (items ++ items'.map (.moveBy (a.length + 1))) := by
  obtain ⟨mark, text, rfl, hmarks, hscans⟩ := scan_eq_some_iff.mp ha
  obtain ⟨mark', text', rfl, rfl | rfl, hscans'⟩ := scan_eq_some_iff.mp hb
  · have hbreak : Text.Interrupts [] (newline :: ([] ++ text')) :=
      .of_head (by simp [breaksOff, isBlank, newline])
    obtain ⟨u, hu, hfront⟩ := hscans.congr hbreak
    obtain rfl : text = u := by simpa using hu
    have hback := hscans'.moveBy ((mark ++ text).length + 1)
    rw [List.length_nil, Nat.zero_add] at hback
    refine scan_eq_some_iff.mpr ⟨mark, text ++ newline :: text', by simp, hmarks, ?_⟩
    have hend : (mark ++ text ++ newline :: ([] ++ text')).length =
        ([] ++ text').length + ((mark ++ text).length + 1) := by
      simp only [List.length_append, List.length_cons, List.length_nil]
      omega
    rw [hend]
    exact hfront.trans (.blank (by decide) hback)
  · exact absurd (List.prefix_append _ _) hmark

/-- What is before an item of a source and what is from it on are scanned as before. -/
theorem scan_take_drop (h : scan source = some (before ++ i :: after)) :
    scan (source.take i.span.start) = some before ∧
      ∃ items, scan (source.drop i.span.start) = some items ∧
        i :: after = items.map (.moveBy i.span.start) := by
  obtain ⟨mark, text, rfl, hmark, hscans⟩ := scan_eq_some_iff.mp h
  obtain ⟨rest, hfront, hback⟩ := hscans.split_before
  obtain ⟨u, rfl, hstart⟩ := hfront.exists_append
  have hlength : i.span.start = (mark ++ u).length := by rw [hstart, List.length_append]
  rw [← List.append_assoc] at hback ⊢
  rw [hlength, List.take_left, List.drop_left]
  rw [hlength] at hfront hback
  constructor
  · obtain ⟨u', hu', hscans'⟩ := hfront.congr (.of_head (by simp) : rest.Interrupts [])
    obtain rfl : u = u' := List.append_cancel_right hu'
    rw [List.append_nil] at hscans'
    exact scan_eq_some_iff.mpr ⟨mark, u, rfl, hmark, hscans'⟩
  · rw [← Nat.zero_add (mark ++ u).length] at hback
    obtain ⟨items, stop, hitems, hstop, hscans'⟩ := hback.exists_moveBy
    obtain rfl : stop = rest.length := by
      rw [List.length_append] at hstop
      omega
    exact ⟨items, scan_eq_some_iff.mpr ⟨[], rest, rfl, .inl rfl, hscans'⟩, hitems⟩

end

end Heptagon
