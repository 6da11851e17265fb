import Heptagon.Proofs.Document.Respacing
import Heptagon.Proofs.Program.Concatenation
import Heptagon.Proofs.Respelling.Settling

/-!
# Layouts one behind the other

The nodes of a layout are those of its first part and those of its second part,
where each part is read as a program (`Document.nodes?_ofItems_append`).

1. The two texts are read one after the other, at first (`Layout.joined_append`)
   and in the end (`Layout.reading?_append`).
2. The nodes of the readings follow each other (`Program.placed?_append`).
3. The comments between the two parts belong to the first one; in front of the
   second one they would be nodes as well, at the same place
   (`Document.nodes?_addComment`).
-/

namespace Heptagon

/-! ## Two layouts -/

namespace Layout

/-- One layout behind another one, whose last comments are then those before its first lexeme. -/
def append (l m : Layout) : Layout :=
  ⟨l.written ++ (l.trailing.foldr addComment m).written, (l.trailing.foldr addComment m).trailing⟩

theorem ofItems_append (xs ys : List (Placed Item)) :
    ofItems (xs ++ ys) = (ofItems xs).append (ofItems ys) := by
  induction xs with
  | nil => rfl
  | cons i xs ih =>
      obtain ⟨item, span⟩ := i
      cases item with
      | lexeme x =>
          rw [List.cons_append, ofItems, ih]
          rfl
      | comment =>
          rw [List.cons_append, ofItems, ih, ofItems]
          generalize ofItems xs = l
          obtain ⟨_ | ⟨w, written⟩, trailing⟩ := l <;> rfl

theorem lexemes_addComment (c : Span) (l : Layout) : (l.addComment c).lexemes = l.lexemes := by
  obtain ⟨_ | ⟨w, written⟩, trailing⟩ := l <;> rfl

theorem lexemes_foldr_addComment (cs : List Span) (l : Layout) :
    (cs.foldr addComment l).lexemes = l.lexemes := by
  induction cs with
  | nil => rfl
  | cons c cs ih => rw [List.foldr_cons, lexemes_addComment, ih]

variable {l m : Layout} {p q : Program}

theorem lexemes_append : (l.append m).lexemes = l.lexemes ++ m.lexemes := by
  rw [← m.lexemes_foldr_addComment l.trailing]
  exact List.map_append

theorem slots_append (hl : l.trailing = []) : (l.append m).slots = l.slots ++ m.slots := by
  rw [append, hl]
  exact List.map_append

theorem commentCounts_append (hl : l.trailing = []) :
    (l.append m).commentCounts = l.commentCounts ++ m.commentCounts := by
  rw [commentCounts, slots_append hl, List.map_append]
  rfl

/-- The lexemes of a layout are those of the program that it is read as. -/
theorem lexemes_eq (hshown : l.lexemes.map Lexeme.shown = l.lexemes)
    (hp : Program.ofLexemes? l.joined = some p) :
    l.lexemes = p.units.flatten.map Lexeme.shown := by
  rw [← hshown, ← l.map_shown_joined, (Program.ofLexemes?_eq_some_iff.mp hp).1]

theorem length_slots (h : l.lexemes = p.units.flatten.map Lexeme.shown) :
    l.slots.length = p.units.flatten.length := by
  have hlength := congrArg List.length h
  rw [lexemes, List.length_map, List.length_map] at hlength
  rw [slots, List.length_map, hlength]

/-- Where two programs meet, nothing is read across. -/
theorem joined_append (hlp : l.lexemes = p.units.flatten.map Lexeme.shown)
    (hmq : m.lexemes = q.units.flatten.map Lexeme.shown) :
    (l.append m).joined = l.joined ++ m.joined := by
  rw [joined, joined, joined, lexemes_append, hlp, hmq, Program.separateTargets_append]

/-- A program is cut where the layout is cut that is read as it. -/
theorem ofLexemes?_joined_of_append (h : Program.ofLexemes? (l.append m).joined = some (p ++ q))
    (hshown : (l.append m).lexemes.map Lexeme.shown = (l.append m).lexemes)
    (hlength : l.written.length = p.units.flatten.length) :
    Program.ofLexemes? l.joined = some p ∧ Program.ofLexemes? m.joined = some q := by
  obtain ⟨hjoined, hfits⟩ := Program.ofLexemes?_eq_some_iff.mp h
  obtain ⟨hp, hq⟩ := Program.fits_append.mp hfits
  have hlexemes := lexemes_eq hshown h
  rw [Program.units_append, List.flatten_append, List.map_append, lexemes_append] at hlexemes
  obtain ⟨hlp, hmq⟩ := List.append_inj hlexemes
    (by rw [lexemes, List.length_map, List.length_map, hlength])
  rw [joined_append hlp hmq, Program.units_append, List.flatten_append] at hjoined
  have hlengths := congrArg List.length l.map_shown_joined
  rw [List.length_map, List.length_map, lexemes, List.length_map, hlength] at hlengths
  obtain ⟨hljoined, hmjoined⟩ := List.append_inj hjoined hlengths
  exact ⟨Program.ofLexemes?_eq_some_iff.mpr ⟨hljoined, hp⟩,
    Program.ofLexemes?_eq_some_iff.mpr ⟨hmjoined, hq⟩⟩

/-- A layout that is read is read in the end as well. -/
theorem reading?_eq_some_iff {r : Program} (hp : Program.ofLexemes? l.joined = some p) :
    l.reading? = some r ↔ Program.ofLexemes? l.settled = some r := by
  obtain ⟨q, hq⟩ := Option.isSome_iff_exists.mp (isSome_settled hp)
  simp [reading?, hp, hq]

section

variable (hlshown : l.lexemes.map Lexeme.shown = l.lexemes)
  (hmshown : m.lexemes.map Lexeme.shown = m.lexemes) (hp : Program.ofLexemes? l.joined = some p)
  (hq : Program.ofLexemes? m.joined = some q)

include hlshown hmshown hp hq

theorem ofLexemes?_joined_append : Program.ofLexemes? (l.append m).joined = some (p ++ q) := by
  rw [joined_append (lexemes_eq hlshown hp) (lexemes_eq hmshown hq)]
  exact Program.ofLexemes?_append hp hq

/-- The parentheses that open no call are set apart in each of two layouts. -/
theorem settled_append (hl : l.trailing = []) : (l.append m).settled = l.settled ++ m.settled := by
  obtain ⟨hpjoined, hpfits⟩ := Program.ofLexemes?_eq_some_iff.mp hp
  have hlength : l.commentCounts.length = p.units.flatten.length := by
    rw [← length_slots (lexemes_eq hlshown hp), commentCounts, List.length_map]
  rw [settled, setApart_eq (ofLexemes?_joined_append hlshown hmshown hp hq),
    joined_append (lexemes_eq hlshown hp) (lexemes_eq hmshown hq), commentCounts_append hl, hpjoined,
    Program.parensIn_append hlength,
    Lexeme.separateAt_append_map fun i => Program.lt_of_mem_parensIn hpfits, settled, settled,
    setApart_eq hp, setApart_eq hq, hpjoined]

theorem reading?_append (hl : l.trailing = []) :
    (l.append m).reading? = l.reading?.bind fun r => m.reading?.map (r ++ ·) := by
  obtain ⟨r, hr⟩ := Option.isSome_iff_exists.mp (isSome_settled hp)
  obtain ⟨r', hr'⟩ := Option.isSome_iff_exists.mp (isSome_settled hq)
  rw [(reading?_eq_some_iff hp).mpr hr, (reading?_eq_some_iff hq).mpr hr',
    (reading?_eq_some_iff (ofLexemes?_joined_append hlshown hmshown hp hq)).mpr
      (by rw [settled_append hlshown hmshown hp hq hl]; exact Program.ofLexemes?_append hr hr')]
  rfl

end

/-- Where a program starts, no enumeration goes on. -/
theorem enumerationsWhole_append (hl : l.trailing = []) (hm : ∀ x ∈ m.lexemes.head?, ∃ k, x = .kw k) :
    enumerationsWhole (l.append m).written =
      (enumerationsWhole l.written && enumerationsWhole m.written) := by
  rw [append, hl, List.foldr_nil, Bool.eq_iff_iff, Bool.and_eq_true, enumerationsWhole_iff,
    enumerationsWhole_iff, enumerationsWhole_iff, List.isChain_append]
  refine ⟨fun h => ⟨h.1, h.2.1⟩, fun h => ⟨h.1, h.2, fun w _ v hv t _ hbar => ?_⟩⟩
  obtain ⟨k, hk⟩ := hm v.1 (by rw [lexemes, List.head?_map, Option.mem_def.mp hv]; rfl)
  exact absurd (hk.symm.trans hbar) (by simp)

theorem joined_addComment (c : Span) (l : Layout) : (l.addComment c).joined = l.joined := by
  rw [joined, lexemes_addComment, joined]

/-- A comment in front makes no difference to how a layout is read. -/
theorem settled_addComment (c : Span) (hp : Program.ofLexemes? l.joined = some p) :
    (l.addComment c).settled = l.settled := by
  have hjoined := l.joined_addComment c
  rw [settled, settled, setApart_eq hp, setApart_eq (hjoined ▸ hp), hjoined]
  obtain ⟨_ | ⟨w, written⟩, trailing⟩ := l
  · rfl
  · congr 1
    exact Program.parensIn_cons _ _ _ _ _

theorem Reads.ne_nil (h : l.Reads p) (hl : l.written ≠ []) : p ≠ [] := by
  rintro rfl
  have hlength := congrArg List.length h.2
  rw [List.length_map, List.length_map, lexemes, List.length_map] at hlength
  exact hl (List.length_eq_zero_iff.mp hlength.symm)

theorem enumerationsWhole_addComment (c : Span) (l : Layout) :
    enumerationsWhole (l.addComment c).written = enumerationsWhole l.written := by
  obtain ⟨_ | ⟨w, written⟩, trailing⟩ := l
  · rfl
  · rw [Bool.eq_iff_iff, enumerationsWhole_iff, enumerationsWhole_iff, addComment, List.isChain_cons,
      List.isChain_cons]
    exact Iff.rfl

end Layout

/-! ## Nodes of two programs -/

/-- The slots of a text can be cut where its lexemes are cut. -/
theorem Slot.Stand.of_append {source : Text} {offset stop : Nat} {ls ms : List Lexeme}
    {slots more : List Slot} (h : Slot.Stand source stop offset (ls ++ ms) (slots ++ more))
    (hlength : slots.length = ls.length) : ∃ middle,
      Slot.Stand source middle offset ls slots ∧ Slot.Stand source stop middle ms more := by
  induction ls generalizing offset slots with
  | nil =>
      obtain rfl := List.length_eq_zero_iff.mp hlength
      exact ⟨offset, .nil, h⟩
  | cons l ls ih =>
      obtain ⟨s, slots, rfl⟩ := List.exists_cons_of_length_eq_add_one hlength
      cases h with
      | cons hcomments hstart hspan htext htoken hrest =>
          obtain ⟨middle, hfront, hback⟩ := ih hrest (by simpa using hlength)
          exact ⟨middle, .cons hcomments hstart hspan htext htoken hfront, hback⟩

namespace Program

variable {source : Text} {offset stop : Nat} {l m : Layout} {p q : Program}

theorem placed?_eq_reading? (hstand : Slot.Stand source stop offset l.lexemes l.slots) :
    placed? l = l.reading?.bind (·.place l.slots) := by
  ext nodes
  rw [placed?_eq_some_iff_reading? hstand, Option.bind_eq_some_iff]

/-- The nodes of two programs, one behind the other, follow each other. -/
theorem placed?_append (hstand : Slot.Stand source stop offset (l.append m).lexemes (l.append m).slots)
    (hl : l.trailing = []) (hlshown : l.lexemes.map Lexeme.shown = l.lexemes)
    (hmshown : m.lexemes.map Lexeme.shown = m.lexemes) (hp : ofLexemes? l.joined = some p)
    (hq : ofLexemes? m.joined = some q) :
    placed? (l.append m) = (placed? l).bind fun ns => (placed? m).map (ns ++ ·) := by
  obtain ⟨r, hr⟩ := Option.isSome_iff_exists.mp (Layout.isSome_settled hp)
  obtain ⟨r', hr'⟩ := Option.isSome_iff_exists.mp (Layout.isSome_settled hq)
  have hread := (Layout.reading?_eq_some_iff hp).mpr hr
  have hread' := (Layout.reading?_eq_some_iff hq).mpr hr'
  have hreads := Layout.reads_of_settled hr
  have hslots : l.slots.length = r.units.flatten.length :=
    Layout.length_slots (hlshown.symm.trans hreads.2.symm)
  have hcut := hstand
  rw [Layout.lexemes_append, Layout.slots_append hl] at hcut
  obtain ⟨middle, hfront, hback⟩ := hcut.of_append (by simp [Layout.slots, Layout.lexemes])
  rw [placed?_eq_reading? hstand, placed?_eq_reading? hfront, placed?_eq_reading? hback,
    Layout.reading?_append hlshown hmshown hp hq hl, hread, hread', Layout.slots_append hl]
  exact place_append hreads.1 hslots

/-- A comment before the first lexeme is a node in front. -/
theorem place_addComment (c : Span) (hp : p ≠ []) (hl : l.written ≠ []) :
    p.place (l.addComment c).slots = (p.place l.slots).map (.comment false c :: ·) := by
  obtain ⟨_ | ⟨⟨x, ⟨cs, s⟩⟩, written⟩, trailing⟩ := l
  · exact absurd rfl hl
  · exact place_cons_comment c cs s hp

theorem placed?_addComment (c : Span) (hl : l.written ≠ []) (hp : ofLexemes? l.joined = some p) :
    placed? (l.addComment c) = (placed? l).map (.comment false c :: ·) := by
  obtain ⟨r, hr⟩ := Option.isSome_iff_exists.mp (Layout.isSome_settled hp)
  have hjoined := l.joined_addComment c
  have hfirst := place_addComment c ((l.reads_of_joined hp).ne_nil hl) hl
  have hlast := place_addComment c ((l.reads_of_settled hr).ne_nil hl) hl
  simp only [placed?, Option.bind_eq_bind, Option.pure_def, Layout.divided_eq hp,
    Layout.divided_eq (hjoined ▸ hp), hjoined, Layout.settled_addComment c hp, hp, hr,
    Option.bind_some, hfirst, hlast]
  cases p.place l.slots <;> cases r.place l.slots <;> rfl

end Program

/-! ## Nodes of two layouts -/

namespace Document

variable {source : Text} {offset stop : Nat} {l m : Layout} {p q : Program}

theorem nodes?_of_trailing (l : Layout) :
    nodes? l = (nodes? ⟨l.written, []⟩).map (· ++ l.trailing.map (.comment false)) := by
  have hplaced : Program.placed? ⟨l.written, []⟩ = Program.placed? l := rfl
  rw [nodes?, nodes?, hplaced]
  split
  · cases Program.placed? l <;> simp
  · rfl

theorem nodes?_addComment (c : Span) (hp : Program.ofLexemes? l.joined = some p) :
    nodes? (l.addComment c) = (nodes? l).map (.comment false c :: ·) := by
  by_cases hl : l.written = []
  · obtain ⟨written, trailing⟩ := l
    obtain rfl : written = [] := hl
    rfl
  · have htrailing : (l.addComment c).trailing = l.trailing := by
      obtain ⟨_ | ⟨w, written⟩, trailing⟩ := l
      · exact absurd rfl hl
      · rfl
    rw [nodes?, nodes?, Layout.enumerationsWhole_addComment, Program.placed?_addComment c hl hp,
      htrailing]
    split
    · cases Program.placed? l <;> rfl
    · rfl

theorem nodes?_foldr_addComment (cs : List Span) (hp : Program.ofLexemes? l.joined = some p) :
    nodes? (cs.foldr Layout.addComment l) = (nodes? l).map (cs.map (.comment false) ++ ·) := by
  induction cs with
  | nil => simp
  | cons c cs ih =>
      have hjoined : (cs.foldr Layout.addComment l).joined = l.joined := by
        rw [Layout.joined, Layout.lexemes_foldr_addComment, Layout.joined]
      rw [List.foldr_cons, nodes?_addComment c (hjoined ▸ hp), ih, Option.map_map]
      rfl

/-- The nodes of two layouts that write programs follow each other. -/
theorem nodes?_append (hstand : Slot.Stand source stop offset (l.append m).lexemes (l.append m).slots)
    (hlshown : l.lexemes.map Lexeme.shown = l.lexemes)
    (hmshown : m.lexemes.map Lexeme.shown = m.lexemes) (hp : Program.ofLexemes? l.joined = some p)
    (hq : Program.ofLexemes? m.joined = some q) :
    nodes? (l.append m) = (nodes? l).bind fun ns => (nodes? m).map (ns ++ ·) := by
  have hnodes := nodes?_foldr_addComment l.trailing hq
  have hlexemes := m.lexemes_foldr_addComment l.trailing
  -- the comments behind the first program stand in front of the second one
  obtain ⟨m', hm'⟩ : ∃ m', m' = l.trailing.foldr Layout.addComment m := ⟨_, rfl⟩
  have happend : l.append m = Layout.append ⟨l.written, []⟩ m' := by rw [hm']; rfl
  have hjoined : m'.joined = m.joined := by rw [Layout.joined, hm', hlexemes, Layout.joined]
  rw [← hm'] at hnodes hlexemes
  rw [happend] at hstand ⊢
  have hplaced := Program.placed?_append (l := ⟨l.written, []⟩) hstand rfl hlshown
    (hlexemes ▸ hmshown) hp (hjoined ▸ hq)
  have hhead : ∀ x ∈ m'.lexemes.head?, ∃ k, x = .kw k := by
    rw [hlexemes, Layout.lexemes_eq hmshown hq]
    exact q.exists_head?_units
  have htrailing : (Layout.append ⟨l.written, []⟩ m').trailing = m'.trailing := rfl
  have hboth : nodes? (Layout.append ⟨l.written, []⟩ m') =
      (nodes? ⟨l.written, []⟩).bind fun ns => (nodes? m').map (ns ++ ·) := by
    rw [nodes?, nodes?, nodes?, Layout.enumerationsWhole_append rfl hhead, hplaced, htrailing]
    cases Layout.enumerationsWhole l.written <;> cases Layout.enumerationsWhole m'.written <;>
      cases Program.placed? ⟨l.written, []⟩ <;> cases Program.placed? m' <;> simp
  rw [hboth, hnodes, nodes?_of_trailing l]
  cases nodes? ⟨l.written, []⟩ <;> cases nodes? m <;> simp

/-- The nodes of a layout further on in a text are further on. -/
theorem nodes?_moveBy (n : Nat) (l : Layout) :
    nodes? (l.mapSpans (.moveBy n)) = (nodes? l).map (·.map (.moveBy n)) := by
  have hjoined : (l.mapSpans (.moveBy n)).joined = l.joined := by simp [Layout.joined]
  have hslots : (l.mapSpans (.moveBy n)).slots = l.slots.map (.moveBy n) := Layout.slots_mapSpans
  have htrailing : (l.mapSpans (.moveBy n)).trailing.map (Node.comment false) =
      (l.trailing.map (Node.comment false)).map (.moveBy n) := by
    simp [Layout.mapSpans, Node.moveBy]
  have hdivided : ∀ p, (l.mapSpans (.moveBy n)).divided p = l.divided p := fun p => by
    simp [Layout.divided, Program.parens, hjoined]
  have hplaced : Program.placed? (l.mapSpans (.moveBy n)) =
      (Program.placed? l).map (·.map (.moveBy n)) := by
    simp only [Program.placed?, hjoined, hslots, hdivided, Program.place_moveBy,
      Option.bind_eq_bind, Option.pure_def]
    cases Program.ofLexemes? l.joined with
    | none => rfl
    | some p =>
        simp only [Option.bind_some]
        cases p.place l.slots with
        | none => rfl
        | some nodes =>
            simp only [Option.map_some, Option.bind_some]
            cases Program.ofLexemes? (l.divided p) with
            | none => rfl
            | some r =>
                simp only [Option.bind_some]
                cases r.place l.slots <;> rfl
  rw [nodes?, nodes?, Layout.enumerationsWhole_mapSpans, hplaced, htrailing]
  split
  · cases Program.placed? l <;> simp
  · rfl

end Document

end Heptagon
