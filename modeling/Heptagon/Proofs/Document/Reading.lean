import Heptagon.Document
import Heptagon.Proofs.Division
import Heptagon.Proofs.Grammar.Tokens
import Heptagon.Proofs.Node.Placing

/-!
# What a document is made of

`Document.Shows` relates a document to the program that it shows: its children
stand in the source, they are the trees of the program with comments between
definitions, and the program is one that is read.  Every document shows a
program (`Document.exists_program`), whichever of its two readings stayed.
-/

namespace Heptagon

variable {source : Text}

/-! ## Layouts -/

/-- The lexemes of a scanned source stand in it, then the comments after them, then blanks. -/
theorem Layout.stand_ofItems {offset : Nat} {items : List (Placed Item)}
    (h : Item.Stand source offset items) :
    ∃ stop, Slot.Stand source stop offset (ofItems items).lexemes (ofItems items).slots ∧
      Node.StandFrom source stop ((ofItems items).trailing.map (.comment false)) ∧
      source.Blank (Node.stopFrom stop ((ofItems items).trailing.map (.comment false)))
        source.length := by
  induction items generalizing offset with
  | nil => exact ⟨offset, .nil, trivial, h⟩
  | cons item items ih =>
      obtain ⟨item, span⟩ := item
      obtain ⟨hstart, hspan, hspells, hrest⟩ := h
      obtain ⟨stop, hstand, htrailing, hend⟩ := ih hrest
      cases item with
      | lexeme l =>
          exact ⟨stop, .cons trivial hstart hspan hspells.1.symm hspells.2 hstand, htrailing, hend⟩
      | comment =>
          -- a comment is put to the next lexeme, or to the end if there is none
          simp only [ofItems, addComment]
          generalize ofItems items = l at hstand htrailing hend
          obtain ⟨written, trailing⟩ := l
          cases written with
          | nil =>
              cases hstand with
              | nil => exact ⟨offset, .nil, ⟨hstart, ⟨hspan, hspells⟩, htrailing⟩, hend⟩
          | cons first written =>
              refine ⟨stop, ?_, htrailing, hend⟩
              cases hstand with
              | cons hcomments hstart' hspan' htext htoken hrest' =>
                  exact .cons ⟨hstart, ⟨hspan, hspells⟩, hcomments⟩ hstart' hspan' htext htoken hrest'

theorem Layout.map_shown_joined (l : Layout) :
    l.joined.map Lexeme.shown = l.lexemes.map Lexeme.shown :=
  Lexeme.map_shown_separateTargets _

theorem Layout.map_shown_divided (l : Layout) (p : Program) :
    (l.divided p).map Lexeme.shown = l.lexemes.map Lexeme.shown :=
  (Lexeme.map_shown_separateAt _ _ _).trans l.map_shown_joined

/-! ## Programs over slots -/

/-- Comments between definitions stand where the comments of a slot do. -/
theorem Slot.Stand.commentsBetween {offset stop : Nat} {ls : List Lexeme} {slots : List Slot}
    (h : Slot.Stand source stop offset ls slots) {n : Node} {ns : List Node}
    (hstart : ∃ s ∈ slots.head?, n.start = s.span.start) (hn : n.Stands source)
    (hns : Node.StandFrom source n.stop ns) :
    Node.StandFrom source offset (Slot.commentsBetween slots ++ n :: ns) := by
  have hinside := h.commentsInside hstart hn hns
  cases slots with
  | nil => exact hinside
  | cons s slots =>
      obtain ⟨hcomments, hrest⟩ := Node.standFrom_append.mp hinside
      refine Node.standFrom_append.mpr ⟨Node.standFrom_comments_iff.mp hcomments, ?_⟩
      rw [Slot.commentsBetween, Node.stopFrom_comments]
      exact hrest

/-- A definition has tokens. -/
theorem Definition.exists_trees_eq_cons (d : Definition) : ∃ t ts, d.trees = t :: ts := by
  cases d <;> exact ⟨_, _, rfl⟩

theorem Definition.full_trees {d : Definition} {ts : List Lexeme} (h : d.Fits ts) :
    ∀ t ∈ d.trees, t.Full := fun t ht =>
  (d.derives_trees h t ht).full
    (d.generates_trees.label_ne_root (by decide) t ht)

/-- Between two definitions there are comments only. -/
theorem Slot.exists_of_mem_commentsBetween {n : Node} {slots : List Slot}
    (h : n ∈ commentsBetween slots) : ∃ c, n = .comment false c := by
  cases slots with
  | nil => simp [commentsBetween] at h
  | cons s slots =>
      obtain ⟨c, -, rfl⟩ := List.mem_map.mp h
      exact ⟨c, rfl⟩

/-- What a definition becomes over slots. -/
theorem Definition.of_place {d : Definition} {offset stop : Nat} {ls us : List Lexeme}
    {slots rest : List Slot} {nodes : List Node} (hfits : d.Fits us)
    (h : d.place slots = some (nodes, rest))
    (hstand : Slot.Stand source stop offset (d.units.flatten ++ ls) slots) :
    (∃ (cs : List Span) (ns : List Node), nodes = cs.map (.comment false) ++ ns ∧
        Node.treesAll ns = d.trees) ∧
      Node.StandFrom source offset nodes ∧
      Slot.Stand source stop (Node.stopFrom offset nodes) ls rest := by
  obtain ⟨t, ts, htrees⟩ := d.exists_trees_eq_cons
  have hfull := d.full_trees hfits
  rw [htrees] at hfull
  obtain ⟨ht, hts⟩ := List.forall_mem_cons.mp hfull
  have hunits : Slot.Stand source stop offset
      ((Tree.unitsAll [t]).flatten ++ ((Tree.unitsAll ts).flatten ++ ls)) slots := by
    refine hstand.congr ?_
    have := congrArg List.flatten d.unitsAll_trees
    rw [htrees, Tree.unitsAll_cons, List.flatten_append, Units.flatten_shown] at this
    rw [← List.append_assoc, this]
    simp only [List.map_append, List.map_map, List.append_cancel_right_eq]
    refine List.map_congr_left fun l _ => ?_
    cases l <;> rfl
  simp only [place, htrees, Tree.placeAll, Option.bind_eq_bind, Option.bind_eq_some_iff,
    Prod.exists, Option.pure_def, Option.some.injEq, Prod.mk.injEq] at h
  obtain ⟨_, _, ⟨m, _, hm, ms, _, hms, rfl, rfl⟩, rfl, rfl⟩ := h
  obtain ⟨hstands, hstart, hrest⟩ := Tree.stands_of_place t ht hm hunits
  obtain ⟨hmore, hrest⟩ := Tree.stands_of_placeMore ts hts hms hrest
  refine ⟨?_, hstand.commentsBetween hstart hstands hmore, ?_⟩
  · have htrees' : Node.treesAll (m :: ms) = d.trees := by
      rw [Node.treesAll, Tree.trees_of_place t hm, Tree.trees_of_placeMore ts hms, htrees]
      rfl
    cases slots with
    | nil => exact ⟨[], _, rfl, htrees'⟩
    | cons s slots => exact ⟨s.comments, _, rfl, htrees'⟩
  · rw [Node.stopFrom_append]
    exact hrest

/-- The nodes of a program with comments between its definitions. -/
inductive Program.Scattered : Program → List Node → Prop
  | nil : Scattered [] []
  | comment {p : Program} {c : Span} {ns : List Node} (h : Scattered p ns) :
      Scattered p (.comment false c :: ns)
  | definition {p : Program} {d : Definition} {ms ns : List Node} (hd : Node.treesAll ms = d.trees)
      (h : Scattered p ns) : Scattered (d :: p) (ms ++ ns)

namespace Program.Scattered

variable {p : Program} {ns : List Node}

theorem append_comments (h : Scattered p ns) (cs : List Span) :
    Scattered p (ns ++ cs.map (.comment false)) := by
  induction h with
  | nil =>
      induction cs with
      | nil => exact .nil
      | cons c cs ih => exact .comment ih
  | comment _ ih => exact .comment ih
  | definition hd _ ih =>
      rw [List.append_assoc]
      exact .definition hd ih

theorem comments_append (h : Scattered p ns) (cs : List Span) :
    Scattered p (cs.map (.comment false) ++ ns) := by
  induction cs with
  | nil => exact h
  | cons c cs ih => exact .comment ih

/-- Comments between definitions count as definitions. -/
theorem generates (h : Scattered p ns) :
    (Grammar.rule (.node .sourceFile)).Generates Node.label (ns.filter (!·.isExtra)) := by
  induction h with
  | nil => exact .nil_many
  | @comment _ c _ _ ih =>
      have hcomment : (Rule.ref .definition).Generates Node.label [.comment false c] :=
        .hidden rfl (.choice_of_mem (.node rfl) (by decide))
      exact .cons_many _ hcomment ih
  | @definition _ d ms _ hd _ ih =>
      rw [List.filter_append]
      refine .cons_many _ (d.generates_trees.of_map_eq ?_) ih
      rw [Node.map_label_filter, hd]

theorem mem (h : Scattered p ns) :
    ∀ n ∈ ns, (∃ c, n = .comment false c) ∨ ∃ d ∈ p, n.trees ⊆ d.trees := by
  induction h with
  | nil => simp
  | comment _ ih => exact List.forall_mem_cons.mpr ⟨.inl ⟨_, rfl⟩, ih⟩
  | definition hd _ ih =>
      intro n hn
      rcases List.mem_append.mp hn with hn | hn
      · exact .inr ⟨_, List.mem_cons_self, hd ▸ Node.trees_subset_of_mem hn⟩
      · exact (ih n hn).imp_right fun ⟨d, hd, hn⟩ => ⟨d, List.mem_cons_of_mem _ hd, hn⟩

end Program.Scattered

theorem Program.of_place {p : Program} {offset stop : Nat} {slots : List Slot} {nodes : List Node}
    (hfits : p.Fits) (h : p.place slots = some nodes)
    (hstand : Slot.Stand source stop offset p.units.flatten slots) :
    p.Scattered nodes ∧ Node.StandFrom source offset nodes ∧
      Node.stopFrom offset nodes = stop := by
  induction p generalizing offset slots nodes with
  | nil =>
      obtain rfl := by simpa [place] using h
      cases hstand with
      | nil => exact ⟨.nil, trivial, rfl⟩
  | cons d p ih =>
      simp only [place, Option.bind_eq_bind, Option.bind_eq_some_iff, Prod.exists, Option.pure_def,
        Option.some.injEq] at h
      obtain ⟨first, rest, hfirst, more, hmore, rfl⟩ := h
      have hunits : units (d :: p) = d.units ++ units p := by simp [units]
      rw [hunits, List.flatten_append] at hstand
      obtain ⟨⟨cs, ns, rfl, htrees⟩, hstands, hrest⟩ := d.of_place hfits.1 hfirst hstand
      obtain ⟨hscattered, hmore, hstop⟩ := ih hfits.2 hmore hrest
      refine ⟨?_, Node.standFrom_append.mpr ⟨hstands, hmore⟩, by rw [Node.stopFrom_append, hstop]⟩
      rw [List.append_assoc]
      exact (hscattered.definition htrees).comments_append cs

/-! ## Documents -/

/-- The document shows a program that is read from its source. -/
structure Document.Shows (source : Text) (d : Document) (p : Program) : Prop where
  fits : p.Fits
  children : p.Scattered d.children
  stands : Node.StandFrom source source.origin d.children
  ends : source.Blank (Node.stopFrom source.origin d.children) source.length

/-- Both readings of a layout write what stands there. -/
theorem Program.of_placed? {l : Layout} {nodes : List Node} (h : placed? l = some nodes) :
    ∃ p : Program, p.Fits ∧ p.units.flatten.map Lexeme.shown = l.lexemes.map Lexeme.shown ∧
      p.place l.slots = some nodes := by
  simp only [placed?, Option.bind_eq_bind, Option.bind_eq_some_iff, Option.pure_def,
    Option.some.injEq] at h
  obtain ⟨p, hp, first, hfirst, h⟩ := h
  obtain ⟨hjoined, hfits⟩ := ofLexemes?_eq_some_iff.mp hp
  cases hlast : (Program.ofLexemes? (l.divided p)).bind (·.place l.slots) with
  | none =>
      obtain rfl : first = nodes := by simpa only [hlast, Option.getD_none] using h
      exact ⟨p, hfits, by rw [← hjoined, l.map_shown_joined], hfirst⟩
  | some last =>
      obtain rfl : last = nodes := by simpa only [hlast, Option.getD_some] using h
      obtain ⟨q, hq, hplace⟩ := Option.bind_eq_some_iff.mp hlast
      obtain ⟨hdivided, hfits⟩ := ofLexemes?_eq_some_iff.mp hq
      exact ⟨q, hfits, by rw [← hdivided, l.map_shown_divided], hplace⟩

theorem Document.exists_program {d : Document} (h : ofSource? source = some d) :
    ∃ p, d.Shows source p := by
  simp only [ofSource?, Option.bind_eq_bind, Option.bind_eq_some_iff, Option.pure_def,
    Option.some.injEq] at h
  obtain ⟨items, hscan, nodes, hnodes, rfl⟩ := h
  obtain ⟨stop, hstand, htrailing, hend⟩ := Layout.stand_ofItems (stand_of_scan hscan)
  unfold nodes? at hnodes
  split at hnodes
  · simp only [Option.bind_eq_bind, Option.bind_eq_some_iff, Option.pure_def,
      Option.some.injEq] at hnodes
    obtain ⟨inner, hplaced, rfl⟩ := hnodes
    obtain ⟨p, hfits, hunits, hplace⟩ := Program.of_placed? hplaced
    obtain ⟨hscattered, hstands, rfl⟩ := Program.of_place hfits hplace (hstand.congr hunits.symm)
    refine ⟨p, hfits, hscattered.append_comments _,
      Node.standFrom_append.mpr ⟨hstands, htrailing⟩, ?_⟩
    rw [Node.stopFrom_append]
    exact hend
  · simp at hnodes

end Heptagon
