import Heptagon.Proofs.Document.Reading
import Heptagon.Proofs.Layout.PlainScan
import Heptagon.Proofs.Node.Comments

/-!
# The comments of a document

The comments in the tree of an accepted source are those that a plain scan
finds in it (`Document.comments_eq_plainScan`).  A comment goes from the scanner
into the layout and from there into a node and never gets lost, so it is enough
to follow the comments in their order.  The tokens are followed in the same way;
they are written with the lexemes of the source.
-/

namespace Heptagon

variable {source : Text}

/-! ## Layouts -/

theorem Layout.commentsAll_addComment (c : Span) (l : Layout) :
    Slot.commentsAll (l.addComment c).slots ++ (l.addComment c).trailing =
      c :: (Slot.commentsAll l.slots ++ l.trailing) := by
  obtain ⟨written, trailing⟩ := l
  cases written with
  | nil => rfl
  | cons w written => rfl

/-- The comments of a layout are those among the items, in the same order. -/
theorem Layout.commentsAll_ofItems (items : List (Placed Item)) :
    Slot.commentsAll (ofItems items).slots ++ (ofItems items).trailing =
      Placed.comments items := by
  induction items with
  | nil => rfl
  | cons i items ih =>
      obtain ⟨item, span⟩ := i
      cases item with
      | lexeme l => exact ih
      | comment => rw [ofItems, commentsAll_addComment, ih, Placed.comments_comment]

/-- The spans of the lexemes of a layout. -/
def Layout.spans (l : Layout) : List (Lexeme × Span) := l.written.map fun w => (w.1, w.2.span)

theorem Layout.spans_addComment (c : Span) (l : Layout) : (l.addComment c).spans = l.spans := by
  obtain ⟨written, trailing⟩ := l
  cases written with
  | nil => rfl
  | cons w written => rfl

/-- The lexemes of a layout are items. -/
theorem Layout.mem_of_mem_spans {items : List (Placed Item)} {x : Lexeme} {span : Span}
    (h : (x, span) ∈ (ofItems items).spans) : ⟨.lexeme x, span⟩ ∈ items := by
  induction items with
  | nil => simp [ofItems, spans] at h
  | cons i items ih =>
      obtain ⟨item, span'⟩ := i
      cases item with
      | lexeme l =>
          rcases List.mem_cons.mp h with heq | h
          · obtain ⟨rfl, rfl⟩ := Prod.mk.inj heq
            exact List.mem_cons_self
          · exact List.mem_cons_of_mem _ (ih h)
      | comment =>
          rw [ofItems, spans_addComment] at h
          exact List.mem_cons_of_mem _ (ih h)

/-- The scanner sets no parenthesis apart. -/
theorem Layout.map_shown_lexemes {items : List (Placed Item)} (h : scan source = some items) :
    (ofItems items).lexemes.map Lexeme.shown = (ofItems items).lexemes := by
  refine (List.map_congr_left fun x hx => ?_).trans (List.map_id _)
  obtain ⟨w, hw, rfl⟩ := List.mem_map.mp hx
  exact shown_eq_of_scan h (mem_of_mem_spans (List.mem_map.mpr ⟨w, hw, rfl⟩))

theorem Layout.zip_spans (l : Layout) :
    l.lexemes.zip (l.slots.map (·.span)) = l.spans := by
  rw [lexemes, slots, List.map_map, spans, List.zip_map', List.map_congr_left]
  exact fun _ _ => rfl

/-! ## Programs over slots -/

theorem Definition.place_iff {d : Definition} {slots rest : List Slot} {nodes : List Node} :
    d.place slots = some (nodes, rest) ↔ ∃ ns, Tree.placeAll d.trees slots = some (ns, rest) ∧
      nodes = Slot.commentsBetween slots ++ ns := by
  simp only [place, Option.bind_eq_bind, Option.bind_eq_some_iff, Prod.exists, Option.pure_def,
    Option.some.injEq, Prod.mk.injEq]
  constructor
  · rintro ⟨ns, _, h, rfl, rfl⟩
    exact ⟨ns, h, rfl⟩
  · rintro ⟨ns, h, rfl⟩
    exact ⟨ns, rest, h, rfl, rfl⟩

theorem Program.place_cons_iff {d : Definition} {p : Program} {slots : List Slot}
    {nodes : List Node} : place (d :: p) slots = some nodes ↔ ∃ first rest more,
      d.place slots = some (first, rest) ∧ place p rest = some more ∧ nodes = first ++ more := by
  simp only [place, Option.bind_eq_bind, Option.bind_eq_some_iff, Prod.exists, Option.pure_def,
    Option.some.injEq]
  constructor
  · rintro ⟨first, rest, hfirst, more, hmore, rfl⟩
    exact ⟨first, rest, more, hfirst, hmore, rfl⟩
  · rintro ⟨first, rest, more, hfirst, hmore, rfl⟩
    exact ⟨first, rest, hfirst, more, hmore, rfl⟩

/-- Every program can be laid over slots for its tokens. -/
theorem Program.exists_place {p : Program} {slots : List Slot}
    (h : Slot.Admit (Tree.unitsAll (p.flatMap Definition.trees)) slots) :
    ∃ nodes, p.place slots = some nodes := by
  induction p generalizing slots with
  | nil => exact ⟨[], rfl⟩
  | cons d p ih =>
      rw [List.flatMap_cons, Tree.unitsAll_append] at h
      obtain ⟨ns, rest, hplace, hrest⟩ := Tree.exists_placeAll d.trees h
      obtain ⟨nodes, hnodes⟩ := ih hrest
      exact ⟨Slot.commentsBetween slots ++ ns ++ nodes,
        by simp [place, Definition.place, hplace, hnodes]⟩

namespace Slot

theorem nodeComments_commentsBetween (slots : List Slot) :
    Node.commentsAll (commentsBetween slots) ++ commentsLater slots = commentsAll slots := by
  cases slots with
  | nil => rfl
  | cons s slots => simp [commentsBetween, commentsAll, commentsLater]

theorem tokensAll_commentsBetween (slots : List Slot) :
    Node.tokensAll (commentsBetween slots) = [] := by
  cases slots with
  | nil => rfl
  | cons s slots => exact Node.tokensAll_map_comment _ _

end Slot

/-- The comments of a definition are those before its slots. -/
theorem Definition.comments_of_place {d : Definition} {us : List Lexeme} (hfits : d.Fits us)
    {slots rest : List Slot} {nodes : List Node} (h : d.place slots = some (nodes, rest)) :
    Node.commentsAll nodes ++ Slot.commentsAll rest = Slot.commentsAll slots := by
  obtain ⟨ns, hns, rfl⟩ := place_iff.mp h
  obtain ⟨t, ts, htrees⟩ := d.exists_trees_eq_cons
  have hfull := d.full_trees hfits
  rw [htrees] at hns hfull
  rw [Node.commentsAll_append, List.append_assoc, Tree.comments_of_placeAll hfull hns,
    Slot.nodeComments_commentsBetween]

/-- The tokens of a definition are written at its slots. -/
theorem Definition.write_of_place {d : Definition} {slots rest : List Slot} {nodes : List Node}
    (h : d.place slots = some (nodes, rest)) {tokens : List (Leaf × Span)} {ls : List Lexeme}
    (hrest : Slot.Write tokens ls rest) :
    Slot.Write (Node.tokensAll nodes ++ tokens) (d.units.shown.flatten ++ ls) slots := by
  obtain ⟨ns, hns, rfl⟩ := place_iff.mp h
  rw [Node.tokensAll_append, Slot.tokensAll_commentsBetween, List.nil_append, ← d.unitsAll_trees]
  exact Tree.write_of_placeAll d.trees hns hrest

/-- The tokens of a program are written at its slots, and its comments are those before them. -/
theorem Program.write_of_place {p : Program} {offset stop : Nat} {slots : List Slot}
    {nodes : List Node} (hfits : p.Fits) (h : p.place slots = some nodes)
    (hstand : Slot.Stand source stop offset p.units.flatten slots) :
    Slot.Write (Node.tokensAll nodes) p.units.shown.flatten slots ∧
      Node.commentsAll nodes = Slot.commentsAll slots := by
  induction p generalizing offset slots nodes with
  | nil =>
      obtain rfl := by simpa [place] using h
      cases hstand with
      | nil => exact ⟨.nil, rfl⟩
  | cons d p ih =>
      obtain ⟨first, rest, more, hfirst, hmore, rfl⟩ := place_cons_iff.mp h
      have hunits : units (d :: p) = d.units ++ units p := by simp [units]
      rw [hunits, List.flatten_append] at hstand
      obtain ⟨-, -, hrest⟩ := d.of_place hfits.1 hfirst hstand
      obtain ⟨hwrite, hcomments⟩ := ih hfits.2 hmore hrest
      refine ⟨?_, ?_⟩
      · rw [hunits, Units.shown_append, List.flatten_append, Node.tokensAll_append]
        exact Definition.write_of_place hfirst hwrite
      · rw [Node.commentsAll_append, hcomments]
        exact Definition.comments_of_place hfits.1 hfirst

/-! ## Documents -/

namespace Document

variable {d : Document}

/-- The spans of the comments of a document, from left to right. -/
def comments (d : Document) : List Span := Node.commentsAll d.children

/-- The tokens of a document, from left to right. -/
def tokens (d : Document) : List (Leaf × Span) := Node.tokensAll d.children

/-- The tokens of a document are written with the lexemes of its source, and its comments are those
of its source. -/
theorem write_of_ofSource? (h : ofSource? source = some d) :
    ∃ items, scan source = some items ∧
      Slot.Write d.tokens (Layout.ofItems items).lexemes (Layout.ofItems items).slots ∧
      d.comments = Placed.comments items := by
  simp only [ofSource?, Option.bind_eq_bind, Option.bind_eq_some_iff, Option.pure_def,
    Option.some.injEq] at h
  obtain ⟨items, hscan, nodes, hnodes, rfl⟩ := h
  obtain ⟨stop, hstand, -, -⟩ := Layout.stand_ofItems (stand_of_scan hscan)
  unfold nodes? at hnodes
  split at hnodes
  · simp only [Option.bind_eq_bind, Option.bind_eq_some_iff, Option.pure_def,
      Option.some.injEq] at hnodes
    obtain ⟨inner, hplaced, rfl⟩ := hnodes
    obtain ⟨p, hfits, hunits, hplace⟩ := Program.of_placed? hplaced
    obtain ⟨hwrite, hcomments⟩ := Program.write_of_place hfits hplace (hstand.congr hunits.symm)
    have hshown : (Layout.ofItems items).lexemes.map Lexeme.shown =
        (Layout.ofItems items).lexemes := Layout.map_shown_lexemes hscan
    rw [Units.flatten_shown, hunits, hshown] at hwrite
    refine ⟨items, hscan, ?_, ?_⟩
    · simpa [tokens] using hwrite
    · simp [comments, hcomments, Layout.commentsAll_ofItems]
  · simp at hnodes

/-- No comment has a zero byte. -/
theorem forall_ne_zero_of_mem_comments {items : List (Placed Item)}
    (hscan : scan source = some items) {c : Span} (hc : c ∈ Placed.comments items) :
    ∀ b ∈ source.slice c, b ≠ 0 := by
  obtain ⟨i, hi, rfl⟩ := List.mem_map.mp hc
  obtain ⟨hi, hcomment⟩ := List.mem_filter.mp hi
  obtain ⟨before, after, rfl⟩ := List.append_of_mem hi
  obtain ⟨b, taken, -, hdrop, hfirst, hstop, -, -⟩ := scan_cut hscan
  rw [beq_iff_eq.mp hcomment] at hfirst
  obtain ⟨us, body, -, hclose, htaken⟩ := Item.exists_close?_of_first? hfirst
  have hslice : source.slice i.span = 40 :: 42 :: body := by
    have hlength : i.span.stop - i.span.start = (b :: taken).length := by omega
    rw [Text.slice, hdrop, hlength, List.take_left, htaken]
  rw [hslice]
  simpa using Comment.forall_ne_zero_of_close? hclose

/-- A parenthesis is read as one only if no star follows it. -/
theorem getElem?_ne_star {items : List (Placed Item)} (hscan : scan source = some items)
    {span : Span} (hmem : ⟨.lexeme (.symbol .parenOpen), span⟩ ∈ items) :
    source[span.stop]? ≠ some 42 := by
  intro hstar
  obtain ⟨before, after, rfl⟩ := List.append_of_mem hmem
  obtain ⟨b, taken, -, -, hfirst, -, -, -⟩ := scan_cut hscan
  obtain ⟨-, -, htext, -⟩ := Item.takes_of_first? hfirst
  obtain ⟨u, hu⟩ : ∃ u, source.drop span.stop = 42 :: u := by
    obtain ⟨hlt, heq⟩ := List.getElem?_eq_some_iff.mp hstar
    exact ⟨source.drop (span.stop + 1), by rw [List.drop_eq_getElem_cons hlt, heq]⟩
  have hparen : b :: taken = [40] := htext.symm
  rw [hparen, hu] at hfirst
  simp [Item.first?] at hfirst

/-- The comments of an accepted source are those of a plain scan.  So they do not overlap, none of
them has a zero byte, and no parenthesis of the source is followed by a star; and a source is not
accepted if the plain scan finds a comment that does not end. -/
theorem comments_eq_plainScan (h : ofSource? source = some d) :
    Comment.plainScan none 0 source = some d.comments ∧
      d.comments.Pairwise (fun c c' => c.stop ≤ c'.start) ∧
      (∀ c ∈ d.comments, ∀ b ∈ source.slice c, b ≠ 0) ∧
      ∀ span, (.symbol .parenOpen, span) ∈ d.tokens → source[span.stop]? ≠ some 42 := by
  obtain ⟨items, hscan, hwrite, hcomments⟩ := write_of_ofSource? h
  rw [hcomments]
  refine ⟨comments_of_scan hscan, ?_, fun c => forall_ne_zero_of_mem_comments hscan,
    fun span hspan => ?_⟩
  · obtain ⟨-, hpairwise⟩ := (stand_of_scan hscan).pairwise
    exact List.pairwise_map.mpr (hpairwise.filter _)
  · have hzip := hwrite.mem_zip hspan rfl
    rw [Layout.zip_spans] at hzip
    exact getElem?_ne_star hscan (Layout.mem_of_mem_spans hzip)

/-- Comments that end with more than one star, or look closed by the parenthesis that opens them. -/
theorem comments_eq_plainScan_of_stars : ∃ d,
    ofSource? (Text.ofString "type t (***) = (*)*) A(**)") = some d ∧
      Comment.plainScan none 0 (Text.ofString "type t (***) = (*)*) A(**)") = some d.comments := by
  have haccepts : accepts (Text.ofString "type t (***) = (*)*) A(**)") = true := by decide +kernel
  obtain ⟨d, hd⟩ := Option.isSome_iff_exists.mp haccepts
  exact ⟨d, hd, (comments_eq_plainScan hd).1⟩

end Document

end Heptagon
