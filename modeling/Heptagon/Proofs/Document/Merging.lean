import Heptagon.Proofs.Document.Blanking
import Heptagon.Proofs.Document.Leaves

/-!
# The leaves of a document and the items of its source

Every item of an accepted source is a leaf of its document, except that the two
halves of a state name are one leaf (`Document.merge_leafRows`).  Laying a tree
over slots passes the slots in their order, and a comment is put in front of
the token at its slot, however far out in the tree.
-/

namespace Heptagon

/-- Some spans are other ones, of which two that touch may be made one. -/
inductive Span.Merge : List Span → List Span → Prop
  | nil : Merge [] []
  | one {s : Span} {ss ts : List Span} (h : Merge ss ts) : Merge (s :: ss) (s :: ts)
  | two {s t : Span} {ss ts : List Span} (hs : s.start ≤ s.stop) (ht : t.start ≤ t.stop)
      (htouch : s.stop = t.start) (h : Merge ss ts) :
      Merge (⟨s.start, t.stop⟩ :: ss) (s :: t :: ts)

theorem Span.Merge.append_left (cs : List Span) {ss ts : List Span} (h : Merge ss ts) :
    Merge (cs ++ ss) (cs ++ ts) := by
  induction cs with
  | nil => exact h
  | cons c cs ih => exact .one ih

/-! ## Slots -/

namespace Slot

/-- The spans of some slots and of the comments before them, from left to right. -/
def allSpans (slots : List Slot) : List Span := slots.flatMap fun s => s.comments ++ [s.span]

theorem allSpans_cons (s : Slot) (slots : List Slot) :
    allSpans (s :: slots) = s.comments ++ s.span :: allSpans slots := by
  simp [allSpans]

/-- The comments before the first of some slots. -/
def before : List Slot → List Span
  | [] => []
  | s :: _ => s.comments

theorem commentsInside_eq (slots : List Slot) :
    commentsInside slots = (before slots).map (.comment true) := by
  cases slots <;> rfl

theorem commentsBetween_eq (slots : List Slot) :
    commentsBetween slots = (before slots).map (.comment false) := by
  cases slots <;> rfl

end Slot

theorem Layout.allSpans_addComment (c : Span) (l : Layout) :
    Slot.allSpans (l.addComment c).slots ++ (l.addComment c).trailing =
      c :: (Slot.allSpans l.slots ++ l.trailing) := by
  obtain ⟨written, trailing⟩ := l
  cases written with
  | nil => rfl
  | cons w written => simp [addComment, slots, Slot.allSpans_cons]

/-- The items of a layout are its comments and lexemes. -/
theorem Layout.allSpans_ofItems (items : List (Placed Item)) :
    Slot.allSpans (ofItems items).slots ++ (ofItems items).trailing = items.map (·.span) := by
  induction items with
  | nil => rfl
  | cons i items ih =>
      obtain ⟨item, span⟩ := i
      cases item with
      | lexeme l =>
          have hslots : (ofItems (⟨.lexeme l, span⟩ :: items)).slots =
              ⟨[], span⟩ :: (ofItems items).slots := rfl
          have htrailing : (ofItems (⟨.lexeme l, span⟩ :: items)).trailing =
              (ofItems items).trailing := rfl
          rw [hslots, htrailing, Slot.allSpans_cons, List.map_cons, ← ih]
          rfl
      | comment => rw [ofItems, allSpans_addComment, ih, List.map_cons]

/-! ## Leaves over slots -/

namespace Node

/-- The spans of the leaves of a node. -/
def leafSpans (n : Node) : List Span := (n.leafRows 0).map (·.span)

/-- The spans of the leaves of a row of nodes. -/
def leafSpansAll (ns : List Node) : List Span := (leafRowsAll 0 ns).map (·.span)

mutual

theorem map_span_leafRows : (n : Node) → ∀ depth depth',
    (n.leafRows depth).map (·.span) = (n.leafRows depth').map (·.span)
  | token _ _, _, _ => rfl
  | comment _ _, _, _ => rfl
  | branch _ ns, depth, depth' => map_span_leafRowsAll ns (depth + 1) (depth' + 1)

/-- The spans of the leaves do not depend on how deep these are. -/
theorem map_span_leafRowsAll : (ns : List Node) → ∀ depth depth',
    (leafRowsAll depth ns).map (·.span) = (leafRowsAll depth' ns).map (·.span)
  | [], _, _ => rfl
  | n :: ns, depth, depth' => by
      rw [leafRowsAll, leafRowsAll, List.map_append, List.map_append,
        map_span_leafRows n depth depth', map_span_leafRowsAll ns depth depth']

end

@[simp] theorem leafSpans_branch (k : Kind) (ns : List Node) :
    (branch k ns).leafSpans = leafSpansAll ns := map_span_leafRowsAll ns 1 0

@[simp] theorem leafSpansAll_cons (n : Node) (ns : List Node) :
    leafSpansAll (n :: ns) = n.leafSpans ++ leafSpansAll ns := by
  simp [leafSpansAll, leafSpans, leafRowsAll]

@[simp] theorem leafSpansAll_append (ns ms : List Node) :
    leafSpansAll (ns ++ ms) = leafSpansAll ns ++ leafSpansAll ms := by
  simp [leafSpansAll, leafRowsAll_append]

@[simp] theorem leafSpansAll_map_comment (inside : Bool) (cs : List Span) :
    leafSpansAll (cs.map (.comment inside)) = cs := by
  induction cs with
  | nil => rfl
  | cons c cs ih => rw [List.map_cons, leafSpansAll_cons, ih]; rfl

end Node

/-- The token that is laid over the first slots is one item or two. -/
theorem Leaf.merge_of_place {l : Leaf} {slots rest : List Slot} {span : Span}
    (hslots : ∀ s ∈ slots, s.span.start < s.span.stop) (h : l.place slots = some (span, rest))
    {ss ts : List Span} (hrest : Span.Merge ss (Slot.allSpans rest ++ ts)) :
    Span.Merge (Slot.before slots ++ span :: ss) (Slot.allSpans slots ++ ts) := by
  rcases Leaf.place_cases h with ⟨x, s, -, rfl, rfl⟩ | ⟨x, y, s, t, -, rfl, ht, htouch, rfl⟩
  · rw [Slot.allSpans_cons, List.append_assoc]
    exact .append_left _ (.one hrest)
  · rw [Slot.allSpans_cons, Slot.allSpans_cons, ht, List.append_assoc]
    exact .append_left _ (.two (hslots s (by simp)).le (hslots t (by simp)).le htouch hrest)

namespace Tree

mutual

theorem merge_of_place : (t : Tree) → t.Full → ∀ {slots rest : List Slot} {n : Node},
    (∀ s ∈ slots, s.span.start < s.span.stop) → t.place slots = some (n, rest) →
    ∀ {ss ts : List Span}, Span.Merge ss (Slot.allSpans rest ++ ts) →
    Span.Merge (Slot.before slots ++ (n.leafSpans ++ ss)) (Slot.allSpans slots ++ ts)
  | .leaf l, _, slots, rest, n, hslots, h, ss, ts, hrest => by
      obtain ⟨span, hspan, rfl⟩ := place_leaf_iff.mp h
      exact Leaf.merge_of_place hslots hspan hrest
  | .node k [], hfull, _, _, _, _, _, _, _, _ => by cases hfull
  | .node k (t :: us), hfull, slots, rest, n, hslots, h, ss, ts, hrest => by
      cases hfull with
      | node hfull =>
          obtain ⟨ht, hus⟩ := List.forall_mem_cons.mp hfull
          obtain ⟨ns, hns, rfl⟩ := place_node_iff.mp h
          obtain ⟨m, middle, ms, hm, hms, rfl⟩ := placeAll_cons_iff.mp hns
          have hmiddle : ∀ s ∈ middle, s.span.start < s.span.stop := fun s hs =>
            hslots s ((suffix_of_place t hm).mem hs)
          rw [Node.leafSpans_branch, Node.leafSpansAll_cons, List.append_assoc]
          exact merge_of_place t ht hslots hm (merge_of_placeMore us hus hmiddle hms hrest)

/-- The leaves of nodes that are laid over slots are the items at these slots. -/
theorem merge_of_placeMore : (us : List Tree) → (∀ u ∈ us, u.Full) →
    ∀ {slots rest : List Slot} {ns : List Node}, (∀ s ∈ slots, s.span.start < s.span.stop) →
    placeMore us slots = some (ns, rest) →
    ∀ {ss ts : List Span}, Span.Merge ss (Slot.allSpans rest ++ ts) →
    Span.Merge (Node.leafSpansAll ns ++ ss) (Slot.allSpans slots ++ ts)
  | [], _, slots, rest, ns, _, h, ss, ts, hrest => by
      obtain ⟨rfl, rfl⟩ := placeMore_nil_iff.mp h
      exact hrest
  | t :: us, hfull, slots, rest, ns, hslots, h, ss, ts, hrest => by
      obtain ⟨m, middle, ms, hm, hms, rfl⟩ := placeMore_cons_iff.mp h
      obtain ⟨ht, hus⟩ := List.forall_mem_cons.mp hfull
      have hmiddle : ∀ s ∈ middle, s.span.start < s.span.stop := fun s hs =>
        hslots s ((suffix_of_place t hm).mem hs)
      rw [Node.leafSpansAll_append, Slot.commentsInside_eq, Node.leafSpansAll_map_comment,
        Node.leafSpansAll_cons, List.append_assoc, List.append_assoc]
      exact merge_of_place t ht hslots hm (merge_of_placeMore us hus hmiddle hms hrest)

end

theorem merge_of_placeAll {us : List Tree} (hne : us ≠ []) (hfull : ∀ u ∈ us, u.Full)
    {slots rest : List Slot} {ns : List Node} (hslots : ∀ s ∈ slots, s.span.start < s.span.stop)
    (h : placeAll us slots = some (ns, rest)) {ss ts : List Span}
    (hrest : Span.Merge ss (Slot.allSpans rest ++ ts)) :
    Span.Merge (Slot.before slots ++ (Node.leafSpansAll ns ++ ss)) (Slot.allSpans slots ++ ts) := by
  obtain ⟨t, us, rfl⟩ := List.exists_cons_of_ne_nil hne
  simpa using merge_of_place (.node .sourceFile (t :: us)) (.node hfull) hslots
    (place_node_iff.mpr ⟨ns, h, rfl⟩) hrest

end Tree

section

variable {source : Text}

/-- The leaves of the nodes of a program are the items at its slots. -/
theorem Program.merge_of_place {p : Program} {offset stop : Nat} {slots : List Slot}
    {nodes : List Node} (hfits : p.Fits) (h : p.place slots = some nodes)
    (hstand : Slot.Stand source stop offset p.units.flatten slots) {ss ts : List Span}
    (hrest : Span.Merge ss ts) :
    Span.Merge (Node.leafSpansAll nodes ++ ss) (Slot.allSpans slots ++ ts) := by
  induction p generalizing offset slots nodes with
  | nil =>
      obtain rfl := by simpa [place] using h
      cases hstand with
      | nil => exact hrest
  | cons d p ih =>
      obtain ⟨first, rest, more, hfirst, hmore, rfl⟩ := place_cons_iff.mp h
      have hunits : units (d :: p) = d.units ++ units p := by simp [units]
      rw [hunits, List.flatten_append] at hstand
      obtain ⟨-, -, hstand'⟩ := d.of_place hfits.1 hfirst hstand
      obtain ⟨ns, hns, rfl⟩ := Definition.place_iff.mp hfirst
      obtain ⟨t, us, htrees⟩ := d.exists_trees_eq_cons
      have hfull := d.full_trees hfits.1
      have hmerge := Tree.merge_of_placeAll (by simp [htrees]) hfull hstand.start_lt_stop hns
        (ih hfits.2 hmore hstand')
      simpa [Slot.commentsBetween_eq] using hmerge

namespace Document

/-- Every leaf of a document is a leaf of one of its children. -/
theorem map_span_leafRows {d : Document} (h : ofSource? source = some d) :
    d.leafRows.map (·.span) = Node.leafSpansAll d.children := by
  obtain ⟨p, hshows⟩ := exists_program h
  rw [leafRows_eq hshows]
  exact Node.map_span_leafRowsAll d.children 1 0

/-- The leaves of a document are the items of its source, but that two which touch may be one. -/
theorem merge_leafRows {d : Document} (h : ofSource? source = some d) :
    ∃ items, scan source = some items ∧
      Span.Merge (d.leafRows.map (·.span)) (items.map (·.span)) := by
  obtain ⟨items, hscan, hnodes, -⟩ := ofSource?_eq_some_iff.mp h
  obtain ⟨-, inner, hinner, hchildren⟩ := nodes?_eq_some_iff.mp hnodes
  obtain ⟨q, hfits, hunits, hplace⟩ := Program.of_placed? hinner
  obtain ⟨stop, hstand, -, -⟩ := Layout.stand_ofItems (stand_of_scan hscan)
  have hmerge := Program.merge_of_place hfits hplace (hstand.congr hunits.symm)
    (.append_left (Layout.ofItems items).trailing .nil)
  rw [List.append_nil, Layout.allSpans_ofItems] at hmerge
  have hspans : d.leafRows.map (·.span) =
      Node.leafSpansAll inner ++ (Layout.ofItems items).trailing := by
    rw [map_span_leafRows h, hchildren, Node.leafSpansAll_append, Node.leafSpansAll_map_comment]
  exact ⟨items, hscan, hspans ▸ hmerge⟩

end Document

end

end Heptagon
