import Heptagon.Proofs.Document.Operators
import Heptagon.Proofs.Document.Rereading

/-!
# Comments that are blanked or rewritten

Writing other bytes into a comment changes nothing in the tree, and overwriting
comments with blanks takes them out of it (`Document.rows_blankOut`): the other
nodes have the same places and stand in the same nodes as before, provided that
the same parentheses are set apart.

That proviso is needed.  Where two readings of a text have been followed side by
side, the number of their parts decides between them, and a comment is a part
(`Document.setApart`).
-/

namespace Heptagon

variable {source : Text}

/-! ## Slots of a source -/

namespace Slot.Stand

variable {offset stop : Nat} {ls : List Lexeme} {slots : List Slot}

/-- The slots of a source follow each other, and those that touch have no comments between. -/
theorem isChain (h : Stand source stop offset ls slots) :
    slots.IsChain fun s t => s.span.stop ≤ t.span.start ∧
      (s.span.stop = t.span.start → t.comments = []) := by
  induction h with
  | nil => exact .nil
  | @cons _ _ _ s slots _ _ _ _ _ hrest ih =>
      refine List.isChain_cons.mpr ⟨fun t ht => ?_, ih⟩
      cases hrest with
      | nil => simp at ht
      | cons hcomments hstart _ _ _ _ =>
          obtain rfl := Option.some.inj ht
          have hle := Node.StandFrom.le_stopFrom hcomments
          refine ⟨hle.trans hstart.1, fun htouch => ?_⟩
          by_contra hne
          have hlt := Node.StandFrom.stop_lt (n := .comment true s.span) hcomments (by simpa using hne)
          have hend := hlt.trans_le hstart.1
          exact hend.ne htouch

theorem start_lt_stop (h : Stand source stop offset ls slots) :
    ∀ s ∈ slots, s.span.start < s.span.stop := by
  induction h with
  | nil => simp
  | cons _ _ hspan _ _ _ ih => exact List.forall_mem_cons.mpr ⟨hspan, ih⟩

/-- Where slots touch once they have lost comments, they have touched before. -/
theorem touchAs_without (h : Stand source stop offset ls slots) (drop : Span → Bool) :
    Slot.TouchAs slots (slots.map (·.without drop)) := by
  have htouch : Slot.TouchAs (slots.map id) (slots.map (·.without drop)) :=
    .of_map (h.isChain.imp fun s t hst htouch => ⟨htouch.1, hst.2 htouch.1⟩)
  rwa [List.map_id] at htouch

end Slot.Stand

/-! ## Without comments -/

/-- The nodes of a program neither start nor end with a comment. -/
theorem Program.tight_of_place {p : Program} (hfits : p.Fits) {slots : List Slot}
    {nodes : List Node} (h : p.place slots = some nodes) : ∀ n ∈ nodes, n.Tight := by
  induction p generalizing slots nodes with
  | nil =>
      obtain rfl := by simpa [place] using h
      simp
  | cons d p ih =>
      obtain ⟨first, rest, more, hfirst, hmore, rfl⟩ := place_cons_iff.mp h
      obtain ⟨ns, hns, rfl⟩ := Definition.place_iff.mp hfirst
      have hfull := d.full_trees hfits.1
      have hkinds : ∀ t ∈ d.trees, t.Uncommented := fun t ht =>
        (d.derives_trees hfits.1 t ht).uncommented
      have hcomments : ∀ n ∈ Slot.commentsBetween slots, n.Tight := by
        intro n hn
        obtain ⟨c, rfl⟩ := Slot.exists_of_mem_commentsBetween hn
        exact .comment false c
      have htight : ∀ n ∈ ns, n.Tight := by
        obtain ⟨t, ts, htrees⟩ := d.exists_trees_eq_cons
        rw [htrees] at hns hfull hkinds
        obtain ⟨m, middle, ms, hm, hms, rfl⟩ := Tree.placeAll_cons_iff.mp hns
        obtain ⟨ht, hts⟩ := List.forall_mem_cons.mp hfull
        obtain ⟨ht', hts'⟩ := List.forall_mem_cons.mp hkinds
        exact List.forall_mem_cons.mpr ⟨Tree.tight_of_place t ht ht' hm,
          (Tree.tight_of_placeMore ts hts hts' hms).1⟩
      exact List.forall_mem_append.mpr
        ⟨List.forall_mem_append.mpr ⟨hcomments, htight⟩, ih hfits.2 hmore⟩

namespace Document

/-- The children of the root neither start nor end with a comment. -/
theorem tight_children {d : Document} (h : ofSource? source = some d) :
    ∀ n ∈ d.children, n.Tight := by
  obtain ⟨items, hscan, hnodes, -⟩ := ofSource?_eq_some_iff.mp h
  obtain ⟨-, inner, hinner, hchildren⟩ := nodes?_eq_some_iff.mp hnodes
  obtain ⟨p, hfits, -, hplace⟩ := Program.of_placed? hinner
  rw [hchildren]
  refine List.forall_mem_append.mpr ⟨Program.tight_of_place hfits hplace, fun n hn => ?_⟩
  obtain ⟨c, -, rfl⟩ := List.mem_map.mp hn
  exact .comment false c

/-- The document of a layout that loses comments. -/
theorem nodes?_without {l : Layout} {offset stop : Nat} {nodes : List Node}
    (hstand : Slot.Stand source stop offset l.lexemes l.slots) (h : nodes? l = some nodes)
    (drop : Span → Bool) :
    ∃ nodes', nodes? (l.without drop) = some nodes' ∧
      ((l.without drop).setApart = l.setApart → nodes' = Node.withoutAll drop nodes) := by
  obtain ⟨hwhole, inner, hinner, rfl⟩ := nodes?_eq_some_iff.mp h
  have hplace : ∀ (p : Program) ns, l.Reads p → p.place l.slots = some ns →
      ∃ ns', p.place (l.without drop).slots = some ns' ∧ ns' = Node.withoutAll drop ns := by
    intro p ns _ hp
    rw [Layout.slots_without]
    exact ⟨_, Program.place_without hp, rfl⟩
  have hback : ∀ (p : Program) ns', p.place (l.without drop).slots = some ns' →
      (p.place l.slots).isSome := by
    intro p ns' hp
    rw [Layout.slots_without] at hp
    exact Option.isSome_iff_exists.mpr
      (Program.exists_place_of_touchAs (hstand.touchAs_without drop) hp)
  obtain ⟨inner', hinner', hsame⟩ :=
    Program.exists_placed? Layout.joined_without hplace hback hinner
  refine ⟨_, nodes?_eq_some_iff.mpr
    ⟨Layout.enumerationsWhole_without hwhole, inner', hinner', rfl⟩, fun h => ?_⟩
  rw [hsame h, Node.withoutAll_append, Node.withoutAll_map_comment]
  rfl

end Document

/-! ## Blanked comments -/

/-- The source with blanks in place of some comments. -/
def Text.blankOut (source : Text) (cs : List Span) : Text :=
  cs.foldl (fun t c => t.replace c (List.replicate (c.stop - c.start) 32)) source

/-- An item of a source is at one place only. -/
theorem filter_ne_of_scan {before after : List (Placed Item)} {c : Span}
    (h : scan source = some (before ++ ⟨.comment, c⟩ :: after)) :
    (before ++ ⟨.comment, c⟩ :: after).filter (fun i => !(i.value == .comment && i.span == c)) =
      before ++ after := by
  obtain ⟨hspans, hpairwise⟩ := (stand_of_scan h).pairwise
  obtain ⟨-, hafter, hbefore⟩ := List.pairwise_append.mp hpairwise
  have hc := (hspans ⟨.comment, c⟩ (by simp)).2
  rw [List.filter_append, List.filter_cons_of_neg (by simp), List.filter_eq_self.mpr,
    List.filter_eq_self.mpr]
  · intro i hi
    have hle := (List.pairwise_cons.mp hafter).1 i hi
    have hne : i.span ≠ c := by
      rintro rfl
      exact absurd hle (by simpa using hc)
    simp [hne]
  · intro i hi
    have hle := hbefore i hi ⟨.comment, c⟩ (by simp)
    have hne : i.span ≠ c := by
      rintro rfl
      exact absurd hle (by simpa using hc)
    simp [hne]

/-- A source keeps its length if an item is replaced by as many bytes. -/
theorem length_replace {before after : List (Placed Item)} {i : Placed Item} {t : Text}
    (h : scan source = some (before ++ i :: after))
    (hlength : t.length = i.span.stop - i.span.start) :
    (source.replace i.span t).length = source.length := by
  obtain ⟨b, taken, -, hdrop, -, hstop, -, -⟩ := scan_cut h
  have hsource := congrArg List.length hdrop
  simp only [List.length_drop, List.length_append, List.length_cons] at hsource hstop
  simp only [Text.replace, List.length_append, List.length_take, List.length_drop]
  omega

/-- Blanks in place of some comments leave the other items. -/
theorem scan_blankOut {items : List (Placed Item)} {cs : List Span}
    (h : scan source = some items) (hcs : ∀ c ∈ cs, ⟨.comment, c⟩ ∈ items) (hnodup : cs.Nodup) :
    scan (source.blankOut cs) =
        some (items.filter fun i => !(i.value == .comment && cs.contains i.span)) ∧
      (source.blankOut cs).length = source.length := by
  induction cs generalizing source items with
  | nil => exact ⟨by simp [Text.blankOut, h], rfl⟩
  | cons c cs ih =>
      obtain ⟨hc, hcs⟩ := List.forall_mem_cons.mp hcs
      obtain ⟨hnotin, hnodup⟩ := List.nodup_cons.mp hnodup
      obtain ⟨before, after, rfl⟩ := List.append_of_mem hc
      have hblank := scan_replace_blanks h
      rw [← filter_ne_of_scan h] at hblank
      have hcs' : ∀ c' ∈ cs, ⟨.comment, c'⟩ ∈ (before ++ ⟨.comment, c⟩ :: after).filter
          fun i => !(i.value == .comment && i.span == c) := by
        intro c' hc'
        have hne : c' ≠ c := fun heq => hnotin (heq ▸ hc')
        exact List.mem_filter.mpr ⟨hcs c' hc', by simp [hne]⟩
      obtain ⟨hscan, hlength⟩ := ih hblank hcs' hnodup
      refine ⟨?_, hlength.trans ?_⟩
      · rw [List.filter_filter] at hscan
        rw [Text.blankOut, List.foldl_cons]
        refine hscan.trans (congrArg some (List.filter_congr fun i _ => ?_))
        rw [List.contains_cons]
        cases i.value == .comment <;> cases cs.contains i.span <;> cases i.span == c <;> rfl
      · exact length_replace h (List.length_replicate ..)

namespace Document

variable {d : Document}

/-- The comments of a document are items of its source, each at one place. -/
theorem mem_of_mem_comments {items : List (Placed Item)} (hscan : scan source = some items) :
    (∀ c ∈ Placed.comments items, ⟨.comment, c⟩ ∈ items) ∧ (Placed.comments items).Nodup := by
  obtain ⟨hspans, hpairwise⟩ := (stand_of_scan hscan).pairwise
  refine ⟨fun c hc => ?_, List.pairwise_map.mpr ?_⟩
  · obtain ⟨i, hi, rfl⟩ := List.mem_map.mp hc
    obtain ⟨hi, hcomment⟩ := List.mem_filter.mp hi
    obtain ⟨item, span⟩ := i
    obtain rfl : item = .comment := beq_iff_eq.mp hcomment
    exact hi
  · refine ((hpairwise.imp_of_mem fun {i j} hi _ hle heq => ?_).filter _)
    have := (hspans i hi).2
    rw [← heq] at hle
    omega

/-- The first row of a document is that of its root. -/
theorem rows_eq (d : Document) : d.rows =
    ⟨0, .named .sourceFile, false, d.span⟩ :: Node.rowsAll 1 d.children := rfl

/-- Overwriting comments with blanks takes their rows out of the tree, and only the start of the root
may move, if the same parentheses are set apart.  Whether or not they are, the source is accepted
still.  Writing other bytes into a comment changes nothing. -/
theorem rows_blankOut (h : ofSource? source = some d) :
    (∀ drop : Span → Bool, ∃ d', ofSource? (source.blankOut (d.comments.filter drop)) = some d' ∧
      (setApart (source.blankOut (d.comments.filter drop)) = setApart source →
        d'.span.stop = d.span.stop ∧
          d'.rows.tail = d.rows.tail.filter (!Row.isDropped drop ·))) ∧
    ∀ c ∈ d.comments, ∀ t : Text, Comment.Spells t → (∀ b ∈ t, b ≠ 0) →
      t.length = c.stop - c.start → ofSource? (source.replace c t) = some d := by
  obtain ⟨items, hscan, hnodes, hspan⟩ := ofSource?_eq_some_iff.mp h
  obtain ⟨items', hscan', -, hcomments⟩ := write_of_ofSource? h
  obtain rfl : items = items' := by simpa [hscan] using hscan'
  obtain ⟨hmem, hnodup⟩ := mem_of_mem_comments hscan
  rw [hcomments]
  constructor
  · intro drop
    obtain ⟨stop, hstand, -, -⟩ := Layout.stand_ofItems (stand_of_scan hscan)
    obtain ⟨nodes', hnodes', hsame⟩ := nodes?_without hstand hnodes drop
    obtain ⟨hblank, hlength⟩ := scan_blankOut hscan
      (fun c hc => hmem c (List.mem_filter.mp hc).1) (hnodup.filter drop)
    -- of the comments of the source, the dropped ones are overwritten
    have hitems : (items.filter fun i =>
        !(i.value == .comment && ((Placed.comments items).filter drop).contains i.span)) =
        items.filter fun i => !(i.value == .comment && drop i.span) := by
      refine List.filter_congr fun i hi => ?_
      cases hvalue : i.value == .comment with
      | false => rfl
      | true =>
          have hcomment : i.span ∈ Placed.comments items :=
            List.mem_map.mpr ⟨i, List.mem_filter.mpr ⟨hi, hvalue⟩, rfl⟩
          cases hdrop : drop i.span <;> simp [hcomment, hdrop]
    rw [hitems] at hblank
    rw [← Layout.ofItems_filter] at hnodes' hsame
    refine ⟨⟨_, nodes'⟩, ofSource?_eq_some_iff.mpr ⟨_, hblank, hnodes', rfl⟩, fun hapart => ?_⟩
    rw [setApart_eq hblank, setApart_eq hscan] at hapart
    refine ⟨by rw [hspan, hlength], ?_⟩
    rw [rows_eq, rows_eq, List.tail_cons, List.tail_cons, hsame hapart]
    exact Node.rowsAll_without d.children (tight_children h) 1
  · intro c hc t ht hzero hlength
    obtain ⟨before, after, rfl⟩ := List.append_of_mem (hmem c hc)
    refine ofSource?_eq_some_iff.mpr
      ⟨_, scan_replace_comment hscan ht hzero hlength, hnodes, ?_⟩
    rw [length_replace (i := ⟨.comment, c⟩) hscan hlength, hspan]

/-- A comment in front of a program and one in it, both overwritten. -/
theorem rows_blankOut_of_type : ∃ d d',
    ofSource? (Text.ofString "(*b*) type t (*c*) = A") = some d ∧
      ofSource? (Text.ofString "      type t       = A") = some d' ∧
      d'.rows.tail = d.rows.tail.filter (!Row.isDropped (fun _ => true) ·) := by
  have haccepts : accepts (Text.ofString "(*b*) type t (*c*) = A") = true := by decide +kernel
  obtain ⟨d, hd⟩ := Option.isSome_iff_exists.mp haccepts
  obtain ⟨d', hd', hsame⟩ := (rows_blankOut hd).1 fun _ => true
  have hcomments : d.comments = [⟨0, 5⟩, ⟨13, 18⟩] := by
    obtain ⟨items, hscan, -, hcomments⟩ := write_of_ofSource? hd
    have hitems : (scan (Text.ofString "(*b*) type t (*c*) = A")).map Placed.comments =
        some [⟨0, 5⟩, ⟨13, 18⟩] := by decide +kernel
    rw [hcomments]
    simpa [hscan] using hitems
  have hblank : Text.blankOut (Text.ofString "(*b*) type t (*c*) = A") [⟨0, 5⟩, ⟨13, 18⟩] =
      Text.ofString "      type t       = A" := by decide +kernel
  rw [List.filter_true, hcomments, hblank] at hd' hsame
  exact ⟨d, d', hd, hd', (hsame (by decide +kernel)).2⟩

end Document

end Heptagon
