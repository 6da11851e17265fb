import Heptagon.Proofs.Document.Blanking
import Heptagon.Proofs.Document.Leaves
import Heptagon.Proofs.Document.Staying
import Heptagon.Proofs.Node.Between

/-!
# Comments that are put between tokens

A comment may be put behind every token of an accepted source but one: between a
constructor of an enumeration and a bar it ends the enumeration.  Where it may
stand, it stretches the source and otherwise leaves the tree as it is
(`Document.rows_insertComment`), provided that the same parentheses are set
apart.

The items of the new source without the new comment are those of the stretched
one.  So are the slots, and with them the nodes of whatever program is laid over
them.  A mixed state name would come apart if the comment stood between its
halves; but the comment stands behind a token, and no reading has a token that
goes on there (`Layout.Reads.map_spans_eq`).
-/

namespace Heptagon

variable {source : Text}

/-! ## Two tokens in a row -/

namespace Slot.Write

variable {tokens front back : List (Leaf × Span)} {a b : Leaf} {s s' : Span} {ls : List Lexeme}
  {slots : List Slot}

/-- The first lexeme is that of the first token. -/
theorem exists_head (h : Write ((b, s') :: back) ls slots) :
    ∃ y sy ls' slots', ls = y :: ls' ∧ slots = sy :: slots' ∧ b.lexemes.head? = some y := by
  cases h with
  | one hl _ => exact ⟨_, _, _, _, rfl, rfl, by simp [hl]⟩
  | two hl _ _ _ => exact ⟨_, _, _, _, rfl, rfl, by simp [hl]⟩

/-- Two tokens in a row meet at two slots in a row. -/
theorem exists_pair (h : Write (front ++ (a, s) :: (b, s') :: back) ls slots) :
    ∃ x y sx sy, ∃ pre post : List (Lexeme × Slot),
      ls.zip slots = pre ++ (x, sx) :: (y, sy) :: post ∧ a.lexemes.getLast? = some x ∧
        b.lexemes.head? = some y ∧ sx.span.stop = s.stop := by
  generalize htokens : front ++ (a, s) :: (b, s') :: back = tokens at h
  induction h generalizing front with
  | nil => simp at htokens
  | @one l x sx tokens ls slots hl h ih =>
      cases front with
      | nil =>
          obtain ⟨heq, rfl⟩ := List.cons.inj htokens
          obtain ⟨rfl, rfl⟩ := Prod.mk.inj heq
          obtain ⟨y, sy, ls', slots', rfl, rfl, hy⟩ := h.exists_head
          exact ⟨x, y, sx, sy, [], ls'.zip slots', rfl, by simp [hl], hy, rfl⟩
      | cons token front =>
          obtain ⟨-, hrest⟩ := List.cons.inj htokens
          obtain ⟨x', y', sx', sy', pre, post, hzip, hfacts⟩ := ih hrest
          exact ⟨x', y', sx', sy', (x, sx) :: pre, post, by simp [hzip], hfacts⟩
  | @two l x y sx sy tokens ls slots hl hcomments htouch h ih =>
      cases front with
      | nil =>
          obtain ⟨heq, rfl⟩ := List.cons.inj htokens
          obtain ⟨rfl, rfl⟩ := Prod.mk.inj heq
          -- the second half of the token is next to what follows it
          obtain ⟨z, sz, ls', slots', rfl, rfl, hz⟩ := h.exists_head
          exact ⟨y, z, sy, sz, [(x, sx)], ls'.zip slots', rfl, by simp [hl], hz, rfl⟩
      | cons token front =>
          obtain ⟨-, hrest⟩ := List.cons.inj htokens
          obtain ⟨x', y', sx', sy', pre, post, hzip, hfacts⟩ := ih hrest
          exact ⟨x', y', sx', sy', (x, sx) :: (y, sy) :: pre, post, by simp [hzip], hfacts⟩

end Slot.Write

namespace Slot

variable {tokens tokens' : List (Leaf × Span)} {place : Nat}

theorem spares_iff : Spares place tokens ↔
    ∀ s ∈ tokens.map Prod.snd, ¬ (s.start < place ∧ place < s.stop) := by
  rw [Spares, List.forall_mem_map]

theorem Spares.of_map_snd_eq (h : Spares place tokens)
    (hsame : tokens'.map Prod.snd = tokens.map Prod.snd) : Spares place tokens' := by
  rw [spares_iff, hsame]
  exact spares_iff.mp h

end Slot

/-! ## Layouts of items -/

namespace Layout

/-- What is laid out up to a lexeme does not depend on what stands behind it. -/
theorem exists_written (before : List (Placed Item)) (x : Lexeme) (s : Span) :
    ∃ pre slot, ∀ after, (ofItems (before ++ ⟨.lexeme x, s⟩ :: after)).written =
      pre ++ (x, slot) :: (ofItems after).written := by
  induction before with
  | nil => exact ⟨[], ⟨[], s⟩, fun _ => rfl⟩
  | cons i before ih =>
      obtain ⟨pre, slot, h⟩ := ih
      obtain ⟨item, span⟩ := i
      cases item with
      | lexeme y =>
          exact ⟨(y, ⟨[], span⟩) :: pre, slot, fun after => by
            rw [List.cons_append, ofItems, h after]
            rfl⟩
      | comment =>
          cases pre with
          | nil =>
              exact ⟨[], ⟨span :: slot.comments, slot.span⟩, fun after => by
                rw [List.cons_append, ofItems, addComment, h after]
                rfl⟩
          | cons w pre =>
              exact ⟨(w.1, ⟨span :: w.2.comments, w.2.span⟩) :: pre, slot, fun after => by
                rw [List.cons_append, ofItems, addComment, h after]
                rfl⟩

end Layout

/-! ## The new comment -/

/-- The source with a comment behind a place, and a blank on either side of it. -/
def Text.insertComment (source : Text) (place : Nat) (c : Text) : Text :=
  source.replace ⟨place, place⟩ (32 :: c ++ [32])

/-- Where the new comment stands. -/
def Span.inserted (place : Nat) (c : Text) : Span := ⟨place + 1, place + 1 + c.length⟩

section

variable {before after : List (Placed Item)} {x : Lexeme} {s : Span} {c : Text}

/-- The items of the source with the new comment. -/
def Placed.insert (before after : List (Placed Item)) (x : Lexeme) (s : Span) (c : Text) :
    List (Placed Item) :=
  before ++ ⟨.lexeme x, s⟩ :: ⟨.comment, .inserted s.stop c⟩ :: after.map (.moveBy (c.length + 2))

/-- Where the items of a source stand, seen from one of them. -/
theorem bounds_of_scan (h : scan source = some (before ++ ⟨.lexeme x, s⟩ :: after)) :
    (∀ i ∈ before, i.span.start < i.span.stop ∧ i.span.stop ≤ s.start) ∧ s.start < s.stop ∧
      ∀ i ∈ after, i.span.start < i.span.stop ∧ s.stop ≤ i.span.start := by
  obtain ⟨hspans, hpairwise⟩ := (stand_of_scan h).pairwise
  obtain ⟨-, hafter, hbefore⟩ := List.pairwise_append.mp hpairwise
  refine ⟨fun i hi => ⟨(hspans i (by simp [hi])).2, hbefore i hi ⟨.lexeme x, s⟩ (by simp)⟩,
    (hspans ⟨.lexeme x, s⟩ (by simp)).2,
    fun i hi => ⟨(hspans i (by simp [hi])).2, (List.pairwise_cons.mp hafter).1 i hi⟩⟩

/-- Without the new comment, the new items are the old ones in the stretched source. -/
theorem Placed.filter_insert (h : scan source = some (before ++ ⟨.lexeme x, s⟩ :: after)) :
    (Placed.insert before after x s c).filter
        (fun i => !(i.value == .comment && i.span == .inserted s.stop c)) =
      (before ++ ⟨.lexeme x, s⟩ :: after).map
        fun i => ⟨i.value, i.span.stretch s.stop (c.length + 2)⟩ := by
  obtain ⟨hbefore, hs, hafter⟩ := bounds_of_scan h
  have hstay : ∀ t : Span, t.start < t.stop → t.stop ≤ s.stop →
      t.stretch s.stop (c.length + 2) = t := by
    intro t hspan hle
    simp [Span.stretch, hle, hspan.trans_le hle]
  rw [Placed.insert, List.filter_append, List.filter_cons_of_pos (by simp),
    List.filter_cons_of_neg (by simp), List.map_append, List.map_cons]
  congr 1
  · -- the items before the new comment stay where they are
    rw [List.filter_eq_self.mpr]
    · refine (List.map_congr_left fun i hi => ?_).trans (List.map_id _) |>.symm
      obtain ⟨hspan, hle⟩ := hbefore i hi
      rw [hstay i.span hspan (hle.trans hs.le)]
      rfl
    · intro i hi
      obtain ⟨hspan, hle⟩ := hbefore i hi
      have hne : i.span ≠ .inserted s.stop c := by
        intro heq
        have hstart := congrArg Span.start heq
        simp only [Span.inserted] at hstart
        omega
      simp [hne]
  · -- the items behind it move on
    rw [hstay s hs (Nat.le_refl _), List.filter_eq_self.mpr]
    · refine congrArg _ (List.map_congr_left fun i hi => ?_)
      obtain ⟨hspan, hle⟩ := hafter i hi
      have hstop : ¬ i.span.stop ≤ s.stop := by omega
      simp [Placed.moveBy, Span.moveBy, Span.stretch, hstop, Nat.not_lt.mpr hle]
    · intro j hj
      obtain ⟨i, hi, rfl⟩ := List.mem_map.mp hj
      obtain ⟨hspan, hle⟩ := hafter i hi
      have hne : (i.moveBy (c.length + 2)).span ≠ .inserted s.stop c := by
        intro heq
        have hstart := congrArg Span.start heq
        simp only [Placed.moveBy, Span.moveBy, Span.inserted] at hstart
        omega
      simp [hne]

/-- The new layout without the new comment is the stretched one. -/
theorem Layout.without_insert (h : scan source = some (before ++ ⟨.lexeme x, s⟩ :: after)) :
    (ofItems (Placed.insert before after x s c)).without (· == .inserted s.stop c) =
      (ofItems (before ++ ⟨.lexeme x, s⟩ :: after)).stretch s.stop (c.length + 2) := by
  rw [← ofItems_filter, Placed.filter_insert h, ofItems_map]
  rfl

/-- The new comment ends an enumeration if it stands between a capital word and a bar, and nowhere
else. -/
theorem Layout.enumerationsWhole_insert {y : Lexeme} {sy : Slot} {post : List (Lexeme × Slot)}
    (hafter : (ofItems after).written = (y, sy) :: post)
    (hwhole : enumerationsWhole (ofItems (before ++ ⟨.lexeme x, s⟩ :: after)).written = true) :
    enumerationsWhole (ofItems (Placed.insert before after x s c)).written = true ↔
      ∀ t, x = .capital t → y ≠ .symbol .bar := by
  obtain ⟨pre, slot, hwritten⟩ := exists_written before x s
  have hnew : (ofItems (⟨.comment, .inserted s.stop c⟩ ::
      after.map (.moveBy (c.length + 2)))).written =
        (y, ⟨.inserted s.stop c :: sy.comments.map (.moveBy (c.length + 2)),
          sy.span.moveBy (c.length + 2)⟩) ::
        post.map fun w => (w.1, ⟨w.2.comments.map (.moveBy (c.length + 2)),
          w.2.span.moveBy (c.length + 2)⟩) := by
    have hmoved := ofItems_map (.moveBy (c.length + 2)) after
    have hitems : (after.map fun i => (⟨i.value, i.span.moveBy (c.length + 2)⟩ : Placed Item)) =
        after.map (.moveBy (c.length + 2)) := rfl
    rw [← hitems, ofItems, hmoved, addComment, mapSpans, hafter]
    rfl
  -- only the two lexemes around the comment may be torn apart by it
  rw [enumerationsWhole_iff, hwritten, hafter, List.isChain_append_cons_cons] at hwhole
  rw [enumerationsWhole_iff, Placed.insert, hwritten, hnew, List.isChain_append_cons_cons]
  obtain ⟨hpre, -, hpost⟩ := hwhole
  have hpost' : List.IsChain Whole ((y, ⟨.inserted s.stop c ::
      sy.comments.map (.moveBy (c.length + 2)), sy.span.moveBy (c.length + 2)⟩) ::
        post.map fun w => (w.1, ⟨w.2.comments.map (.moveBy (c.length + 2)),
          w.2.span.moveBy (c.length + 2)⟩)) := by
    obtain ⟨hfirst, hpost⟩ := List.isChain_cons.mp hpost
    refine List.isChain_cons.mpr ⟨fun v hv => ?_,
      (List.isChain_map _).mpr (hpost.imp fun _ _ h => whole_mapSpans.mpr h)⟩
    rw [List.head?_map] at hv
    obtain ⟨u, hu, rfl⟩ := Option.map_eq_some_iff.mp hv
    exact whole_mapSpans.mpr (hfirst u hu)
  constructor
  · rintro ⟨-, hwhole, -⟩ t rfl rfl
    simpa using hwhole t rfl rfl
  · intro hxy
    exact ⟨hpre, fun t hx hy => absurd hy (hxy t hx), hpost'⟩

end

/-! ## Stretched slots -/

/-- Slots of a source that touch once it is stretched have touched before. -/
theorem Slot.Stand.touchAs_stretch {offset stop place n : Nat} {ls : List Lexeme}
    {slots : List Slot} (h : Stand source stop offset ls slots) (hn : 0 < n) :
    Slot.TouchAs slots (slots.map (·.stretch place n)) := by
  have htouch : Slot.TouchAs (slots.map id) (slots.map (·.stretch place n)) :=
    .of_map (h.isChain.imp fun s t hst htouch => by
      have hle := hst.1
      have hstop := htouch.1
      simp only [Slot.stretch, Span.stretch] at hstop
      have heq : s.span.stop = t.span.start := by
        split at hstop <;> split at hstop <;> omega
      exact ⟨heq, hst.2 heq⟩)
  rwa [List.map_id] at htouch

namespace Document

/-- The document of a layout that becomes a stretched one without some comments. -/
theorem nodes?_stretch {l l' : Layout} {offset stop place n : Nat} {offset' stop' : Nat}
    {source' : Text} {drop : Span → Bool} {nodes : List Node} (hn : 0 < n)
    (hstand : Slot.Stand source stop offset l.lexemes l.slots)
    (hstand' : Slot.Stand source' stop' offset' l'.lexemes l'.slots)
    (hwithout : l'.without drop = l.stretch place n)
    (hspares : Slot.Spares place (Node.tokensAll nodes))
    (hwhole : Layout.enumerationsWhole l'.written = true) (h : nodes? l = some nodes) :
    ∃ nodes', nodes? l' = some nodes' ∧ (l'.setApart = l.setApart →
      Node.withoutAll drop nodes' = Node.stretchAll place n nodes) := by
  obtain ⟨-, inner, hinner, rfl⟩ := nodes?_eq_some_iff.mp h
  obtain ⟨r, hr, hr'⟩ := (Program.placed?_eq_some_iff_reading? hstand).mp hinner
  rw [Node.tokensAll_append, Node.tokensAll_map_comment, List.append_nil] at hspares
  have hjoined : l'.joined = l.joined := calc
    l'.joined = (l'.without drop).joined := Layout.joined_without.symm
    _ = l.joined := by rw [hwithout, Layout.joined_stretch]
  have hslots : l'.slots.map (·.without drop) = l.slots.map (·.stretch place n) := by
    rw [← Layout.slots_without, hwithout, Layout.slots_stretch]
  -- every reading of the old layout can be laid over the new slots, and the other way round
  have hplace : ∀ (p : Program) ns, l.Reads p → p.place l.slots = some ns →
      ∃ ns', p.place l'.slots = some ns' ∧
        Node.withoutAll drop ns' = Node.stretchAll place n ns := by
    intro p ns hreads hp
    have hspares' := hspares.of_map_snd_eq
      ((Layout.reads_of_reading? hr).map_spans_eq hstand hreads hr' hp)
    have hstretch := Program.place_stretch (n := n) hstand.start_lt_stop hspares' hp
    rw [← hslots] at hstretch
    obtain ⟨ns', hns'⟩ :=
      Program.exists_place_of_touchAs (hstand'.touchAs_without drop) hstretch
    refine ⟨ns', hns', ?_⟩
    rw [Program.place_without hns'] at hstretch
    exact Option.some.inj hstretch
  have hback : ∀ (p : Program) ns', p.place l'.slots = some ns' → (p.place l.slots).isSome := by
    intro p ns' hp
    have hwithout : p.place (l'.slots.map (·.without drop)) = some (Node.withoutAll drop ns') :=
      Program.place_without hp
    rw [hslots] at hwithout
    exact Option.isSome_iff_exists.mpr
      (Program.exists_place_of_touchAs (hstand.touchAs_stretch hn) hwithout)
  obtain ⟨inner', hinner', hsame⟩ := Program.exists_placed? hjoined hplace hback hinner
  refine ⟨_, nodes?_eq_some_iff.mpr ⟨hwhole, inner', hinner', rfl⟩, fun h => ?_⟩
  have htrailing : l'.trailing.filter (!drop ·) = l.trailing.map (.stretch place n) :=
    congrArg Layout.trailing hwithout
  rw [Node.withoutAll_append, Node.stretchAll_append, hsame h, Node.withoutAll_map_comment,
    Node.stretchAll_map_comment, htrailing]

/-- The root of the new source is that of the old one, stretched. -/
theorem span_insertComment {before after : List (Placed Item)} {x : Lexeme} {s : Span} {c : Text}
    (h : scan source = some (before ++ ⟨.lexeme x, s⟩ :: after)) (hne : after ≠ []) :
    (⟨((Placed.insert before after x s c).head?.map (·.span.start)).getD
        (source.insertComment s.stop c).length, (source.insertComment s.stop c).length⟩ : Span) =
      Span.stretch s.stop (c.length + 2)
        ⟨((before ++ ⟨.lexeme x, s⟩ :: after).head?.map (·.span.start)).getD source.length,
          source.length⟩ := by
  obtain ⟨hbefore, hs, hafter⟩ := bounds_of_scan h
  obtain ⟨i, rest, rfl⟩ := List.exists_cons_of_ne_nil hne
  obtain ⟨-, hi⟩ := hafter i (by simp)
  have hstop : s.stop < source.length := by
    have hscan : scan source = some ((before ++ [⟨.lexeme x, s⟩]) ++ i :: rest) := by simpa using h
    obtain ⟨b, taken, -, hdrop, -, -⟩ := scan_cut hscan
    have hlength := congrArg List.length hdrop
    simp only [List.length_drop, List.length_append, List.length_cons] at hlength
    omega
  have hlength : (source.insertComment s.stop c).length = source.length + (c.length + 2) := by
    simp only [Text.insertComment, Text.replace, List.length_append, List.length_cons,
      List.length_nil, List.length_take, List.length_drop]
    omega
  rw [hlength, Placed.insert]
  cases before with
  | nil => simp [Span.stretch, hs, Nat.not_le.mpr hstop]
  | cons j before =>
      obtain ⟨hj, hle⟩ := hbefore j (by simp)
      have hlt : j.span.start < s.stop := by omega
      simp [Span.stretch, hlt, Nat.not_le.mpr hstop]

variable {d : Document} {front back : List (Leaf × Span)} {a b : Leaf} {s s' : Span} {c : Text}

/-- Two tokens in a row meet at two lexemes of the source. -/
theorem exists_items_of_tokens (h : ofSource? source = some d)
    (htokens : d.tokens = front ++ (a, s) :: (b, s') :: back) :
    ∃ before x span after y sy post, scan source = some (before ++ ⟨.lexeme x, span⟩ :: after) ∧
      (Layout.ofItems after).written = (y, sy) :: post ∧ a.lexemes.getLast? = some x ∧
      b.lexemes.head? = some y ∧ span.stop = s.stop := by
  obtain ⟨items, hscan, hwrite, -⟩ := write_of_ofSource? h
  rw [htokens] at hwrite
  obtain ⟨x, y, sx, sy, pre, post, hzip, hx, hy, hstop⟩ := hwrite.exists_pair
  rw [← Layout.written_eq_zip] at hzip
  obtain ⟨before, after, rfl, -, hafter⟩ := Layout.exists_items hzip
  exact ⟨before, x, sx.span, after, y, sy, post, hscan, hafter, hx, hy, hstop⟩

/-- The document of the source with the new comment, if this ends no enumeration. -/
theorem nodes?_insert {before after : List (Placed Item)} {x : Lexeme}
    (h : ofSource? source = some d)
    (hscan : scan source = some (before ++ ⟨.lexeme x, s⟩ :: after))
    (hnew : scan (source.insertComment s.stop c) = some (Placed.insert before after x s c))
    (hspares : Slot.Spares s.stop d.tokens)
    (hwhole : Layout.enumerationsWhole
      (Layout.ofItems (Placed.insert before after x s c)).written = true) :
    ∃ nodes', nodes? (.ofItems (Placed.insert before after x s c)) = some nodes' ∧
      (setApart (source.insertComment s.stop c) = setApart source →
        Node.withoutAll (· == .inserted s.stop c) nodes' =
          Node.stretchAll s.stop (c.length + 2) d.children) := by
  obtain ⟨items, hscan', hnodes, -⟩ := ofSource?_eq_some_iff.mp h
  obtain rfl : _ = items := Option.some.inj (hscan.symm.trans hscan')
  obtain ⟨_, hstand, -, -⟩ := Layout.stand_ofItems (stand_of_scan hscan)
  obtain ⟨_, hstand', -, -⟩ := Layout.stand_ofItems (stand_of_scan hnew)
  rw [setApart_eq hnew, setApart_eq hscan]
  exact nodes?_stretch (by omega) hstand hstand' (Layout.without_insert hscan) hspares hwhole hnodes

/-- A comment between two tokens is accepted exactly if it does not come between a capital name and
a bar.  Then the tree is as before but for the comment and the places, if the same parentheses are
set apart. -/
theorem rows_insertComment (h : ofSource? source = some d)
    (htokens : d.tokens = front ++ (a, s) :: (b, s') :: back)
    (hc : Comment.Spells c) (hzero : ∀ byte ∈ c, byte ≠ 0) :
    (accepts (source.insertComment s.stop c) = true ↔
      ∀ t, a.lexemes.getLast? = some (.capital t) → b.lexemes.head? ≠ some (.symbol .bar)) ∧
    ∀ d', ofSource? (source.insertComment s.stop c) = some d' →
      setApart (source.insertComment s.stop c) = setApart source →
      d'.rows.filter (!Row.isDropped (· == .inserted s.stop c) ·) =
        d.rows.map (.stretch s.stop (c.length + 2)) := by
  have hspares := spares_stop h htokens
  obtain ⟨before, x, span, after, y, sy, post, hscan, hafter, hx, hy, hstop⟩ :=
    exists_items_of_tokens h htokens
  rw [← hstop] at hspares
  rw [← hstop, hx, hy]
  -- the new source has one more item
  have hnew : scan (source.insertComment span.stop c) =
      some (Placed.insert before after x span c) := scan_insert_comment hscan hc hzero
  obtain ⟨items, hscan', hnodes, hspan⟩ := ofSource?_eq_some_iff.mp h
  obtain rfl : _ = items := Option.some.inj (hscan.symm.trans hscan')
  have hwhole := Layout.enumerationsWhole_insert (c := c) hafter (nodes?_eq_some_iff.mp hnodes).1
  have hread := nodes?_insert h hscan hnew hspares
  constructor
  · have haccepts : accepts (source.insertComment span.stop c) = true ↔
        Layout.enumerationsWhole
          (Layout.ofItems (Placed.insert before after x span c)).written = true := by
      constructor
      · intro hd
        obtain ⟨d', hd'⟩ := Option.isSome_iff_exists.mp hd
        obtain ⟨items', hscan', hnodes', -⟩ := ofSource?_eq_some_iff.mp hd'
        obtain rfl : _ = items' := Option.some.inj (hnew.symm.trans hscan')
        exact (nodes?_eq_some_iff.mp hnodes').1
      · intro hw
        obtain ⟨nodes', hnodes', -⟩ := hread hw
        exact Option.isSome_iff_exists.mpr
          ⟨⟨_, nodes'⟩, ofSource?_eq_some_iff.mpr ⟨_, hnew, hnodes', rfl⟩⟩
    rw [haccepts, hwhole]
    simp
  · intro d' hd' hapart
    obtain ⟨items', hscan', hnodes', hspan'⟩ := ofSource?_eq_some_iff.mp hd'
    obtain rfl : _ = items' := Option.some.inj (hnew.symm.trans hscan')
    obtain ⟨nodes', hnodes'', hsame⟩ := hread (nodes?_eq_some_iff.mp hnodes').1
    obtain rfl : d'.children = nodes' := Option.some.inj (hnodes'.symm.trans hnodes'')
    have hne : after ≠ [] := by
      rintro rfl
      simp [Layout.ofItems] at hafter
    rw [rows_eq, rows_eq, List.filter_cons_of_pos (by simp [Row.isDropped]), List.map_cons,
      ← Node.rowsAll_without d'.children (tight_children hd') 1, hsame hapart,
      Node.rowsAll_stretch d.children (tight_children h) 1, hspan', hspan,
      span_insertComment hscan hne]
    rfl

/-- A comment behind the name of a type. -/
theorem rows_insertComment_of_type : ∃ d d',
    ofSource? (Text.ofString "type t = A | B") = some d ∧
      ofSource? (Text.ofString "type t (*c*)  = A | B") = some d' ∧
      d'.rows.filter (!Row.isDropped (· == ⟨7, 12⟩) ·) = d.rows.map (.stretch 6 7) := by
  have haccepts : accepts (Text.ofString "type t = A | B") = true := by decide +kernel
  obtain ⟨d, hd⟩ := Option.isSome_iff_exists.mp haccepts
  have htokens : (ofSource? (Text.ofString "type t = A | B")).map tokens =
      some ([(.keyword .type, ⟨0, 4⟩)] ++
        (.name (.plain (Text.ofString "t")), ⟨5, 6⟩) :: (.symbol .equal, ⟨7, 8⟩) ::
          [(.variant (Text.ofString "A"), ⟨9, 10⟩), (.symbol .bar, ⟨11, 12⟩),
            (.variant (Text.ofString "B"), ⟨13, 14⟩)]) := by decide +kernel
  rw [hd, Option.map_some, Option.some.injEq] at htokens
  have hclose : Comment.close? [99, 42, 41] = some ([99, 42, 41], []) := rfl
  have hc : Comment.Spells (Text.ofString "(*c*)") := (Comment.closes_of_close? hclose).spells
  obtain ⟨hiff, hrows⟩ := rows_insertComment hd htokens hc (by decide +kernel)
  have hsource : Text.insertComment (Text.ofString "type t = A | B") 6 (Text.ofString "(*c*)") =
      Text.ofString "type t (*c*)  = A | B" := by decide +kernel
  rw [hsource] at hiff hrows
  obtain ⟨d', hd'⟩ := Option.isSome_iff_exists.mp (hiff.mpr (by simp))
  exact ⟨d, d', hd, hd', hrows d' hd' (by decide +kernel)⟩

/-- A state that touches the keyword before it. -/
example :
    accepts (Text.ofString "fun f()returns()let automaton stateA do end tel") = true ∧
    accepts (Text.ofString "fun f()returns()let automaton state (*c*) A do end tel") = true := by
  decide +kernel

/-- The bar of an enumeration. -/
example : accepts (Text.ofString "type t = A | B") = true ∧
    accepts (Text.ofString "type t = A (*c*) | B") = false := by
  decide +kernel

end Document

end Heptagon
