import Heptagon.Proofs.Document.Comments
import Heptagon.Proofs.Node.Changes

/-!
# Reading a changed layout

Comments are no part of what is read, so a layout that loses comments or is
stretched is first read as the same program, and the nodes of the program change
as the layout does.  The second reading is another matter: which parentheses
stand apart may depend on where there are comments.  It is the same reading if
the same parentheses stand apart (`Layout.setApart`).
-/

namespace Heptagon

/-- The places of the parentheses of a layout that directly follow a word and are set apart from it
after the readings have been compared. -/
def Layout.setApart (l : Layout) : List Nat :=
  match Program.ofLexemes? l.joined with
  | some p => p.parens l l.joined
  | none => []

/-! ## Changed layouts -/

namespace Layout

theorem written_eq_zip (l : Layout) : l.written = l.lexemes.zip l.slots := by
  rw [lexemes, slots, List.zip_map']
  exact (List.map_id _).symm

/-- The layout without those comments whose spans are among some. -/
def without (drop : Span → Bool) (l : Layout) : Layout :=
  ⟨l.written.map fun w => (w.1, w.2.without drop), l.trailing.filter (!drop ·)⟩

/-- The layout with other spans. -/
def mapSpans (f : Span → Span) (l : Layout) : Layout :=
  ⟨l.written.map fun w => (w.1, ⟨w.2.comments.map f, f w.2.span⟩), l.trailing.map f⟩

/-- The layout in a stretched text. -/
def stretch (place n : Nat) (l : Layout) : Layout := l.mapSpans (.stretch place n)

variable {drop : Span → Bool} {place n : Nat} {l : Layout}

@[simp] theorem lexemes_without : (l.without drop).lexemes = l.lexemes := by
  simp [lexemes, without]

@[simp] theorem slots_without : (l.without drop).slots = l.slots.map (·.without drop) := by
  simp [slots, without]

@[simp] theorem joined_without : (l.without drop).joined = l.joined := by
  simp [joined]

@[simp] theorem lexemes_stretch : (l.stretch place n).lexemes = l.lexemes := by
  simp [lexemes, stretch, mapSpans]

@[simp] theorem slots_stretch : (l.stretch place n).slots = l.slots.map (·.stretch place n) := by
  simp [slots, stretch, mapSpans, Slot.stretch]

@[simp] theorem joined_stretch : (l.stretch place n).joined = l.joined := by
  simp [joined]

theorem without_addComment {c : Span} : (l.addComment c).without drop =
    if drop c then l.without drop else (l.without drop).addComment c := by
  obtain ⟨written, trailing⟩ := l
  cases written with
  | nil => cases h : drop c <;> simp [addComment, without, h]
  | cons w written => cases h : drop c <;> simp [addComment, without, Slot.without, h]

theorem mapSpans_addComment {f : Span → Span} {c : Span} :
    (l.addComment c).mapSpans f = (l.mapSpans f).addComment (f c) := by
  obtain ⟨written, trailing⟩ := l
  cases written with
  | nil => simp [addComment, mapSpans]
  | cons w written => simp [addComment, mapSpans]

/-- Items without some comments are laid out without them. -/
theorem ofItems_filter (drop : Span → Bool) (items : List (Placed Item)) :
    ofItems (items.filter fun i => !(i.value == .comment && drop i.span)) =
      (ofItems items).without drop := by
  induction items with
  | nil => rfl
  | cons i items ih =>
      obtain ⟨item, span⟩ := i
      cases item with
      | lexeme x =>
          rw [List.filter_cons_of_pos (by simp), ofItems, ih]
          rfl
      | comment =>
          rw [ofItems, without_addComment, ← ih]
          cases h : drop span <;> simp [h, ofItems]

/-- Items with other spans are laid out with these. -/
theorem ofItems_map (f : Span → Span) (items : List (Placed Item)) :
    ofItems (items.map fun i => ⟨i.value, f i.span⟩) = (ofItems items).mapSpans f := by
  induction items with
  | nil => rfl
  | cons i items ih =>
      obtain ⟨item, span⟩ := i
      cases item with
      | lexeme x =>
          rw [List.map_cons, ofItems, ih]
          rfl
      | comment => rw [List.map_cons, ofItems, ofItems, mapSpans_addComment, ih]

/-- A layout with one comment more in front can be cut where the layout without it can. -/
theorem exists_of_addComment {l : Layout} {c : Span} {ws vs : List (Lexeme × Slot)} {x : Lexeme}
    {t : Slot} (h : (l.addComment c).written = ws ++ (x, t) :: vs) :
    ∃ ws' t', l.written = ws' ++ (x, t') :: vs ∧ t'.span = t.span ∧
      addComment c ⟨ws', t'.comments⟩ = ⟨ws, t.comments⟩ := by
  obtain ⟨written, trailing⟩ := l
  cases written with
  | nil => simp [addComment] at h
  | cons w written =>
      cases ws with
      | nil =>
          obtain ⟨heq, rfl⟩ := List.cons.inj h
          obtain ⟨rfl, rfl⟩ := Prod.mk.inj heq
          exact ⟨[], w.2, rfl, rfl, rfl⟩
      | cons v ws =>
          obtain ⟨rfl, rfl⟩ := List.cons.inj h
          exact ⟨w :: ws, t, rfl, rfl, rfl⟩

/-- Items can be cut where their layout is cut. -/
theorem exists_items {items : List (Placed Item)} {ws vs : List (Lexeme × Slot)} {x : Lexeme}
    {t : Slot} (h : (ofItems items).written = ws ++ (x, t) :: vs) :
    ∃ before after, items = before ++ ⟨.lexeme x, t.span⟩ :: after ∧
      ofItems before = ⟨ws, t.comments⟩ ∧ (ofItems after).written = vs := by
  induction items generalizing ws t with
  | nil => simp [ofItems] at h
  | cons i items ih =>
      obtain ⟨item, span⟩ := i
      cases item with
      | lexeme y =>
          cases ws with
          | nil =>
              obtain ⟨heq, rfl⟩ := List.cons.inj h
              obtain ⟨rfl, rfl⟩ := Prod.mk.inj heq
              exact ⟨[], items, rfl, rfl, rfl⟩
          | cons w ws =>
              obtain ⟨rfl, hrest⟩ := List.cons.inj h
              obtain ⟨before, after, rfl, hbefore, hafter⟩ := ih hrest
              exact ⟨⟨.lexeme y, span⟩ :: before, after, rfl, by rw [ofItems, hbefore], hafter⟩
      | comment =>
          rw [ofItems] at h
          obtain ⟨ws', t', hitems, hspan, hcomment⟩ := exists_of_addComment h
          obtain ⟨before, after, rfl, hbefore, hafter⟩ := ih hitems
          refine ⟨⟨.comment, span⟩ :: before, after, by rw [← hspan]; rfl, ?_, hafter⟩
          rw [ofItems, hbefore, hcomment]

/-! ## Enumerations -/

/-- No comment comes between a constructor and a bar. -/
def Whole (w v : Lexeme × Slot) : Prop :=
  ∀ t, w.1 = .capital t → v.1 = .symbol .bar → v.2.comments = []

theorem enumerationsWhole_iff {ws : List (Lexeme × Slot)} :
    enumerationsWhole ws = true ↔ ws.IsChain Whole := by
  fun_induction enumerationsWhole ws with
  | case1 t s s' rest ih =>
      rw [Bool.and_eq_true, ih, List.isChain_cons_cons]
      simp [Whole]
  | case2 w rest hnot ih =>
      rw [ih, List.isChain_cons]
      refine ⟨fun h => ⟨fun v hv t hw hbar => ?_, h⟩, And.right⟩
      obtain ⟨vs, rfl⟩ := List.head?_eq_some_iff.mp hv
      obtain ⟨x, s⟩ := w
      obtain ⟨y, s'⟩ := v
      obtain rfl : x = .capital t := hw
      obtain rfl : y = .symbol .bar := hbar
      exact (hnot t s s' vs rfl rfl).elim
  | case3 => simp

/-- A lexeme that is neither a constructor nor a bar stands between two enumerations. -/
theorem isChain_whole_iff {x : Lexeme} (hcapital : ∀ t, x ≠ .capital t) (hbar : x ≠ .symbol .bar)
    {s : Slot} {ws us : List (Lexeme × Slot)} :
    (ws ++ (x, s) :: us).IsChain Whole ↔ ws.IsChain Whole ∧ us.IsChain Whole := by
  have hbefore : ∀ w, Whole w (x, s) := fun _ _ _ heq => absurd heq hbar
  have hbehind : ∀ w, Whole (x, s) w := fun _ t heq => absurd heq (hcapital t)
  simp [List.isChain_append, List.isChain_cons, hbefore, hbehind]

theorem Whole.without {w v : Lexeme × Slot} (h : Whole w v) :
    Whole (w.1, w.2.without drop) (v.1, v.2.without drop) := fun t hw hv => by
  simp [Slot.without, h t hw hv]

theorem whole_mapSpans {f : Span → Span} {w v : Lexeme × Slot} :
    Whole (w.1, ⟨w.2.comments.map f, f w.2.span⟩) (v.1, ⟨v.2.comments.map f, f v.2.span⟩) ↔
      Whole w v := by
  simp [Whole]

theorem enumerationsWhole_without (h : enumerationsWhole l.written = true) :
    enumerationsWhole (l.without drop).written = true := by
  rw [enumerationsWhole_iff] at h ⊢
  exact List.isChain_map _ |>.mpr (h.imp fun _ _ => Whole.without)

end Layout

/-! ## Programs over changed slots -/

section

variable {drop : Span → Bool} {place n : Nat}

@[simp] theorem Slot.withoutAll_commentsBetween (drop : Span → Bool) (slots : List Slot) :
    Node.withoutAll drop (commentsBetween slots) =
      commentsBetween (slots.map (·.without drop)) := by
  cases slots with
  | nil => rfl
  | cons s slots => exact Node.withoutAll_map_comment false s.comments

@[simp] theorem Slot.stretchAll_commentsBetween (place n : Nat) (slots : List Slot) :
    Node.stretchAll place n (commentsBetween slots) =
      commentsBetween (slots.map (.stretch place n)) := by
  cases slots with
  | nil => rfl
  | cons s slots => exact Node.stretchAll_map_comment false s.comments

theorem Definition.place_without {d : Definition} {slots rest : List Slot} {nodes : List Node}
    (h : d.place slots = some (nodes, rest)) :
    d.place (slots.map (·.without drop)) =
      some (Node.withoutAll drop nodes, rest.map (·.without drop)) := by
  obtain ⟨ns, hns, rfl⟩ := place_iff.mp h
  exact place_iff.mpr ⟨_, Tree.placeAll_without drop d.trees hns, by simp⟩

theorem Program.place_without {p : Program} {slots : List Slot} {nodes : List Node}
    (h : p.place slots = some nodes) :
    p.place (slots.map (·.without drop)) = some (Node.withoutAll drop nodes) := by
  induction p generalizing slots nodes with
  | nil =>
      obtain rfl := by simpa [place] using h
      rfl
  | cons d p ih =>
      obtain ⟨first, rest, more, hfirst, hmore, rfl⟩ := place_cons_iff.mp h
      exact place_cons_iff.mpr ⟨_, _, _, Definition.place_without hfirst, ih hmore, by simp⟩

theorem Program.exists_place_of_touchAs {p : Program} {slots slots' : List Slot}
    {nodes' : List Node} (htouch : Slot.TouchAs slots slots') (h : p.place slots' = some nodes') :
    ∃ nodes, p.place slots = some nodes := by
  induction p generalizing slots slots' nodes' with
  | nil => exact ⟨[], rfl⟩
  | cons d p ih =>
      obtain ⟨first', rest', more', hfirst', hmore', -⟩ := place_cons_iff.mp h
      obtain ⟨ns', hns', -⟩ := Definition.place_iff.mp hfirst'
      obtain ⟨ns, rest, hns, htouch⟩ := Tree.exists_placeAll_of_touchAs d.trees htouch hns'
      obtain ⟨more, hmore⟩ := ih htouch hmore'
      exact ⟨_, place_cons_iff.mpr ⟨_, rest, more, Definition.place_iff.mpr ⟨ns, hns, rfl⟩,
        hmore, rfl⟩⟩

theorem Program.place_stretch {p : Program} {slots : List Slot} {nodes : List Node}
    (hslots : ∀ s ∈ slots, s.span.start < s.span.stop)
    (hspares : Slot.Spares place (Node.tokensAll nodes)) (h : p.place slots = some nodes) :
    p.place (slots.map (.stretch place n)) = some (Node.stretchAll place n nodes) := by
  induction p generalizing slots nodes with
  | nil =>
      obtain rfl := by simpa [Program.place] using h
      rfl
  | cons d p ih =>
      obtain ⟨first, rest, more, hfirst, hmore, rfl⟩ := place_cons_iff.mp h
      obtain ⟨ns, hns, rfl⟩ := Definition.place_iff.mp hfirst
      rw [Node.tokensAll_append, Node.tokensAll_append, Slot.tokensAll_commentsBetween,
        List.nil_append] at hspares
      obtain ⟨hfirst', hmore'⟩ := List.forall_mem_append.mp hspares
      have hrest : ∀ s ∈ rest, s.span.start < s.span.stop := fun s hs =>
        hslots s ((Tree.suffix_of_placeAll d.trees hns).mem hs)
      exact place_cons_iff.mpr ⟨_, _, _,
        Definition.place_iff.mpr ⟨_, Tree.placeAll_stretch d.trees hslots hfirst' hns, rfl⟩,
        ih hrest hmore' hmore, by simp⟩

end

/-! ## Readings -/

/-- The lexemes of a layout as they are read in the end. -/
def Layout.settled (l : Layout) : List Lexeme := Lexeme.separateAt l.setApart 0 l.joined

theorem Layout.setApart_eq {l : Layout} {p : Program} (h : Program.ofLexemes? l.joined = some p) :
    l.setApart = p.parensIn l.commentCounts l.joined := by
  rw [setApart, h]
  rfl

theorem Layout.divided_eq {l : Layout} {p : Program} (h : Program.ofLexemes? l.joined = some p) :
    l.divided p = l.settled := by
  rw [settled, setApart, h]
  rfl

/-- The nodes of a layout are those of its last reading, or of the first one if there is no other. -/
theorem Program.placed?_eq_some_iff {l : Layout} {nodes : List Node} :
    placed? l = some nodes ↔ ∃ p first, ofLexemes? l.joined = some p ∧ p.place l.slots = some first ∧
      nodes = ((ofLexemes? l.settled).bind (·.place l.slots)).getD first := by
  simp only [placed?, Option.bind_eq_bind, Option.bind_eq_some_iff, Option.pure_def,
    Option.some.injEq]
  constructor
  · rintro ⟨p, hp, first, hfirst, rfl⟩
    exact ⟨p, first, hp, hfirst, by rw [Layout.divided_eq hp]⟩
  · rintro ⟨p, first, hp, hfirst, rfl⟩
    exact ⟨p, hp, first, hfirst, by rw [Layout.divided_eq hp]⟩

/-- A program is one of the readings of a layout. -/
def Layout.Reads (l : Layout) (p : Program) : Prop :=
  p.Fits ∧ p.units.flatten.map Lexeme.shown = l.lexemes.map Lexeme.shown

theorem Layout.reads_of_joined {l : Layout} {p : Program}
    (h : Program.ofLexemes? l.joined = some p) : l.Reads p := by
  obtain ⟨hjoined, hfits⟩ := Program.ofLexemes?_eq_some_iff.mp h
  exact ⟨hfits, by rw [← hjoined, l.map_shown_joined]⟩

theorem Layout.reads_of_settled {l : Layout} {p : Program}
    (h : Program.ofLexemes? l.settled = some p) : l.Reads p := by
  obtain ⟨hsettled, hfits⟩ := Program.ofLexemes?_eq_some_iff.mp h
  refine ⟨hfits, ?_⟩
  rw [← hsettled, settled, Lexeme.map_shown_separateAt, l.map_shown_joined]

/-- If each reading of a layout can be laid over another one with the same lexemes as well, then
that one is accepted, and if the same parentheses are set apart its nodes correspond. -/
theorem Program.exists_placed? {l l' : Layout} {R : List Node → List Node → Prop}
    (hjoined : l'.joined = l.joined)
    (hplace : ∀ p nodes, l.Reads p → p.place l.slots = some nodes →
      ∃ nodes', p.place l'.slots = some nodes' ∧ R nodes nodes')
    (hback : ∀ (p : Program) nodes', p.place l'.slots = some nodes' → (p.place l.slots).isSome)
    {nodes : List Node} (h : placed? l = some nodes) :
    ∃ nodes', placed? l' = some nodes' ∧ (l'.setApart = l.setApart → R nodes nodes') := by
  obtain ⟨p, first, hp, hfirst, rfl⟩ := placed?_eq_some_iff.mp h
  obtain ⟨first', hfirst', hR⟩ := hplace p first (l.reads_of_joined hp) hfirst
  refine ⟨_, placed?_eq_some_iff.mpr ⟨p, first', hjoined ▸ hp, hfirst', rfl⟩, fun hsame => ?_⟩
  have hsettled : l'.settled = l.settled := by rw [Layout.settled, Layout.settled, hsame, hjoined]
  rw [hsettled]
  cases hq : ofLexemes? l.settled with
  | none => exact hR
  | some q =>
      rw [Option.bind_some, Option.bind_some]
      -- the second reading counts only where it can be laid out, which is so for both or for none
      cases hlast : q.place l.slots with
      | some last =>
          obtain ⟨last', hlast', hR'⟩ := hplace q last (l.reads_of_settled hq) hlast
          rw [hlast']
          exact hR'
      | none =>
          cases hlast' : q.place l'.slots with
          | none => exact hR
          | some last' => simpa [hlast] using hback q last' hlast'

namespace Document

theorem nodes?_eq_some_iff {l : Layout} {nodes : List Node} : nodes? l = some nodes ↔
    Layout.enumerationsWhole l.written = true ∧ ∃ inner, Program.placed? l = some inner ∧
      nodes = inner ++ l.trailing.map (.comment false) := by
  unfold nodes?
  split
  · next h =>
      simp only [Option.bind_eq_bind, Option.bind_eq_some_iff, Option.pure_def, Option.some.injEq, h,
        true_and]
      exact exists_congr fun inner => and_congr_right fun _ => eq_comm
  · next h => simp [h]

theorem ofSource?_eq_some_iff {source : Text} {d : Document} : ofSource? source = some d ↔
    ∃ items, scan source = some items ∧ nodes? (.ofItems items) = some d.children ∧
      d.span = ⟨(items.head?.map (·.span.start)).getD source.length, source.length⟩ := by
  simp only [ofSource?, Option.bind_eq_bind, Option.bind_eq_some_iff, Option.pure_def,
    Option.some.injEq]
  constructor
  · rintro ⟨items, hscan, nodes, hnodes, rfl⟩
    exact ⟨items, hscan, hnodes, rfl⟩
  · rintro ⟨items, hscan, hnodes, hspan⟩
    refine ⟨items, hscan, d.children, hnodes, ?_⟩
    obtain ⟨span, children⟩ := d
    simp only at hspan
    rw [hspan]

/-- The places of the parentheses of a source that directly follow a word and are set apart from it
after the readings have been compared; the lexemes of the source are counted. -/
def setApart (source : Text) : List Nat :=
  match scan source with
  | some items => (Layout.ofItems items).setApart
  | none => []

theorem setApart_eq {source : Text} {items : List (Placed Item)} (h : scan source = some items) :
    setApart source = (Layout.ofItems items).setApart := by
  rw [setApart, h]

end Document

end Heptagon
