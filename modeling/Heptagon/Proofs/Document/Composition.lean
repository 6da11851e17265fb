import Heptagon.Proofs.Document.CommentPlaces
import Heptagon.Proofs.Document.Concatenation
import Heptagon.Proofs.Layout.Concatenation
import Heptagon.Row

/-!
# Programs are put together and taken apart

Two accepted sources with a newline between them are accepted, and the nodes of the
second one follow those of the first one.  An accepted source can be cut in front of
each definition and of each comment between definitions, and both parts are accepted
(`Document.composed`).

1. Two sources are scanned one after the other, and a source can be cut in front of
   any item (`scan_append_newline`, `scan_take_drop`).
2. Where a definition or a comment between definitions starts, the program that stays
   is cut between two definitions (`Program.exists_cut`), and the one that is read at
   first is cut at the same lexeme, since its definitions have as many lexemes
   (`Document.exists_cut`).
3. So both parts of the layout write programs, and their nodes follow each other
   (`Document.nodes?_append`).
-/

namespace Heptagon

/-! ## Rows of children -/

/-- Whether a row is a keyword that starts a definition or a comment between definitions. -/
def Row.Opens (r : Row) : Prop :=
  r.depth = 1 ∧ (r.label ∈ [.literal "fun", .literal "node", .literal "type"] ∨
    r.label = .named .comment ∧ r.extra = false)

instance : DecidablePred Row.Opens := fun r =>
  inferInstanceAs (Decidable (r.depth = 1 ∧ (_ ∨ _)))

namespace Node

/-- The row of a node by itself. -/
def row (depth : Nat) (n : Node) : Row := ⟨depth, n.label, n.isExtra, n.span⟩

theorem rows_eq_cons (depth : Nat) (n : Node) :
    n.rows depth = n.row depth :: rowsAll (depth + 1) n.children := by
  cases n <;> rfl

mutual

theorem le_depth : (n : Node) → ∀ {depth : Nat} {r : Row}, r ∈ n.rows depth → depth ≤ r.depth
  | token _ _, _, _, hr | comment _ _, _, _, hr => by
      obtain rfl := List.mem_singleton.mp hr
      exact Nat.le_refl _
  | branch _ ns, _, _, hr => by
      rcases List.mem_cons.mp hr with rfl | hr
      · exact Nat.le_refl _
      · exact (Nat.le_succ _).trans (le_depth_of_mem_rowsAll ns hr)

theorem le_depth_of_mem_rowsAll : (ns : List Node) → ∀ {depth : Nat} {r : Row},
    r ∈ rowsAll depth ns → depth ≤ r.depth
  | n :: ns, _, _, hr =>
      (List.mem_append.mp hr).elim (le_depth n) (le_depth_of_mem_rowsAll ns)

end

/-- The rows at the depth of some nodes are their own. -/
theorem exists_row_eq {ns : List Node} {depth : Nat} {r : Row} (hr : r ∈ rowsAll depth ns)
    (hdepth : r.depth = depth) : ∃ n ∈ ns, r = n.row depth := by
  induction ns with
  | nil => exact absurd hr List.not_mem_nil
  | cons n ns ih =>
      rcases List.mem_append.mp hr with hr | hr
      · rw [rows_eq_cons] at hr
        rcases List.mem_cons.mp hr with rfl | hr
        · exact ⟨n, List.mem_cons_self, rfl⟩
        · have hbelow := le_depth_of_mem_rowsAll n.children hr
          omega
      · obtain ⟨m, hm, rfl⟩ := ih hr
        exact ⟨m, List.mem_cons_of_mem _ hm, rfl⟩

variable {n : Node}

/-- Whether a definition starts at a node, or it is a comment between definitions. -/
def Starts (n : Node) : Prop := n.opens = true ∨ ∃ c, n = .comment false c

theorem starts_of_row (hn : n.Tight) (h : (n.row 1).Opens) : n.Starts := by
  rcases h.2 with hlabel | ⟨hlabel, hextra⟩
  · refine .inl ?_
    cases n with
    | token l s =>
        cases l with
        | keyword k =>
            cases k <;> first | rfl | simp [row, label, Leaf.label, Keyword.spelling] at hlabel
        | symbol s => cases s <;> simp [row, label, Leaf.label, Symbol.spelling] at hlabel
        | _ => simp [row, label, Leaf.label] at hlabel
    | _ => simp [row, label] at hlabel
  · refine .inr ?_
    cases hn with
    | token l => exact absurd hlabel (label_ne_comment l)
    | comment inside c =>
        obtain rfl : inside = false := hextra
        exact ⟨c, rfl⟩
    | branch hk => exact absurd (Label.named.inj hlabel) hk

/-- Further on in a text, a node starts further on. -/
theorem start_moveBy {source : Text} (k : Nat) (n : Node) (h : n.Stands source) :
    (n.moveBy k).start = n.start + k := by
  cases n with
  | token | comment => rfl
  | branch _ ns =>
      cases ns with
      | nil => exact absurd rfl h.1
      | cons m ms => exact start_moveBy k m h.2.2.1

end Node

/-! ## Cuts -/

section

variable {p r : Program} {slots : List Slot} {inner : List Node} {n : Node}

/-- A definition itself starts at its first token, with the comments before it. -/
theorem Definition.exists_start {d : Definition} {us : List Lexeme} {rest : List Slot}
    (hfits : d.Fits us) (h : d.place slots = some (inner, rest)) (hn : n ∈ inner)
    (hstarts : n.Starts) : ∃ t vs, slots = t :: vs ∧
      (n.span = t.span ∨ ∃ c ∈ t.comments, n = .comment false c) := by
  obtain ⟨ns, hns, rfl⟩ := place_iff.mp h
  obtain ⟨⟨first, others, rfl, -, hothers⟩, -, hinside⟩ := defines_of_place hfits hns
  obtain ⟨k, ts, htrees⟩ := d.exists_trees_eq_kw
  rw [htrees] at hns
  obtain ⟨m, middle, ms, hm, -, heq⟩ := Tree.placeAll_cons_iff.mp hns
  obtain ⟨rfl, rfl⟩ := List.cons.inj heq
  obtain ⟨span, hspan, rfl⟩ := Tree.place_leaf_iff.mp hm
  obtain _ | ⟨s, slots⟩ := slots
  · simp [Leaf.place] at hspan
  · obtain ⟨rfl, rfl⟩ := by simpa [Leaf.place] using hspan
    refine ⟨s, slots, rfl, ?_⟩
    rcases List.mem_append.mp hn with hn | hn
    · obtain ⟨c, hc, rfl⟩ := List.mem_map.mp hn
      exact .inr ⟨c, hc, rfl⟩
    · rcases hstarts with hopens | ⟨c, rfl⟩
      · rcases List.mem_cons.mp hn with rfl | hn
        · exact .inl rfl
        · simp [hothers n hn] at hopens
      · exact absurd (hinside _ hn false c (.refl _)) (by simp)

/-- Where a definition or a comment between definitions starts, a program is cut between two
definitions. -/
theorem Program.exists_cut (hfits : r.Fits) (h : r.place slots = some inner) (hn : n ∈ inner)
    (hstarts : n.Starts) : ∃ r₁ r₂ ws t vs, r = r₁ ++ r₂ ∧ slots = ws ++ t :: vs ∧
      ws.length = r₁.units.flatten.length ∧
        (n.span = t.span ∨ ∃ c ∈ t.comments, n = .comment false c) := by
  induction r generalizing slots inner with
  | nil =>
      obtain rfl := by simpa [place] using h
      exact absurd hn List.not_mem_nil
  | cons d r ih =>
      obtain ⟨first, rest, more, hfirst, hmore, rfl⟩ := place_cons_iff.mp h
      rcases List.mem_append.mp hn with hn | hn
      · obtain ⟨t, vs, rfl, hn⟩ := Definition.exists_start hfits.1 hfirst hn hstarts
        exact ⟨[], d :: r, [], t, vs, rfl, rfl, rfl, hn⟩
      · obtain ⟨r₁, r₂, ws, t, vs, rfl, hrest, hlength, hn⟩ := ih hfits.2 hmore hn
        obtain ⟨ns, hns, -⟩ := Definition.place_iff.mp hfirst
        have hdrop := Tree.eq_drop_of_placeAll d.trees hns
        rw [d.widthAll_trees] at hdrop
        refine ⟨d :: r₁, r₂, slots.take d.units.flatten.length ++ ws, t, vs, rfl, ?_, ?_, hn⟩
        · rw [List.append_assoc, ← hrest, hdrop, List.take_append_drop]
        · have hlengths := congrArg List.length (hdrop.symm.trans hrest)
          rw [List.length_drop, List.length_append, List.length_cons] at hlengths
          rw [units_cons, List.flatten_append, List.length_append, List.length_append, hlength,
            List.length_take]
          omega

theorem Program.length_units (h : List.Forall₂ (fun d d' : Definition =>
    d'.units.flatten.length = d.units.flatten.length) p r) :
    r.units.flatten.length = p.units.flatten.length := by
  induction h with
  | nil => rfl
  | cons hd _ ih =>
      rw [units_cons, units_cons, List.flatten_append, List.flatten_append, List.length_append,
        List.length_append, hd, ih]

end

namespace Layout

variable {items : List (Placed Item)}

/-- The two readings of a layout have as many definitions, and each of these as many lexemes. -/
theorem forall₂_readings {l : Layout} {p r : Program} (hp : Program.ofLexemes? l.joined = some p)
    (hr : l.reading? = some r) : List.Forall₂ (fun d d' : Definition =>
      d'.units.flatten.length = d.units.flatten.length) p r := by
  obtain ⟨hjoined, hfits⟩ := Program.ofLexemes?_eq_some_iff.mp hp
  obtain ⟨r', hr', hsettled, hlengths⟩ := Program.exists_separateAt_parensIn hfits l.commentCounts
  rw [← hjoined, ← setApart_eq hp] at hsettled
  have hread : Program.ofLexemes? l.settled = some r' :=
    Program.ofLexemes?_eq_some_iff.mpr ⟨hsettled, hr'⟩
  obtain rfl : r' = r := Option.some.inj (hread.symm.trans ((reading?_eq_some_iff hp).mp hr))
  exact hlengths

/-- Items can be cut at the comments behind the last lexeme. -/
theorem exists_items_of_mem_trailing {c : Span} (h : c ∈ (ofItems items).trailing) :
    ∃ before after, items = before ++ ⟨.comment, c⟩ :: after ∧
      (ofItems before).written = (ofItems items).written := by
  induction items with
  | nil => exact absurd h List.not_mem_nil
  | cons i items ih =>
      obtain ⟨item, span⟩ := i
      cases item with
      | lexeme x =>
          obtain ⟨before, after, rfl, hbefore⟩ := ih h
          exact ⟨⟨.lexeme x, span⟩ :: before, after, rfl, by rw [ofItems, hbefore]; rfl⟩
      | comment =>
          have hcons : ∀ {l m : Layout}, l.written = m.written →
              (l.addComment span).written = (m.addComment span).written := by
            rintro ⟨written, _⟩ ⟨_, _⟩ rfl
            cases written <;> rfl
          rw [ofItems] at h
          cases hwritten : (ofItems items).written with
          | nil =>
              rw [addComment, hwritten] at h
              rcases List.mem_cons.mp h with rfl | h
              · exact ⟨[], items, rfl, by rw [ofItems, ofItems, addComment, hwritten]⟩
              · obtain ⟨before, after, rfl, hbefore⟩ := ih h
                exact ⟨⟨.comment, span⟩ :: before, after, rfl, hcons hbefore⟩
          | cons w ws =>
              rw [addComment, hwritten] at h
              obtain ⟨before, after, rfl, hbefore⟩ := ih h
              exact ⟨⟨.comment, span⟩ :: before, after, rfl, hcons hbefore⟩

/-- Items can be cut in front of a lexeme and in front of each comment before it. -/
theorem exists_items_of_slot {ws vs : List (Lexeme × Slot)} {x : Lexeme} {t : Slot} {n : Node}
    (h : (ofItems items).written = ws ++ (x, t) :: vs)
    (hn : n.span = t.span ∨ ∃ c ∈ t.comments, n = .comment false c) :
    ∃ before i after, items = before ++ i :: after ∧ i.span = n.span ∧
      (ofItems before).written = ws := by
  obtain ⟨before, after, rfl, hbefore, -⟩ := exists_items h
  rcases hn with hspan | ⟨c, hc, rfl⟩
  · exact ⟨before, _, after, rfl, hspan.symm, by rw [hbefore]⟩
  · have hmem : c ∈ (ofItems before).trailing := by
      rw [hbefore]
      exact hc
    obtain ⟨front, back, rfl, hfront⟩ := exists_items_of_mem_trailing hmem
    exact ⟨front, ⟨.comment, c⟩, back ++ ⟨.lexeme x, t.span⟩ :: after, by simp, rfl,
      hfront.trans (by rw [hbefore])⟩

end Layout

/-! ## Documents -/

namespace Document

variable {source a b : Text} {d da db : Document}

/-- An accepted layout is read as a program. -/
theorem exists_ofLexemes? {l : Layout} {nodes : List Node} (h : nodes? l = some nodes) :
    ∃ p, Program.ofLexemes? l.joined = some p := by
  obtain ⟨-, inner, hinner, -⟩ := nodes?_eq_some_iff.mp h
  obtain ⟨p, -, hp, -⟩ := Program.placed?_eq_some_iff.mp hinner
  exact ⟨p, hp⟩

/-- The items of an accepted source can be cut where a definition or a comment between definitions
starts, so that both parts write programs. -/
theorem exists_cut {items : List (Placed Item)} (hscan : scan source = some items)
    {nodes : List Node} (h : nodes? (.ofItems items) = some nodes) {n : Node} (hn : n ∈ nodes)
    (hstarts : n.Starts) : ∃ before i after p q, items = before ++ i :: after ∧ i.span = n.span ∧
      Program.ofLexemes? (Layout.ofItems before).joined = some p ∧
        Program.ofLexemes? (Layout.ofItems (i :: after)).joined = some q := by
  obtain ⟨stop, hstand, -, -⟩ := Layout.stand_ofItems (stand_of_scan hscan)
  obtain ⟨-, inner, hinner, rfl⟩ := nodes?_eq_some_iff.mp h
  obtain ⟨r, hr, hplace⟩ := (Program.placed?_eq_some_iff_reading? hstand).mp hinner
  obtain ⟨p, hp⟩ := exists_ofLexemes? h
  -- a cut of the first reading is one of the items
  have hcut : ∀ {p₁ p₂ : Program} {before after : List (Placed Item)} {i : Placed Item},
      p = p₁ ++ p₂ → items = before ++ i :: after →
      (Layout.ofItems before).written.length = p₁.units.flatten.length →
      Program.ofLexemes? (Layout.ofItems before).joined = some p₁ ∧
        Program.ofLexemes? (Layout.ofItems (i :: after)).joined = some p₂ := by
    rintro p₁ p₂ before after i rfl rfl hlength
    have hshown := Layout.map_shown_lexemes hscan
    rw [Layout.ofItems_append] at hp hshown
    exact Layout.ofLexemes?_joined_of_append hp hshown hlength
  rcases List.mem_append.mp hn with hn | hn
  · -- the last reading is cut, and the first one at the same lexeme
    have hlengths := Layout.forall₂_readings hp hr
    obtain ⟨r₁, r₂, ws, t, vs, rfl, hslots, hlength, hspan⟩ :=
      Program.exists_cut (Layout.reads_of_reading? hr).1 hplace hn hstarts
    obtain ⟨front, back, hwritten, rfl, hback⟩ := List.map_eq_append_iff.mp hslots
    obtain ⟨⟨x, t⟩, back, rfl, rfl, rfl⟩ := List.map_eq_cons_iff.mp hback
    obtain ⟨before, i, after, hitems, hi, hfront⟩ := Layout.exists_items_of_slot hwritten hspan
    have hfirst := Program.length_units (List.forall₂_take_append p r₁ r₂ hlengths)
    obtain ⟨hleft, hright⟩ := hcut (List.take_append_drop r₁.length p).symm hitems
      (by rw [hfront, ← hfirst, ← hlength, List.length_map])
    exact ⟨before, i, after, _, _, hitems, hi, hleft, hright⟩
  · obtain ⟨c, hc, rfl⟩ := List.mem_map.mp hn
    obtain ⟨before, after, hitems, hwritten⟩ := Layout.exists_items_of_mem_trailing hc
    have hlengths := Layout.length_slots (Layout.lexemes_eq (Layout.map_shown_lexemes hscan) hp)
    obtain ⟨hleft, hright⟩ := hcut (List.append_nil p).symm hitems
      (by rw [hwritten, ← hlengths, Layout.slots, List.length_map])
    exact ⟨before, _, after, _, _, hitems, rfl, hleft, hright⟩

/-- The nodes of a source whose items are those of two others, one behind the other. -/
theorem nodes?_of_scan {xs ys : List (Placed Item)} {k : Nat} {p q : Program}
    (hscan : scan source = some (xs ++ ys.map (.moveBy k))) (ha : scan a = some xs)
    (hb : scan b = some ys) (hp : Program.ofLexemes? (Layout.ofItems xs).joined = some p)
    (hq : Program.ofLexemes? (Layout.ofItems ys).joined = some q) :
    nodes? (.ofItems (xs ++ ys.map (.moveBy k))) = (nodes? (.ofItems xs)).bind fun ns =>
      (nodes? (.ofItems ys)).map fun ms => ns ++ ms.map (.moveBy k) := by
  obtain ⟨stop, hstand, -, -⟩ := Layout.stand_ofItems (stand_of_scan hscan)
  have hmoved : Layout.ofItems (ys.map (.moveBy k)) = (Layout.ofItems ys).mapSpans (.moveBy k) :=
    Layout.ofItems_map _ ys
  have hjoined : ((Layout.ofItems ys).mapSpans (.moveBy k)).joined = (Layout.ofItems ys).joined := by
    simp [Layout.joined]
  rw [Layout.ofItems_append, hmoved] at hstand ⊢
  rw [nodes?_append hstand (Layout.map_shown_lexemes ha)
    (by rw [Layout.lexemes_mapSpans, Layout.map_shown_lexemes hb]) hp (hjoined ▸ hq), nodes?_moveBy]
  simp only [Option.map_map, Function.comp_def]

/-- Two accepted sources with a newline between them are accepted. -/
theorem ofSource?_append_newline (ha : ofSource? a = some da) (hb : ofSource? b = some db)
    (hmark : ¬ Text.leadingMark <+: b) : ∃ d, ofSource? (a ++ newline :: b) = some d ∧
      d.children = da.children ++ db.children.map (.moveBy (a.length + 1)) := by
  obtain ⟨xs, hxs, hnodes, -⟩ := ofSource?_eq_some_iff.mp ha
  obtain ⟨ys, hys, hnodes', -⟩ := ofSource?_eq_some_iff.mp hb
  obtain ⟨p, hp⟩ := exists_ofLexemes? hnodes
  obtain ⟨q, hq⟩ := exists_ofLexemes? hnodes'
  have hscan := scan_append_newline hxs hys hmark
  have hboth := nodes?_of_scan hscan hxs hys hp hq
  rw [hnodes, hnodes'] at hboth
  exact ⟨⟨_, _⟩, ofSource?_eq_some_iff.mpr ⟨_, hscan, hboth, rfl⟩, rfl⟩

/-- An accepted source can be cut in front of a definition or a comment between definitions. -/
theorem ofSource?_take_drop (h : ofSource? source = some d) {n : Node} (hn : n ∈ d.children)
    (hstarts : n.Starts) : ∃ da db, ofSource? (source.take n.start) = some da ∧
      ofSource? (source.drop n.start) = some db ∧
      d.children = da.children ++ db.children.map (.moveBy n.start) := by
  obtain ⟨items, hscan, hnodes, -⟩ := ofSource?_eq_some_iff.mp h
  obtain ⟨before, i, after, p, q, rfl, hspan, hp, hq⟩ := exists_cut hscan hnodes hn hstarts
  obtain ⟨htake, ys, hdrop, hys⟩ := scan_take_drop hscan
  have hstart : i.span.start = n.start := congrArg Span.start hspan
  have hmoved : Layout.ofItems (i :: after) = (Layout.ofItems ys).mapSpans (.moveBy n.start) := by
    rw [hys, hstart]
    exact Layout.ofItems_map _ ys
  have hq' : Program.ofLexemes? (Layout.ofItems ys).joined = some q := by
    rw [hmoved, Layout.joined, Layout.lexemes_mapSpans] at hq
    exact hq
  rw [hys] at hscan hnodes
  rw [hstart] at htake hdrop hscan hnodes
  rw [nodes?_of_scan hscan htake hdrop hp hq'] at hnodes
  obtain ⟨ns, hns, hrest⟩ := Option.bind_eq_some_iff.mp hnodes
  obtain ⟨ms, hms, hchildren⟩ := Option.map_eq_some_iff.mp hrest
  exact ⟨⟨_, ns⟩, ⟨_, ms⟩, ofSource?_eq_some_iff.mpr ⟨_, htake, hns, rfl⟩,
    ofSource?_eq_some_iff.mpr ⟨_, hdrop, hms, rfl⟩, hchildren.symm⟩

/-- The part of a source from one of its nodes on starts with that node. -/
theorem head?_of_children_eq (h : ofSource? source = some d) {n : Node} (hn : n ∈ d.children)
    (ha : ofSource? (source.take n.start) = some da) (hb : ofSource? b = some db)
    (hchildren : d.children = da.children ++ db.children.map (.moveBy n.start)) :
    (db.children.map (.moveBy n.start)).head? = some n := by
  obtain ⟨p, hshows⟩ := exists_program h
  obtain ⟨p', hshows'⟩ := exists_program ha
  obtain ⟨q, hshows''⟩ := exists_program hb
  have hstands := hshows.stands
  rw [hchildren] at hn hstands
  rcases List.mem_append.mp hn with hn | hn
  · -- the nodes of the first part stop before the second part
    obtain ⟨pre, post, hpre⟩ := List.append_of_mem hn
    have hends := hshows'.ends.1
    have hfront := hshows'.stands
    rw [hpre] at hends hfront
    rw [Node.stopFrom_append, Node.stopFrom] at hends
    obtain ⟨-, -, hstands, hrest⟩ := Node.standFrom_append.mp hfront
    have hlt := hstands.start_lt_stop
    have hle := hrest.le_stopFrom
    have hlength := List.length_take_le n.start source
    omega
  · -- no node of the second part starts before it
    obtain ⟨-, hback⟩ := Node.standFrom_append.mp hstands
    cases hms : db.children with
    | nil => simp [hms] at hn
    | cons m ms =>
        rw [hms, List.map_cons] at hn hback
        rcases List.mem_cons.mp hn with heq | hn
        · rw [List.map_cons, ← heq]
          rfl
        · have hstart := Node.start_moveBy n.start m (hshows''.stands.stands m (by simp [hms]))
          have hlt := hback.2.1.start_lt_stop
          have hle := hback.2.2.le_start hn
          omega

/-- Two accepted sources with a newline between them are accepted, and the nodes of the second one
follow those of the first one.  The part of an accepted source before a definition or a comment
between definitions is accepted, and so is the part from it on, and the nodes are those of the two
parts. -/
theorem composed :
    (∀ a b da db, ofSource? a = some da → ofSource? b = some db → ¬ Text.leadingMark <+: b →
      ∃ d, ofSource? (a ++ newline :: b) = some d ∧
        d.children = da.children ++ db.children.map (.moveBy (a.length + 1))) ∧
    ∀ source d, ofSource? source = some d → ∀ r ∈ d.rows, r.Opens →
      ∃ da db, ofSource? (source.take r.span.start) = some da ∧
        ofSource? (source.drop r.span.start) = some db ∧
        d.children = da.children ++ db.children.map (.moveBy r.span.start) ∧
        (Node.rowsAll 1 (db.children.map (.moveBy r.span.start))).head? = some r := by
  refine ⟨fun a b da db ha hb hmark => ofSource?_append_newline ha hb hmark,
    fun source d h r hr hopens => ?_⟩
  obtain ⟨n, hn, rfl⟩ : ∃ n ∈ d.children, r = n.row 1 := by
    rcases List.mem_cons.mp hr with rfl | hr
    · exact absurd hopens.1 (by simp)
    · exact Node.exists_row_eq hr hopens.1
  have hstarts := Node.starts_of_row (tight_children h n hn) hopens
  obtain ⟨da, db, ha, hb, hchildren⟩ := ofSource?_take_drop h hn hstarts
  refine ⟨da, db, ha, hb, hchildren, ?_⟩
  obtain ⟨ms, hms⟩ := List.head?_eq_some_iff.mp (head?_of_children_eq h hn ha hb hchildren)
  show (Node.rowsAll 1 (db.children.map (.moveBy n.start))).head? = some (n.row 1)
  rw [hms, Node.rowsAll, Node.rows_eq_cons]
  rfl

/-- Two enumerations with a comment between them. -/
theorem composed_of_types : ∃ da db d,
    ofSource? (Text.ofString "type t = A") = some da ∧
    ofSource? (Text.ofString "(*c*) type u = B") = some db ∧
    ofSource? (Text.ofString "type t = A\n(*c*) type u = B") = some d ∧
    d.children = da.children ++ db.children.map (.moveBy 11) ∧
    ∃ da' db', ofSource? (Text.ofString "type t = A\n(*c*) ") = some da' ∧
      ofSource? (Text.ofString "type u = B") = some db' ∧
      d.children = da'.children ++ db'.children.map (.moveBy 17) := by
  have ha : accepts (Text.ofString "type t = A") = true := by decide +kernel
  have hb : accepts (Text.ofString "(*c*) type u = B") = true := by decide +kernel
  obtain ⟨da, hda⟩ := Option.isSome_iff_exists.mp ha
  obtain ⟨db, hdb⟩ := Option.isSome_iff_exists.mp hb
  have htext : Text.ofString "type t = A" ++ newline :: Text.ofString "(*c*) type u = B" =
      Text.ofString "type t = A\n(*c*) type u = B" := by decide +kernel
  obtain ⟨d, hd, hchildren⟩ := composed.1 _ _ da db hda hdb (by decide +kernel)
  rw [htext] at hd
  have hrow : ((ofSource? (Text.ofString "type t = A\n(*c*) type u = B")).map fun d =>
      decide (⟨1, .literal "type", false, ⟨17, 21⟩⟩ ∈ d.rows)) = some true := by decide +kernel
  rw [hd, Option.map_some, Option.some.injEq, decide_eq_true_eq] at hrow
  obtain ⟨da', db', hda', hdb', hchildren', -⟩ := composed.2 _ d hd _ hrow (by decide)
  have htake : (Text.ofString "type t = A\n(*c*) type u = B").take 17 =
      Text.ofString "type t = A\n(*c*) " := by decide +kernel
  have hdrop : (Text.ofString "type t = A\n(*c*) type u = B").drop 17 =
      Text.ofString "type u = B" := by decide +kernel
  exact ⟨da, db, d, hda, hdb, hd, hchildren, da', db', htake ▸ hda', hdrop ▸ hdb', hchildren'⟩

end Document

end Heptagon
