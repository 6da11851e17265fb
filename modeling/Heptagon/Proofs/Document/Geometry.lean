import Heptagon.Proofs.Document.Composition
import Heptagon.Proofs.Document.Leaves

/-!
# Where the nodes of a document are

Every node of a document takes room, reaches from its first child to its last one, and
has its children one after another; only the root may reach further, from the first
thing in the source to the end of it.  The point of a place counts the newlines before
it and the bytes since the last of these, so points are ordered as places are
(`Document.geometry`).

This is said of the rows of a document.  The children of a row are the rows one step
deeper that follow it before any row that is not deeper (`Row.children`), and they are
the rows of the children of its node (`Node.exists_of_rows`).
-/

namespace Heptagon

/-! ## Points -/

/-- How many bytes stand between a place and the last newline before it, or the beginning if there
is none. -/
def Text.column (source : Text) (offset : Nat) : Nat :=
  ((source.take offset).reverse.takeWhile (· ≠ newline)).length

namespace Point

/-- Whether a point comes before another one: in a row above, or in the same row further left. -/
def Before (p q : Point) : Prop := p.row < q.row ∨ p.row = q.row ∧ p.column < q.column

instance (p q : Point) : Decidable (p.Before q) := inferInstanceAs (Decidable (_ ∨ _))

variable {p q r : Point} {source : Text} {i j : Nat}

theorem Before.trans (h : p.Before q) (h' : q.Before r) : p.Before r := by
  unfold Before at *
  omega

theorem Before.asymm (h : p.Before q) : ¬ q.Before p := by
  unfold Before at *
  omega

theorem before_advance (p : Point) (b : UInt8) : p.Before (p.advance b) := by
  unfold advance Before
  split <;> simp

/-- Every byte leads to a later point. -/
theorem before_foldl_advance (b : UInt8) (t : Text) (p : Point) :
    p.Before ((b :: t).foldl advance p) := by
  induction t generalizing b p with
  | nil => exact p.before_advance b
  | cons c t ih => exact (p.before_advance b).trans (ih c (p.advance b))

/-- The row of a place counts the newlines before it, and the column the bytes since the last of
these. -/
theorem ofOffset_eq (source : Text) (offset : Nat) :
    ofOffset source offset = ⟨(source.take offset).count newline, source.column offset⟩ := by
  unfold ofOffset Text.column
  generalize source.take offset = t
  induction t using List.reverseRecOn with
  | nil => rfl
  | append_singleton t b ih =>
      rw [List.foldl_append, ih, List.foldl_cons, List.foldl_nil, advance, List.count_append,
        List.reverse_append, List.reverse_singleton, List.singleton_append]
      by_cases hb : b = newline
      · simp [hb]
      · simp [hb]

theorem before_ofOffset (hij : i < j) (hj : j ≤ source.length) :
    (ofOffset source i).Before (ofOffset source j) := by
  obtain ⟨b, t, hbetween⟩ : ∃ b t, (source.drop i).take (j - i) = b :: t := by
    refine List.exists_cons_of_ne_nil fun hnil => ?_
    have hlength := congrArg List.length hnil
    simp at hlength
    omega
  have htake : source.take j = source.take i ++ b :: t := by
    rw [← hbetween, ← List.take_add, Nat.add_sub_cancel' hij.le]
  rw [ofOffset, ofOffset, htake, List.foldl_append]
  exact before_foldl_advance b t _

/-- Points are ordered as the places in a source are. -/
theorem before_ofOffset_iff (hi : i ≤ source.length) (hj : j ≤ source.length) :
    (ofOffset source i).Before (ofOffset source j) ↔ i < j := by
  refine ⟨fun h => ?_, fun h => before_ofOffset h hj⟩
  by_contra hnot
  rcases (Nat.not_lt.mp hnot).eq_or_lt with rfl | hlt
  · exact h.asymm h
  · exact h.asymm (before_ofOffset hlt hi)

end Point

/-! ## Rows and their children -/

namespace Row

/-- The rows below a row; `rows` are all rows behind it. -/
def below (r : Row) (rows : List Row) : List Row := rows.takeWhile (r.depth < ·.depth)

/-- The rows of the children of a row; `rows` are all rows behind it. -/
def children (r : Row) (rows : List Row) : List Row :=
  (r.below rows).filter (·.depth = r.depth + 1)

end Row

namespace Node

variable {source : Text} {n : Node} {ns : List Node}

theorem filter_rowsAll (ns : List Node) (depth : Nat) :
    (rowsAll depth ns).filter (·.depth = depth) = ns.map (row depth) := by
  induction ns with
  | nil => rfl
  | cons n ns ih =>
      have hbelow : (rowsAll (depth + 1) n.children).filter (·.depth = depth) = [] := by
        refine List.filter_eq_nil_iff.mpr fun r hr => ?_
        have hle := le_depth_of_mem_rowsAll n.children hr
        simp only [decide_eq_true_eq]
        omega
      rw [rowsAll, rows_eq_cons, List.filter_append, List.filter_cons_of_pos (by simp [row]), hbelow,
        ih]
      rfl

/-- The children of a row are the rows of some nodes if these follow it. -/
theorem children_of_rowsAll {r : Row} {rows : List Row} (h : Row.Back r.depth rows) :
    r.children (rowsAll (r.depth + 1) ns ++ rows) = ns.map (row (r.depth + 1)) := by
  have hbehind : rows.takeWhile (r.depth < ·.depth) = [] := by
    cases rows with
    | nil => rfl
    | cons s rows => rw [List.takeWhile_cons_of_neg (by simpa using h s rfl)]
  have hbelow : ∀ s ∈ rowsAll (r.depth + 1) ns, r.depth < s.depth := fun s hs =>
    le_depth_of_mem_rowsAll ns hs
  rw [Row.children, Row.below, List.takeWhile_append_of_pos (by simpa using hbelow), hbehind,
    List.append_nil, filter_rowsAll]

mutual

/-- Every row below a node is that of a part of it, and the rows of the children of this part follow
it. -/
theorem exists_of_rows : (n : Node) → ∀ {depth : Nat} {before after : List Row} {r : Row},
    n.rows depth = before ++ r :: after → depth ≤ r.depth ∧ ∃ m rest, n.Contains m ∧
      r = m.row r.depth ∧ after = rowsAll (r.depth + 1) m.children ++ rest ∧ Row.Back r.depth rest
  | token l s, depth, [], _, _, h | comment inside s, depth, [], _, _, h => by
      obtain ⟨rfl, rfl⟩ := List.cons.inj h
      exact ⟨Nat.le_refl _, _, [], .refl _, rfl, rfl, by simp [Row.Back]⟩
  | branch k ns, depth, [], _, _, h => by
      obtain ⟨rfl, rfl⟩ := List.cons.inj h
      exact ⟨Nat.le_refl _, _, [], .refl _, rfl, by simp [children], by simp [Row.Back]⟩
  | branch k ns, depth, _ :: before, _, _, h => by
      obtain ⟨hdepth, n, hn, m, rest, hm, hrow⟩ := exists_of_rowsAll ns (List.cons.inj h).2
      exact ⟨(Nat.le_succ _).trans hdepth, m, rest, .child hn hm, hrow⟩
  | token l s, depth, _ :: before, _, _, h | comment inside s, depth, _ :: before, _, _, h => by
      simp [rows] at h

theorem exists_of_rowsAll : (ns : List Node) → ∀ {depth : Nat} {before after : List Row} {r : Row},
    rowsAll depth ns = before ++ r :: after → depth ≤ r.depth ∧ ∃ n ∈ ns, ∃ m rest, n.Contains m ∧
      r = m.row r.depth ∧ after = rowsAll (r.depth + 1) m.children ++ rest ∧ Row.Back r.depth rest
  | [], _, _, _, _, h => by simp [rowsAll] at h
  | n :: ns, depth, before, after, r, h => by
      have hlater : ∀ before', rowsAll depth ns = before' ++ r :: after → depth ≤ r.depth ∧
          ∃ n' ∈ n :: ns, ∃ m rest, n'.Contains m ∧ r = m.row r.depth ∧
            after = rowsAll (r.depth + 1) m.children ++ rest ∧ Row.Back r.depth rest := fun _ hns =>
        (exists_of_rowsAll ns hns).imp id fun ⟨n', hn', hm⟩ => ⟨n', List.mem_cons_of_mem _ hn', hm⟩
      rw [rowsAll] at h
      rcases List.append_eq_append_iff.mp h with ⟨before', rfl, hns⟩ | ⟨_ | ⟨x, inner⟩, hn, hns⟩
      · exact hlater before' hns
      · exact hlater [] hns.symm
      · -- the row is one of the first node, and the rows of the other nodes are behind those below it
        obtain ⟨rfl, rfl⟩ := List.cons.inj hns
        obtain ⟨hdepth, m, rest, hm, hrow, rfl, hback⟩ := exists_of_rows n hn
        refine ⟨hdepth, n, List.mem_cons_self, m, rest ++ rowsAll depth ns, hm, hrow, by simp, ?_⟩
        cases rest with
        | nil =>
            have hnone : Row.Back depth [] := by simp [Row.Back]
            exact fun s hs => (back_rowsAll ns hnone s (by simpa using hs)).trans hdepth
        | cons s rest => exact hback

end

/-! ## Nodes that stand in a source -/

/-- The nodes of a row follow each other. -/
theorem StandFrom.pairwise {offset : Nat} (h : StandFrom source offset ns) :
    ns.Pairwise fun n m => n.stop ≤ m.start := by
  induction ns generalizing offset with
  | nil => exact .nil
  | cons n ns ih => exact .cons (fun m hm => h.2.2.le_start hm) (ih h.2.2)

theorem StandFrom.stop_le {offset : Nat} (h : StandFrom source offset ns) (hn : n ∈ ns) :
    n.stop ≤ stopFrom offset ns := by
  obtain ⟨pre, post, rfl⟩ := List.append_of_mem hn
  rw [stopFrom_append]
  exact (standFrom_append.mp h).2.2.2.le_stopFrom

theorem Stands.pairwise_children (h : n.Stands source) :
    n.children.Pairwise fun m m' => m.stop ≤ m'.start := by
  cases n with
  | branch k ns => exact h.2.pairwise
  | _ => exact .nil

/-- A node starts where its first child does. -/
theorem start_of_head?_children {m : Node} (h : m ∈ n.children.head?) : n.start = m.start := by
  cases n with
  | branch k ns => exact startAll_eq_of_head? h
  | _ => simp [children] at h

/-- A node stops where its last child does. -/
theorem stop_of_getLast?_children {m : Node} (h : m ∈ n.children.getLast?) : n.stop = m.stop := by
  cases n with
  | branch k ns => exact stopAll_eq_of_getLast? h
  | _ => simp [children] at h

end Node

/-! ## The root -/

/-- The place of the first byte of a source that is neither in the mark in front of it nor blank, or
the end of the source if there is none. -/
def Text.firstThing (source : Text) : Nat :=
  source.origin + ((source.drop source.origin).takeWhile isBlank).length

theorem Text.firstThing_eq {source : Text} {i : Nat} (hi : i ≤ source.length)
    (hblank : source.Blank source.origin i)
    (hhead : ∀ b ∈ (source.drop i).head?, isBlank b = false) : source.firstThing = i := by
  obtain ⟨hle, hbytes⟩ := hblank
  have hbehind : (source.drop i).takeWhile isBlank = [] := by
    cases hdrop : source.drop i with
    | nil => rfl
    | cons b t => rw [List.takeWhile_cons_of_neg (by simp [hhead b (by simp [hdrop])])]
  have hlength : (source.slice ⟨source.origin, i⟩).length = i - source.origin := by
    rw [slice, List.length_take, List.length_drop]
    show min (i - source.origin) (source.length - source.origin) = _
    omega
  rw [firstThing, ← slice_append_drop hle, List.takeWhile_append_of_pos hbytes, hbehind,
    List.append_nil, hlength, Nat.add_sub_cancel' hle]

namespace Document

variable {source : Text} {d : Document}

/-- The root starts at the first thing in the source and stops at the end of it. -/
theorem span_eq (h : ofSource? source = some d) : d.span = ⟨source.firstThing, source.length⟩ := by
  obtain ⟨items, hscan, -, hspan⟩ := ofSource?_eq_some_iff.mp h
  have hstand := stand_of_scan hscan
  rw [hspan, Span.mk.injEq]
  refine ⟨?_, rfl⟩
  cases items with
  | nil => exact (Text.firstThing_eq (Nat.le_refl _) hstand (by simp)).symm
  | cons i items =>
      rw [← List.nil_append (i :: items)] at hscan
      obtain ⟨b, taken, hb, hdrop, -⟩ := scan_cut hscan
      have hlt := congrArg List.length hdrop
      rw [List.length_drop, List.length_append, List.length_cons] at hlt
      exact (Text.firstThing_eq (by omega) hstand.1 (by simp [hdrop, hb])).symm

/-- A row below the root is that of a node that stands in the source, and the rows behind it start
with those of the children of this node. -/
theorem exists_node_of_rows (h : ofSource? source = some d) {r : Row} {before after : List Row}
    (hrows : d.rows = before ++ r :: after) (hbefore : before ≠ []) :
    ∃ n : Node, r.span = n.span ∧ n.Stands source ∧ n.stop ≤ source.length ∧
      r.children after = n.children.map (Node.row (r.depth + 1)) := by
  obtain ⟨p, hshows⟩ := exists_program h
  obtain ⟨root, before, rfl⟩ := List.exists_cons_of_ne_nil hbefore
  obtain ⟨-, n, hn, m, rest, hm, hrow, rfl, hback⟩ :=
    Node.exists_of_rowsAll d.children (List.cons.inj hrows).2
  have hstands := hshows.stands.stands n hn
  refine ⟨m, by rw [hrow]; rfl, hm.stands hstands, ?_, Node.children_of_rowsAll hback⟩
  exact (hm.stop_le hstands).trans ((hshows.stands.stop_le hn).trans hshows.ends.1)

/-- The places that a row names are in the source. -/
theorem le_length_of_mem_rows (h : ofSource? source = some d) {r : Row} (hr : r ∈ d.rows) :
    r.span.start ≤ source.length ∧ r.span.stop ≤ source.length := by
  obtain ⟨p, hshows⟩ := exists_program h
  obtain ⟨before, after, hrows⟩ := List.append_of_mem hr
  cases before with
  | nil =>
      obtain ⟨rfl, -⟩ := List.cons.inj hrows
      rw [span_eq h]
      refine ⟨?_, Nat.le_refl _⟩
      have hle := (List.takeWhile_prefix isBlank (l := source.drop source.origin)).length_le
      have horigin := hshows.stands.le_stopFrom.trans hshows.ends.1
      rw [List.length_drop] at hle
      show source.origin + _ ≤ _
      omega
  | cons root before =>
      obtain ⟨n, hspan, hstands, hle, -⟩ := exists_node_of_rows h hrows (List.cons_ne_nil _ _)
      rw [hspan]
      exact ⟨hstands.start_lt_stop.le.trans hle, hle⟩

/-- The children of every node follow each other.  A node below the root takes room, starts where its
first child does and stops where its last child does; the root starts at the first thing in the
source and stops at the end of it.  Where a node starts and stops, the point counts the newlines
before and the bytes since the last of them, and points are ordered as places. -/
theorem geometry (h : ofSource? source = some d) :
    (∀ before r after, d.rows = before ++ r :: after →
      (r.children after).Pairwise (fun a b => a.span.stop ≤ b.span.start) ∧
      (before ≠ [] → r.span.start < r.span.stop ∧
        (∀ c ∈ (r.children after).head?, r.span.start = c.span.start) ∧
        ∀ c ∈ (r.children after).getLast?, r.span.stop = c.span.stop)) ∧
    d.rows.head?.map (·.span) = some ⟨source.firstThing, source.length⟩ ∧
    ∀ r ∈ d.rows, ∀ i ∈ [r.span.start, r.span.stop],
      Point.ofOffset source i = ⟨(source.take i).count newline, source.column i⟩ ∧
      ∀ r' ∈ d.rows, ∀ j ∈ [r'.span.start, r'.span.stop],
        ((Point.ofOffset source i).Before (Point.ofOffset source j) ↔ i < j) := by
  obtain ⟨p, hshows⟩ := exists_program h
  have hplaces : ∀ r ∈ d.rows, ∀ i ∈ [r.span.start, r.span.stop], i ≤ source.length := by
    intro r hr i hi
    obtain ⟨hstart, hstop⟩ := le_length_of_mem_rows h hr
    rcases List.mem_pair.mp hi with rfl | rfl
    · exact hstart
    · exact hstop
  refine ⟨fun before r after hrows => ?_, congrArg some (span_eq h), fun r hr i hi =>
    ⟨Point.ofOffset_eq source i, fun r' hr' j hj =>
      Point.before_ofOffset_iff (hplaces r hr i hi) (hplaces r' hr' j hj)⟩⟩
  cases before with
  | nil =>
      -- the root, whose children are those of the document
      obtain ⟨rfl, rfl⟩ := List.cons.inj hrows
      refine ⟨?_, fun hne => absurd rfl hne⟩
      have hchildren : Row.children ⟨0, .named .sourceFile, false, d.span⟩ (Node.rowsAll 1 d.children) =
          d.children.map (Node.row 1) := by
        have hnone : Row.Back 0 [] := by simp [Row.Back]
        rw [← List.append_nil (Node.rowsAll 1 d.children)]
        exact Node.children_of_rowsAll hnone
      rw [hchildren, List.pairwise_map]
      exact hshows.stands.pairwise
  | cons root before =>
      -- a row below the root is that of a node of the tree
      obtain ⟨n, hspan, hstands, -, hchildren⟩ := exists_node_of_rows h hrows (List.cons_ne_nil _ _)
      rw [hchildren, hspan, List.pairwise_map]
      refine ⟨hstands.pairwise_children, fun _ =>
        ⟨hstands.start_lt_stop, fun c hc => ?_, fun c hc => ?_⟩⟩
      · obtain ⟨m, hm, rfl⟩ := by simpa [List.head?_map] using hc
        exact Node.start_of_head?_children hm
      · obtain ⟨m, hm, rfl⟩ := by simpa [List.getLast?_map] using hc
        exact Node.stop_of_getLast?_children hm

/-- A type in the second row, behind a comment that spans both. -/
theorem geometry_of_type : ∃ d,
    ofSource? (Text.ofString " (*\n*) type t = A\n") = some d ∧
      d.rows.head?.map (·.span) = some ⟨1, 18⟩ ∧
      ∀ r ∈ d.rows, ∀ i ∈ [r.span.start, r.span.stop],
        Point.ofOffset (Text.ofString " (*\n*) type t = A\n") i =
          ⟨((Text.ofString " (*\n*) type t = A\n").take i).count newline,
            (Text.ofString " (*\n*) type t = A\n").column i⟩ := by
  have haccepts : accepts (Text.ofString " (*\n*) type t = A\n") = true := by decide +kernel
  obtain ⟨d, hd⟩ := Option.isSome_iff_exists.mp haccepts
  obtain ⟨-, hroot, hpoints⟩ := geometry hd
  have hspan : (⟨(Text.ofString " (*\n*) type t = A\n").firstThing,
      (Text.ofString " (*\n*) type t = A\n").length⟩ : Span) = ⟨1, 18⟩ := by decide +kernel
  exact ⟨d, hd, hspan ▸ hroot, fun r hr i hi => (hpoints r hr i hi).1⟩

end Document

end Heptagon
