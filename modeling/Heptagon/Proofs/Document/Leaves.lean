import Heptagon.Proofs.Document.Comments
import Heptagon.Proofs.Layout.Printing
import Heptagon.Row

/-!
# The leaves of a document

The tokens and comments of an accepted source cut it into pieces, and nothing
gets lost: what is between them is blank, so the source is its leaves and
blanks in their order (`Document.cut_leafRows`).

The leaves are read off the rows of the document: a row of a token or comment
has no row below it, and every other row but the root's has one, because a node
that stands in a source has children (`Row.childless_rowsAll`).  That the nodes
stand in the source is known; here the tree is flattened, and `Row.Stand` says
of the leaves what `Node.StandFrom` says of the nodes.
-/

namespace Heptagon

/-! ## Rows without rows below them -/

/-- The rows of a preorder that have no rows below them. -/
def Row.childless : List Row → List Row
  | [] => []
  | [r] => [r]
  | r :: s :: rows =>
    if r.depth < s.depth then childless (s :: rows) else r :: childless (s :: rows)

/-- The first of some rows, if there is one, is not below a given depth. -/
def Row.Back (depth : Nat) (rows : List Row) : Prop := ∀ r ∈ rows.head?, r.depth ≤ depth

theorem Row.childless_cons {r : Row} {rows : List Row} (h : Back r.depth rows) :
    childless (r :: rows) = r :: childless rows := by
  cases rows with
  | nil => rfl
  | cons s rows => rw [childless, if_neg (Nat.not_lt.mpr (h s rfl))]

namespace Node

variable {source : Text}

mutual

/-- The rows of the tokens and comments of a node. -/
def leafRows (depth : Nat) : Node → List Row
  | token l s => [⟨depth, l.label, false, s⟩]
  | comment inside s => [⟨depth, .named .comment, inside, s⟩]
  | branch _ children => leafRowsAll (depth + 1) children

def leafRowsAll (depth : Nat) : List Node → List Row
  | [] => []
  | n :: ns => n.leafRows depth ++ leafRowsAll depth ns

end

theorem leafRowsAll_append (depth : Nat) (ns ms : List Node) :
    leafRowsAll depth (ns ++ ms) = leafRowsAll depth ns ++ leafRowsAll depth ms := by
  induction ns with
  | nil => rfl
  | cons n ns ih => simp [leafRowsAll, ih]

theorem exists_rows_eq_cons (depth : Nat) (n : Node) : ∃ r rows, n.rows depth = r :: rows ∧
    r.depth = depth := by
  cases n <;> exact ⟨_, _, rfl, rfl⟩

theorem back_rowsAll {depth : Nat} (ns : List Node) {rows : List Row} (h : Row.Back depth rows) :
    Row.Back depth (rowsAll depth ns ++ rows) := by
  cases ns with
  | nil => exact h
  | cons n ns =>
      obtain ⟨r, rs, hrows, hdepth⟩ := n.exists_rows_eq_cons depth
      rw [rowsAll, hrows]
      rintro _ ⟨⟩
      exact hdepth.le

mutual

/-- The rows of a node that have no rows below them are those of its tokens and comments. -/
theorem childless_rows : (n : Node) → n.Stands source → ∀ {depth : Nat} {rows : List Row},
    Row.Back depth rows →
    Row.childless (n.rows depth ++ rows) = n.leafRows depth ++ Row.childless rows
  | token l s, _, depth, rows, hback => Row.childless_cons hback
  | comment inside s, _, depth, rows, hback => Row.childless_cons hback
  | branch k [], h, _, _, _ => absurd rfl h.1
  | branch k (n :: ns), h, depth, rows, hback => by
      have hback' : Row.Back (depth + 1) rows := fun r hr => (hback r hr).trans (Nat.le_succ _)
      have ih := childless_rowsAll (n :: ns) h.2 hback'
      obtain ⟨r, rs, hrows, hdepth⟩ := n.exists_rows_eq_cons (depth + 1)
      rw [rowsAll, hrows, List.cons_append, List.cons_append] at ih
      rw [Node.rows, rowsAll, hrows, List.cons_append, List.cons_append, List.cons_append,
        Row.childless, if_pos (by simp [hdepth]), ih, leafRows]

theorem childless_rowsAll : (ns : List Node) → ∀ {offset : Nat}, StandFrom source offset ns →
    ∀ {depth : Nat} {rows : List Row}, Row.Back depth rows →
    Row.childless (rowsAll depth ns ++ rows) = leafRowsAll depth ns ++ Row.childless rows
  | [], _, _, _, _, _ => rfl
  | n :: ns, _, h, depth, rows, hback => by
      rw [rowsAll, leafRowsAll, List.append_assoc, List.append_assoc,
        childless_rows n h.2.1 (back_rowsAll ns hback), childless_rowsAll ns h.2.2 hback]

end

end Node

/-! ## Leaves in a source -/

/-- The byte at an index belongs to a span. -/
def Span.Holds (s : Span) (i : Nat) : Prop := s.start ≤ i ∧ i < s.stop

/-- What stands between some spans, in them, and behind them, from an offset on. -/
def Text.pieces (source : Text) (offset : Nat) : List Span → List Text
  | [] => [source.drop offset]
  | s :: ss => source.slice ⟨offset, s.start⟩ :: source.slice s :: pieces source s.stop ss

section

variable {source : Text} {i start stop : Nat} {b : UInt8}

theorem Text.mem_slice {s : Span} (hb : source[i]? = some b) (hi : s.Holds i) :
    b ∈ source.slice s := by
  obtain ⟨hstart, hstop⟩ := hi
  refine List.mem_of_getElem? (i := i - s.start) ?_
  rw [slice, List.getElem?_take_of_lt (by omega), List.getElem?_drop, Nat.add_sub_cancel' hstart, hb]

theorem Text.slice_append_drop (h : start ≤ stop) :
    source.slice ⟨start, stop⟩ ++ source.drop stop = source.drop start := by
  have hdrop : source.drop stop = (source.drop start).drop (stop - start) := by
    rw [List.drop_drop, Nat.add_sub_cancel' h]
  rw [slice, hdrop, List.take_append_drop]

end

namespace Row

/-- Some rows stand in a source one after another, from an offset on up to another one, with
nothing but blanks between them. -/
inductive Stand (source : Text) : (offset : Nat) → List Row → (stop : Nat) → Prop
  | nil {offset : Nat} : Stand source offset [] offset
  | cons {offset stop : Nat} {r : Row} {rows : List Row}
      (hblank : source.Blank offset r.span.start) (hspan : r.span.start < r.span.stop)
      (hrest : Stand source r.span.stop rows stop) : Stand source offset (r :: rows) stop

namespace Stand

variable {source : Text} {offset stop : Nat} {rows : List Row}

theorem append {middle : Nat} {rows' : List Row} (h : Stand source offset rows middle)
    (h' : Stand source middle rows' stop) : Stand source offset (rows ++ rows') stop := by
  induction h with
  | nil => exact h'
  | cons hblank hspan _ ih => exact .cons hblank hspan (ih h')

theorem bounds (h : Stand source offset rows stop) : offset ≤ stop ∧
    ∀ r ∈ rows, offset ≤ r.span.start ∧ r.span.start < r.span.stop ∧ r.span.stop ≤ stop := by
  induction h with
  | nil => simp
  | cons hblank hspan _ ih =>
      obtain ⟨hle, hrows⟩ := ih
      have hstart := hblank.1
      refine ⟨by omega, List.forall_mem_cons.mpr ⟨⟨hstart, hspan, hle⟩, fun r hr => ?_⟩⟩
      obtain ⟨hr, hr'⟩ := hrows r hr
      exact ⟨by omega, hr'⟩

theorem pairwise (h : Stand source offset rows stop) :
    rows.Pairwise fun r r' => r.span.stop ≤ r'.span.start := by
  induction h with
  | nil => exact .nil
  | cons _ _ hrest ih => exact .cons (fun r hr => (hrest.bounds.2 r hr).1) ih

/-- A byte between the rows is blank. -/
theorem isBlank_of_forall_not (h : Stand source offset rows stop) {i : Nat} {b : UInt8}
    (hb : source[i]? = some b) (hstart : offset ≤ i) (hstop : i < stop)
    (hrows : ∀ r ∈ rows, ¬ r.span.Holds i) : isBlank b = true := by
  induction h with
  | nil => omega
  | @cons offset stop r rows hblank hspan _ ih =>
      obtain ⟨hr, hrows⟩ := List.forall_mem_cons.mp hrows
      rcases Nat.lt_or_ge i r.span.start with hi | hi
      · exact hblank.2 b (Text.mem_slice hb ⟨hstart, hi⟩)
      · exact ih (Nat.le_of_not_lt fun hi' => hr ⟨hi, hi'⟩) hstop hrows

/-- The rows and what is between them make up the source. -/
theorem flatten_pieces (h : Stand source offset rows stop) :
    (source.pieces offset (rows.map (·.span))).flatten = source.drop offset := by
  induction h with
  | nil => simp [Text.pieces]
  | cons hblank hspan _ ih =>
      rw [List.map_cons, Text.pieces, List.flatten_cons, List.flatten_cons, ih,
        Text.slice_append_drop hspan.le, Text.slice_append_drop hblank.1]

end Stand

end Row

namespace Node

variable {source : Text}

mutual

theorem stand_leafRows : (n : Node) → n.Stands source → ∀ {offset : Nat} (depth : Nat),
    source.Blank offset n.start → Row.Stand source offset (n.leafRows depth) n.stop
  | token _ _, h, _, _, hblank => .cons hblank h.1 .nil
  | comment _ _, h, _, _, hblank => .cons hblank h.1 .nil
  | branch _ [], h, _, _, _ => absurd rfl h.1
  | branch k (n :: ns), h, offset, depth, hblank => by
      have hchildren : StandFrom source offset (n :: ns) := ⟨hblank, h.2.2⟩
      rw [stop, stopAll_cons]
      exact stand_leafRowsAll (n :: ns) (depth + 1) hchildren

/-- The leaves of nodes that follow each other do so, too. -/
theorem stand_leafRowsAll : (ns : List Node) → ∀ {offset : Nat} (depth : Nat),
    StandFrom source offset ns →
    Row.Stand source offset (leafRowsAll depth ns) (stopFrom offset ns)
  | [], _, _, _ => .nil
  | n :: ns, _, depth, h =>
      (stand_leafRows n h.2.1 depth h.1).append (stand_leafRowsAll ns depth h.2.2)

end

mutual

theorem mem_leafRows : (n : Node) → ∀ {depth : Nat} {r : Row}, r ∈ n.leafRows depth →
    (r.label = .named .comment ∧ r.span ∈ n.comments) ∨
      ∃ l, r.label = l.label ∧ (l, r.span) ∈ n.tokens
  | token l s, _, _, h => by
      obtain rfl := List.mem_singleton.mp h
      exact .inr ⟨l, rfl, List.mem_singleton_self _⟩
  | comment inside s, _, _, h => by
      obtain rfl := List.mem_singleton.mp h
      exact .inl ⟨rfl, List.mem_singleton_self _⟩
  | branch k ns, _, _, h => mem_leafRowsAll ns h

/-- The leaves are the comments and the tokens. -/
theorem mem_leafRowsAll : (ns : List Node) → ∀ {depth : Nat} {r : Row},
    r ∈ leafRowsAll depth ns → (r.label = .named .comment ∧ r.span ∈ commentsAll ns) ∨
      ∃ l, r.label = l.label ∧ (l, r.span) ∈ tokensAll ns
  | [], _, _, h => absurd h List.not_mem_nil
  | n :: ns, _, _, h => by
      rw [leafRowsAll, List.mem_append] at h
      simp only [commentsAll, tokensAll, List.mem_append]
      rcases h with h | h
      · exact (mem_leafRows n h).imp (And.imp_right .inl) fun ⟨l, hl⟩ => ⟨l, hl.1, .inl hl.2⟩
      · exact (mem_leafRowsAll ns h).imp (And.imp_right .inr) fun ⟨l, hl⟩ => ⟨l, hl.1, .inr hl.2⟩

end

mutual

theorem stands_of_mem_tokens : (n : Node) → n.Stands source → ∀ {l : Leaf} {s : Span},
    (l, s) ∈ n.tokens → (token l s).Stands source
  | token l s, h, _, _, hmem => by
      obtain ⟨rfl, rfl⟩ := Prod.mk.inj (List.mem_singleton.mp hmem)
      exact h
  | comment _ _, _, _, _, hmem => absurd hmem List.not_mem_nil
  | branch _ ns, h, _, _, hmem => stands_of_mem_tokensAll ns h.2 hmem

/-- The tokens of nodes that stand in a source stand there. -/
theorem stands_of_mem_tokensAll : (ns : List Node) → ∀ {offset : Nat},
    StandFrom source offset ns → ∀ {l : Leaf} {s : Span}, (l, s) ∈ tokensAll ns →
    (token l s).Stands source
  | [], _, _, _, _, hmem => absurd hmem List.not_mem_nil
  | n :: ns, _, h, _, _, hmem =>
      (List.mem_append.mp hmem).elim (stands_of_mem_tokens n h.2.1)
        (stands_of_mem_tokensAll ns h.2.2)

end

end Node

/-! ## Bytes of tokens -/

/-- Whether a byte can be one of a token: it is in ASCII and not zero. -/
def isPlain (b : UInt8) : Bool := b != 0 && b < 128

section

variable {b : UInt8}

theorem isPlain_iff : isPlain b = true ↔ b.toNat ≠ 0 ∧ b.toNat < 128 := by
  simp [isPlain, UInt8.lt_iff_toNat_lt, ← UInt8.toNat_inj]

theorem ne_zero_of_isPlain (h : isPlain b = true) : b ≠ 0 := by
  rintro rfl
  exact (isPlain_iff.mp h).1 rfl

theorem not_le_of_isPlain (h : isPlain b = true) : ¬ 128 ≤ b := fun hle =>
  (isPlain_iff.mp h).2.not_ge (UInt8.le_iff_toNat_le.mp hle)

theorem isPlain_of_isWordBody (h : isWordBody b = true) : isPlain b = true := by
  rw [isWordBody_iff, isSmallBody_iff] at h
  rw [isPlain_iff]
  omega

theorem isPlain_of_isDigit (h : isDigit b = true) : isPlain b = true := by
  rw [isDigit_iff] at h
  rw [isPlain_iff]
  omega

theorem isPlain_of_isQuote (h : isQuote b = true) : isPlain b = true := by
  rw [isQuote_iff] at h
  rw [isPlain_iff]
  omega

theorem isPlain_of_isBlank (h : isBlank b = true) : isPlain b = true := by
  rw [isBlank_iff] at h
  rw [isPlain_iff]
  omega

end

/-- Nothing but plain bytes is in the texts of a language. -/
def Pattern.Plain (l : ByteLanguage) : Prop := ∀ t ∈ l, ∀ b ∈ t, isPlain b = true

namespace Pattern

variable {l m : ByteLanguage} {p : UInt8 → Bool}

theorem Plain.mul (hl : Plain l) (hm : Plain m) : Plain (l * m) := by
  intro t ht
  obtain ⟨u, hu, v, hv, rfl⟩ := Language.mem_mul.mp ht
  exact List.forall_mem_append.mpr ⟨hl u hu, hm v hv⟩

theorem Plain.add (hl : Plain l) (hm : Plain m) : Plain (l + m) := fun t ht =>
  ((Language.mem_add l m t).mp ht).elim (hl t) (hm t)

theorem plain_bytes (h : ∀ b, p b = true → isPlain b = true) : Plain (bytes p) :=
  fun _ ht b hb => h b (mem_bytes_iff.mp ht b hb)

theorem plain_byte (h : ∀ b, p b = true → isPlain b = true) : Plain (byte p) := by
  rintro t ⟨b, hb, rfl⟩
  simpa using h b hb

theorem plain_someBytes (h : ∀ b, p b = true → isPlain b = true) : Plain (someBytes p) :=
  (plain_byte h).mul (plain_bytes h)

end Pattern

open Pattern in
/-- Every byte of a lexeme is plain. -/
theorem Lexeme.IsToken.forall_isPlain {x : Lexeme} (h : x.IsToken) :
    ∀ b ∈ x.text, isPlain b = true := by
  have hbody (b : UInt8) (hb : isSmallBody b = true) : isPlain b = true :=
    isPlain_of_isWordBody (isWordBody_of_isSmallBody hb)
  have hsmall (b : UInt8) (hb : isSmall b = true) : isPlain b = true :=
    hbody b (by simp [isSmallBody, hb])
  have hcapital (b : UInt8) (hb : isCapital b = true) : isPlain b = true :=
    isPlain_of_isWordBody (isWordBody_of_isCapital hb)
  cases x with
  | word w =>
      exact ((plain_byte hsmall).mul (plain_bytes hbody)).mul
        (plain_bytes fun _ => isPlain_of_isQuote) _ h.2
  | capital t =>
      exact (plain_byte hcapital).mul (plain_bytes fun _ => isPlain_of_isWordBody) _ h
  | number t =>
      have hdigits : Plain (someBytes isDigit) := plain_someBytes fun _ => isPlain_of_isDigit
      have hpoint : Plain (literal ".") := by
        rintro t rfl
        exact List.all_eq_true.mp (by decide)
      exact ((hdigits.mul hpoint).mul hdigits).add hdigits _ h
  | symbol s => exact List.all_eq_true.mp (by cases s <;> decide)
  | apart => exact List.all_eq_true.mp (by decide)

/-- Every byte of a token is plain. -/
theorem Node.Stands.forall_isPlain {source : Text} {l : Leaf} {s : Span}
    (h : (token l s).Stands source) : ∀ b ∈ source.slice s, isPlain b = true := by
  obtain ⟨-, htext, htoken⟩ := h
  rw [htext]
  rcases l.lexemes_cases with ⟨x, hx, hl⟩ | ⟨x, y, hxy, hl⟩
  · rw [hl]
    exact (htoken x (by simp [hx])).forall_isPlain
  · rw [hl]
    exact List.forall_mem_append.mpr
      ⟨(htoken x (by simp [hxy])).forall_isPlain, (htoken y (by simp [hxy])).forall_isPlain⟩

/-! ## Documents -/

/-- The byte at an index belongs to the mark in front of a source. -/
def Text.Marks (source : Text) (i : Nat) : Prop :=
  leadingMark.isPrefixOf source = true ∧ i < leadingMark.length

/-- Some leaves cut a source into pieces without losing anything. -/
structure Text.Cut (source : Text) (leaves : List Row) : Prop where
  /-- no leaf is empty -/
  nonempty : ∀ r ∈ leaves, r.span.start < r.span.stop ∧ r.span.stop ≤ source.length
  /-- the leaves follow each other -/
  ordered : leaves.Pairwise fun r r' => r.span.stop ≤ r'.span.start
  /-- what is in no leaf is blank -/
  blank : ∀ i b, source[i]? = some b → (∀ r ∈ leaves, ¬ r.span.Holds i) →
    isBlank b = true ∨ source.Marks i
  /-- the leaves and what is between them make up the source -/
  whole : (source.pieces 0 (leaves.map (·.span))).flatten = source
  /-- a zero byte is nowhere -/
  nonzero : ∀ b ∈ source, b ≠ 0
  /-- a byte that is not in ASCII is in a comment -/
  ascii : ∀ i b, source[i]? = some b → 128 ≤ b →
    (∃ r ∈ leaves, r.label = .named .comment ∧ r.span.Holds i) ∨ source.Marks i

theorem Text.origin_eq (source : Text) : source.origin = 0 ∨
    leadingMark.isPrefixOf source = true ∧ source.origin = leadingMark.length := by
  unfold origin
  split
  · next h => exact .inr ⟨h, rfl⟩
  · exact .inl rfl

/-- The front of a source is the mark, if there is one, or nothing. -/
theorem Text.take_origin (source : Text) :
    source.take source.origin = [] ∨ source.take source.origin = Text.leadingMark := by
  rcases source.origin_eq with horigin | ⟨hmark, horigin⟩
  · exact .inl (by rw [horigin, List.take_zero])
  · obtain ⟨rest, hrest⟩ := List.isPrefixOf_iff_prefix.mp hmark
    exact .inr (by rw [horigin, ← hrest, List.take_left])

/-- What is before the origin of a source is its mark. -/
theorem Text.marks_of_lt_origin {source : Text} {i : Nat} (h : i < source.origin) :
    source.Marks i := by
  rcases source.origin_eq with horigin | ⟨hmark, horigin⟩
  · omega
  · exact ⟨hmark, horigin ▸ h⟩

theorem Text.Marks.ne_zero {source : Text} {i : Nat} (h : source.Marks i) {b : UInt8}
    (hb : source[i]? = some b) : b ≠ 0 := by
  obtain ⟨hmark, hi⟩ := h
  obtain ⟨rest, rfl⟩ := List.isPrefixOf_iff_prefix.mp hmark
  rw [List.getElem?_append_left hi] at hb
  have hmark : leadingMark.all (· != 0) = true := by decide
  simpa using List.all_eq_true.mp hmark b (List.mem_of_getElem? hb)

/-- What stands in a source from its origin on can be read from its beginning. -/
theorem Row.Stand.flatten_pieces_zero {source : Text} {stop : Nat} {rows : List Row}
    (h : Stand source source.origin rows stop) :
    (source.pieces 0 (rows.map (·.span))).flatten = source := by
  cases h with
  | nil => simp [Text.pieces]
  | @cons _ _ r rows hblank hspan hrest =>
      rw [List.map_cons, Text.pieces, List.flatten_cons, List.flatten_cons, hrest.flatten_pieces,
        Text.slice_append_drop hspan.le, Text.slice_append_drop (Nat.zero_le _), List.drop_zero]

namespace Document

variable {source : Text} {d : Document}

/-- The rows of the leaves of a document: those below the root that have no rows below them. -/
def leafRows (d : Document) : List Row := Row.childless d.rows.tail

/-- The leaves of a document are its tokens and comments. -/
theorem leafRows_eq {p : Program} (h : d.Shows source p) :
    d.leafRows = Node.leafRowsAll 1 d.children := by
  have hback : Row.Back 1 [] := by simp [Row.Back]
  have hchildless := Node.childless_rowsAll d.children h.stands hback
  simpa [leafRows, rows, Row.childless] using hchildless

theorem stand_leafRows {p : Program} (h : d.Shows source p) :
    Row.Stand source source.origin d.leafRows (Node.stopFrom source.origin d.children) := by
  rw [leafRows_eq h]
  exact Node.stand_leafRowsAll _ _ h.stands

/-- The tokens of an accepted source stand in it. -/
theorem stands_of_mem_tokens (h : ofSource? source = some d) {l : Leaf} {s : Span}
    (hmem : (l, s) ∈ d.tokens) : (Node.token l s).Stands source := by
  obtain ⟨p, hshows⟩ := exists_program h
  exact Node.stands_of_mem_tokensAll d.children hshows.stands hmem

theorem mem_leafRows {p : Program} (h : d.Shows source p) {r : Row} (hr : r ∈ d.leafRows) :
    (r.label = .named .comment ∧ r.span ∈ d.comments) ∨
      ∃ l, r.label = l.label ∧ (l, r.span) ∈ d.tokens ∧ (Node.token l r.span).Stands source := by
  rw [leafRows_eq h] at hr
  refine (Node.mem_leafRowsAll _ hr).imp id fun ⟨l, hl, hmem⟩ => ⟨l, hl, hmem, ?_⟩
  exact Node.stands_of_mem_tokensAll _ h.stands hmem

/-- A byte is in the mark, in one of the leaves, or blank. -/
theorem marks_or_mem_leafRows_or_isBlank {p : Program} (h : d.Shows source p) {i : Nat} {b : UInt8}
    (hb : source[i]? = some b) :
    source.Marks i ∨ (∃ r ∈ d.leafRows, r.span.Holds i) ∨ isBlank b = true := by
  obtain ⟨hi, -⟩ := List.getElem?_eq_some_iff.mp hb
  rcases Nat.lt_or_ge i source.origin with horigin | horigin
  · exact .inl (Text.marks_of_lt_origin horigin)
  rcases Nat.lt_or_ge i (Node.stopFrom source.origin d.children) with hstop | hstop
  · refine .inr (or_iff_not_imp_left.mpr fun hnone => ?_)
    exact (stand_leafRows h).isBlank_of_forall_not hb horigin hstop fun r hr hi => hnone ⟨r, hr, hi⟩
  · exact .inr (.inr (h.ends.2 b (Text.mem_slice hb ⟨hstop, hi⟩)))

/-- The leaves of an accepted source follow each other, nothing but blanks is between them, and put
together with these they are the source. -/
theorem cut_of_ofSource? (h : ofSource? source = some d) : source.Cut d.leafRows := by
  obtain ⟨p, hshows⟩ := exists_program h
  obtain ⟨items, hscan, -, hcomments⟩ := write_of_ofSource? h
  have hstand := stand_leafRows hshows
  refine ⟨fun r hr => ?nonempty, hstand.pairwise, fun i b hb hnone => ?blank,
    hstand.flatten_pieces_zero, fun b hb => ?nonzero, fun i b hb hascii => ?ascii⟩
  case nonempty =>
    obtain ⟨-, hlt, hle⟩ := hstand.bounds.2 r hr
    exact ⟨hlt, hle.trans hshows.ends.1⟩
  case blank =>
    rcases marks_or_mem_leafRows_or_isBlank hshows hb with hmark | ⟨r, hr, hi⟩ | hblank
    · exact .inr hmark
    · exact absurd hi (hnone r hr)
    · exact .inl hblank
  case nonzero =>
    obtain ⟨i, hi⟩ := List.getElem?_of_mem hb
    rcases marks_or_mem_leafRows_or_isBlank hshows hi with hmark | ⟨r, hr, hholds⟩ | hblank
    · exact hmark.ne_zero hi
    · rcases mem_leafRows hshows hr with ⟨-, hcomment⟩ | ⟨l, -, -, hstands⟩
      · exact forall_ne_zero_of_mem_comments hscan (hcomments ▸ hcomment) b
          (Text.mem_slice hi hholds)
      · exact ne_zero_of_isPlain (hstands.forall_isPlain b (Text.mem_slice hi hholds))
    · exact ne_zero_of_isPlain (isPlain_of_isBlank hblank)
  case ascii =>
    rcases marks_or_mem_leafRows_or_isBlank hshows hb with hmark | ⟨r, hr, hholds⟩ | hblank
    · exact .inr hmark
    · rcases mem_leafRows hshows hr with ⟨hlabel, -⟩ | ⟨l, -, -, hstands⟩
      · exact .inl ⟨r, hr, hlabel, hholds⟩
      · have hplain := hstands.forall_isPlain b (Text.mem_slice hb hholds)
        exact absurd hascii (not_le_of_isPlain hplain)
    · exact absurd hascii (not_le_of_isPlain (isPlain_of_isBlank hblank))

/-- A leaf of an accepted source is a comment or a token that is spelled as it is called. -/
theorem comment_or_token (h : ofSource? source = some d) {r : Row} (hr : r ∈ d.leafRows) :
    (r.label = .named .comment ∧ r.span ∈ d.comments) ∨
      ∃ l, r.label = l.label ∧ (l, r.span) ∈ d.tokens ∧ source.slice r.span = l.text := by
  obtain ⟨p, hshows⟩ := exists_program h
  exact (mem_leafRows hshows hr).imp id fun ⟨l, hl, hmem, hstands⟩ => ⟨l, hl, hmem, hstands.2.1⟩

/-- The leaves of an accepted source are its tokens, spelled as they are called, and its comments;
they follow each other, nothing but blanks is between them, and put together with these they are the
source. -/
theorem cut_leafRows (h : ofSource? source = some d) :
    source.Cut d.leafRows ∧ ∀ r ∈ d.leafRows,
      (r.label = .named .comment ∧ r.span ∈ d.comments) ∨
        ∃ l, r.label = l.label ∧ (l, r.span) ∈ d.tokens ∧ source.slice r.span = l.text :=
  ⟨cut_of_ofSource? h, fun _ hr => comment_or_token h hr⟩

/-- A marked source whose only byte that is not in ASCII stands in a comment. -/
theorem cut_leafRows_of_marked : ∃ d,
    ofSource? (Text.leadingMark ++ Text.ofString "type t = (*\xe9*)A ") = some d ∧
      (Text.leadingMark ++ Text.ofString "type t = (*\xe9*)A ").Cut d.leafRows := by
  have haccepts : accepts (Text.leadingMark ++ Text.ofString "type t = (*\xe9*)A ") = true := by
    decide +kernel
  obtain ⟨d, hd⟩ := Option.isSome_iff_exists.mp haccepts
  exact ⟨d, hd, (cut_leafRows hd).1⟩

end Document

end Heptagon
