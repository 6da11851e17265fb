import Heptagon.Proofs.Document.Calls
import Heptagon.Proofs.Document.Highlighting

/-!
# Which keywords are captured

Every keyword in the tree of an accepted source is captured exactly once, except
for the `last` that starts a declaration, which is not captured at all
(`Document.countP_captures`).

The highlighting captures a keyword in two ways: by the spelling, wherever the
keyword stands, or by the node that consists of it, as an operator, a truth value
or a primitive type does.  Both can be told from a leaf and the kind of the node
right above it, its seat, so the captures of a document can be read off the row
of its seats (`Document.captures_eq_flatMap`).  Which keywords stand right below a
node of a kind is then read off the grammar.
-/

namespace Heptagon

/-! ## Leaves and the nodes right above them -/

/-- A token or comment, with the kind of the node right above it. -/
structure Seat where
  parent : Kind
  label : Label
  span : Span

namespace Node

mutual

/-- The seats in a node that is below a node of a kind. -/
def seats (parent : Kind) : Node → List Seat
  | token l s => [⟨parent, l.label, s⟩]
  | comment _ s => [⟨parent, .named .comment, s⟩]
  | branch k children => seatsAll k children

/-- The seats in a row of children of a node of a kind. -/
def seatsAll (parent : Kind) : List Node → List Seat
  | [] => []
  | n :: ns => n.seats parent ++ seatsAll parent ns

end

mutual

theorem map_span_seats : (n : Node) → ∀ parent, (n.seats parent).map Seat.span = n.leafSpans
  | token _ _, _ => rfl
  | comment _ _, _ => rfl
  | branch k ns, _ => by rw [seats, leafSpans_branch, map_span_seatsAll ns k]

/-- There is one seat for each leaf. -/
theorem map_span_seatsAll : (ns : List Node) → ∀ parent,
    (seatsAll parent ns).map Seat.span = leafSpansAll ns
  | [], _ => rfl
  | n :: ns, parent => by
      rw [seatsAll, List.map_append, leafSpansAll_cons, map_span_seats n parent,
        map_span_seatsAll ns parent]

end

theorem seats_subset_of_mem {n : Node} {ns : List Node} (h : n ∈ ns) (parent : Kind) :
    n.seats parent ⊆ seatsAll parent ns := by
  induction ns with
  | nil => simp at h
  | cons m ns ih =>
      rcases List.mem_cons.mp h with rfl | h
      · exact List.subset_append_left _ _
      · exact fun _ hseat => List.mem_append_right _ (ih h hseat)

/-- A leaf right below a node of a kind has its seat there. -/
theorem Contains.seat_mem {n : Node} {k : Kind} {ns : List Node} {l : Leaf} {s : Span}
    (h : n.Contains (.branch k ns)) (hleaf : token l s ∈ ns) (parent : Kind) :
    ⟨k, l.label, s⟩ ∈ n.seats parent := by
  generalize hm : branch k ns = m at h
  induction h generalizing parent with
  | refl =>
      subst hm
      exact seats_subset_of_mem hleaf k (List.mem_singleton.mpr rfl)
  | @child k' _ _ _ hc _ ih => exact seats_subset_of_mem hc k' (ih k' hm)

/-- The parts of a derivation are derivations. -/
theorem Contains.derivation {source : Text} {n m : Node} (h : n.Contains m)
    (hn : n.Derives source) : m.Derives source := by
  induction h with
  | refl => exact hn
  | child hc _ ih =>
      cases hn with
      | branch _ _ hchildren => exact ih (hchildren _ hc)

end Node

/-! ## Queries that capture leaves -/

/-- Whether a pattern captures a leaf with a label below a node of a kind, or that node if it
consists of the leaf. -/
def Pattern.takes (parent : Kind) (l : Label) (p : Pattern) : Bool :=
  p.captures parent l || p.labels.contains (.named parent)

namespace Query

variable {q : Query} {source : Text}

/-- What a query captures of a leaf. -/
def capturesOf (q : Query) (seat : Seat) : List Capture :=
  (q.filter fun e => e.1.takes seat.parent seat.label).map fun e => ⟨e.2, seat.span⟩

/-- What a query captures is known from the seat of each leaf alone. -/
structure Seated (q : Query) : Prop where
  unambiguous : q.Unambiguous
  /-- no node that has children is captured for the node above it -/
  free : ∀ e ∈ q, ∀ c ∈ Grammar.constructs, ∀ l ∈ Grammar.labelOf? c, l ∈ e.1.labels →
    e.1.parent? = none

theorem seated_highlights : Seated highlights :=
  ⟨unambiguous_highlights, by decide +kernel⟩

theorem labels_subset_of_mem {e : Pattern × String} (he : e ∈ q) : e.1.labels ⊆ q.labels :=
  fun _ hl => List.mem_flatMap.mpr ⟨e, he, hl⟩

/-- Below a node that is not captured, a leaf is captured as what it is. -/
theorem at_of_not_captured {parent : Kind} (hparent : .named parent ∉ q.labels) {n : Node}
    {s : Span} (hs : n.span = s) : at_ q parent n = q.capturesOf ⟨parent, n.label, s⟩ := by
  subst hs
  unfold at_ capturesOf
  congr 1
  refine List.filter_congr fun e he => ?_
  have hnone : e.1.labels.contains (.named parent) = false := by
    rw [List.contains_eq_mem, decide_eq_false_iff_not]
    exact fun hmem => hparent (labels_subset_of_mem he hmem)
  rw [Pattern.takes, hnone, Bool.or_false]

/-- A captured node that consists of one keyword or symbol is captured at the seat of that leaf. -/
theorem Seated.at_of_captured (hq : q.Seated) {k : Kind} (hk : .node k ∈ Grammar.constructs)
    {l : Leaf} (hl : l.label ∉ q.labels) (s : Span) (parent : Kind) :
    at_ q parent (.branch k [.token l s]) = q.capturesOf ⟨k, l.label, s⟩ := by
  unfold at_ capturesOf
  show (q.filter _).map _ = _
  congr 1
  refine List.filter_congr fun e he => ?_
  have hleaf : e.1.captures k l.label = false := by
    by_contra hcaptures
    rw [Bool.not_eq_false, Pattern.captures_iff] at hcaptures
    exact hl (labels_subset_of_mem he hcaptures.1)
  rw [Pattern.takes, hleaf, Bool.false_or, Bool.eq_iff_iff, Pattern.captures_iff,
    List.contains_eq_mem, decide_eq_true_iff]
  show (.named k ∈ e.1.labels ∧ _) ↔ _
  constructor
  · exact And.left
  · intro hmem
    refine ⟨hmem, fun k' hk' => ?_⟩
    rw [hq.free e he (.node k) hk _ rfl hmem] at hk'
    cases hk'

mutual

theorem Seated.within_eq (hq : q.Seated) : (n : Node) → n.Derives source → n.Tight →
    ∀ parent, .named parent ∉ q.labels → within q parent n = (n.seats parent).flatMap q.capturesOf
  | .token l s, _, _, parent, hparent => by
      rw [Node.seats, List.flatMap_singleton]
      exact at_of_not_captured hparent rfl
  | .comment inside s, _, _, parent, hparent => by
      rw [Node.seats, List.flatMap_singleton]
      exact at_of_not_captured hparent rfl
  | .branch k ns, hderives, htight, parent, hparent => by
      rw [within, Node.seats]
      cases hderives with
      | branch hk hrule hchildren =>
      cases htight with
      | branch hne hfirst hlast htights =>
      by_cases hcaptured : .named k ∈ q.labels
      -- what is captured as a node is a single token that is not captured itself
      · obtain ⟨hliteral, hfree⟩ := hq.unambiguous.single (.node k) hk (.named k) rfl hcaptured
        obtain ⟨l, s, rfl, t, ht, hl⟩ :=
          (Node.Derives.branch hk hrule hchildren).eq_token_of_isLiteral
          (.branch hne hfirst hlast htights) hliteral
        have hleaf : l.label ∉ q.labels := hl ▸ hfree t ht
        have hnone : withinAll q k [.token l s] = [] := by
          have hlabel : (Node.token l s).label ∉ q.labels := hleaf
          simp only [withinAll, within, at_eq_nil hlabel, List.append_nil]
        rw [hnone, List.append_nil, hq.at_of_captured hk hleaf s parent, Node.seatsAll,
          Node.seatsAll, Node.seats, List.append_nil, List.flatMap_singleton]
      · rw [at_eq_nil (n := .branch k ns) hcaptured, List.nil_append]
        exact withinAll_eq hq ns hchildren htights k hcaptured

/-- What a query captures in a row of nodes is what it captures of each leaf. -/
theorem Seated.withinAll_eq (hq : q.Seated) : (ns : List Node) → (∀ n ∈ ns, n.Derives source) →
    (∀ n ∈ ns, n.Tight) → ∀ parent, .named parent ∉ q.labels →
    withinAll q parent ns = (Node.seatsAll parent ns).flatMap q.capturesOf
  | [], _, _, _, _ => rfl
  | n :: ns, hderives, htight, parent, hparent => by
      obtain ⟨hn, hns⟩ := List.forall_mem_cons.mp hderives
      obtain ⟨hn', hns'⟩ := List.forall_mem_cons.mp htight
      rw [withinAll, Node.seatsAll, List.flatMap_append, within_eq hq n hn hn' parent hparent,
        withinAll_eq hq ns hns hns' parent hparent]

end

end Query

/-! ## Counting captures -/

/-- Whether a span has all the bytes of another one. -/
def Span.covers (s t : Span) : Bool := s.start ≤ t.start && t.stop ≤ s.stop

namespace Query

variable {q : Query} {seats : List Seat} {seat : Seat}

theorem span_of_mem_capturesOf {c : Capture} (h : c ∈ q.capturesOf seat) : c.span = seat.span := by
  obtain ⟨e, -, rfl⟩ := List.mem_map.mp h
  rfl

/-- No leaf is covered by what is captured of other leaves. -/
theorem countP_eq_zero (h : ∀ t ∈ seats, t.span.covers seat.span = false) :
    (seats.flatMap q.capturesOf).countP (·.span.covers seat.span) = 0 := by
  refine List.countP_eq_zero.mpr fun c hc => ?_
  obtain ⟨t, ht, hmem⟩ := List.mem_flatMap.mp hc
  rw [span_of_mem_capturesOf hmem, h t ht]
  exact Bool.false_ne_true

/-- Of leaves that follow each other, each is covered by what is captured of it. -/
theorem countP_flatMap (hordered : seats.Pairwise fun t t' => t.span.stop ≤ t'.span.start)
    (hnonempty : ∀ t ∈ seats, t.span.start < t.span.stop) (hseat : seat ∈ seats) :
    (seats.flatMap q.capturesOf).countP (·.span.covers seat.span) =
      q.countP fun e => e.1.takes seat.parent seat.label := by
  obtain ⟨pre, post, rfl⟩ := List.append_of_mem hseat
  have hself := hnonempty seat hseat
  obtain ⟨-, hpost, hbetween⟩ := List.pairwise_append.mp hordered
  have hbefore : ∀ t ∈ pre, t.span.covers seat.span = false := by
    intro t ht
    have := hbetween t ht seat List.mem_cons_self
    simp only [Span.covers, Bool.and_eq_false_iff, decide_eq_false_iff_not]
    omega
  have hbehind : ∀ t ∈ post, t.span.covers seat.span = false := by
    intro t ht
    have := List.rel_of_pairwise_cons hpost ht
    simp only [Span.covers, Bool.and_eq_false_iff, decide_eq_false_iff_not]
    omega
  have hall :
        (q.capturesOf seat).countP (·.span.covers seat.span) = (q.capturesOf seat).length := by
    refine List.countP_eq_length.mpr fun c hc => ?_
    simp [span_of_mem_capturesOf hc, Span.covers]
  rw [List.flatMap_append, List.flatMap_cons, List.countP_append, List.countP_append,
    countP_eq_zero hbefore, countP_eq_zero hbehind, hall, capturesOf, List.length_map,
    List.countP_eq_length_filter]
  omega

end Query

/-! ## Keywords and the kinds of nodes they stand in -/

/-- Whether a construct has no node. -/
def Construct.isHidden (c : Construct) : Bool := (Grammar.labelOf? c).isNone

/-- Whether a rule mentions a construct without a node. -/
def Rule.hides : Rule → Bool
  | ref c => c.isHidden
  | seq a b | either a b => a.hides || b.hides
  | some r => r.hides
  | _ => false

/-- The keywords and symbols that the rules of the constructs without a node bring with them. -/
def Grammar.hiddenLiterals : List String :=
  (constructs.filter (·.isHidden)).flatMap fun c => (rule c).literals

/-- The keywords and symbols that may stand right below a node of a kind. -/
def Grammar.literalsBelow (k : Kind) : List String :=
  (rule (.node k)).literals ++
    if (rule (.node k)).hides then hiddenLiterals else []

theorem Construct.mem_hidden {c : Construct} (hc : Grammar.labelOf? c = none) :
    c ∈ Grammar.constructs.filter (·.isHidden) := by
  cases c with
  | node k => simp [Grammar.labelOf?] at hc
  | _ => decide

/-- A keyword or symbol in a row is one of the rule, unless a construct without a node brings it. -/
theorem Rule.Generates.literal_mem {α : Type} {label : α → Label} {r : Rule} {xs : List α}
    (h : r.Generates label xs) : ∀ x ∈ xs, ∀ t, label x = .literal t → t ∈ r.literals ∨
      r.hides = true ∧ t ∈ Grammar.hiddenLiterals := by
  induction h with
  | blank => simp
  | keyword h | symbol h =>
      intro x hx t ht
      obtain rfl := List.mem_singleton.mp hx
      exact .inl (List.mem_singleton.mpr (Label.literal.inj (ht.symm.trans h)))
  | node h =>
      intro x hx t ht
      obtain rfl := List.mem_singleton.mp hx
      cases h.symm.trans ht
  | @hidden c _ hc _ ih =>
      intro x hx t ht
      -- the rule does not name what a construct without a node brings
      refine .inr ⟨?_, ?_⟩
      · rw [hides, Construct.isHidden, hc, Option.isNone_none]
      · rcases ih x hx t ht with hmem | ⟨-, hmem⟩
        · exact List.mem_flatMap.mpr ⟨c, Construct.mem_hidden hc, hmem⟩
        · exact hmem
  | seq _ _ iha ihb =>
      intro x hx t ht
      rw [literals, hides, Bool.or_eq_true, List.mem_append]
      rcases List.mem_append.mp hx with hx | hx
      · exact (iha x hx t ht).imp .inl (And.imp_left .inl)
      · exact (ihb x hx t ht).imp .inr (And.imp_left .inr)
  | more _ _ ih ihs =>
      intro x hx t ht
      rcases List.mem_append.mp hx with hx | hx
      · exact ih x hx t ht
      · exact ihs x hx t ht
  | left _ ih =>
      intro x hx t ht
      rw [literals, hides, Bool.or_eq_true, List.mem_append]
      exact (ih x hx t ht).imp .inl (And.imp_left .inl)
  | right _ ih =>
      intro x hx t ht
      rw [literals, hides, Bool.or_eq_true, List.mem_append]
      exact (ih x hx t ht).imp .inr (And.imp_left .inr)
  | one _ ih => exact ih

theorem Rule.Generates.mem_literalsBelow {α : Type} {label : α → Label} {k : Kind} {xs : List α}
    (h : (Grammar.rule (.node k)).Generates label xs) {x : α} (hx : x ∈ xs) {t : String}
    (ht : label x = .literal t) : t ∈ Grammar.literalsBelow k := by
  unfold Grammar.literalsBelow
  rcases h.literal_mem x hx t ht with hmem | ⟨hhides, hmem⟩
  · exact List.mem_append_left _ hmem
  · rw [hhides]
    exact List.mem_append_right _ hmem

/-- A keyword is captured in one way wherever it may stand, but for a `last` that starts a
declaration. -/
theorem Query.countP_takes {k : Kind} {w : Keyword}
    (h : w.spelling ∈ Grammar.literalsBelow k) :
    (highlights.countP fun e => e.1.takes k (.literal w.spelling)) =
      if k = .varDeclLast then 0 else 1 := by
  have hall : ∀ w ∈ Keyword.all, w.spelling ∈ Grammar.literalsBelow k →
      (highlights.countP fun e => e.1.takes k (.literal w.spelling)) =
        if k = .varDeclLast then 0 else 1 := by
    cases k <;> decide +kernel
  exact hall w w.mem_all h

/-! ## Documents -/

/-- A symbol is no word. -/
theorem Symbol.all_isWordBody (s : Symbol) : s.text.all isWordBody = false := by
  cases s <;> decide

namespace Document

variable {source : Text} {d : Document}

/-- The captures of a document are those of its leaves. -/
theorem captures_eq_flatMap (h : ofSource? source = some d) :
    d.captures = (d.root.seats .sourceFile).flatMap Query.highlights.capturesOf := by
  obtain ⟨p, hshows⟩ := exists_program h
  rw [captures_eq h]
  cases hshows.derives with
  | branch _ _ hchildren =>
      exact Query.seated_highlights.withinAll_eq d.children hchildren (tight_children h) .sourceFile
        (by decide +kernel)

theorem map_span_seats (h : ofSource? source = some d) :
    (d.root.seats .sourceFile).map Seat.span = d.leafRows.map (·.span) := by
  rw [Node.map_span_seats, root, Node.leafSpans_branch, map_span_leafRows h]

/-- A keyword of an accepted source lies in exactly one capture, and a `last` that starts a
declaration in none. -/
theorem countP_captures (h : ofSource? source = some d) {k : Kind} {ns : List Node} {l : Leaf}
    {s : Span} (hn : d.root.Contains (.branch k ns)) (hleaf : .token l s ∈ ns)
    (hanonymous : l.label.isNamed = false) (hword : (source.slice s).all isWordBody = true) :
    d.captures.countP (·.span.covers s) = if k = .varDeclLast then 0 else 1 := by
  obtain ⟨p, hshows⟩ := exists_program h
  have hcut := cut_of_ofSource? h
  -- the seats are as far apart as the leaves
  have hspans := map_span_seats h
  have hordered : ((d.root.seats .sourceFile).map Seat.span).Pairwise
      fun t t' : Span => t.stop ≤ t'.start := hspans ▸ List.pairwise_map.mpr hcut.ordered
  have hnonempty : ∀ t ∈ d.root.seats .sourceFile, t.span.start < t.span.stop := by
    intro t ht
    obtain ⟨r, hr, hspan⟩ := List.mem_map.mp (hspans ▸ List.mem_map_of_mem ht)
    exact hspan ▸ (hcut.nonempty r hr).1
  -- the leaf is a keyword that the rule of the node allows
  cases hn.derivation hshows.derives with
  | branch _ hrule hchildren =>
  cases hchildren _ hleaf with
  | token htext _ =>
  obtain ⟨w, rfl⟩ : ∃ w, l = .keyword w := by
    cases l with
    | keyword w => exact ⟨w, rfl⟩
    | symbol t =>
        rw [htext, Leaf.text, t.all_isWordBody] at hword
        cases hword
    | _ => cases hanonymous
  have hbelow : w.spelling ∈ Grammar.literalsBelow k :=
    hrule.mem_literalsBelow (List.mem_filter.mpr ⟨hleaf, rfl⟩) rfl
  rw [captures_eq_flatMap h, Query.countP_flatMap (List.pairwise_map.mp hordered) hnonempty
    (hn.seat_mem hleaf .sourceFile)]
  exact Query.countP_takes hbelow

/-- The `last` of a declaration and the `last` of an expression. -/
theorem countP_captures_of_last : ∃ d,
    ofSource? (Text.ofString "fun f(last x:int=1)returns()let y=last z tel") = some d ∧
      d.captures.countP (·.span.covers ⟨6, 10⟩) = 0 ∧
      d.captures.countP (·.span.covers ⟨34, 38⟩) = 1 := by
  have hnodes : (ofSource? (Text.ofString "fun f(last x:int=1)returns()let y=last z tel")).map
      (fun d => (d.root.at? [2, 1, 0, 0], d.root.at? [5, 1, 0, 2, 0, 0])) =
      some (some (.branch .varDeclLast [
        .token (.keyword .last) ⟨6, 10⟩,
        .branch .varDeclBase [
          .token (.name (.plain [120])) ⟨11, 12⟩,
          .token (.symbol .colon) ⟨12, 13⟩,
          .branch .litType [.branch .primitiveType [.token (.keyword .int) ⟨13, 16⟩]]],
        .token (.symbol .equal) ⟨16, 17⟩,
        .branch .literal [.token (.number [49]) ⟨17, 18⟩]]),
      some (.branch .unaryOperator [.token (.keyword .last) ⟨34, 38⟩])) := by
    decide +kernel
  obtain ⟨d, hd, hat⟩ := Option.map_eq_some_iff.mp hnodes
  obtain ⟨hdeclaration, hoperator⟩ := Prod.mk.inj hat
  have hdeclared := countP_captures hd (.of_at? hdeclaration) List.mem_cons_self rfl
    (by decide +kernel)
  have happlied := countP_captures hd (.of_at? hoperator) List.mem_cons_self rfl
    (by decide +kernel)
  exact ⟨d, hd, hdeclared, happlied⟩

end Document

end Heptagon
