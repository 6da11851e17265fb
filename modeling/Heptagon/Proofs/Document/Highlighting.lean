import Heptagon.Highlight
import Heptagon.Proofs.Document.Derivation
import Heptagon.Proofs.Document.Merging

/-!
# Highlighting is unambiguous

What the highlighting captures in an accepted source are leaves of its
document, each of them once (`Document.captures_apart`).

Two things about a query make this so (`Query.Unambiguous`).  No label is
captured by two of its patterns below the same kind of node; and a node that it
captures, other than a token or a comment, is of a kind whose rule is a choice
of keywords and symbols that it does not capture.  Both are read off the query
and the grammar.  That such a node has exactly one child needs more than the
grammar: comments may stand wherever the grammar asks for none, but no node
starts or ends with one.
-/

namespace Heptagon

/-! ## Rules for one keyword or symbol -/

/-- The rule is a choice of keywords and symbols. -/
def Rule.isLiteral : Rule → Bool
  | keyword _ | symbol _ => true
  | either a b => a.isLiteral && b.isLiteral
  | _ => false

theorem Rule.Generates.eq_singleton_of_isLiteral {α : Type} {label : α → Label} {r : Rule}
    {xs : List α} (h : r.Generates label xs) (hr : r.isLiteral = true) :
    ∃ x, xs = [x] ∧ ∃ s ∈ r.literals, label x = .literal s := by
  induction r generalizing xs with
  | keyword k =>
      obtain ⟨x, rfl, hx⟩ := keyword_iff.mp h
      exact ⟨x, rfl, k.spelling, by simp [literals], hx⟩
  | symbol s =>
      obtain ⟨x, rfl, hx⟩ := symbol_iff.mp h
      exact ⟨x, rfl, s.spelling, by simp [literals], hx⟩
  | either a b iha ihb =>
      obtain ⟨ha, hb⟩ := by simpa [isLiteral] using hr
      rcases either_iff.mp h with h | h
      · obtain ⟨x, rfl, s, hs, hx⟩ := iha h ha
        exact ⟨x, rfl, s, List.mem_append_left _ hs, hx⟩
      · obtain ⟨x, rfl, s, hs, hx⟩ := ihb h hb
        exact ⟨x, rfl, s, List.mem_append_right _ hs, hx⟩
  | blank | ref | seq | some => simp [isLiteral] at hr

/-! ## Patterns -/

namespace Pattern

/-- The labels of the nodes that a pattern captures. -/
def labels : Pattern → List Label
  | one l | child _ l => [l]
  | anyOf ls => ls

/-- The kind of node right below which a pattern captures nodes, if it asks for one. -/
def parent? : Pattern → Option Kind
  | child k _ => some k
  | _ => none

theorem captures_iff {p : Pattern} {parent : Kind} {l : Label} :
    p.captures parent l = true ↔ l ∈ p.labels ∧ ∀ k ∈ p.parent?, k = parent := by
  cases p with
  | one m => simp [captures, labels, parent?, eq_comm (a := l)]
  | anyOf ms => simp [captures, labels, parent?]
  | child k m => simp [captures, labels, parent?, eq_comm (a := l), and_comm]

/-- No node is captured by both patterns. -/
def Apart (p p' : Pattern) : Prop :=
  ∀ l ∈ p.labels, l ∈ p'.labels → ∃ k ∈ p.parent?, ∃ k' ∈ p'.parent?, k ≠ k'

instance (p p' : Pattern) : Decidable (p.Apart p') :=
  inferInstanceAs (Decidable (∀ l ∈ p.labels, _ → _))

theorem Apart.not_captures {p p' : Pattern} {parent : Kind} {l : Label} (h : p.Apart p')
    (hp : p.captures parent l = true) : ¬ p'.captures parent l = true := by
  intro hp'
  obtain ⟨hl, hparent⟩ := captures_iff.mp hp
  obtain ⟨hl', hparent'⟩ := captures_iff.mp hp'
  obtain ⟨k, hk, k', hk', hne⟩ := h l hl hl'
  exact hne ((hparent k hk).trans (hparent' k' hk').symm)

end Pattern

/-! ## Queries -/

namespace Query

/-- The labels of the nodes that a query captures. -/
def labels (q : Query) : List Label := q.flatMap (·.1.labels)

/-- A query captures no node twice, and no node in a node that it captures. -/
structure Unambiguous (q : Query) : Prop where
  apart : q.Pairwise fun e e' => e.1.Apart e'.1
  /-- a node that is captured is a keyword or symbol that is not -/
  single : ∀ c ∈ Grammar.constructs, ∀ l ∈ Grammar.labelOf? c, l ∈ q.labels →
    (Grammar.rule c).isLiteral = true ∧ ∀ s ∈ (Grammar.rule c).literals, .literal s ∉ q.labels

theorem unambiguous_highlights : Unambiguous highlights :=
  ⟨by decide +kernel, by decide +kernel⟩

variable {q : Query} {source : Text}

theorem at_eq_nil {parent : Kind} {n : Node} (h : n.label ∉ q.labels) : at_ q parent n = [] := by
  refine List.map_eq_nil_iff.mpr (List.filter_eq_nil_iff.mpr fun e he hcaptures => h ?_)
  exact List.mem_flatMap.mpr ⟨e, he, (Pattern.captures_iff.mp hcaptures).1⟩

/-- A node is captured at most once. -/
theorem Unambiguous.map_span_at (hq : q.Unambiguous) (parent : Kind) (n : Node) :
    ((at_ q parent n).map Capture.span).Sublist [n.span] := by
  have hapart := hq.apart.filter fun e => e.1.captures parent n.label
  have hall : ∀ e ∈ q.filter fun e => e.1.captures parent n.label,
      e.1.captures parent n.label = true := fun e he => (List.mem_filter.mp he).2
  have hat : at_ q parent n = (q.filter fun e => e.1.captures parent n.label).map fun e =>
      ⟨e.2, n.span⟩ := rfl
  rw [hat]
  generalize (q.filter fun e => e.1.captures parent n.label) = es at hapart hall
  obtain _ | ⟨e, _ | ⟨e', _⟩⟩ := es
  · exact List.nil_sublist _
  · exact List.Sublist.refl _
  · have hfirst := List.rel_of_pairwise_cons hapart List.mem_cons_self
    exact absurd (hall e' (by simp)) (hfirst.not_captures (hall e (by simp)))

end Query

/-- A node that is a choice of keywords and symbols has one token and nothing else. -/
theorem Node.Derives.eq_token_of_isLiteral {source : Text} {k : Kind} {children : List Node}
    (h : (Node.branch k children).Derives source) (htight : (Node.branch k children).Tight)
    (hk : (Grammar.rule (.node k)).isLiteral = true) :
    ∃ (l : Leaf) (s : Span), children = [Node.token l s] ∧ ∃ t ∈ (Grammar.rule (.node k)).literals,
      l.label = .literal t := by
  cases h with
  | branch _ hrule _ =>
  cases htight with
  | branch _ hfirst hlast _ =>
  have hkept : ∀ n : Node, n.isComment = false → (!n.isExtra) = true := fun n hn => by
    cases n <;> simp_all [isExtra, isComment]
  obtain ⟨x, hx, t, ht, hlabel⟩ := hrule.eq_singleton_of_isLiteral hk
  obtain ⟨n, hn, hcomment⟩ := hfirst
  obtain ⟨m, hm, hcomment'⟩ := hlast
  obtain ⟨ns, rfl⟩ := List.head?_eq_some_iff.mp hn
  rw [List.filter_cons, if_pos (hkept n hcomment)] at hx
  obtain ⟨rfl, hrest⟩ := List.cons.inj hx
  -- the last child is no comment either, so that it is the first one
  obtain rfl : ns = [] := by
    by_contra hne
    have hmem : m ∈ ns := by
      rw [List.getLast?_cons_of_ne_nil hne] at hm
      exact List.mem_of_mem_getLast? hm
    exact List.not_mem_nil (hrest ▸ List.mem_filter.mpr ⟨hmem, hkept m hcomment'⟩)
  cases n with
  | token l s => exact ⟨l, s, rfl, t, ht, hlabel⟩
  | comment => cases hlabel
  | branch => cases hlabel

namespace Query

variable {q : Query} {source : Text}

mutual

theorem Unambiguous.map_span_within (hq : q.Unambiguous) : (n : Node) → n.Derives source →
    n.Tight → ∀ parent, ((within q parent n).map Capture.span).Sublist n.leafSpans
  | .token _ _, _, _, parent => hq.map_span_at parent _
  | .comment _ _, _, _, parent => hq.map_span_at parent _
  | .branch k ns, hderives, htight, parent => by
      rw [within, List.map_append, Node.leafSpans_branch]
      cases hderives with
      | branch hk hrule hchildren =>
      cases htight with
      | branch hne hfirst hlast htights =>
      by_cases hlabel : .named k ∈ q.labels
      · obtain ⟨hliteral, hfree⟩ := hq.single (.node k) hk (.named k) rfl hlabel
        obtain ⟨l, s, rfl, t, ht, hl⟩ := (Node.Derives.branch hk hrule hchildren).eq_token_of_isLiteral
          (.branch hne hfirst hlast htights) hliteral
        have hnone : withinAll q k [.token l s] = [] := by
          have hfree : (Node.token l s).label ∉ q.labels := by
            rw [Node.label, hl]
            exact hfree t ht
          simp only [withinAll, within, at_eq_nil hfree, List.append_nil]
        rw [hnone, List.map_nil, List.append_nil]
        exact hq.map_span_at parent _
      · rw [at_eq_nil (n := .branch k ns) hlabel, List.map_nil, List.nil_append]
        exact map_span_withinAll hq ns hchildren htights k

/-- The captures below a node are leaves, in the order of these. -/
theorem Unambiguous.map_span_withinAll (hq : q.Unambiguous) : (ns : List Node) →
    (∀ n ∈ ns, n.Derives source) → (∀ n ∈ ns, n.Tight) → ∀ parent,
    ((withinAll q parent ns).map Capture.span).Sublist (Node.leafSpansAll ns)
  | [], _, _, _ => List.Sublist.refl _
  | n :: ns, hderives, htight, parent => by
      rw [withinAll, List.map_append, Node.leafSpansAll_cons]
      obtain ⟨hn, hns⟩ := List.forall_mem_cons.mp hderives
      obtain ⟨hn', hns'⟩ := List.forall_mem_cons.mp htight
      exact (map_span_within hq n hn hn' parent).append (map_span_withinAll hq ns hns hns' parent)

end

end Query

/-! ## Documents -/

theorem Capture.le_of_lt {a b : Capture} (h : a.span.start < b.span.start) : a.le b = true := by
  simp [le, h]

/-- Captures of leaves follow each other. -/
theorem Text.Cut.pairwise_of_sublist {source : Text} {leaves : List Row} {captures : List Capture}
    (h : source.Cut leaves)
    (hsub : (captures.map Capture.span).Sublist (leaves.map (·.span))) :
    captures.Pairwise fun c c' => c.span.stop ≤ c'.span.start := by
  have hordered : (leaves.map (·.span)).Pairwise fun s s' : Span => s.stop ≤ s'.start :=
    List.pairwise_map.mpr h.ordered
  exact List.pairwise_map.mp (hordered.sublist hsub)

namespace Document

variable {source : Text} {d : Document}

/-- The spans of the captures are some of the leaves. -/
theorem map_span_within (h : ofSource? source = some d) :
    ((Query.withinAll .highlights .sourceFile d.children).map Capture.span).Sublist
      (d.leafRows.map (·.span)) := by
  obtain ⟨p, hshows⟩ := exists_program h
  rw [map_span_leafRows h]
  cases hshows.derives with
  | branch _ _ hchildren =>
      exact Query.unambiguous_highlights.map_span_withinAll _ hchildren (tight_children h) _

/-- The captures are listed in the order of the tree. -/
theorem captures_eq (h : ofSource? source = some d) :
    d.captures = Query.withinAll .highlights .sourceFile d.children := by
  have hcut := cut_of_ofSource? h
  have hordered := hcut.pairwise_of_sublist (map_span_within h)
  refine List.mergeSort_of_pairwise (hordered.imp_of_mem ?_)
  intro a b ha _ hle
  obtain ⟨r, hr, hspan⟩ := List.mem_map.mp ((map_span_within h).subset (List.mem_map_of_mem ha))
  exact Capture.le_of_lt (Nat.lt_of_lt_of_le (hspan ▸ (hcut.nonempty r hr).1) hle)

/-- What the highlighting captures in an accepted source are tokens and comments, none of them
empty or captured twice. -/
theorem captures_apart (h : ofSource? source = some d) :
    (d.captures.Pairwise fun c c' => c.span.stop ≤ c'.span.start) ∧ d.captures.Nodup ∧
    ∀ c ∈ d.captures, c.span.start < c.span.stop ∧
      (c.span ∈ d.comments ∨ ∃ l, (l, c.span) ∈ d.tokens ∧ source.slice c.span = l.text) := by
  have hcut := cut_of_ofSource? h
  have hspans := map_span_within h
  rw [← captures_eq h] at hspans
  have hordered := hcut.pairwise_of_sublist hspans
  have hleaf : ∀ c ∈ d.captures, ∃ r ∈ d.leafRows, r.span = c.span := fun c hc =>
    List.mem_map.mp (hspans.subset (List.mem_map_of_mem hc))
  have hnonempty : ∀ c ∈ d.captures, c.span.start < c.span.stop := by
    intro c hc
    obtain ⟨r, hr, hspan⟩ := hleaf c hc
    exact hspan ▸ (hcut.nonempty r hr).1
  refine ⟨hordered, hordered.imp_of_mem ?_, fun c hc => ⟨hnonempty c hc, ?_⟩⟩
  · rintro c _ hc - hle rfl
    exact absurd (hnonempty c hc) (Nat.not_lt.mpr hle)
  · obtain ⟨r, hr, hspan⟩ := hleaf c hc
    rw [← hspan]
    exact (comment_or_token h hr).imp And.right fun ⟨l, _, hl⟩ => ⟨l, hl⟩

/-- The captures from an equation on, with a call and a comment before an operator. -/
theorem captures_apart_of_equation : ∃ d,
    ofSource? (Text.ofString "fun f()returns()let x = g(y) (*c*) + true tel") = some d ∧
      (d.captures.Pairwise fun c c' => c.span.stop ≤ c'.span.start) ∧
      (d.captures.drop 7).map Capture.name = ["variable", "function.call", "punctuation.bracket",
        "punctuation.bracket", "comment", "operator", "boolean", "keyword"] := by
  have haccepts : accepts (Text.ofString "fun f()returns()let x = g(y) (*c*) + true tel") = true := by
    decide +kernel
  obtain ⟨d, hd⟩ := Option.isSome_iff_exists.mp haccepts
  have hnames : (ofSource? (Text.ofString "fun f()returns()let x = g(y) (*c*) + true tel")).map
      (fun d => (Query.withinAll .highlights .sourceFile d.children).map Capture.name) =
      some ["keyword", "punctuation.bracket", "punctuation.bracket", "keyword",
        "punctuation.bracket", "punctuation.bracket", "keyword", "variable", "function.call",
        "punctuation.bracket", "punctuation.bracket", "comment", "operator", "boolean", "keyword"] := by
    decide +kernel
  rw [hd, Option.map_some, Option.some.injEq] at hnames
  refine ⟨d, hd, (captures_apart hd).1, ?_⟩
  rw [captures_eq hd, List.map_drop, hnames]
  rfl

end Document

end Heptagon
