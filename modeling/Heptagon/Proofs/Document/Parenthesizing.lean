import Heptagon.Proofs.Document.Geometry
import Heptagon.Proofs.Node.Between
import Heptagon.Proofs.Parenthesizing.Settling
import Heptagon.Proofs.Swap.Program

/-!
# Parentheses around an expression

If an expression of an accepted source is put in parentheses, the new source is
accepted, and the node of the expression becomes an expression that is a pair of
parentheses with the node between them; the rest of the tree stays
(`Document.root_parenthesized`).  The expression must not follow a name directly,
which the parenthesis would call, and the same parentheses must be set apart in
the new source.

1. The program in which the expression is in parentheses can be read from its own
   text (`Program.exists_turned`).
2. That text is what the new source is read as in the end
   (`Layout.reading?_of_wraps`).
3. Laid over the slots of the new source, the program has the nodes of the old
   one but for the expression (`Program.exists_parenthesized`).
-/

namespace Heptagon

/-! ## What is read -/

namespace Layout

variable {source source' : Text} {items items' : List (Placed Item)} {r r' : Program} {s : Span}
  {w : Tree} {hw : w.label = .named .expression} {ls : List Leaf}

/-- A layout whose text sets the same parentheses apart as that of another one, but for two that are
put around an expression, is read as the program with the expression in parentheses. -/
theorem reading?_of_wraps (hscan : scan source = some items) (hscan' : scan source' = some items')
    (hr : (ofItems items).reading? = some r) (hfits : r'.Fits)
    (hunits : Units.Turns (.parens w hw) ls r.units r'.units)
    (hslots : Slot.Wraps s w ls (ofItems items).slots (ofItems items').slots)
    (hlexemes : (ofItems items').lexemes = r'.units.flatten.map Lexeme.shown)
    (hapart : Document.apartStarts source' = (Document.apartStarts source).map s.startAround) :
    (ofItems items').reading? = some r' := by
  obtain ⟨hsettled, hjoined⟩ := settled_and_joined_of_reading? hr (map_shown_lexemes hscan)
  obtain ⟨stop, hstand, -, -⟩ := stand_ofItems (stand_of_scan hscan)
  refine reading?_of_settled ?_ hfits
  rw [Document.settled_eq hscan', hapart, joined_eq hlexemes]
  refine hslots.separateFrom_eq hstand.pairwise hstand.start_lt_stop hunits.joined.wraps
    hunits.lexemes.wraps ?_
  rw [← hjoined, ← Document.settled_eq hscan, hsettled]

end Layout

/-- A node that is no comment starts with its first token. -/
theorem Node.Tight.exists_tokens {n : Node} (h : n.Tight) (hn : ∀ inside s, n ≠ .comment inside s) :
    ∃ l s more, n.tokens = (l, s) :: more ∧ s.start = n.start := by
  induction h with
  | token l s => exact ⟨l, s, [], rfl, rfl⟩
  | comment inside s => exact absurd rfl (hn inside s)
  | @branch k children _ hfirst _ _ ih =>
      obtain ⟨m, hm, hcomment⟩ := hfirst
      obtain ⟨ms, rfl⟩ := List.head?_eq_some_iff.mp hm
      obtain ⟨l, s, more, hmore, hs⟩ := ih m (by simp) (by
        rintro inside s rfl
        simp [isComment] at hcomment)
      exact ⟨l, s, more ++ tokensAll ms, by rw [tokens, tokensAll, hmore]; rfl, hs⟩

namespace Document

variable {source : Text} {d : Document} {n : Node}

/-- The last token before a node.  Comments are no tokens. -/
def tokenBefore? (d : Document) (n : Node) : Option Leaf :=
  (d.tokens.filter (·.2.stop ≤ n.start)).getLast?.map Prod.fst

/-- What is part of a document stands in its source. -/
theorem bounds_of_contains (h : ofSource? source = some d) {c : Node} (hc : c ∈ d.children)
    (hcn : c.Contains n) : n.start < n.stop ∧ n.stop ≤ source.length := by
  obtain ⟨p, hshows⟩ := exists_program h
  have hstands := hshows.stands.stands c hc
  exact ⟨(hcn.stands hstands).start_lt_stop,
    (hcn.stop_le hstands).trans ((hshows.stands.stop_le hc).trans hshows.ends.1)⟩

/-- The token before a node is the last one of those that it follows. -/
theorem tokenBefore?_eq (h : ofSource? source = some d) (hn : d.root.Contains n)
    (hlabel : n.label = .named .expression) {ls : List Leaf} (hfollows : n.Follows ls d.tokens) :
    d.tokenBefore? n = ls.getLast? := by
  obtain ⟨before, after, htokens, rfl⟩ := hfollows
  obtain ⟨c, hc, hcn⟩ := exists_mem_of_contains hn (by simp [hlabel])
  obtain ⟨p, hshows⟩ := exists_program h
  obtain ⟨l, s, more, hmore, hs⟩ := (hcn.tight (tight_children h c hc)).exists_tokens
    fun inside s => (Node.Contains.refl n).ne_comment (by simp [hlabel]) inside s
  have hcut : d.tokens = before ++ (l, s) :: (more ++ after) := by rw [htokens, hmore]; simp
  obtain ⟨hlt, hbefore, hbehind⟩ := bounds_of_tokens h hcut
  have hfront : before.filter (·.2.stop ≤ n.start) = before := by
    refine List.filter_eq_self.mpr fun t ht => ?_
    have hle := hbefore t ht
    simp only [decide_eq_true_eq]
    omega
  have hback : ((l, s) :: (more ++ after)).filter (·.2.stop ≤ n.start) = [] := by
    refine List.filter_eq_nil_iff.mpr fun t ht => ?_
    have hspan := (stands_of_mem_tokens h (l := t.1) (s := t.2)
      (hcut ▸ List.mem_append_right _ ht)).1
    have hge : n.start ≤ t.2.start := by
      rcases List.mem_cons.mp ht with rfl | ht
      · exact hs.ge
      · have hle := hbehind t ht
        omega
    simp only [decide_eq_true_eq]
    omega
  rw [tokenBefore?, hcut, List.filter_append, hfront, hback, List.append_nil, List.getLast?_map]

/-- An expression in parentheses is the same expression in parentheses, if it does not follow a name
and if the other parentheses are set apart as before. -/
theorem root_parenthesized (h : ofSource? source = some d) (hn : d.root.Contains n)
    (hlabel : n.label = .named .expression) (hname : ∀ name, d.tokenBefore? n ≠ some (.name name))
    (hapart : apartStarts (source.parenthesize n.span) =
      (apartStarts source).map n.span.startAround) :
    ∃ d', ofSource? (source.parenthesize n.span) = some d' ∧ n.Parenthesized d.root d'.root ∧
      d'.span = ⟨d.span.start, d.span.stop + 2⟩ := by
  obtain ⟨items, hscan, hnodes, hspan⟩ := ofSource?_eq_some_iff.mp h
  obtain ⟨hwhole, inner, hinner, hchildren⟩ := nodes?_eq_some_iff.mp hnodes
  obtain ⟨stop, hstand, -, -⟩ := Layout.stand_ofItems (stand_of_scan hscan)
  obtain ⟨r, hr, hplace⟩ := (Program.placed?_eq_some_iff_reading? hstand).mp hinner
  have hreads := Layout.reads_of_reading? hr
  -- the program with the expression in parentheses
  have hcomment : n.label ≠ .named .comment := by simp [hlabel]
  obtain ⟨c, hc, hcn⟩ := exists_mem_of_contains hn (by simp [hlabel])
  have hbounds := bounds_of_contains h hc hcn
  have hc := hcn.mem_inner hcomment (hchildren ▸ hc)
  obtain ⟨w, hw, hwlabel⟩ := Node.exists_trees_eq ((Node.Contains.refl n).isExtra_eq_false hcomment)
  obtain ⟨front, d₀, back, ls, ts', slots', rfl, hts', hfollows, hslots, hnew⟩ :=
    Program.exists_parenthesized hcn hcomment hw r hreads.1 hplace hc
  have hls : Leaf.NoCallee ls := by
    have htokens : Node.tokensAll inner = d.tokens := by
      rw [tokens, hchildren, Node.tokensAll_append, Node.tokensAll_map_comment, List.append_nil]
    rw [htokens] at hfollows
    have hlast : Leaf.NoCallee (Tree.leavesAll (front.flatMap Definition.trees) ++ ls) :=
      fun name hlast => hname name ((tokenBefore?_eq h hn hlabel hfollows).trans hlast)
    exact hlast.of_append
  obtain ⟨d₁, hd₁, hfits, hunits⟩ := Program.exists_turned (w := .parens w (hwlabel.trans hlabel))
    front hreads.1 (fun _ => hls) hts'
  obtain ⟨nodes', hnodes', hnodes⟩ := hnew d₁ hd₁
  -- the source with the expression in parentheses
  have htext := hunits.lexemes.map_shown.wraps
  rw [hreads.2, Layout.map_shown_lexemes hscan] at htext
  obtain ⟨items', hscan', hlexemes, hslots', htrailing, hwhole', hhead⟩ :=
    Layout.exists_items_of_wraps hscan hslots htext
  rw [← hslots'] at hslots hnodes'
  obtain ⟨stop', hstand', -, -⟩ := Layout.stand_ofItems (stand_of_scan hscan')
  have hr' := Layout.reading?_of_wraps hscan hscan' hr hfits hunits hslots hlexemes hapart
  have hinner' := (Program.placed?_eq_some_iff_reading? hstand').mpr ⟨_, hr', hnodes'⟩
  refine ⟨⟨_, _⟩, ofSource?_eq_some_iff.mpr ⟨items', hscan', nodes?_eq_some_iff.mpr
    ⟨hwhole' hwhole, nodes', hinner', rfl⟩, rfl⟩, ?_, ?_⟩
  · rw [root, root, htrailing, hchildren]
    have hmoved : ((Layout.ofItems items).trailing.map (.moveBy 2)).map (.comment false) =
        ((Layout.ofItems items).trailing.map (.comment false)).map (Node.moveBy 2) := by
      rw [List.map_map, List.map_map]
      rfl
    rw [hmoved]
    exact .branch (hnodes.append_right _)
  · have hlength : (source.parenthesize n.span).length = source.length + 2 :=
      Text.length_parenthesize hbounds.1.le hbounds.2
    rw [hspan, hlength]
    cases items with
    | nil =>
        obtain ⟨_, _, _, _, hnil, -⟩ := hslots
        simp [Layout.ofItems, Layout.slots] at hnil
    | cons i items => simp [hhead]

/-- An argument in parentheses, in a source in which another parenthesis is set apart. -/
theorem root_parenthesized_of_argument : ∃ d d' n,
    ofSource? (Text.ofString "fun f()returns()let x=f(e,c(y),d(z))tel") = some d ∧
      ofSource? (Text.ofString "fun f()returns()let x=f(e,c((y)),d(z))tel") = some d' ∧
      d.root.Contains n ∧ n.span = ⟨28, 29⟩ ∧ n.Parenthesized d.root d'.root ∧
      d'.span = ⟨d.span.start, d.span.stop + 2⟩ := by
  have hargument : (ofSource? (Text.ofString "fun f()returns()let x=f(e,c(y),d(z))tel")).bind
      (·.root.at? [5, 1, 0, 2, 0, 0, 4, 0, 0, 2]) = some (.branch .expression [
        .branch .subExpression [.token (.name (.plain [121])) ⟨28, 29⟩]]) := by
    decide +kernel
  have hbefore : (ofSource? (Text.ofString "fun f()returns()let x=f(e,c(y),d(z))tel")).map
      (·.tokenBefore? (.branch .expression [.branch .subExpression [
        .token (.name (.plain [121])) ⟨28, 29⟩]])) = some (some (.symbol .parenOpen)) := by
    decide +kernel
  obtain ⟨d, hd, hat⟩ := Option.bind_eq_some_iff.mp hargument
  rw [hd, Option.map_some, Option.some.injEq] at hbefore
  have hsource :
      Text.parenthesize (Text.ofString "fun f()returns()let x=f(e,c(y),d(z))tel") ⟨28, 29⟩ =
        Text.ofString "fun f()returns()let x=f(e,c((y)),d(z))tel" := by
    decide +kernel
  have hspan : ∀ leaf, (Node.branch .expression [.branch .subExpression [
      .token leaf ⟨28, 29⟩]]).span = ⟨28, 29⟩ := fun _ => rfl
  obtain ⟨d', hd', hroot, hspan'⟩ := root_parenthesized hd (.of_at? hat) rfl (by simp [hbefore]) (by
    rw [hspan, hsource]
    decide +kernel)
  rw [hspan, hsource] at hd'
  exact ⟨d, d', _, hd, hd', .of_at? hat, rfl, hroot, hspan'⟩

end Document

end Heptagon
