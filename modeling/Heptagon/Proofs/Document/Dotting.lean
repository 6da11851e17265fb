import Heptagon.Proofs.Document.Replacing
import Heptagon.Proofs.Grammar.Meaning
import Heptagon.Proofs.Layout.Dotting
import Heptagon.Proofs.Node.Between
import Heptagon.Proofs.Swap.Node
import Heptagon.Proofs.Swap.Operator
import Heptagon.Proofs.Swap.Program

/-!
# A point behind an operator

If a point is put behind an operator that the language also has with a point,
the source is accepted still, and its rows are the old ones but for the spelling
of the operator and the places behind it (`Document.rows_dotted`).

Every reader takes the operator with the point as it takes the one without, if
the operator is no equality sign.  An equality sign can also belong to an
equation, so it is another operator for the readers when it has a point
(`Document.Exchange.rows_of_operator`): which parentheses are set apart may then
change, and they must be the same ones.
-/

namespace Heptagon

/-! ## The node of an operator -/

namespace Node

variable {n m : Node} {source : Text} {k : Kind} {children : List Node} {t : Tree}

/-- A node with one part has no other child, because no comment is the first or the last one. -/
theorem Tight.exists_eq_singleton (h : (Node.branch k children).Tight)
    (ht : treesAll children = [t]) : ∃ m, children = [m] ∧ m.trees = [t] := by
  cases h with
  | branch _ hfirst hlast _ =>
      obtain ⟨m, hm, hcomment⟩ := hfirst
      obtain ⟨ms, rfl⟩ := List.head?_eq_some_iff.mp hm
      have hextra : ∀ {n : Node}, n.isComment = false → n.isExtra = false := fun {n} hn => by
        cases n <;> simp_all [isComment, isExtra]
      obtain ⟨u, hu, -⟩ := exists_trees_eq (hextra hcomment)
      rw [treesAll, hu, List.singleton_append, List.cons.injEq] at ht
      obtain ⟨rfl, hrest⟩ := ht
      rcases List.eq_nil_or_concat ms with rfl | ⟨init, last, rfl⟩
      · exact ⟨m, rfl, hu⟩
      · obtain ⟨v, hv, hcomment⟩ := hlast
        obtain rfl : last = v := by
          rw [List.concat_eq_append, ← List.cons_append, List.getLast?_concat] at hv
          exact Option.some.inj hv
        obtain ⟨w, hw, -⟩ := exists_trees_eq (hextra hcomment)
        simp [treesAll, hw] at hrest

/-- The node of an operator has one token. -/
theorem exists_operator {P : Tree → Prop} (htight : n.Tight)
    (hderives : ∀ t ∈ n.trees, t.Derives P) (hlabel : n.label = .named .binaryOperator) :
    ∃ op : BinaryOp, n = .branch .binaryOperator [.token op.leaf n.span] := by
  cases n with
  | token l s => cases l <;> simp [label, Leaf.label] at hlabel
  | comment inside s => simp [label] at hlabel
  | branch k children =>
      obtain rfl : k = .binaryOperator := by simpa [label] using hlabel
      cases hderives (.node .binaryOperator (treesAll children)) (by simp [trees]) with
      | node _ _ hrule _ =>
          obtain ⟨op, hop⟩ := hrule.exists_binaryOp
          obtain ⟨m, rfl, hm⟩ := htight.exists_eq_singleton hop
          cases m with
          | token l s =>
              obtain rfl : l = op.leaf := by simpa [trees] using hm
              exact ⟨op, rfl⟩
          | comment inside s => cases inside <;> simp [trees] at hm
          | branch k children => simp [trees] at hm

end Node

/-! ## Operators in place of others -/

namespace Document.Exchange

variable {source : Text} {d : Document} {front back : List (Leaf × Span)} {span : Span}
  {l l' : Leaf} {label : Span → Label → Label} {y y' : Lexeme}
  (x : Exchange source d front back span l l')

/-- The layout with the one lexeme of the token in its place. -/
theorem written_layout (hl : l.lexemes = [y]) : ∃ s : Slot, s.span.start = span.start ∧
    x.layout.written = (Layout.ofItems x.before).written ++ (y, s) ::
      (Layout.ofItems x.after).written := by
  refine ⟨⟨(Layout.ofItems x.before).trailing, ⟨span.start, span.start + y.text.length⟩⟩, rfl, ?_⟩
  rw [x.layout_eq, Layout.ofItems_append_items x.before _ l.lexemes_ne_nil, hl]
  rfl

theorem written_new (hl' : l'.lexemes = [y']) : ∃ s : Slot, s.span.start = span.start ∧
    x.new.written = (Layout.ofItems x.before).written ++ (y', s) ::
      ((Layout.ofItems x.after).mapSpans
        (.carry (Text.moved span l'.text) (Text.moved span l'.text))).written := by
  refine ⟨⟨(Layout.ofItems x.before).trailing, ⟨span.start, span.start + y'.text.length⟩⟩, rfl, ?_⟩
  rw [new, Layout.ofItems_respelled, hl']
  rfl

/-- Lexemes start in the new source where those of the old one are moved. -/
theorem forall₂_start (hl : l.lexemes = [y]) (hl' : l'.lexemes = [y']) :
    List.Forall₂ (fun s s' => s'.span.start = Text.moved span l'.text s.span.start)
      x.layout.slots x.new.slots := by
  obtain ⟨s, hs, hold⟩ := x.written_layout hl
  obtain ⟨s', hs', hnew⟩ := x.written_new hl'
  have hmoved : ∀ L : Layout, List.Forall₂
      (fun s s' => s'.span.start = Text.moved span l'.text s.span.start) L.slots
      (L.mapSpans (.carry (Text.moved span l'.text) (Text.moved span l'.text))).slots := fun L => by
    rw [Layout.slots_mapSpans, List.forall₂_map_right_iff]
    exact List.forall₂_same.mpr fun _ _ => rfl
  have hbefore := hmoved (.ofItems x.before)
  rw [Layout.mapSpans_before x.map_before] at hbefore
  rw [Layout.slots, Layout.slots, hold, hnew, List.map_append, List.map_append, List.map_cons,
    List.map_cons]
  refine List.rel_append hbefore (.cons ?_ (hmoved _))
  rw [hs, hs', Text.moved_of_lt x.lt]

theorem whole_new (hl : l.lexemes = [y]) (hl' : l'.lexemes = [y'])
    (hy : (∀ t, y ≠ .capital t) ∧ y ≠ .symbol .bar)
    (hy' : (∀ t, y' ≠ .capital t) ∧ y' ≠ .symbol .bar) :
    Layout.enumerationsWhole x.new.written = true := by
  obtain ⟨s, -, hold⟩ := x.written_layout hl
  obtain ⟨s', -, hnew⟩ := x.written_new hl'
  have hwhole := Layout.enumerationsWhole_iff.mp x.whole
  rw [hold, Layout.isChain_whole_iff hy.1 hy.2] at hwhole
  rw [Layout.enumerationsWhole_iff, hnew, Layout.isChain_whole_iff hy'.1 hy'.2]
  refine ⟨hwhole.1, Layout.enumerationsWhole_iff.mp ?_⟩
  rw [Layout.enumerationsWhole_mapSpans, Layout.enumerationsWhole_iff]
  exact hwhole.2

end Document.Exchange

namespace BinaryOp

variable (op : BinaryOp)

/-- A token that is spelled like a symbol is that symbol. -/
theorem leaf_eq_symbol {s : Symbol} (h : op.leaf.text = s.text) : op.leaf = .symbol s := by
  have hkeyword : ∀ k ∈ Keyword.all, ∀ s ∈ Symbol.all, k.text ≠ s.text := by decide +kernel
  have hne : ∀ k : Keyword, k.text ≠ s.text := fun k => hkeyword k k.mem_all s s.mem_all
  cases op <;> first | exact congrArg Leaf.symbol (Symbol.text_inj h) | exact absurd h (hne _)

theorem lexeme_ne : (∀ t, op.lexeme ≠ .capital t) ∧ op.lexeme ≠ .symbol .bar := by
  cases op <;> simp [lexeme]

end BinaryOp

namespace Document

variable {source : Text} {d : Document} {front back : List (Leaf × Span)} {span : Span}
  {label : Span → Label → Label}

/-- An operator that is no equality sign in place of another one, if the same parentheses are set
apart. -/
theorem Exchange.rows_of_operator (op op' : BinaryOp)
    (x : Exchange source d front back span op.leaf op'.leaf) (label : Span → Label → Label)
    (h : ofSource? source = some d)
    (hn : d.root.Contains (.branch .binaryOperator [.token op.leaf span])) (hne : op' ≠ .equal)
    (hlength : op.leaf.text.length ≤ op'.leaf.text.length)
    (hapart : apartStarts (source.replace span op'.leaf.text) =
      (apartStarts source).map (Text.moved span op'.leaf.text))
    (hother : ∀ token ∈ front ++ back, token.2 ≠ span)
    (hlabel : op'.leaf.label = label span op.leaf.label)
    (hlabels : ∀ token ∈ front ++ back, label token.2 token.1.label = token.1.label)
    (hnamed : ∀ s k, label s (.named k) = .named k) :
    ∃ d', ofSource? (source.replace span op'.leaf.text) = some d' ∧ d'.rows = d.rows.map fun r =>
      (r.relabel label).carry (Text.moved span op'.leaf.text) (Text.moved span op'.leaf.text) := by
  have hreads := Layout.reads_of_reading? x.reading
  obtain ⟨c, hc, hcn⟩ := exists_mem_of_contains hn (by simp [Node.label])
  have hc := hcn.mem_inner (by simp [Node.label]) (x.children ▸ hc)
  -- the program with the other operator
  obtain ⟨first, d₀, last, ls, ls', l, r, ts', hprogram, hturns, hoperands, hfollows⟩ :=
    Program.exists_turns_operands hreads.1 hcn rfl (u := .node .binaryOperator [.leaf op.leaf])
      rfl rfl (.node .binaryOperator [.leaf op'.leaf]) x.place hc
  obtain ⟨d₁, hd₁, hfits, hunits⟩ := Program.exists_turned (w := .operator l op r hne) first
    (hprogram ▸ hreads.1) (by simp [Swap.Allows, Swap.operator]) hoperands
  -- it has the nodes of the program and the tokens of the new source
  have hrel : x.program.TreesRel (fun _ _ => True) (first ++ d₁ :: last) := by
    have : Std.Refl fun _ _ : Leaf => True := ⟨fun _ => trivial⟩
    rw [hprogram]
    exact List.rel_append (Program.TreesRel.refl first)
      (.cons (hd₁ ▸ hturns.rel (.node (.cons (.leaf trivial) .nil))) (Program.TreesRel.refl last))
  have hleaves : Program.leaves (first ++ d₁ :: last) =
      front.map Prod.fst ++ op'.leaf :: back.map Prod.fst := by
    obtain ⟨before, after, htokens, hbefore⟩ := hfollows
    rw [x.tokensAll_inner] at htokens
    obtain ⟨hfront, hback⟩ := List.forall_mem_append.mp hother
    obtain ⟨rfl, -, -⟩ := (List.append_cons_inj_of_notMem (fun hmem => hfront _ hmem rfl)
      fun hmem => hback _ hmem rfl).mp htokens
    obtain ⟨more, hold, hnew⟩ := hturns.exists_leaves
    have hsame := x.leaves
    rw [hprogram, hbefore] at hsame
    rw [hbefore]
    simp only [Program.leaves, List.flatMap_append, List.flatMap_cons, Tree.leavesAll_append, hold,
      hd₁, hnew, Tree.leaves, Tree.leavesAll, List.append_assoc, List.append_cancel_left_eq]
      at hsame ⊢
    simpa using hsame
  have hlexemes :
      x.new.lexemes = (Program.units (first ++ d₁ :: last)).flatten.map Lexeme.shown := by
    rw [x.lexemes_new, ← hleaves, List.flatMap_def, Program.map_lexemes_leaves, Units.flatten_shown]
  have hreading : x.new.reading? = some (first ++ d₁ :: last) := by
    refine Layout.reading?_of_operator x.scan_old x.scan_new (x.layout_eq ▸ x.reading) hfits
      (hprogram ▸ hunits) hlexemes ?_ (Text.moved_injective ?_) hapart
    · exact x.layout_eq ▸ x.forall₂_start op.lexemes_leaf op'.lexemes_leaf
    · rw [x.stop_eq]
      omega
  exact x.rows label h hreading hrel hleaves
    (x.whole_new op.lexemes_leaf op'.lexemes_leaf op.lexeme_ne op'.lexeme_ne) hlabel hlabels hnamed

end Document

/-! ## Points -/

theorem Symbol.undotted_of_dotted? {s s' : Symbol} (h : s.dotted? = some s') (hne : s ≠ .equal) :
    s'.undotted = s.undotted := by
  cases s <;> simp only [dotted?, Option.some.injEq, reduceCtorEq] at h <;>
    first | exact absurd rfl hne | (subst h; rfl)

/-- The label with another spelling for the token at a span. -/
def Label.spelledAt (span : Span) (spelling : String) (s : Span) : Label → Label
  | named k => .named k
  | literal t => .literal (if s = span then spelling else t)

namespace Document

variable {source : Text} {d : Document} {n : Node} {s s' : Symbol}

/-- A point behind an operator leaves the document as it is, but for the spelling of the operator
and the places behind it.  If the operator is an equality sign, the same parentheses must be set
apart. -/
theorem rows_dotted (h : ofSource? source = some d) (hn : d.root.Contains n)
    (hlabel : n.label = .named .binaryOperator) (hs : source.slice n.span = s.text)
    (hdot : s.dotted? = some s')
    (hapart : s = .equal → apartStarts (source.replace n.span s'.text) =
      (apartStarts source).map (Text.moved n.span s'.text)) :
    ∃ d', ofSource? (source.replace n.span s'.text) = some d' ∧ d'.rows = d.rows.map fun r =>
      (r.relabel (.spelledAt n.span s'.spelling)).carry
        (Text.moved n.span s'.text) (Text.moved n.span s'.text) := by
  -- the operator is a token of the source
  obtain ⟨p, hshows⟩ := exists_program h
  obtain ⟨hstands, hderives⟩ := hshows.part hn (by simp [hlabel]) (by simp [hlabel])
  obtain ⟨c, hc, hcn⟩ := exists_mem_of_contains hn (by simp [hlabel])
  obtain ⟨op, hop⟩ :=
    Node.exists_operator (hcn.tight (tight_children h c hc)) hderives hlabel
  rw [hop] at hstands
  have hsymbol : op.leaf = .symbol s :=
    op.leaf_eq_symbol ((hstands.2.stands _ List.mem_cons_self).2.1.symm.trans hs)
  rw [hsymbol] at hop
  have hmem : (.symbol s, n.span) ∈ d.tokens := hn.tokens_subset (by
    rw [hop]
    exact List.mem_cons_self)
  obtain ⟨front, back, htokens⟩ := List.append_of_mem hmem
  obtain ⟨x⟩ : Nonempty (Exchange source d front back n.span (.symbol s) (.symbol s')) :=
    exists_exchange h htokens fun hstop hscan => scan_dotted hscan hstop hdot
  have hother := span_ne_of_tokens h htokens
  have hspelled : (Leaf.symbol s').label =
      Label.spelledAt n.span s'.spelling n.span (Leaf.symbol s).label := by
    simp [Leaf.label, Label.spelledAt]
  have hlabels : ∀ token ∈ front ++ back,
      Label.spelledAt n.span s'.spelling token.2 token.1.label = token.1.label := by
    intro token htoken
    cases hl : token.1.label <;> simp [Label.spelledAt, hother token htoken]
  by_cases hequal : s = .equal
  · subst hequal
    obtain rfl : Symbol.equalDot = s' := Option.some.inj hdot
    exact Exchange.rows_of_operator .equal .equalDot x _ h (hop ▸ hn) (by decide) (by decide)
      (hapart rfl) hother hspelled hlabels fun _ _ => rfl
  · exact x.rows_of_alike _ h (.symbol (Symbol.undotted_of_dotted? hdot hequal)) hspelled hlabels
      fun _ _ => rfl

/-- An equality sign with a point, in a source in which a parenthesis is set apart. -/
theorem rows_dotted_of_equal : ∃ d d',
    ofSource? (Text.ofString "fun f()returns()let x=f(e,c(y),d(z))=a tel") = some d ∧
      ofSource? (Text.ofString "fun f()returns()let x=f(e,c(y),d(z))=.a tel") = some d' ∧
      ∃ f, d'.rows = d.rows.map (fun r =>
        (r.relabel (.spelledAt ⟨36, 37⟩ "=.")).carry f f) ∧ f 36 = 36 ∧ f 37 = 38 := by
  have hoperator :
      (ofSource? (Text.ofString "fun f()returns()let x=f(e,c(y),d(z))=a tel")).bind
        (·.root.at? [5, 1, 0, 2, 0, 1]) =
      some (.branch .binaryOperator [.token (.symbol .equal) ⟨36, 37⟩]) := by
    decide +kernel
  obtain ⟨d, hd, hat⟩ := Option.bind_eq_some_iff.mp hoperator
  have hsource : Text.replace (Text.ofString "fun f()returns()let x=f(e,c(y),d(z))=a tel") ⟨36, 37⟩
      Symbol.equalDot.text = Text.ofString "fun f()returns()let x=f(e,c(y),d(z))=.a tel" := by
    decide +kernel
  have hspan : (Node.branch .binaryOperator [.token (.symbol .equal) ⟨36, 37⟩]).span = ⟨36, 37⟩ :=
    rfl
  have hslice : Text.slice (Text.ofString "fun f()returns()let x=f(e,c(y),d(z))=a tel") ⟨36, 37⟩ =
      Symbol.equal.text := by
    decide +kernel
  obtain ⟨d', hd', hrows⟩ := rows_dotted hd (.of_at? hat) rfl (hspan ▸ hslice) rfl (by
    rw [hspan]
    show _ → apartStarts (Text.replace _ _ Symbol.equalDot.text) = _
    rw [hsource]
    decide +kernel)
  rw [hspan] at hd' hrows
  rw [hsource] at hd'
  exact ⟨d, d', hd, hd', _, hrows, by decide +kernel, by decide +kernel⟩

end Document

end Heptagon
