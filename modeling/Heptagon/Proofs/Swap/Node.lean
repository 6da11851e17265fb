import Heptagon.Proofs.Document.Comments
import Heptagon.Proofs.Document.Operators
import Heptagon.Proofs.Swap.Tree

/-!
# A part of a node in its tree

Where a node is part of another one, its tree is part of the tree of that one,
behind the tokens that the node follows, and another tree can be put in its
place (`Node.Contains.exists_turns`).

An operator stands between two operands, so it can be replaced by replacing the
expression around it (`Tree.Turns.exists_operands`).
-/

namespace Heptagon

namespace Node

variable {n m : Node} {u t : Tree}

/-- What a node other than a comment is part of is no comment. -/
theorem Contains.ne_comment (h : m.Contains n) (hn : n.label ≠ .named .comment) (inside : Bool)
    (s : Span) : m ≠ .comment inside s := by
  rintro rfl
  cases h
  simp [label] at hn

theorem Contains.isExtra_eq_false (h : m.Contains n) (hn : n.label ≠ .named .comment) :
    m.isExtra = false := by
  cases m with
  | comment inside s => exact absurd rfl (h.ne_comment hn inside s)
  | _ => rfl

/-- What a node other than a comment is part of is not one of the comments behind a program. -/
theorem Contains.mem_inner (h : m.Contains n) (hn : n.label ≠ .named .comment) {inner : List Node}
    {cs : List Span} (hm : m ∈ inner ++ cs.map (.comment false)) : m ∈ inner := by
  refine (List.mem_append.mp hm).resolve_right fun hm => ?_
  obtain ⟨s, -, rfl⟩ := List.mem_map.mp hm
  exact h.ne_comment hn false s rfl

/-- Among some tokens, those of the node stand behind `ls`. -/
def Follows (n : Node) (ls : List Leaf) (tokens : List (Leaf × Span)) : Prop :=
  ∃ before after, tokens = before ++ (n.tokens ++ after) ∧ before.map Prod.fst = ls

namespace Follows

variable {ls : List Leaf} {tokens : List (Leaf × Span)}

theorem append_left (h : n.Follows ls tokens) (more : List (Leaf × Span)) :
    n.Follows (more.map Prod.fst ++ ls) (more ++ tokens) := by
  obtain ⟨before, after, rfl, rfl⟩ := h
  exact ⟨more ++ before, after, by simp, by simp⟩

theorem append_right (h : n.Follows ls tokens) (more : List (Leaf × Span)) :
    n.Follows ls (tokens ++ more) := by
  obtain ⟨before, after, rfl, rfl⟩ := h
  exact ⟨before, after ++ more, by simp, rfl⟩

end Follows

/-- A tree in place of that of a part of a node. -/
theorem Contains.exists_turns (h : m.Contains n) (hn : n.label ≠ .named .comment)
    (hu : n.trees = [u]) (v : Tree) : ∀ {t : Tree}, m.trees = [t] →
      ∃ ls t', u.Turns v ls t t' ∧ n.Follows ls m.tokens := by
  induction h with
  | refl n =>
      intro t ht
      obtain rfl : t = u := by simpa [ht] using hu
      exact ⟨[], v, .here, [], [], by simp, rfl⟩
  | @child k children c n hc hcn ih =>
      intro t ht
      obtain ⟨before, after, rfl⟩ := List.append_of_mem hc
      obtain ⟨w, hw, -⟩ := exists_trees_eq (hcn.isExtra_eq_false hn)
      obtain ⟨ls, w', hturns, hfollows⟩ := ih hn hu hw
      obtain rfl : .node k (treesAll before ++ w :: treesAll after) = t := by
        simpa [trees, treesAll, hw] using ht
      refine ⟨_, _, .child (treesAll before) hturns, ?_⟩
      rw [← map_tokensAll]
      simpa [tokens, tokensAll] using
        (hfollows.append_right (tokensAll after)).append_left (tokensAll before)

end Node

/-! ## Programs -/

/-- A tree in place of that of a part of a program. -/
theorem Program.exists_turns {c n : Node} {u : Tree} (hcn : c.Contains n)
    (hn : n.label ≠ .named .comment) (hu : n.trees = [u]) (v : Tree) : (p : Program) →
    ∀ {slots : List Slot} {nodes : List Node}, p.place slots = some nodes → c ∈ nodes →
      ∃ front d back ls ts', p = front ++ d :: back ∧ u.TurnsAll v ls d.trees ts' ∧
        n.Follows (Tree.leavesAll (front.flatMap Definition.trees) ++ ls) (Node.tokensAll nodes)
  | [], slots, nodes, h, hc => by
      obtain rfl := by simpa [place] using h
      simp at hc
  | d :: p, slots, nodes, h, hc => by
      obtain ⟨first, rest, more, hfirst, hmore, rfl⟩ := place_cons_iff.mp h
      obtain ⟨ns, hns, rfl⟩ := Definition.place_iff.mp hfirst
      have htrees := Tree.trees_of_placeAll d.trees hns
      rcases List.mem_append.mp hc with hc | hc
      · have hc : c ∈ ns := (List.mem_append.mp hc).resolve_left fun hc => by
          obtain ⟨span, rfl⟩ := Slot.exists_of_mem_commentsBetween hc
          exact hcn.ne_comment hn false span rfl
        obtain ⟨before, after, rfl⟩ := List.append_of_mem hc
        obtain ⟨t, ht, -⟩ := Node.exists_trees_eq (hcn.isExtra_eq_false hn)
        obtain ⟨ls, t', hturns, hfollows⟩ := hcn.exists_turns hn hu v ht
        refine ⟨[], d, p, _, _, rfl, ⟨Node.treesAll before, t, t', Node.treesAll after, ls, ?_, rfl,
          rfl, hturns⟩, ?_⟩
        · rw [← htrees]
          simp [Node.treesAll, ht]
        · rw [← Node.map_tokensAll]
          simpa [Slot.tokensAll_commentsBetween, Node.tokensAll] using
            (hfollows.append_right (Node.tokensAll after ++ Node.tokensAll more)).append_left
              (Node.tokensAll before)
      · obtain ⟨front, d₀, back, ls, ts', rfl, hts', hfollows⟩ :=
          Program.exists_turns hcn hn hu v p hmore hc
        refine ⟨d :: front, d₀, back, ls, ts', rfl, hts', ?_⟩
        have hleaves : (Node.tokensAll ns).map Prod.fst = Tree.leavesAll d.trees := by
          rw [Node.map_tokensAll, htrees]
        simpa [Slot.tokensAll_commentsBetween, hleaves] using
          hfollows.append_left (Node.tokensAll ns)

/-! ## Operators -/

namespace Rule

/-- Only an operand may have an operator among its children. -/
theorem kind_eq_of_mem_binaryOperator {k : Kind} {ts : List Tree} {t : Tree}
    (h : (Grammar.rule (.node k)).Generates Tree.label ts) (ht : t ∈ ts)
    (hlabel : t.label = .named .binaryOperator) : k = .subExpression := by
  have hhidden : ∀ c, Grammar.labelOf? c = none →
      (Grammar.rule c).mentions (.node .binaryOperator) = false := by
    intro c hc
    cases c with
    | node k => simp [Grammar.labelOf?] at hc
    | _ => decide
  by_contra hne
  refine h.label_ne hhidden ?_ t ht hlabel
  cases k <;> first | decide | exact absurd rfl hne

/-- Only an expression may be an operand. -/
theorem kind_eq_of_mem_subExpression {k : Kind} {ts : List Tree} {t : Tree}
    (h : (Grammar.rule (.node k)).Generates Tree.label ts) (ht : t ∈ ts)
    (hlabel : t.label = .named .subExpression) : k = .expression ∧ ts = [t] := by
  have hhidden : ∀ c, Grammar.labelOf? c = none →
      (Grammar.rule c).mentions (.node .subExpression) = false := by
    intro c hc
    cases c with
    | node k => simp [Grammar.labelOf?] at hc
    | _ => decide
  obtain rfl : k = .expression := by
    by_contra hne
    refine h.label_ne hhidden ?_ t ht hlabel
    cases k <;> first | decide | exact absurd rfl hne
  refine ⟨rfl, ?_⟩
  simp only [Grammar.rule, Rule.choice, Rule.Generates.either_iff, Rule.Generates.node_iff] at h
  rcases h with ⟨x, rfl, -⟩ | ⟨x, rfl, -⟩ <;> rw [List.mem_singleton.mp ht]

end Rule

namespace Tree

variable {P : Tree → Prop} {u u' t t' : Tree} {ls : List Leaf}

/-- An operator can be replaced by replacing it between its operands. -/
theorem Turns.exists_operands (h : u.Turns u' ls t t') (hu : u.label = .named .binaryOperator)
    (ht : t.Derives P) :
    t = u ∧ t' = u' ∧ ls = [] ∨
      (∃ l r, t = .node .subExpression [l, u, r] ∧ t' = .node .subExpression [l, u', r] ∧
        ls = l.leaves) ∨
      ∃ l r ls', ls = ls' ++ l.leaves ∧
        (operand [l, u, r]).Turns (operand [l, u', r]) ls' t t' := by
  induction h with
  | here => exact .inl ⟨rfl, rfl, rfl⟩
  | @child k before after ls t t' h ih =>
      cases ht with
      | node _ _ hrule hchildren =>
          have hmem : t ∈ before ++ t :: after := by simp
          rcases ih (hchildren t hmem) with ⟨rfl, rfl, rfl⟩ | ⟨l, r, rfl, rfl, rfl⟩ |
            ⟨l, r, ls', rfl, hturns⟩
          · obtain rfl := Rule.kind_eq_of_mem_binaryOperator hrule hmem hu
            obtain ⟨l, r, rfl, rfl, -, -⟩ := exists_operands_of_generates hrule hu
            exact .inr (.inl ⟨l, r, rfl, rfl, by simp⟩)
          · obtain ⟨rfl, hparts⟩ := Rule.kind_eq_of_mem_subExpression hrule hmem rfl
            obtain ⟨rfl, rfl⟩ : before = [] ∧ after = [] := by
              cases before <;> simp_all
            exact .inr (.inr ⟨l, r, [], by simp, .here⟩)
          · exact .inr (.inr ⟨l, r, _, by simp, .child before hturns⟩)

end Tree

/-- A tree in place of that of an operator of a program, and the operands with the one in place of
the operands with the other. -/
theorem Program.exists_turns_operands {p : Program} (hfits : p.Fits) {c n : Node} {u : Tree}
    (hcn : c.Contains n) (hlabel : n.label = .named .binaryOperator) (hu : n.trees = [u])
    (hulabel : u.label = n.label) (v : Tree) {slots : List Slot} {nodes : List Node}
    (hplace : p.place slots = some nodes) (hc : c ∈ nodes) :
    ∃ front d back ls ls' l r ts', p = front ++ d :: back ∧ u.TurnsAll v ls d.trees ts' ∧
      (Tree.operand [l, u, r]).TurnsAll (.operand [l, v, r]) ls' d.trees ts' ∧
      n.Follows (Tree.leavesAll (front.flatMap Definition.trees) ++ ls) (Node.tokensAll nodes) := by
  obtain ⟨front, d, back, ls, ts', rfl, hts', hfollows⟩ :=
    Program.exists_turns hcn (by simp [hlabel]) hu v p hplace hc
  refine ⟨front, d, back, ls, ?_⟩
  obtain ⟨before, t, t', after, ls', htrees, rfl, rfl, hturns⟩ := hts'
  have hmem : t ∈ (front ++ d :: back).flatMap Definition.trees := by simp [htrees]
  -- the trees of a definition are no operators and no operands
  have hroot : ∀ k, t.label = .named k → k ≠ .binaryOperator ∧ k ≠ .subExpression := by
    cases Program.derives hfits with
    | node _ _ hrule _ =>
        rintro _ hk
        constructor
        · rintro rfl
          exact absurd (Rule.kind_eq_of_mem_binaryOperator hrule hmem hk) (by decide)
        · rintro rfl
          exact absurd (Rule.kind_eq_of_mem_subExpression hrule hmem hk).1 (by decide)
  have hderives := derives_trees hfits d (by simp) t (by simp [htrees])
  rcases hturns.exists_operands (hulabel.trans hlabel) hderives with ⟨rfl, -, -⟩ |
    ⟨l, r, rfl, -, -⟩ | ⟨l, r, ls'', -, hoperands⟩
  · exact absurd rfl (hroot _ (hulabel.trans hlabel)).1
  · exact absurd rfl (hroot _ rfl).2
  · exact ⟨_, l, r, _, rfl, ⟨before, t, t', after, ls', htrees, rfl, rfl, hturns⟩,
      ⟨before, t, t', after, ls'', htrees, rfl, rfl, hoperands⟩, hfollows⟩

end Heptagon
