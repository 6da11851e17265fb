import Heptagon.Proofs.Document.Reading

/-!
# The structure of operators

In the tree of every accepted source all binary operators group to the left, a
sign binds tighter than any of them, and a conditional reaches as far to the
right as it can (`Document.operators_grouped`).  So every chain of operators is
the left fold of its operands (`Tree.exists_chain`).

The reader leaves normal expressions only, which `Tree.Groups` says of their
trees.  What remains is to see it in the nodes: comments may stand between the
parts of an operand, and that an operand ends in a conditional is seen there
from where the conditional stops.  Since the nodes of a row follow each other
and none is empty, only what stands at the very end of a node stops where the
node does (`Node.Contains.endsIn`).
-/

namespace Heptagon

namespace Node

/-- The node is part of another one, or that one itself. -/
inductive Contains : Node → Node → Prop
  | refl (n : Node) : Contains n n
  | child {k : Kind} {children : List Node} {n m : Node} (hn : n ∈ children) (h : Contains n m) :
      Contains (branch k children) m

/-- The children of a node where the grammar looks. -/
def parts : Node → List Node
  | branch _ children => children.filter (!·.isExtra)
  | _ => []

/-- The node is an expression made of two with an operator between. -/
def IsBinary (n : Node) : Prop :=
  n.label = .named .expression ∧ ∃ s l op r, n.parts = [s] ∧ s.label = .named .subExpression ∧
    s.parts = [l, op, r] ∧ op.label = .named .binaryOperator

/-- A part of the node stops where the node does and is of a kind. -/
def EndsIn (k : Kind) (n : Node) : Prop :=
  ∃ m, n.Contains m ∧ m.label = .named k ∧ m.stop = n.stop

/-- The operands of an operator or a sign are grouped. -/
structure Grouped (s : Node) : Prop where
  binary : ∀ l op r, s.parts = [l, op, r] → op.label = .named .binaryOperator →
    ¬ r.IsBinary ∧ ¬ l.EndsIn .ifthenelse
  unary : ∀ op e, s.parts = [op, e] → op.label = .named .unaryOperator → ¬ e.IsBinary

/-! ## Nodes and their trees -/

variable {source : Text} {n m : Node}

theorem Contains.stands (h : n.Contains m) (hn : n.Stands source) : m.Stands source := by
  induction h with
  | refl => exact hn
  | child hc _ ih => exact ih (hn.2.stands _ hc)

theorem Contains.derives {P : Tree → Prop} (h : n.Contains m)
    (hn : ∀ t ∈ n.trees, t.Derives P) : ∀ t ∈ m.trees, t.Derives P := by
  induction h with
  | refl => exact hn
  | child hc _ ih =>
      refine ih fun t ht => ?_
      have hnode := hn _ (List.mem_singleton.mpr rfl)
      cases hnode with
      | node _ _ _ hchildren => exact hchildren t (trees_subset_of_mem hc ht)

/-- Where the grammar looks, a node has one tree. -/
theorem exists_trees_eq (h : n.isExtra = false) : ∃ t, n.trees = [t] ∧ t.label = n.label := by
  cases n with
  | comment inside s =>
      obtain rfl : inside = false := h
      exact ⟨_, rfl, rfl⟩
  | _ => exact ⟨_, rfl, rfl⟩

/-- The trees of a row are those of its parts. -/
theorem treesAll_filter (ns : List Node) : treesAll (ns.filter (!·.isExtra)) = treesAll ns := by
  induction ns with
  | nil => rfl
  | cons n ns ih =>
      cases n with
      | comment inside s => cases inside <;> simpa [isExtra, treesAll, trees] using ih
      | _ => simpa [isExtra, treesAll, trees] using ih

/-- Only a branch has parts. -/
theorem exists_eq_branch {k : Kind} (hlabel : n.label = .named k) (hparts : n.parts ≠ []) :
    ∃ children, n = .branch k children := by
  cases n with
  | branch k' children => exact ⟨children, by rw [Label.named.inj hlabel]⟩
  | _ => simp [parts] at hparts

/-- The parts of a node are the children of its tree. -/
theorem exists_trees_eq_node {k : Kind} (hlabel : n.label = .named k) (hparts : n.parts ≠ []) :
    n.trees = [.node k (treesAll n.parts)] := by
  obtain ⟨children, rfl⟩ := exists_eq_branch hlabel hparts
  simp [trees, parts, treesAll_filter]

theorem isExtra_of_mem_parts (h : m ∈ n.parts) : m.isExtra = false := by
  cases n with
  | branch k children => simpa using (List.mem_filter.mp h).2
  | _ => simp [parts] at h

theorem contains_of_mem_parts (h : m ∈ n.parts) : n.Contains m := by
  cases n with
  | branch k children => exact .child (List.mem_filter.mp h).1 (.refl m)
  | _ => simp [parts] at h

/-- The parts of an operand, seen in its tree. -/
theorem trees_eq_of_parts {k : Kind} {x y z : Node} (hlabel : n.label = .named k)
    (hparts : n.parts = [x, y, z]) :
    ∃ t u v, x.trees = [t] ∧ y.trees = [u] ∧ z.trees = [v] ∧ u.label = y.label ∧
      n.trees = [.node k [t, u, v]] := by
  have hpart : ∀ m ∈ [x, y, z], ∃ t, m.trees = [t] ∧ t.label = m.label := fun m hm =>
    exists_trees_eq (isExtra_of_mem_parts (n := n) (hparts ▸ hm))
  obtain ⟨t, ht, -⟩ := hpart x (by simp)
  obtain ⟨u, hu, hlabel'⟩ := hpart y (by simp)
  obtain ⟨v, hv, -⟩ := hpart z (by simp)
  refine ⟨t, u, v, ht, hu, hv, hlabel', ?_⟩
  rw [exists_trees_eq_node hlabel (by simp [hparts]), hparts]
  simp [treesAll, ht, hu, hv]

theorem IsBinary.isBinary_tree {t : Tree} (h : n.IsBinary) (htree : n.trees = [t]) :
    t.isBinary = true := by
  obtain ⟨hlabel, s, l, op, r, hn, hs, hparts, hop⟩ := h
  obtain ⟨u, v, w, -, -, -, hv, hs⟩ := trees_eq_of_parts hs hparts
  rw [exists_trees_eq_node hlabel (by simp [hn]), hn] at htree
  obtain rfl : Tree.node .expression (treesAll [s]) = t := by simpa using htree
  simp [treesAll, hs, Tree.isBinary, hv, hop]

/-! ## What stands at the end -/

mutual

/-- What stands in a source takes room there. -/
theorem Stands.start_lt_stop : {n : Node} → n.Stands source → n.start < n.stop
  | .token _ _, h => h.1
  | .comment _ _, h => h.1
  | .branch _ [], h => absurd rfl h.1
  | .branch _ (n :: ns), h => by
      obtain ⟨-, -, hn, hns⟩ := h
      have hfirst := hn.start_lt_stop
      have hrest := StandFrom.le_stopFrom hns
      show n.start < stopAll (n :: ns)
      rw [stopAll_cons]
      omega

theorem StandFrom.le_stopFrom : {ns : List Node} → {offset : Nat} →
    StandFrom source offset ns → offset ≤ stopFrom offset ns
  | [], _, _ => Nat.le_refl _
  | n :: ns, offset, h => by
      obtain ⟨hstart, hn, hns⟩ := h
      have hfirst := hn.start_lt_stop
      have hrest := StandFrom.le_stopFrom hns
      have hle := hstart.1
      show offset ≤ stopFrom n.stop ns
      omega

end

/-- Only the last of some nodes stops where they all do. -/
theorem StandFrom.stop_lt {ns : List Node} (h : StandFrom source n.stop ns) (hns : ns ≠ []) :
    n.stop < stopFrom n.stop ns := by
  cases ns with
  | nil => simp at hns
  | cons m ns =>
      obtain ⟨hstart, hm, hrest⟩ := h
      have hfirst := hm.start_lt_stop
      have hle := hrest.le_stopFrom
      have := hstart.1
      show n.stop < stopFrom m.stop ns
      omega

theorem stop_branch (k : Kind) (pre post : List Node) (n : Node) :
    (branch k (pre ++ n :: post)).stop = stopFrom n.stop post := by
  cases pre with
  | nil => exact stopAll_cons n post
  | cons m pre =>
      show stopAll (m :: (pre ++ n :: post)) = _
      rw [stopAll_cons, stopFrom_append]
      rfl

theorem Contains.stop_le (h : n.Contains m) (hn : n.Stands source) : m.stop ≤ n.stop := by
  induction h with
  | refl => exact Nat.le_refl _
  | @child k children c m hc _ ih =>
      obtain ⟨pre, post, rfl⟩ := List.append_of_mem hc
      obtain ⟨-, hstands⟩ := hn
      obtain ⟨-, -, hc, hpost⟩ := standFrom_append.mp hstands
      rw [stop_branch]
      exact (ih hc).trans hpost.le_stopFrom

/-- A node that ends in one of a kind has a tree that does. -/
theorem Contains.endsIn {k : Kind} (h : n.Contains m) (hn : n.Stands source)
    (hbranch : ∀ l s, m ≠ .token l s) (hlabel : m.label = .named k) (hk : k ≠ .comment)
    (hstop : m.stop = n.stop) : ∀ t ∈ n.trees, t.endsIn k = true := by
  induction h with
  | refl n =>
      cases n with
      | token l s => exact absurd rfl (hbranch l s)
      | comment inside s =>
          obtain rfl : Kind.comment = k := by simpa [label] using hlabel
          exact absurd rfl hk
      | branch k' children =>
          obtain rfl : k' = k := by simpa [label] using hlabel
          simp [trees, Tree.endsIn]
  | @child k' children c m hc hm ih =>
      obtain ⟨pre, post, rfl⟩ := List.append_of_mem hc
      obtain ⟨-, hstands⟩ := hn
      obtain ⟨-, -, hcstands, hpost⟩ := standFrom_append.mp hstands
      rw [stop_branch] at hstop
      have hle := hm.stop_le hcstands
      -- nothing is behind a child that stops where the node does
      obtain rfl : post = [] := by
        by_contra hne
        have := hpost.stop_lt hne
        omega
      have hends := ih hcstands hbranch hlabel hstop
      cases hextra : c.isExtra with
      | true =>
          cases c with
          | comment inside s =>
              cases hm with
              | refl =>
                  obtain rfl : Kind.comment = k := by simpa [label] using hlabel
                  exact absurd rfl hk
          | _ => simp [isExtra] at hextra
      | false =>
          obtain ⟨t, ht, -⟩ := exists_trees_eq hextra
          have htrees : treesAll (pre ++ [c]) = treesAll pre ++ [t] := by
            simp [treesAll, ht]
          have := hends t (by simp [ht])
          simp [trees, htrees, Tree.endsIn, this]

/-- How the operands in a standing node are grouped is seen in its tree. -/
theorem grouped_of_derives {s : Node} (hlabel : s.label = .named .subExpression)
    (hstands : s.Stands source) (hderives : ∀ t ∈ s.trees, t.Derives Tree.Normal) : s.Grouped := by
  constructor
  · -- an operator between two operands
    intro l op r hparts hop
    obtain ⟨t, u, v, ht, hu, hv, hu', hs⟩ := trees_eq_of_parts hlabel hparts
    have hgroups : Tree.Groups [t, u, v] :=
      (hderives (.node .subExpression [t, u, v]) (by simp [hs])).self
    obtain ⟨hright, hleft⟩ := hgroups (hu'.trans hop)
    refine ⟨fun h => ?_, ?_⟩
    · simp [h.isBinary_tree hv] at hright
    · rintro ⟨m, hm, hlabel', hstop⟩
      have hl : l.Stands source :=
        (contains_of_mem_parts (n := s) (by simp [hparts])).stands hstands
      have := hm.endsIn hl (by rintro l s rfl; cases l <;> simp [label, Leaf.label] at hlabel')
        hlabel' (by decide) hstop t (by simp [ht])
      simp [this] at hleft
  · -- an operator before an operand
    intro op e hparts hop
    have hpart : ∀ m ∈ [op, e], ∃ t, m.trees = [t] ∧ t.label = m.label := fun m hm =>
      exists_trees_eq (isExtra_of_mem_parts (n := s) (hparts ▸ hm))
    obtain ⟨t, ht, ht'⟩ := hpart op (by simp)
    obtain ⟨u, hu, -⟩ := hpart e (by simp)
    have hs : s.trees = [.node .subExpression [t, u]] := by
      rw [exists_trees_eq_node hlabel (by simp [hparts]), hparts]
      simp [treesAll, ht, hu]
    have hgroups : Tree.Groups [t, u] :=
      (hderives (.node .subExpression [t, u]) (by simp [hs])).self
    have hoperand := hgroups (ht'.trans hop)
    intro h
    simp [h.isBinary_tree hu] at hoperand

end Node

/-! ## Chains of operators -/

namespace Tree

/-- An expression to which operators with their right operands are applied one after another. -/
def fold (first : Tree) (rest : List (Tree × Tree)) : Tree :=
  rest.foldl (fun left x => operand [left, x.1, x.2]) first

theorem fold_concat (first op right : Tree) (rest : List (Tree × Tree)) :
    fold first (rest ++ [(op, right)]) = operand [fold first rest, op, right] := by
  simp [fold]

theorem isBinary_iff {t : Tree} : t.isBinary = true ↔
    ∃ l op r, t = operand [l, op, r] ∧ op.label = .named .binaryOperator := by
  constructor
  · intro h
    unfold isBinary at h
    split at h
    · next l op r => exact ⟨l, op, r, rfl, by simpa using h⟩
    · simp at h
  · rintro ⟨l, op, r, rfl, hop⟩
    simp [isBinary, operand, hop]

/-- The chain of operators at the top of a tree: none of its operands is a binary application, and
only the last one may end in a conditional. -/
structure IsChain (t first : Tree) (rest : List (Tree × Tree)) : Prop where
  eq : t = fold first rest
  operators : ∀ x ∈ rest, x.1.label = .named .binaryOperator
  operands : ∀ e ∈ first :: rest.map Prod.snd, e.label = .named .expression ∧ e.isBinary = false
  conds : ∀ e ∈ (first :: rest.map Prod.snd).dropLast, e.endsIn .ifthenelse = false
  /-- the whole chain ends where its last operand does -/
  last : ∀ e ∈ (first :: rest.map Prod.snd).getLast?, e.endsIn .ifthenelse = t.endsIn .ifthenelse

/-- An operator stands between two expressions. -/
theorem exists_operands_of_generates {before after : List Tree} {op : Tree}
    (h : (Grammar.rule (.node .subExpression)).Generates Tree.label (before ++ op :: after))
    (hop : op.label = .named .binaryOperator) :
    ∃ l r, before = [l] ∧ after = [r] ∧ l.label = .named .expression ∧
      r.label = .named .expression := by
  simp only [Grammar.rule, Rule.choice, Rule.seqs, Rule.Generates.either_iff,
    Rule.Generates.node_iff, Rule.Generates.symbol_seq_iff, Rule.Generates.node_seq_iff,
    Rule.Generates.symbol_iff] at h
  have hne : ∀ {t : Tree} {label : Label}, t.label = label → label ≠ .named .binaryOperator →
      op ≠ t := by
    rintro t _ rfl hlabel rfl
    exact hlabel hop
  have hmem : op ∈ before ++ op :: after := by simp
  -- one alternative has an operator in it, and there it is the second of three
  rcases h with ⟨x, heq, hx⟩ | ⟨x, heq, hx⟩ | ⟨x, _, heq, hx, y, _, rfl, hy, z, rfl, hz⟩ |
    ⟨x, _, heq, hx, y, rfl, hy⟩ | ⟨x, _, heq, hx, y, _, rfl, hy, z, rfl, hz⟩ | ⟨x, heq, hx⟩ |
    ⟨x, heq, hx⟩ | ⟨x, heq, hx⟩ <;> rw [heq] at hmem
  · simp [hne hx (by simp)] at hmem
  · simp [hne hx (by simp)] at hmem
  · simp [hne hx (by simp), hne hy (by simp), hne hz (by simp)] at hmem
  · simp [hne hx (by simp), hne hy (by simp)] at hmem
  · have hx' := hne hx (by simp)
    have hz' := hne hz (by simp)
    obtain ⟨rfl, -, rfl⟩ : before = [x] ∧ op = y ∧ after = [z] := by
      simpa [List.append_eq_cons_iff, List.cons_eq_append_iff, hx', hz'] using heq
    exact ⟨x, z, rfl, rfl, hx, hz⟩
  · simp [hne hx (by simp)] at hmem
  · simp [hne hx (by simp)] at hmem
  · simp [hne hx (by simp)] at hmem

theorem exists_chain (t : Tree) (h : t.Derives Normal) (hlabel : t.label = .named .expression) :
    ∃ first rest, t.IsChain first rest := by
  cases hbinary : t.isBinary with
  | false => exact ⟨t, [], rfl, by simp, by simpa using ⟨hlabel, hbinary⟩, by simp, by simp⟩
  | true =>
      obtain ⟨l, op, r, rfl, hop⟩ := isBinary_iff.mp hbinary
      obtain ⟨hrule, hgroups, hl⟩ : (Grammar.rule (.node .subExpression)).Generates Tree.label
          [l, op, r] ∧ Groups [l, op, r] ∧ l.Derives Normal := by
        cases h with
        | node _ _ _ hchildren =>
            cases hchildren (.node .subExpression [l, op, r]) (by simp) with
            | node _ hgroups hrule hchildren =>
                exact ⟨hrule, hgroups, hchildren l (by simp)⟩
      rw [← List.singleton_append] at hrule
      obtain ⟨_, _, hl', hr', hllabel, hrlabel⟩ := exists_operands_of_generates hrule hop
      obtain ⟨rfl, rfl⟩ := And.intro (List.cons.inj hl').1 (List.cons.inj hr').1
      obtain ⟨hright, hleft⟩ := hgroups hop
      -- the chain of the left operand goes on with the right one, which is no chain
      obtain ⟨first, rest, hchain⟩ := exists_chain l hl hllabel
      refine ⟨first, rest ++ [(op, r)], ?_, ?_, ?_, ?_, ?_⟩
      · rw [fold_concat, ← hchain.eq]
      · simpa [or_imp, forall_and, hop] using hchain.operators
      · rw [List.map_append, ← List.cons_append, List.forall_mem_append]
        exact ⟨hchain.operands, by simpa using ⟨hrlabel, hright⟩⟩
      · rw [List.map_append, ← List.cons_append, List.map_singleton, List.dropLast_concat]
        intro e he
        rw [← List.dropLast_append_getLast (l := first :: rest.map Prod.snd) (by simp)] at he
        rcases List.mem_append.mp he with he | he
        · exact hchain.conds e he
        · obtain rfl := List.mem_singleton.mp he
          exact (hchain.last _ (List.getLast?_eq_some_getLast _)).trans hleft
      · rw [List.map_append, ← List.cons_append, List.map_singleton, List.getLast?_concat]
        intro e he
        obtain rfl := Option.mem_some_iff.mp he
        simp [operand, endsIn, endsInAll]
termination_by sizeOf t
decreasing_by
  subst_vars
  simp [operand]
  omega

end Tree

/-! ## Documents -/

theorem Document.exists_mem_of_contains {d : Document} {n : Node} (hn : d.root.Contains n)
    (hlabel : n.label ≠ .named .sourceFile) : ∃ c ∈ d.children, c.Contains n := by
  cases hn with
  | refl => exact absurd rfl hlabel
  | child hc hcn => exact ⟨_, hc, hcn⟩

/-- A part of a document is a comment between definitions or has the tree of a part of one. -/
theorem Document.Shows.part {source : Text} {d : Document} {p : Program} (h : d.Shows source p)
    {n : Node} (hn : d.root.Contains n) (hroot : n.label ≠ .named .sourceFile)
    (hcomment : n.label ≠ .named .comment) :
    n.Stands source ∧ ∀ t ∈ n.trees, t.Derives Tree.Made := by
  obtain ⟨c, hc, hn⟩ := exists_mem_of_contains hn hroot
  refine ⟨hn.stands (h.stands.stands c hc), ?_⟩
  rcases h.children.mem c hc with ⟨s, rfl⟩ | ⟨d', hd, htrees⟩
  · cases hn with
    | refl => exact absurd rfl hcomment
  · exact hn.derives fun t ht => Program.derives_trees h.fits d' hd t (htrees ht)

/-- Operators group to the left, signs bind tighter, and a conditional is the left operand of no
operator: so every chain of operators is the left fold of its operands. -/
theorem Document.operators_grouped {source : Text} {d : Document} (h : ofSource? source = some d) :
    (∀ s, d.root.Contains s → s.label = .named .subExpression → s.Grouped) ∧
      ∀ n, d.root.Contains n → n.label = .named .expression →
        ∃ t first rest, n.trees = [t] ∧ t.IsChain first rest := by
  obtain ⟨p, hshows⟩ := exists_program h
  constructor
  · intro s hs hlabel
    obtain ⟨hstands, hderives⟩ := hshows.part hs (by simp [hlabel]) (by simp [hlabel])
    exact Node.grouped_of_derives hlabel hstands fun t ht =>
      (hderives t ht).imp fun _ => Tree.Made.normal
  · intro n hn hlabel
    obtain ⟨-, hderives⟩ := hshows.part hn (by simp [hlabel]) (by simp [hlabel])
    have hextra : n.isExtra = false := by
      cases n with
      | comment inside s => simp [Node.label] at hlabel
      | _ => rfl
    obtain ⟨t, ht, hlabel'⟩ := Node.exists_trees_eq hextra
    obtain ⟨first, rest, hchain⟩ :=
      t.exists_chain ((hderives t (by simp [ht])).imp fun _ => Tree.Made.normal)
        (hlabel'.trans hlabel)
    exact ⟨t, first, rest, ht, hchain⟩

/-- Signs, operators and a conditional at the end of a chain. -/
theorem Document.operators_grouped_of_chain :
    ∃ source d, source = Text.ofString "fun f() returns () let y = a+-b*if c then a else b+c tel" ∧
      ofSource? source = some d ∧ ∀ s, d.root.Contains s →
        s.label = .named .subExpression → s.Grouped := by
  have haccepts :
      accepts (Text.ofString "fun f() returns () let y = a+-b*if c then a else b+c tel") = true := by
    decide +kernel
  obtain ⟨d, hd⟩ := Option.isSome_iff_exists.mp haccepts
  exact ⟨_, d, rfl, hd, (operators_grouped hd).1⟩

end Heptagon
