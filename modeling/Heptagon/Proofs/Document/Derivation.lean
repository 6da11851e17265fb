import Heptagon.Proofs.Document.Reading

/-!
# Documents are derivations

Whatever source the reader of the language accepts, the tree that it returns is
a derivation of the grammar from this source (`Document.derives_root`): the
children of each node form a row that the rule of the node generates, extra
comments left out, and each leaf is spelled in the source as its label says.
The leaves are all there is in the source but blanks, so the derivation is one
of the whole source.

This holds of every document alike, because the two readings of a source
differ only in which parentheses stand apart, and the trees of all programs are
derivations.
-/

namespace Heptagon

/-- The node is a derivation of the grammar from a source. -/
inductive Node.Derives (source : Text) : Node → Prop
  | token {l : Leaf} {span : Span} (htext : source.slice span = l.text)
      (hspells : l.label.Spells (source.slice span)) : Derives source (.token l span)
  | comment {inside : Bool} {span : Span} (hspells : Comment.Spells (source.slice span)) :
      Derives source (.comment inside span)
  | branch {k : Kind} {children : List Node} (hk : .node k ∈ Grammar.constructs)
      (hrule : (Grammar.rule (.node k)).Generates Node.label (children.filter (!·.isExtra)))
      (hchildren : ∀ n ∈ children, Derives source n) : Derives source (.branch k children)

variable {source : Text}

/-- A node whose tree is a derivation is one from the source that it stands in. -/
theorem Node.Stands.derives : {n : Node} → n.Stands source →
    (∀ t ∈ n.trees, n.isExtra = false → t.Derives Tree.Made) → n.Derives source
  | .token l span, hstands, htrees => by
      obtain ⟨-, htext, hlexemes⟩ := hstands
      have hleaf : (Tree.leaf l).Derives Tree.Made := htrees _ (by simp [trees]) rfl
      refine .token htext ?_
      rw [htext]
      exact (Leaf.isToken_of_normal hleaf.self.normal hlexemes).spells
  | .comment _ _, hstands, _ => .comment hstands.2
  | .branch k children, hstands, htrees => by
      have hnode : (Tree.node k (treesAll children)).Derives Tree.Made :=
        htrees _ (by simp [trees]) rfl
      cases hnode with
      | node hk _ hrule hchildren =>
          refine .branch hk (hrule.of_map_eq (map_label_filter children)) fun n hn => ?_
          exact (hstands.2.stands n hn).derives fun t ht _ =>
            hchildren t (trees_subset_of_mem hn ht)

/-- A document that shows a program is a derivation. -/
theorem Document.Shows.derives {d : Document} {p : Program} (h : d.Shows source p) :
    d.root.Derives source := by
  refine .branch (by decide) h.children.generates fun n hn => ?_
  have hstands := h.stands.stands n hn
  rcases h.children.mem n hn with ⟨c, rfl⟩ | ⟨d', hd, htrees⟩
  · exact .comment hstands.2
  · exact hstands.derives fun t ht _ => Program.derives_trees h.fits d' hd t (htrees ht)

/-- The tree of an accepted source is a derivation of the whole source by the grammar. -/
theorem Document.derives_root {d : Document} (h : ofSource? source = some d) :
    d.root.Derives source ∧ Node.StandFrom source source.origin d.children ∧
      source.Blank (Node.stopFrom source.origin d.children) source.length := by
  obtain ⟨p, hshows⟩ := exists_program h
  exact ⟨hshows.derives, hshows.stands, hshows.ends⟩

/-- A component with a call, an operator and a comment inside is accepted and has a derivation. -/
theorem Document.derives_root_of_component :
    ∃ source d, source = Text.ofString "fun f(x: int) returns () let y = g(x)+1 (* c *) tel" ∧
      ofSource? source = some d ∧ d.root.Derives source := by
  have haccepts : accepts (Text.ofString "fun f(x: int) returns () let y = g(x)+1 (* c *) tel") =
      true := by decide +kernel
  obtain ⟨d, hd⟩ := Option.isSome_iff_exists.mp haccepts
  exact ⟨_, d, rfl, hd, (derives_root hd).1⟩

end Heptagon
