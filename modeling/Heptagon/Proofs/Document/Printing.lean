import Heptagon.Proofs.Document.Acceptance
import Heptagon.Proofs.Document.Rereading
import Heptagon.Proofs.Program.Canonical

/-!
# Reading undoes printing

A derivation whose operators, arguments and statements are divided as the reader
divides them is what the reader returns when its tokens are printed
(`Document.root_printed`), unless the reader sets a parenthesis apart after it
has compared the readings of names before parentheses.

The text of a canonical program has no other first reading
(`Program.fits_of_canonical`), and the first reading is the last one if no
parenthesis is set apart.
-/

namespace Heptagon

/-! ## Nodes of a program -/

/-- Without comments, the nodes of a program have its trees. -/
theorem Program.treesAll_of_place {p : Program} {slots : List Slot} {nodes : List Node}
    (hslots : ∀ s ∈ slots, s.comments = []) (h : p.place slots = some nodes) :
    Node.treesAll nodes = p.flatMap Definition.trees := by
  induction p generalizing slots nodes with
  | nil =>
      obtain rfl := by simpa [place] using h
      rfl
  | cons d p ih =>
      obtain ⟨first, rest, more, hfirst, hmore, rfl⟩ := place_cons_iff.mp h
      obtain ⟨ns, hns, rfl⟩ := Definition.place_iff.mp hfirst
      have hbetween : Slot.commentsBetween slots = [] := by
        cases slots with
        | nil => rfl
        | cons s slots => simp [Slot.commentsBetween, hslots s (by simp)]
      have hrest : ∀ s ∈ rest, s.comments = [] := fun s hs =>
        hslots s ((Tree.suffix_of_placeAll d.trees hns).mem hs)
      rw [Node.treesAll_append, Node.treesAll_append, hbetween, Tree.trees_of_placeAll d.trees hns,
        ih hrest hmore, List.flatMap_cons]
      rfl

/-- If nothing is set apart, the first reading is the last one. -/
theorem Layout.settled_eq_joined {l : Layout} (h : l.setApart = []) : l.settled = l.joined := by
  rw [settled, h, Lexeme.separateAt_nil]

namespace Document

variable {t : Tree}

/-- A canonical derivation whose names are spelled like no keyword is accepted when its tokens are
printed with single spaces between them.  The document has no comments, and its tree is the
derivation with tokens for its leaves, if no parenthesis is set apart after the readings have been
compared. -/
theorem root_printed (h : t.Derives fun u => u.Spelled ∧ u.Canonical)
    (hroot : t.label = .named .sourceFile) :
    ∃ d, ofSource? (Leaf.printed t.leaves) = some d ∧ d.comments = [] ∧
      (setApart (Leaf.printed t.leaves) = [] → d.root.trees = [t.tokenized]) := by
  have hwritten : t.tokenized.Derives fun u => u.Written ∧ u.Canonical :=
    h.tokenized fun u hu => ⟨hu.1.written, hu.2.tokenized⟩
  have hplain : t.tokenized.Derives Tree.Plain := hwritten.mono fun u hu => hu.1.plain
  have hprinted : Leaf.printed t.leaves = Leaf.printed t.tokenized.leaves := by
    rw [Leaf.printed, Leaf.printed, t.map_text_leaves_tokenized]
  rw [hprinted]
  -- the first reading is the derivation
  obtain ⟨p, items, htree, hp, hunits, hscan, hwrite⟩ :=
    (hwritten.mono fun _ => And.left).exists_printed (t.label_tokenized.trans hroot)
  have hfits : p.Fits := Program.fits_of_canonical hp (htree ▸ hwritten.mono fun _ => And.right)
  have hholds := Layout.holds_ofItems hwrite
  have hread := hholds.ofLexemes?_joined hplain hunits hfits
  have hplace := hholds.exists_place hunits (by rw [← hunits, Program.shown_units hp])
  have haccepts := accepts_of_placed hscan hwrite (Program.isSome_placed? hread hplace)
  obtain ⟨d, hd⟩ := Option.isSome_iff_exists.mp haccepts
  refine ⟨d, hd, ?_, fun hapart => ?_⟩
  · obtain ⟨items', hscan', -, hcomments⟩ := write_of_ofSource? hd
    obtain rfl : items = items' := Option.some.inj (hscan.symm.trans hscan')
    rw [hcomments, ← Layout.commentsAll_ofItems, hholds.trailing, List.append_nil]
    exact List.flatMap_eq_nil_iff.mpr hholds.slots.comments_eq_nil
  · obtain ⟨items', hscan', hnodes, -⟩ := ofSource?_eq_some_iff.mp hd
    obtain rfl : items = items' := Option.some.inj (hscan.symm.trans hscan')
    obtain ⟨-, inner, hinner, hchildren⟩ := nodes?_eq_some_iff.mp hnodes
    obtain ⟨p', first, hp', hfirst, rfl⟩ := Program.placed?_eq_some_iff.mp hinner
    obtain rfl : p = p' := Option.some.inj (hread.symm.trans hp')
    -- and so is the last one
    rw [setApart_eq hscan] at hapart
    rw [Layout.settled_eq_joined hapart, hread, Option.bind_some, hfirst, Option.getD_some,
      hholds.trailing, List.map_nil, List.append_nil] at hchildren
    rw [root, Node.trees, hchildren, p.treesAll_of_place hholds.slots.comments_eq_nil hfirst, ← htree]
    rfl

/-- A chain of operators that starts with a call. -/
theorem root_printed_of_call : ∃ (t : Tree) (d : Document),
    (t.Derives fun u => u.Spelled ∧ u.Canonical) ∧ t.label = .named .sourceFile ∧
      Leaf.printed t.leaves = Text.ofString "fun f ( ) returns ( ) let x = g ( a ) - b tel" ∧
      setApart (Leaf.printed t.leaves) = [] ∧
      ofSource? (Leaf.printed t.leaves) = some d ∧ d.root.trees = [t.tokenized] := by
  let name (spelling : String) : Name := .plain (Text.ofString spelling)
  let value : Expr := .binary (.call (name "g") (.group (.name (name "a")) .nil .nil)) .minus
    (.name (name "b"))
  let body : Statements := .cons (.equations ⟨⟨.single (name "x"), value⟩, [], false⟩) .nil
  let p : Program := [.component ⟨false, name "f", none, .empty .plain, .empty .plain, none, body⟩]
  have hderives : p.tree.Derives fun u => u.Spelled ∧ u.Canonical :=
    p.tree.derives_of_checks (p := fun u => u.isSpelled && decide u.Canonical)
      (fun u hu => by
        obtain ⟨hspelled, hcanonical⟩ := Bool.and_eq_true_iff.mp hu
        exact ⟨u.spelled_of_isSpelled hspelled, of_decide_eq_true hcanonical⟩)
      (by decide +kernel)
  have hprinted : Leaf.printed p.tree.leaves =
      Text.ofString "fun f ( ) returns ( ) let x = g ( a ) - b tel" := by decide +kernel
  have hapart : setApart (Leaf.printed p.tree.leaves) = [] := by
    rw [hprinted]
    decide +kernel
  obtain ⟨d, hd, -, htree⟩ := root_printed hderives rfl
  exact ⟨p.tree, d, hderives, rfl, hprinted, hapart, hd, htree hapart⟩

end Document

end Heptagon
