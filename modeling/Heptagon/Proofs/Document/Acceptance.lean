import Heptagon.Proofs.Document.Comments
import Heptagon.Proofs.Grammar.Checking
import Heptagon.Proofs.Grammar.Neighbours
import Heptagon.Proofs.Layout.Printing
import Heptagon.Proofs.Program.Regrouping
import Heptagon.Proofs.Program.Shown

/-!
# No program is lost

The reader decides how operators group, where the arguments of a call and the
equations of a list divide, and which names are called.  It decides so without
losing a program: whatever derivation of the grammar is printed, its text is
accepted (`Document.accepts_printed`), though the tree of the document may be
another one.

1. The derivation is the tree of a plain program (`Tree.exists_program`).
2. The program has the text of one that the reader takes
   (`Program.exists_fits`), token by token.
3. The printed tokens are scanned as they are (`Leaf.scan_printed`), and no
   parenthesis is set apart before the first reading
   (`Tree.Derives.separateTargets_eq`).  So the first reading succeeds, and it
   is the one that stays if the second one does not.
-/

namespace Heptagon

/-- The text that a layout holds is read as a program with these units. -/
theorem Layout.Holds.ofLexemes?_joined {l : Layout} {t : Tree} {p : Program}
    (h : l.Holds (Tree.unitsAll [t])) (ht : t.Derives Tree.Plain)
    (hunits : p.units = Tree.unitsAll [t]) (hfits : p.Fits) :
    Program.ofLexemes? l.joined = some p := by
  refine Program.ofLexemes?_eq_some_iff.mpr ⟨?_, hfits⟩
  rw [Layout.joined, h.lexemes, ht.separateTargets_eq, hunits]

theorem Layout.Holds.exists_place {l : Layout} {us : Units} {p : Program} (h : l.Holds us)
    (hunits : p.units = us) (hshown : us.shown = us) : ∃ nodes, p.place l.slots = some nodes := by
  refine Program.exists_place ?_
  rw [Program.unitsAll_flatMap_trees, hunits, hshown]
  exact h.slots.admits

/-- A layout is accepted if it is read as a program that can be laid over it. -/
theorem Program.isSome_placed? {l : Layout} {p : Program} (hread : ofLexemes? l.joined = some p)
    (hplace : ∃ nodes, p.place l.slots = some nodes) : (placed? l).isSome = true := by
  obtain ⟨nodes, hplace⟩ := hplace
  simp [placed?, hread, hplace]

/-- A derivation with tokens for its leaves is the tree of a plain program, and its printed tokens
are scanned as they are. -/
theorem Tree.Derives.exists_printed {t : Tree} (h : t.Derives Tree.Written)
    (hroot : t.label = .named .sourceFile) :
    ∃ (p : Program) (items : List (Placed Item)), p.tree = t ∧ p.Plain ∧ p.units = unitsAll [t] ∧
      scan (Leaf.printed t.leaves) = some items ∧ Item.Write (unitsAll [t]) items := by
  obtain ⟨p, htree, hp⟩ := exists_program (h.mono fun _ => Written.plain) hroot
  have hunits : p.units = unitsAll [t] := by
    rw [← htree, Program.tree, unitsAll_node_cons, Program.unitsAll_flatMap_trees,
      Program.shown_units hp, unitsAll_nil, List.append_nil]
  obtain ⟨items, hscan, hwrite⟩ := Leaf.scan_printed h.leaves_isToken
  have hleaves : unitsAll [t] = t.leaves.map Leaf.lexemes := by simp [unitsAll, leavesAll]
  exact ⟨p, items, htree, hp, hunits, hscan, hleaves ▸ hwrite⟩

namespace Document

theorem accepts_of_placed {source : Text} {items : List (Placed Item)} {us : Units}
    (hscan : scan source = some items) (hwrite : Item.Write us items)
    (hplaced : (Program.placed? (.ofItems items)).isSome = true) : accepts source = true := by
  obtain ⟨nodes, hnodes⟩ := Option.isSome_iff_exists.mp hplaced
  have hwhole := (Layout.holds_ofItems hwrite).enumerationsWhole
  simp [accepts, ofSource?, hscan, nodes?, hwhole, hnodes]

/-- Every derivation of the whole grammar whose names are spelled like no keyword is accepted when
its tokens are printed with single spaces between them. -/
theorem accepts_printed {t : Tree} (h : t.Derives Tree.Spelled)
    (hroot : t.label = .named .sourceFile) : accepts (Leaf.printed t.leaves) = true := by
  obtain ⟨t', hwritten, hlabel, htexts⟩ := Tree.exists_written h
  have hplain : t'.Derives Tree.Plain := hwritten.mono fun _ => Tree.Written.plain
  have hprinted : Leaf.printed t.leaves = Leaf.printed t'.leaves := by
    rw [Leaf.printed, Leaf.printed, htexts]
  rw [hprinted]
  -- the derivation is a program, and the reader takes one with the same tokens
  obtain ⟨p, items, -, hp, hshown, hscan, hwrite⟩ := hwritten.exists_printed (hlabel.trans hroot)
  obtain ⟨p', hunits, hfits⟩ := Program.exists_fits hp
  have hholds := Layout.holds_ofItems hwrite
  refine accepts_of_placed hscan hwrite (Program.isSome_placed?
    (hholds.ofLexemes?_joined hplain (hunits.trans hshown) hfits) ?_)
  refine hholds.exists_place (hunits.trans hshown) ?_
  rw [← hshown, Program.shown_units hp]

/-- A derivation whose operators group to the right, which is not how the reader groups them. -/
theorem accepts_printed_of_chain : ∃ t : Tree, t.Derives Tree.Spelled ∧
    t.label = .named .sourceFile ∧
    Leaf.printed t.leaves = Text.ofString "fun f ( ) returns ( ) let x = a + b - c tel" ∧
    accepts (Leaf.printed t.leaves) = true := by
  let name (spelling : String) : Name := .plain (Text.ofString spelling)
  let value : Expr := .binary (.name (name "a")) .plus
    (.binary (.name (name "b")) .minus (.name (name "c")))
  let body : Statements := .cons (.equations ⟨⟨.single (name "x"), value⟩, [], false⟩) .nil
  let p : Program := [.component ⟨false, name "f", none, .empty .plain, .empty .plain, none, body⟩]
  have hderives : p.tree.Derives Tree.Spelled :=
    p.tree.derives_of_checks Tree.spelled_of_isSpelled (by decide +kernel)
  exact ⟨p.tree, hderives, rfl, by decide +kernel, accepts_printed hderives rfl⟩

end Document

end Heptagon
