import Heptagon.Proofs.Document.Operators
import Heptagon.Proofs.Grammar.Canonical

/-!
# Which equations are one list

Where statements follow each other, each equation is a list of its own, with the
semicolon after it if there is one.  In a branch of a `present`, where only one
statement may stand, all equations up to the end of the branch are one list
(`Document.equations_listed`).

The reader decides it by the place of a statement alone, whatever is around that place
(`Equations.Fits`), so it can be said for each piece of a program on its own
(`Tree.Made.listed`).
-/

namespace Heptagon

/-! ## Rows of statements -/

namespace Label

/-- The labels in a list of one equation, without and with a semicolon. -/
def oneEquation : List (List Label) :=
  [[.named .equation], [.named .equation, .literal ";"]]

/-- What ends a branch of a `present`. -/
def branchEnds : List Label := [.literal "|", .literal "default", .literal "end"]

/-- One label may follow another one in a `present`: a list of equations stands between `do` and the
end of a branch. -/
structure Frames (a b : Label) : Prop where
  before : b = .named .equationList → a = .literal "do"
  after : a = .named .equationList → b ∈ branchEnds

instance (a b : Label) : Decidable (Frames a b) :=
  decidable_of_iff ((b = .named .equationList → a = .literal "do") ∧
    (a = .named .equationList → b ∈ branchEnds))
    ⟨fun ⟨hb, ha⟩ => ⟨hb, ha⟩, fun ⟨hb, ha⟩ => ⟨hb, ha⟩⟩

theorem frames_do (b : Label) : Frames (.literal "do") b := ⟨fun _ => rfl, nofun⟩

theorem frames_of_mem {a b : Label} (hb : b ∈ branchEnds) : Frames a b :=
  ⟨fun h => absurd hb (h ▸ by decide), fun _ => hb⟩

/-- Every list of equations in a row stands directly between `do` and the end of a branch. -/
def Framed (ls : List Label) : Prop :=
  ∀ pre post, ls = pre ++ .named .equationList :: post →
    pre.getLast? = some (.literal "do") ∧ ∃ b ∈ post.head?, b ∈ branchEnds

theorem framed_of_isChain {ls : List Label} (h : ls.IsChain Frames)
    (hfirst : ls.head? ≠ some (.named .equationList))
    (hlast : ls.getLast? ≠ some (.named .equationList)) : Framed ls := by
  rintro pre post rfl
  obtain ⟨-, hpost, hbefore⟩ := List.isChain_append.mp h
  constructor
  · cases hpre : pre.getLast? with
    | none => simp [List.getLast?_eq_none_iff.mp hpre] at hfirst
    | some a => rw [(hbefore a hpre _ rfl).before rfl]
  · cases post with
    | nil => simp at hlast
    | cons b post => exact ⟨b, rfl, (List.isChain_cons_cons.mp hpost).1.after rfl⟩

end Label

namespace Tree

/-- A list of equations holds one of them. -/
def ListsOne : Tree → Prop
  | node .equationList ts => ts.map label ∈ Label.oneEquation
  | _ => True

/-- Among the children of a kind, equations are listed one by one or branch by branch. -/
structure ListedRow (k : Kind) (ts : List Tree) : Prop where
  single : k.listsStatements = true → ∀ t ∈ ts, t.ListsOne
  branch : k = .presentStatement → Label.Framed (ts.map label)

/-- The equations among the children of a node are listed as they should. -/
def Listed : Tree → Prop
  | leaf _ => True
  | node k ts => ListedRow k ts

theorem listsOne_of_label {t : Tree} (h : t.label ≠ .named .equationList) : t.ListsOne := by
  cases t with
  | leaf l => trivial
  | node k ts => cases k <;> trivial

end Tree

/-! ## Statements -/

theorem Locals.label_of_mem_trees {l : Option Locals} {t : Tree} (h : t ∈ Locals.trees l) :
    t.label = .named .localVars := by
  obtain ⟨l', -, rfl⟩ := by simpa [Locals.trees] using h
  rfl

/-- Where another statement may follow, a list of equations holds one. -/
theorem Statement.listsOne_of_fits {s : Statement} {ts : List Lexeme} (h : s.Fits false ts) :
    s.tree.ListsOne := by
  cases s with
  | equations es =>
      obtain ⟨first, others, semicolon⟩ := es
      obtain rfl : others = [] := h.single rfl
      cases semicolon <;> simp [Statement.tree, Equations.tree, Tree.ListsOne, Label.oneEquation,
        Equation.tree, Tree.label, Tree.semicolonIf, Leaf.label, Symbol.spelling]
  | _ => trivial

theorem Statements.listsOne_of_fits (ss : Statements) {b : Body} {ts : List Lexeme}
    (h : ss.Fits b ts) : ∀ t ∈ ss.trees, t.ListsOne := by
  cases ss with
  | nil => simp [Statements.trees]
  | cons s ss =>
      exact List.forall_mem_cons.mpr
        ⟨Statement.listsOne_of_fits h.2.1, Statements.listsOne_of_fits ss h.2.2⟩

theorem Cases.listsOne_of_fits (cs : Cases) {ts : List Lexeme} (h : cs.Fits ts) :
    ∀ t ∈ cs.trees, t.ListsOne := by
  cases cs with
  | nil => simp [Cases.trees]
  | cons _ s ss tail =>
      obtain ⟨hs, hss, htail⟩ := h
      simp only [Cases.trees, List.forall_mem_cons, List.forall_mem_append]
      exact ⟨trivial, trivial, trivial, Statement.listsOne_of_fits hs, ss.listsOne_of_fits hss,
        Cases.listsOne_of_fits tail htail⟩

/-- The branches of a `present` each have one statement, up to the next branch or the end. -/
theorem Branches.isChain_frames : (bs : Branches) →
    ((bs.trees ++ [Tree.kw .end_]).map Tree.label).IsChain Label.Frames ∧
      ∀ a ∈ ((bs.trees ++ [Tree.kw .end_]).map Tree.label).head?, a ∈ Label.branchEnds
  | .nil => ⟨List.isChain_singleton _, by rintro _ ⟨⟩; decide⟩
  | .otherwise s => by
      refine ⟨?_, by rintro _ ⟨⟩; decide⟩
      show [.literal "default", .literal "do", s.tree.label, .literal "end"].IsChain Label.Frames
      exact .cons_cons (by decide) (.cons_cons (Label.frames_do _)
        (.cons_cons (Label.frames_of_mem (by decide)) (.singleton _)))
  | .cons e s tail => by
      obtain ⟨hchain, hhead⟩ := tail.isChain_frames
      refine ⟨?_, by rintro _ ⟨⟩; decide⟩
      have hstatement : (s.tree.label :: (tail.trees ++ [Tree.kw .end_]).map Tree.label).IsChain
          Label.Frames :=
        List.isChain_cons.mpr ⟨fun b hb => Label.frames_of_mem (hhead b hb), hchain⟩
      show (.literal "|" :: e.tree.label :: .literal "do" :: s.tree.label ::
        (tail.trees ++ [Tree.kw .end_]).map Tree.label).IsChain Label.Frames
      rw [e.label_tree]
      exact .cons_cons (by decide) (.cons_cons (by decide)
        (.cons_cons (Label.frames_do _) hstatement))

/-- The equations among the children of a node are listed as the place of each statement says. -/
theorem Tree.Made.listed {t : Tree} (h : t.Made) : t.Listed := by
  cases h with
  | leaf => trivial
  | operand | call | equations => exact ⟨by rintro ⟨⟩, by rintro ⟨⟩⟩
  | @block ss _ h =>
      refine ⟨fun _ => ?_, by rintro ⟨⟩⟩
      simp only [List.forall_mem_cons, List.forall_mem_append]
      exact ⟨trivial, ss.listsOne_of_fits h, trivial, List.forall_mem_nil _⟩
  | @switch x cs _ h =>
      refine ⟨fun _ => ?_, by rintro ⟨⟩⟩
      simp only [List.forall_mem_cons, List.forall_mem_append]
      exact ⟨trivial, trivial, cs.listsOne_of_fits h, trivial, List.forall_mem_nil _⟩
  | @present bs _ _ =>
      obtain ⟨hchain, hhead⟩ := bs.isChain_frames
      refine ⟨by rintro ⟨⟩, fun _ => ?_⟩
      show Label.Framed ((Tree.kw .present :: (bs.trees ++ [Tree.kw .end_])).map Tree.label)
      refine Label.framed_of_isChain ?_ ?_ ?_
      · exact List.isChain_cons.mpr ⟨fun a ha => Label.frames_of_mem (hhead a ha), hchain⟩
      · simp [Tree.label, Leaf.label]
      · simp [List.getLast?_cons, Tree.label, Leaf.label]
  | @reset body e _ h =>
      refine ⟨fun _ => ?_, by rintro ⟨⟩⟩
      simp only [List.forall_mem_cons, List.forall_mem_append]
      exact ⟨trivial, body.listsOne_of_fits h, trivial,
        Tree.listsOne_of_label (by simp [e.label_tree]), List.forall_mem_nil _⟩
  | @state name locals body trs _ h =>
      refine ⟨fun _ => ?_, by rintro ⟨⟩⟩
      simp only [List.forall_mem_cons, List.forall_mem_append, List.forall_mem_map]
      refine ⟨trivial, trivial, fun t ht => ?_, trivial, body.listsOne_of_fits h, fun _ _ => trivial⟩
      exact Tree.listsOne_of_label (by simp [Locals.label_of_mem_trees ht])
  | @plain k ts hk =>
      exact ⟨fun hlists => by cases k <;> simp_all [Kind.isPlain, Kind.listsStatements],
        fun hpresent => by simp [hpresent, Kind.isPlain] at hk⟩

/-! ## Documents -/

namespace Document

variable {source : Text} {d : Document}

/-- The equations among the children of a node are listed as they should. -/
theorem listed_of_contains (h : ofSource? source = some d) {k : Kind} {ns : List Node}
    (hn : d.root.Contains (.branch k ns)) (hroot : k ≠ .sourceFile) (hcomment : k ≠ .comment) :
    Tree.ListedRow k (Node.treesAll ns) := by
  obtain ⟨p, hshows⟩ := exists_program h
  obtain ⟨-, hderives⟩ := hshows.part hn (by simpa [Node.label] using hroot)
    (by simpa [Node.label] using hcomment)
  exact (hderives (.node k (Node.treesAll ns)) (List.mem_singleton.mpr rfl)).self.listed

/-- Where statements follow each other, every list of equations holds one equation, with a semicolon
or without.  In a `present`, every list of equations stands directly between `do` and the end of the
branch. -/
theorem equations_listed (h : ofSource? source = some d) :
    (∀ n k, d.root.Contains n → n.label = .named k → k.listsStatements = true →
      ∀ m ∈ n.parts, m.label = .named .equationList →
        m.parts.map Node.label ∈ Label.oneEquation) ∧
    ∀ n, d.root.Contains n → n.label = .named .presentStatement →
      ∀ pre m post, n.parts = pre ++ m :: post → m.label = .named .equationList →
        pre.getLast?.map Node.label = some (.literal "do") ∧
          ∃ next ∈ post.head?, next.label ∈ Label.branchEnds := by
  constructor
  · intro n k hn hlabel hk m hm hlist
    obtain ⟨ns, rfl⟩ := Node.exists_eq_branch hlabel (List.ne_nil_of_mem hm)
    have hrow := listed_of_contains h hn (by rintro rfl; simp [Kind.listsStatements] at hk)
      (by rintro rfl; simp [Kind.listsStatements] at hk)
    obtain ⟨ms, rfl⟩ : ∃ ms, m = .branch .equationList ms := by
      cases m with
      | token l s => cases l <;> simp [Node.label, Leaf.label] at hlist
      | comment inside s => simp [Node.label] at hlist
      | branch k' ms => exact ⟨ms, by rw [Label.named.inj hlist]⟩
    have hone := hrow.single hk (.node .equationList (Node.treesAll ms))
      (Node.trees_subset_of_mem (List.mem_filter.mp hm).1 (List.mem_singleton.mpr rfl))
    rw [Node.parts, Node.map_label_filter]
    exact hone
  · intro n hn hlabel pre m post hparts hlist
    obtain ⟨ns, rfl⟩ := Node.exists_eq_branch hlabel (by simp [hparts])
    have hframed := (listed_of_contains h hn (by decide) (by decide)).branch rfl
    rw [← Node.map_label_filter] at hframed
    obtain ⟨hbefore, b, hb, hend⟩ := hframed (pre.map Node.label) (post.map Node.label)
      (by rw [← hlist, ← List.map_cons, ← List.map_append, ← hparts]; rfl)
    rw [List.getLast?_map] at hbefore
    obtain ⟨next, hnext, rfl⟩ := by simpa [List.head?_map] using hb
    exact ⟨hbefore, next, hnext, hend⟩

/-- Two equations in a branch of a `present`, and two in the block around it. -/
theorem equations_listed_of_present : ∃ d,
    ofSource? (Text.ofString "fun f()returns()let x=1; present | a do y=1; z=2 end w=3; tel") =
        some d ∧
      ∀ n k, d.root.Contains n → n.label = .named k → k.listsStatements = true →
        ∀ m ∈ n.parts, m.label = .named .equationList →
          m.parts.map Node.label ∈ Label.oneEquation := by
  have haccepts : accepts (Text.ofString
      "fun f()returns()let x=1; present | a do y=1; z=2 end w=3; tel") = true := by decide +kernel
  obtain ⟨d, hd⟩ := Option.isSome_iff_exists.mp haccepts
  exact ⟨d, hd, (equations_listed hd).1⟩

end Document

end Heptagon
