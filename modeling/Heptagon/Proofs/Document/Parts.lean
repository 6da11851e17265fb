import Heptagon.Proofs.Document.Comments
import Heptagon.Proofs.Document.Operators
import Heptagon.Proofs.Program.Meeting

/-!
# Which slots the parts of a node have

A tree takes as many slots as it is wide (`Tree.eq_drop_of_place`), so in a row
that is laid over slots each part has slots of its own (`Tree.Lays`).  A part at
any depth of a document has the slots from some index on, which are those of the
lexemes from that index on.  So what is said of two trees that meet in a program
is said of the nodes as well (`Node.Contains.exists_parted`).
-/

namespace Heptagon

/-! ## Tokens -/

/-- The tree of a node has its label and its tokens. -/
theorem Node.of_trees_eq {n : Node} {t : Tree} (hextra : n.isExtra = false) (h : n.trees = [t]) :
    t.label = n.label ∧ t.leaves = n.tokens.map Prod.fst := by
  obtain ⟨u, hu, hlabel⟩ := exists_trees_eq hextra
  obtain rfl : t = u := by simpa [h] using hu
  exact ⟨hlabel, by simp [map_tokens, h]⟩

/-! ## Slots -/

theorem Leaf.eq_drop_of_place {l : Leaf} {slots rest : List Slot} {span : Span}
    (h : l.place slots = some (span, rest)) : rest = slots.drop l.lexemes.length := by
  rcases Leaf.place_cases h with ⟨x, s, hx, rfl, -⟩ | ⟨x, y, s, t, hxy, rfl, -⟩
  · simp [hx]
  · simp [hxy]

namespace Tree

mutual

/-- A tree takes as many slots as it is wide. -/
theorem eq_drop_of_place : (t : Tree) → ∀ {slots rest : List Slot} {n : Node},
    t.place slots = some (n, rest) → rest = slots.drop t.width
  | .leaf l, slots, rest, n, h => by
      obtain ⟨span, hspan, -⟩ := place_leaf_iff.mp h
      exact Leaf.eq_drop_of_place hspan
  | .node k ts, slots, rest, n, h => by
      obtain ⟨ns, hns, -⟩ := place_node_iff.mp h
      exact eq_drop_of_placeAll ts hns

theorem eq_drop_of_placeAll : (ts : List Tree) → ∀ {slots rest : List Slot} {ns : List Node},
    placeAll ts slots = some (ns, rest) → rest = slots.drop (widthAll ts)
  | [], slots, rest, ns, h => by
      obtain ⟨-, rfl⟩ := placeAll_nil_iff.mp h
      rfl
  | t :: ts, slots, rest, ns, h => by
      obtain ⟨m, middle, ms, hm, hms, -⟩ := placeAll_cons_iff.mp h
      rw [eq_drop_of_placeMore ts hms, eq_drop_of_place t hm, List.drop_drop, widthAll]

theorem eq_drop_of_placeMore : (ts : List Tree) → ∀ {slots rest : List Slot} {ns : List Node},
    placeMore ts slots = some (ns, rest) → rest = slots.drop (widthAll ts)
  | [], slots, rest, ns, h => by
      obtain ⟨-, rfl⟩ := placeMore_nil_iff.mp h
      rfl
  | t :: ts, slots, rest, ns, h => by
      obtain ⟨m, middle, ms, hm, hms, -⟩ := placeMore_cons_iff.mp h
      rw [eq_drop_of_placeMore ts hms, eq_drop_of_place t hm, List.drop_drop, widthAll]

end

/-- Trees laid over slots one after another. -/
inductive Lays : List Tree → List Slot → List Node → Prop
  | nil (slots : List Slot) : Lays [] slots []
  | cons {t : Tree} {ts : List Tree} {slots rest : List Slot} {n : Node} {ns : List Node}
      (h : t.place slots = some (n, rest)) (hrest : Lays ts (slots.drop t.width) ns) :
      Lays (t :: ts) slots (n :: ns)

theorem isExtra_of_place {t : Tree} {slots rest : List Slot} {n : Node}
    (h : t.place slots = some (n, rest)) : n.isExtra = false := by
  cases t with
  | leaf l =>
      obtain ⟨span, -, rfl⟩ := place_leaf_iff.mp h
      rfl
  | node k ts =>
      obtain ⟨ns, -, rfl⟩ := place_node_iff.mp h
      rfl

theorem filter_commentsInside (slots : List Slot) :
    (Slot.commentsInside slots).filter (!·.isExtra) = [] := by
  cases slots <;> simp [Slot.commentsInside, Node.isExtra]

theorem lays_of_placeMore {ts : List Tree} {slots rest : List Slot} {ns : List Node}
    (h : placeMore ts slots = some (ns, rest)) : Lays ts slots (ns.filter (!·.isExtra)) := by
  induction ts generalizing slots ns with
  | nil =>
      obtain ⟨rfl, -⟩ := placeMore_nil_iff.mp h
      exact .nil slots
  | cons t ts ih =>
      obtain ⟨m, middle, ms, hm, hms, rfl⟩ := placeMore_cons_iff.mp h
      obtain rfl := eq_drop_of_place t hm
      rw [List.filter_append, filter_commentsInside, List.nil_append,
        List.filter_cons_of_pos (by simp [isExtra_of_place hm])]
      exact .cons hm (ih hms)

/-- The parts of a node are laid over slots one after another. -/
theorem lays_of_placeAll {ts : List Tree} {slots rest : List Slot} {ns : List Node}
    (h : placeAll ts slots = some (ns, rest)) : Lays ts slots (ns.filter (!·.isExtra)) := by
  cases ts with
  | nil =>
      obtain ⟨rfl, -⟩ := placeAll_nil_iff.mp h
      exact .nil slots
  | cons t ts =>
      obtain ⟨m, middle, ms, hm, hms, rfl⟩ := placeAll_cons_iff.mp h
      obtain rfl := eq_drop_of_place t hm
      rw [List.filter_cons_of_pos (by simp [isExtra_of_place hm])]
      exact .cons hm (lays_of_placeMore hms)

/-- Each part of a row has its own slots. -/
theorem Lays.exists_of_append {ts : List Tree} {slots : List Slot} {pre post : List Node}
    (h : Lays ts slots (pre ++ post)) : ∃ us vs, ts = us ++ vs ∧
      Lays vs (slots.drop (widthAll us)) post := by
  induction pre generalizing ts slots with
  | nil => exact ⟨[], ts, rfl, h⟩
  | cons n pre ih =>
      cases h with
      | @cons t ts _ _ _ _ hn hrest =>
          obtain ⟨us, vs, rfl, hvs⟩ := ih hrest
          exact ⟨t :: us, vs, rfl, by rwa [List.drop_drop] at hvs⟩

/-- A tree without tokens takes no slots. -/
theorem eq_of_tokens_eq_nil {t : Tree} {slots rest : List Slot} {n : Node}
    (h : t.place slots = some (n, rest)) (hn : n.tokens = []) : rest = slots := by
  have hleaves := n.map_tokens
  rw [trees_of_place t h, hn, leavesAll_cons, leavesAll_nil, List.append_nil] at hleaves
  have hwidth := widthAll_eq_length [t]
  rw [unitsAll, leavesAll_cons, leavesAll_nil, ← hleaves, widthAll, widthAll] at hwidth
  rw [eq_drop_of_place t h, show t.width = 0 by simpa using hwidth, List.drop_zero]

mutual

/-- The first token of a node starts at its first slot. -/
theorem start_of_place : (t : Tree) → ∀ {slots rest : List Slot} {n : Node} {l : Leaf} {s : Span},
    t.place slots = some (n, rest) → n.tokens.head? = some (l, s) →
    ∃ slot ∈ slots.head?, s.start = slot.span.start
  | .leaf l, slots, rest, n, l', s, h, hhead => by
      obtain ⟨span, hspan, rfl⟩ := place_leaf_iff.mp h
      obtain ⟨-, rfl⟩ : l = l' ∧ span = s := by simpa [Node.tokens] using hhead
      rcases Leaf.place_cases hspan with ⟨x, s', -, rfl, rfl⟩ | ⟨x, y, s', t, -, rfl, -, -, rfl⟩
      · exact ⟨s', rfl, rfl⟩
      · exact ⟨s', rfl, rfl⟩
  | .node k ts, slots, rest, n, l, s, h, hhead => by
      obtain ⟨ns, hns, rfl⟩ := place_node_iff.mp h
      exact start_of_placeAll ts hns hhead

theorem start_of_placeAll : (ts : List Tree) → ∀ {slots rest : List Slot} {ns : List Node}
    {l : Leaf} {s : Span}, placeAll ts slots = some (ns, rest) →
    (Node.tokensAll ns).head? = some (l, s) → ∃ slot ∈ slots.head?, s.start = slot.span.start
  | [], slots, rest, ns, l, s, h, hhead => by
      obtain ⟨rfl, -⟩ := placeAll_nil_iff.mp h
      simp [Node.tokensAll] at hhead
  | t :: ts, slots, rest, ns, l, s, h, hhead => by
      obtain ⟨m, middle, ms, hm, hms, rfl⟩ := placeAll_cons_iff.mp h
      rw [Node.tokensAll, List.head?_append] at hhead
      cases hfirst : m.tokens.head? with
      | some token => exact start_of_place t hm (by simpa [hfirst] using hhead)
      | none =>
          obtain rfl := eq_of_tokens_eq_nil hm (List.head?_eq_none_iff.mp hfirst)
          exact start_of_placeMore ts hms (by simpa [hfirst] using hhead)

theorem start_of_placeMore : (ts : List Tree) → ∀ {slots rest : List Slot} {ns : List Node}
    {l : Leaf} {s : Span}, placeMore ts slots = some (ns, rest) →
    (Node.tokensAll ns).head? = some (l, s) → ∃ slot ∈ slots.head?, s.start = slot.span.start
  | [], slots, rest, ns, l, s, h, hhead => by
      obtain ⟨rfl, -⟩ := placeMore_nil_iff.mp h
      simp [Node.tokensAll] at hhead
  | t :: ts, slots, rest, ns, l, s, h, hhead => by
      obtain ⟨m, middle, ms, hm, hms, rfl⟩ := placeMore_cons_iff.mp h
      rw [Node.tokensAll_append, Slot.tokensAll_commentsInside, List.nil_append, Node.tokensAll,
        List.head?_append] at hhead
      cases hfirst : m.tokens.head? with
      | some token => exact start_of_place t hm (by simpa [hfirst] using hhead)
      | none =>
          obtain rfl := eq_of_tokens_eq_nil hm (List.head?_eq_none_iff.mp hfirst)
          exact start_of_placeMore ts hms (by simpa [hfirst] using hhead)

end

/-- What is said of a row is said of the end of it. -/
theorem JoinsAll.of_append {ls : List Lexeme} {ts us : List Tree} (h : JoinsAll ls (ts ++ us)) :
    JoinsAll (ls.drop (widthAll ts)) us := by
  induction ts generalizing ls with
  | nil => exact h
  | cons t ts ih =>
      have := ih h.2.2
      rwa [List.drop_drop] at this

/-- A part of a row is laid over the slots from some index on. -/
theorem exists_place_of_mem {ts us : List Tree} {slots rest : List Slot} {ns : List Node}
    {ls : List Lexeme} (h : placeAll ts slots = some (ns, rest)) (hjoins : JoinsAll ls (ts ++ us))
    {n : Node} (hn : n ∈ ns) (hextra : n.isExtra = false) :
    ∃ (i : Nat) (t : Tree) (rest' : List Slot), t.place (slots.drop i) = some (n, rest') ∧
      t.Joins (ls.drop i) := by
  have hmem : n ∈ ns.filter (!·.isExtra) := List.mem_filter.mpr ⟨hn, by simp [hextra]⟩
  obtain ⟨pre, post, hfilter⟩ := List.append_of_mem hmem
  have hlays := lays_of_placeAll h
  rw [hfilter] at hlays
  obtain ⟨vs, ws, rfl, hws⟩ := hlays.exists_of_append
  rw [List.append_assoc] at hjoins
  have hrow := hjoins.of_append
  cases hws with
  | cons hplace _ => exact ⟨_, _, _, hplace, hrow.1⟩

end Tree

/-! ## Nodes that meet -/

namespace Node

variable {m n x y : Node} {pre post : List Node} {slots rest : List Slot} {ls : List Lexeme}
  {t : Tree}

/-- A part of a node is laid over the slots from some index on. -/
theorem Contains.exists_place (h : m.Contains n) (hn : n.parts ≠ [])
    (hplace : t.place slots = some (m, rest)) (hjoins : t.Joins ls) :
    ∃ (i : Nat) (u : Tree) (rest' : List Slot), u.place (slots.drop i) = some (n, rest') ∧
      u.Joins (ls.drop i) := by
  induction h generalizing t slots rest ls with
  | refl => exact ⟨0, t, rest, hplace, hjoins⟩
  | @child k children c n hc hcn ih =>
      cases t with
      | leaf l =>
          obtain ⟨span, -, heq⟩ := Tree.place_leaf_iff.mp hplace
          simp at heq
      | node k' ts =>
          obtain ⟨ns, hns, heq⟩ := Tree.place_node_iff.mp hplace
          obtain ⟨rfl, rfl⟩ := Node.branch.inj heq
          -- a comment has no parts
          have hextra : c.isExtra = false := by
            cases c with
            | comment inside s =>
                cases hcn with
                | refl => simp [parts] at hn
            | _ => rfl
          have hrow := Tree.joins_node.mp hjoins
          rw [← List.append_nil ts] at hrow
          obtain ⟨i, u, rest', hu, hjoins'⟩ := Tree.exists_place_of_mem hns hrow hc hextra
          obtain ⟨j, v, rest'', hv, hjoins''⟩ := ih hn hu hjoins'
          rw [List.drop_drop] at hv hjoins''
          exact ⟨_, v, rest'', hv, hjoins''⟩

/-- Two parts that follow each other come from trees that meet, the second of which has the slots
from some index on. -/
theorem Contains.exists_parted (h : m.Contains n) (hparts : n.parts = pre ++ x :: y :: post)
    (hplace : t.place slots = some (m, rest)) (hjoins : t.Joins ls) :
    ∃ (i : Nat) (u v : Tree) (rest' : List Slot), x.trees = [u] ∧ y.trees = [v] ∧
      v.place (slots.drop i) = some (y, rest') ∧
      (u.meets v = true → u.EndsInName → v.StartsInParen → u.Parted v (ls.drop i)) := by
  obtain ⟨i, w, rest', hw, hjoins⟩ := h.exists_place (by simp [hparts]) hplace hjoins
  cases w with
  | leaf l =>
      obtain ⟨span, -, rfl⟩ := Tree.place_leaf_iff.mp hw
      simp [parts] at hparts
  | node k ts =>
      obtain ⟨ns, hns, rfl⟩ := Tree.place_node_iff.mp hw
      have hlays := Tree.lays_of_placeAll hns
      rw [show ns.filter (!·.isExtra) = pre ++ x :: y :: post from hparts] at hlays
      obtain ⟨us, vs, rfl, hvs⟩ := hlays.exists_of_append
      have hrow := (Tree.joins_node.mp hjoins).of_append
      cases hvs with
      | @cons u _ _ _ _ _ hu hvs =>
          cases hvs with
          | @cons v _ _ _ _ _ hv _ =>
              rw [List.drop_drop, List.drop_drop] at hv
              have hparted := hrow.2.1 v rfl
              rw [List.drop_drop, List.drop_drop] at hparted
              exact ⟨_, u, v, _, Tree.trees_of_place u hu, Tree.trees_of_place v hv, hv, hparted⟩

end Node

/-! ## Programs -/

/-- A node of a program is a comment or is laid over the slots from some index on. -/
theorem Program.exists_place_of_mem {p : Program} {slots : List Slot} {nodes : List Node}
    {ls : List Lexeme} (h : p.place slots = some nodes)
    (hjoins : Tree.JoinsAll ls (p.flatMap Definition.trees)) {c : Node} (hc : c ∈ nodes)
    (hcomment : ∀ inside s, c ≠ .comment inside s) :
    ∃ (i : Nat) (t : Tree) (rest : List Slot), t.place (slots.drop i) = some (c, rest) ∧
      t.Joins (ls.drop i) := by
  induction p generalizing slots nodes ls with
  | nil =>
      obtain rfl := by simpa [place] using h
      simp at hc
  | cons d p ih =>
      obtain ⟨first, rest, more, hfirst, hmore, rfl⟩ := place_cons_iff.mp h
      obtain ⟨ns, hns, rfl⟩ := Definition.place_iff.mp hfirst
      rw [List.flatMap_cons] at hjoins
      rcases List.mem_append.mp hc with hc | hc
      · rcases List.mem_append.mp hc with hc | hc
        · obtain ⟨span, rfl⟩ := Slot.exists_of_mem_commentsBetween hc
          exact absurd rfl (hcomment false span)
        · have hextra : c.isExtra = false := by
            cases c with
            | comment inside s => exact absurd rfl (hcomment inside s)
            | _ => rfl
          exact Tree.exists_place_of_mem hns hjoins hc hextra
      · obtain rfl := Tree.eq_drop_of_placeAll d.trees hns
        obtain ⟨i, t, rest', ht, hjoins'⟩ := ih hmore hjoins.of_append hc
        rw [List.drop_drop] at ht hjoins'
        exact ⟨_, t, rest', ht, hjoins'⟩

end Heptagon
