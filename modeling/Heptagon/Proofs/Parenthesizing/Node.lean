import Heptagon.Proofs.Node.Changes
import Heptagon.Proofs.Parenthesizing.Tree
import Heptagon.Proofs.Program.Concatenation
import Heptagon.Proofs.Swap.Node

/-!
# An expression in parentheses in a source

If an expression of a source is put in parentheses, its node becomes an
expression that is a pair of parentheses with the node between them, and nothing
else changes but the places (`Node.Parenthesized`).

That is what is laid over the slots with two more among them: a tree with the
expression in parentheses over these is the node with the expression in
parentheses (`Tree.exists_parenthesized`, `Program.exists_parenthesized`).
-/

namespace Heptagon

namespace Node

/-- The node in parentheses that are put directly around it. -/
def inParens (n : Node) : Node :=
  branch .expression [branch .subExpression [token (.symbol .parenOpen) ⟨n.start, n.start + 1⟩,
    n.moveBy 1, token (.symbol .parenClose) ⟨n.stop + 1, n.stop + 2⟩]]

/-- The second node is the first one with a part of it, `n`, in parentheses, in a source that has
these parentheses; what stands behind them is two bytes further on. -/
inductive Parenthesized (n : Node) : Node → Node → Prop
  | here : Parenthesized n n n.inParens
  | child {k : Kind} (before : List Node) {m m' : Node} (after : List Node)
      (h : Parenthesized n m m') : Parenthesized n (branch k (before ++ m :: after))
        (branch k (before ++ m' :: after.map (.moveBy 2)))

/-- The second row of nodes is the first one with a part, `n`, of one of them in parentheses. -/
def ParenthesizedAll (n : Node) (ns ns' : List Node) : Prop :=
  ∃ before m m' after, ns = before ++ m :: after ∧ ns' = before ++ m' :: after.map (.moveBy 2) ∧
    n.Parenthesized m m'

variable {n m m' : Node} {ns ns' : List Node}

theorem Parenthesized.branch {k : Kind} (h : n.ParenthesizedAll ns ns') :
    n.Parenthesized (branch k ns) (branch k ns') := by
  obtain ⟨before, m, m', after, rfl, rfl, h⟩ := h
  exact .child before after h

namespace ParenthesizedAll

theorem head (h : n.Parenthesized m m') (ms : List Node) :
    n.ParenthesizedAll (m :: ms) (m' :: ms.map (.moveBy 2)) :=
  ⟨[], m, m', ms, rfl, rfl, h⟩

theorem append_left (h : n.ParenthesizedAll ns ns') (ms : List Node) :
    n.ParenthesizedAll (ms ++ ns) (ms ++ ns') := by
  obtain ⟨before, m, m', after, rfl, rfl, h⟩ := h
  exact ⟨ms ++ before, m, m', after, by simp, by simp, h⟩

theorem append_right (h : n.ParenthesizedAll ns ns') (ms : List Node) :
    n.ParenthesizedAll (ns ++ ms) (ns' ++ ms.map (.moveBy 2)) := by
  obtain ⟨before, m, m', after, rfl, rfl, h⟩ := h
  exact ⟨before, m, m', after ++ ms, by simp, by simp, h⟩

end ParenthesizedAll

end Node

/-! ## Slots -/

/-- The slots of a text from the place of an expression on, with parentheses directly around the
expression, which has the first of them and the `middle` ones.  The comments before it stand before
the new parenthesis. -/
def Slot.inParens (s : Span) (first : Slot) (middle back : List Slot) : List Slot :=
  ⟨first.comments, ⟨s.start, s.start + 1⟩⟩ :: ((⟨[], first.span⟩ :: middle).map (.moveBy 1) ++
    ⟨[], ⟨s.stop + 1, s.stop + 2⟩⟩ :: back.map (.moveBy 2))

/-- The second slots are the first ones with those of two parentheses around the ones of the tree
`w`, which stands at a span behind some tokens. -/
def Slot.Wraps (s : Span) (w : Tree) (ls : List Leaf) (slots slots' : List Slot) : Prop :=
  ∃ front first middle back, slots = front ++ first :: (middle ++ back) ∧
    slots' = front ++ inParens s first middle back ∧
    front.length = (ls.flatMap Leaf.lexemes).length ∧ middle.length + 1 = w.width ∧
    first.span.start = s.start ∧ ∃ last ∈ (first :: middle).getLast?, last.span.stop = s.stop

namespace Slot.Wraps

variable {s : Span} {w : Tree} {ls : List Leaf} {slots slots' : List Slot}

theorem append_left (h : Wraps s w ls slots slots') {ms : List Leaf} {front : List Slot}
    (hfront : front.length = (ms.flatMap Leaf.lexemes).length) :
    Wraps s w (ms ++ ls) (front ++ slots) (front ++ slots') := by
  obtain ⟨front', first, middle, back, rfl, rfl, hlength, hspan⟩ := h
  exact ⟨front ++ front', first, middle, back, by simp, by simp, by simp [hfront, hlength], hspan⟩

/-- The comments before the first slot stay there. -/
theorem commentsInside (h : Wraps s w ls slots slots') :
    commentsInside slots' = commentsInside slots := by
  obtain ⟨front, first, middle, back, rfl, rfl, -⟩ := h
  cases front <;> rfl

theorem commentsBetween (h : Wraps s w ls slots slots') :
    commentsBetween slots' = commentsBetween slots := by
  obtain ⟨front, first, middle, back, rfl, rfl, -⟩ := h
  cases front <;> rfl

end Slot.Wraps

/-! ## Trees over their own slots -/

namespace Tree

variable {slots rest more : List Slot} {n : Node} {t : Tree}

mutual

theorem length_of_place : (t : Tree) → ∀ {slots rest : List Slot} {n : Node},
    t.place slots = some (n, rest) → slots.length = t.width + rest.length
  | .leaf l, slots, rest, n, h => by
      obtain ⟨span, hspan, rfl⟩ := place_leaf_iff.mp h
      rcases Leaf.place_cases hspan with ⟨x, s, hx, rfl, rfl⟩ | ⟨x, y, s, u, hxy, rfl, -, -, rfl⟩
      · simp [width, hx, Nat.add_comm]
      · simp only [width, hxy, List.length_cons, List.length_nil]
        omega
  | .node k ts, slots, rest, n, h => by
      obtain ⟨ns, hns, rfl⟩ := place_node_iff.mp h
      exact length_of_placeAll ts hns

theorem length_of_placeAll : (ts : List Tree) → ∀ {slots rest : List Slot} {ns : List Node},
    placeAll ts slots = some (ns, rest) → slots.length = widthAll ts + rest.length
  | [], _, _, _, h => by
      obtain ⟨-, rfl⟩ := placeAll_nil_iff.mp h
      simp [widthAll]
  | t :: ts, slots, rest, ns, h => by
      obtain ⟨m, middle, ms, hm, hms, -⟩ := placeAll_cons_iff.mp h
      rw [length_of_place t hm, length_of_placeMore ts hms, widthAll, Nat.add_assoc]

theorem length_of_placeMore : (ts : List Tree) → ∀ {slots rest : List Slot} {ns : List Node},
    placeMore ts slots = some (ns, rest) → slots.length = widthAll ts + rest.length
  | [], _, _, _, h => by
      obtain ⟨-, rfl⟩ := placeMore_nil_iff.mp h
      simp [widthAll]
  | t :: ts, slots, rest, ns, h => by
      obtain ⟨m, middle, ms, hm, hms, -⟩ := placeMore_cons_iff.mp h
      rw [length_of_place t hm, length_of_placeMore ts hms, widthAll, Nat.add_assoc]

end

/-- A tree is laid over the slots that it takes, whatever is behind them. -/
theorem exists_taken_of_place (ht : t.Wide) (h : t.place slots = some (n, rest)) :
    ∃ taken, slots = taken ++ rest ∧ taken.length = t.width ∧
      ∀ more, t.place (taken ++ more) = some (n, more) := by
  obtain ⟨taken, rfl⟩ := suffix_of_place t h
  have hlength : taken.length = t.width := by
    have := length_of_place t h
    simp only [List.length_append] at this
    omega
  rw [place_append t ht hlength.ge] at h
  obtain ⟨⟨n', rest'⟩, htaken, heq⟩ := Option.map_eq_some_iff.mp h
  obtain ⟨rfl, hrest⟩ := Prod.mk.inj heq
  obtain rfl : rest' = [] := by simpa using hrest
  exact ⟨taken, rfl, hlength, fun more => by rw [place_append t ht hlength.ge, htaken]; rfl⟩

theorem exists_taken_of_placeAll {ts : List Tree} {ns : List Node} (hts : ∀ t ∈ ts, t.Wide)
    (h : placeAll ts slots = some (ns, rest)) :
    ∃ taken, slots = taken ++ rest ∧ taken.length = widthAll ts ∧
      ∀ more, placeAll ts (taken ++ more) = some (ns, more) := by
  obtain ⟨taken, rfl⟩ := suffix_of_placeAll ts h
  have hlength : taken.length = widthAll ts := by
    have := length_of_placeAll ts h
    simp only [List.length_append] at this
    omega
  rw [placeAll_append ts hts hlength.ge] at h
  obtain ⟨⟨ns', rest'⟩, htaken, heq⟩ := Option.map_eq_some_iff.mp h
  obtain ⟨rfl, hrest⟩ := Prod.mk.inj heq
  obtain rfl : rest' = [] := by simpa using hrest
  exact ⟨taken, rfl, hlength, fun more => by rw [placeAll_append ts hts hlength.ge, htaken]; rfl⟩

/-- A node starts where its first slot does. -/
theorem start_eq_of_place : (t : Tree) → t.Wide → ∀ {s : Slot} {slots rest : List Slot} {n : Node},
    t.place (s :: slots) = some (n, rest) → n.start = s.span.start
  | .leaf l, _, s, slots, rest, n, h => by
      obtain ⟨span, hspan, rfl⟩ := place_leaf_iff.mp h
      rcases Leaf.place_cases hspan with ⟨x, s', -, heq, rfl⟩ | ⟨x, y, s', u, -, heq, -, -, rfl⟩ <;>
      · obtain ⟨rfl, -⟩ := List.cons.inj heq
        rfl
  | .node k [], .node hne _ _, _, _, _, _, _ => absurd rfl hne
  | .node k (t :: ts), .node _ _ hts, s, slots, rest, n, h => by
      obtain ⟨ns, hns, rfl⟩ := place_node_iff.mp h
      obtain ⟨m, middle, ms, hm, -, rfl⟩ := placeAll_cons_iff.mp hns
      show m.start = s.span.start
      exact start_eq_of_place t (hts t (by simp)) hm

mutual

/-- A node stops where its last slot does. -/
theorem stop_eq_of_place : (t : Tree) → t.Wide → ∀ {slots rest : List Slot} {n : Node},
    t.place slots = some (n, rest) → ∃ taken s, slots = taken ++ s :: rest ∧ n.stop = s.span.stop
  | .leaf l, _, slots, rest, n, h => by
      obtain ⟨span, hspan, rfl⟩ := place_leaf_iff.mp h
      rcases Leaf.place_cases hspan with ⟨x, s, -, rfl, rfl⟩ | ⟨x, y, s, u, -, rfl, -, -, rfl⟩
      · exact ⟨[], s, rfl, rfl⟩
      · exact ⟨[s], u, rfl, rfl⟩
  | .node k [], .node hne _ _, _, _, _, _ => absurd rfl hne
  | .node k (t :: ts), .node _ _ hts, slots, rest, n, h => by
      obtain ⟨ht, hts⟩ := List.forall_mem_cons.mp hts
      obtain ⟨ns, hns, rfl⟩ := place_node_iff.mp h
      obtain ⟨m, middle, ms, hm, hms, rfl⟩ := placeAll_cons_iff.mp hns
      have hlast := stop_eq_of_placeMore ts hts hms
      obtain ⟨rfl, rfl⟩ | ⟨taken, s, rfl, last, hlast, hstop⟩ := hlast
      · show ∃ taken s, slots = taken ++ s :: rest ∧ m.stop = s.span.stop
        exact stop_eq_of_place t ht hm
      · obtain ⟨before, rfl⟩ := suffix_of_place t hm
        refine ⟨before ++ taken, s, by simp, hstop ▸ ?_⟩
        exact Node.stopAll_eq_of_getLast? (by simp [List.getLast?_cons, Option.mem_def.mp hlast])

theorem stop_eq_of_placeMore : (ts : List Tree) → (∀ t ∈ ts, t.Wide) →
    ∀ {slots rest : List Slot} {ns : List Node}, placeMore ts slots = some (ns, rest) →
    ns = [] ∧ rest = slots ∨
      ∃ taken s, slots = taken ++ s :: rest ∧ ∃ n ∈ ns.getLast?, n.stop = s.span.stop
  | [], _, slots, rest, ns, h => by
      obtain ⟨rfl, rfl⟩ := placeMore_nil_iff.mp h
      exact .inl ⟨rfl, rfl⟩
  | t :: ts, hts, slots, rest, ns, h => by
      obtain ⟨ht, hts⟩ := List.forall_mem_cons.mp hts
      obtain ⟨m, middle, ms, hm, hms, rfl⟩ := placeMore_cons_iff.mp h
      obtain ⟨rfl, rfl⟩ | ⟨taken, s, rfl, last, hlast, hstop⟩ := stop_eq_of_placeMore ts hts hms
      · obtain ⟨taken, s, rfl, hstop⟩ := stop_eq_of_place t ht hm
        exact .inr ⟨taken, s, rfl, m, by simp, hstop⟩
      · obtain ⟨before, rfl⟩ := suffix_of_place t hm
        exact .inr ⟨before ++ taken, s, by simp, last,
          by simp [List.getLast?_cons, Option.mem_def.mp hlast], hstop⟩

end

/-- The comments before the first slot are none of those in a tree. -/
theorem place_of_comments : (t : Tree) → t.Wide → ∀ (cs cs' : List Span) (s : Span),
    t.place (⟨cs, s⟩ :: slots) = t.place (⟨cs', s⟩ :: slots)
  | .leaf l, _, cs, cs', s => rfl
  | .node k [], .node hne _ _, _, _, _ => absurd rfl hne
  | .node k (t :: ts), .node _ _ hts, cs, cs', s => by
      rw [place, place, placeAll, placeAll, place_of_comments t (hts t (by simp)) cs cs' s]

/-! ## Trees over slots with parentheses among them -/

variable {m c : Node} {ns : List Node} {w : Tree} {slots' : List Slot} {ts : List Tree}

/-- Over the slots with two parentheses more, a tree in parentheses is a node in parentheses. -/
theorem exists_parenthesized_here (ht : t.Wide) (h : t.place slots = some (n, rest)) :
    ∃ slots', Slot.Wraps n.span t [] slots slots' ∧
      t.parenthesized.place slots' = some (n.inParens, rest.map (.moveBy 2)) := by
  obtain ⟨taken, rfl, hlength, hplace⟩ := exists_taken_of_place ht h
  obtain ⟨first, middle, rfl⟩ : ∃ first middle, taken = first :: middle :=
    List.exists_cons_of_length_pos (hlength ▸ ht.width_pos)
  have hspan : first.span.start = n.span.start ∧
      ∃ last ∈ (first :: middle).getLast?, last.span.stop = n.span.stop := by
    refine ⟨(start_eq_of_place t ht h).symm, ?_⟩
    obtain ⟨init, last, heq, hstop⟩ := stop_eq_of_place t ht h
    obtain heq : first :: middle = init ++ [last] := by
      rw [List.append_cons] at heq
      exact List.append_cancel_right heq
    exact ⟨last, by simp [heq], hstop.symm⟩
  refine ⟨_, ⟨[], first, middle, rest, rfl, rfl, rfl, hlength, hspan⟩, ?_⟩
  have hmoved : t.place ((⟨[], first.span⟩ :: middle).map (.moveBy 1)) =
      some (n.moveBy 1, []) := by
    rw [place_moveBy, place_of_comments t ht [] first.comments, ← List.append_nil (_ :: middle),
      hplace []]
    rfl
  have hwidth : t.width ≤ ((⟨[], first.span⟩ :: middle).map (Slot.moveBy 1)).length := by
    simp [← hlength]
  have hinner : ∀ more, t.place ((⟨[], first.span⟩ :: middle).map (.moveBy 1) ++ more) =
      some (n.moveBy 1, more) := fun more => by
    rw [place_append t ht hwidth, hmoved]
    rfl
  have hmore : placeMore [t, .sym .parenClose] ((⟨[], first.span⟩ :: middle).map (.moveBy 1) ++
      ⟨[], ⟨n.stop + 1, n.stop + 2⟩⟩ :: rest.map (.moveBy 2)) =
      some ([n.moveBy 1, .token (.symbol .parenClose) ⟨n.stop + 1, n.stop + 2⟩],
        rest.map (.moveBy 2)) :=
    placeMore_cons_iff.mpr ⟨_, _, _, hinner _, rfl, rfl⟩
  refine place_node_iff.mpr ⟨_, placeAll_cons_iff.mpr ⟨_, _, [], place_node_iff.mpr ⟨_, ?_, rfl⟩,
    rfl, rfl⟩, rfl⟩
  exact placeAll_cons_iff.mpr ⟨.token (.symbol .parenOpen) _, _, _, rfl, hmore, rfl⟩

/-- With the expression `w` in it in parentheses, the tree of the node `m` is laid over the slots
with two more as the node with the part `n` in parentheses. -/
def Parenthesizes (t w : Tree) (n : Node) (slots rest : List Slot) (m : Node) : Prop :=
  ∃ ls t' slots' m', w.Turns w.parenthesized ls t t' ∧ n.Follows ls m.tokens ∧
    Slot.Wraps n.span w ls slots slots' ∧ t'.place slots' = some (m', rest.map (.moveBy 2)) ∧
    n.Parenthesized m m'

theorem map_tokens_of_place (h : t.place slots = some (n, rest)) :
    n.tokens.map Prod.fst = t.leaves := by
  simp [n.map_tokens, trees_of_place t h]

theorem placeMore_moved (h : placeMore ts slots = some (ns, rest)) :
    placeMore ts (slots.map (.moveBy 2)) = some (ns.map (.moveBy 2), rest.map (.moveBy 2)) := by
  rw [placeMore_moveBy, h]
  rfl

/-- A row with a node that has the part in it, behind a first node. -/
theorem exists_parenthesizedMore (hts : ∀ t ∈ ts, t.Wide) (h : placeMore ts slots = some (ns, rest))
    (hc : c ∈ ns) (hextra : c.isExtra = false)
    (hpart : ∀ t ∈ ts, ∀ slots rest, t.place slots = some (c, rest) →
      t.Parenthesizes w n slots rest c) :
    ∃ ls ts' slots' ns', w.TurnsAll w.parenthesized ls ts ts' ∧ n.Follows ls (Node.tokensAll ns) ∧
      Slot.Wraps n.span w ls slots slots' ∧ placeMore ts' slots' = some (ns', rest.map (.moveBy 2)) ∧
      n.ParenthesizedAll ns ns' := by
  induction ts generalizing slots ns with
  | nil =>
      obtain ⟨rfl, -⟩ := placeMore_nil_iff.mp h
      simp at hc
  | cons t ts ih =>
      obtain ⟨ht, hts⟩ := List.forall_mem_cons.mp hts
      obtain ⟨hfirst, hpart⟩ := List.forall_mem_cons.mp hpart
      obtain ⟨m, middle, ms, hm, hms, rfl⟩ := placeMore_cons_iff.mp h
      rcases List.mem_append.mp hc with hc | hc
      · have hnil := filter_commentsInside slots
        rw [List.filter_eq_nil_iff] at hnil
        exact absurd (by simp [hextra]) (hnil c hc)
      rcases List.mem_cons.mp hc with rfl | hc
      · obtain ⟨ls, t', slots', m', ht', hfollows, hslots, hplace, hm'⟩ := hfirst slots middle hm
        refine ⟨ls, t' :: ts, slots', _, turnsAll_cons.mpr (.inl ⟨t', ht', rfl⟩), ?_, hslots,
          placeMore_cons_iff.mpr ⟨_, _, _, hplace, placeMore_moved hms, rfl⟩, ?_⟩
        · simpa [Node.tokensAll] using hfollows.append_right (Node.tokensAll ms)
        · rw [hslots.commentsInside]
          exact (Node.ParenthesizedAll.head hm' ms).append_left _
      · obtain ⟨ls, ts', middle', ns', hts', hfollows, hmiddle, hmore, hns'⟩ := ih hts hms hc hpart
        obtain ⟨taken, rfl, hlength, hplace⟩ := exists_taken_of_place ht hm
        have hslots := hmiddle.append_left (hlength.trans (length_flatMap_leaves t).symm)
        refine ⟨_, t :: ts', _, _, turnsAll_cons.mpr (.inr ⟨ls, ts', rfl, hts', rfl⟩), ?_, hslots,
          placeMore_cons_iff.mpr ⟨_, _, _, hplace _, hmore, rfl⟩, ?_⟩
        · simpa [Node.tokensAll, map_tokens_of_place hm] using hfollows.append_left m.tokens
        · rw [hslots.commentsInside]
          exact (hns'.append_left [m]).append_left _

/-- The children of a node, one of which has the part in it. -/
theorem exists_parenthesizedAll (hts : ∀ t ∈ ts, t.Wide) (h : placeAll ts slots = some (ns, rest))
    (hc : c ∈ ns) (hextra : c.isExtra = false)
    (hpart : ∀ t ∈ ts, ∀ slots rest, t.place slots = some (c, rest) →
      t.Parenthesizes w n slots rest c) :
    ∃ ls ts' slots' ns', w.TurnsAll w.parenthesized ls ts ts' ∧ n.Follows ls (Node.tokensAll ns) ∧
      Slot.Wraps n.span w ls slots slots' ∧ placeAll ts' slots' = some (ns', rest.map (.moveBy 2)) ∧
      n.ParenthesizedAll ns ns' := by
  cases ts with
  | nil =>
      obtain ⟨rfl, -⟩ := placeAll_nil_iff.mp h
      simp at hc
  | cons t ts =>
      obtain ⟨ht, hts⟩ := List.forall_mem_cons.mp hts
      obtain ⟨hfirst, hpart⟩ := List.forall_mem_cons.mp hpart
      obtain ⟨m, middle, ms, hm, hms, rfl⟩ := placeAll_cons_iff.mp h
      rcases List.mem_cons.mp hc with rfl | hc
      · obtain ⟨ls, t', slots', m', ht', hfollows, hslots, hplace, hm'⟩ := hfirst slots middle hm
        exact ⟨ls, t' :: ts, slots', _, turnsAll_cons.mpr (.inl ⟨t', ht', rfl⟩),
          hfollows.append_right (Node.tokensAll ms), hslots,
          placeAll_cons_iff.mpr ⟨_, _, _, hplace, placeMore_moved hms, rfl⟩, .head hm' ms⟩
      · obtain ⟨ls, ts', middle', ns', hts', hfollows, hmiddle, hmore, hns'⟩ :=
          exists_parenthesizedMore hts hms hc hextra hpart
        obtain ⟨taken, rfl, hlength, hplace⟩ := exists_taken_of_place ht hm
        exact ⟨_, t :: ts', _, _, turnsAll_cons.mpr (.inr ⟨ls, ts', rfl, hts', rfl⟩),
          map_tokens_of_place hm ▸ hfollows.append_left m.tokens,
          hmiddle.append_left (hlength.trans (length_flatMap_leaves t).symm),
          placeAll_cons_iff.mpr ⟨_, _, _, hplace _, hmore, rfl⟩, hns'.append_left [m]⟩

/-- An expression that is part of a node can be put in parentheses in the tree of the node. -/
theorem parenthesizes_of_contains (h : m.Contains n) (hn : n.label ≠ .named .comment)
    (hw : n.trees = [w]) : ∀ {t : Tree} {slots rest : List Slot}, t.Wide →
    t.place slots = some (m, rest) → t.Parenthesizes w n slots rest m := by
  induction h with
  | refl n =>
      intro t slots rest ht hplace
      obtain rfl : t = w := by simpa [trees_of_place t hplace] using hw
      obtain ⟨slots', hslots, hplace'⟩ := exists_parenthesized_here ht hplace
      exact ⟨[], _, slots', _, .here, ⟨[], [], by simp, rfl⟩, hslots, hplace', .here⟩
  | @child k children c n hc hcn ih =>
      intro t slots rest ht hplace
      cases ht with
      | leaf =>
          obtain ⟨span, -, heq⟩ := place_leaf_iff.mp hplace
          simp at heq
      | node _ _ hts =>
          obtain ⟨ns, hns, heq⟩ := place_node_iff.mp hplace
          obtain ⟨rfl, rfl⟩ := Node.branch.inj heq
          obtain ⟨ls, ts', slots', ns', hts', hfollows, hslots, hplace', hns'⟩ :=
            exists_parenthesizedAll hts hns hc (hcn.isExtra_eq_false hn)
              fun t ht _ _ => ih hn hw (hts t ht)
          obtain ⟨before, t, t', after, ls, rfl, rfl, rfl, ht'⟩ := hts'
          exact ⟨_, _, slots', _, .child before ht', hfollows, hslots,
            place_node_iff.mpr ⟨_, hplace', rfl⟩, .branch hns'⟩

end Tree

/-! ## Programs over slots with parentheses among them -/

/-- An expression that is part of a node of a program can be put in parentheses in one of its
definitions. -/
theorem Program.exists_parenthesized {c n : Node} (hcn : c.Contains n)
    (hn : n.label ≠ .named .comment) {w : Tree} (hw : n.trees = [w]) :
    (p : Program) → p.Fits → ∀ {slots : List Slot} {nodes : List Node}, p.place slots = some nodes →
      c ∈ nodes → ∃ front d back ls ts' slots', p = front ++ d :: back ∧
        w.TurnsAll w.parenthesized ls d.trees ts' ∧
        n.Follows (Tree.leavesAll (front.flatMap Definition.trees) ++ ls) (Node.tokensAll nodes) ∧
        Slot.Wraps n.span w (Tree.leavesAll (front.flatMap Definition.trees) ++ ls) slots slots' ∧
        ∀ d' : Definition, d'.trees = ts' → ∃ nodes',
          place (front ++ d' :: back) slots' = some nodes' ∧ n.ParenthesizedAll nodes nodes'
  | [], _, slots, nodes, h, hc => by
      obtain rfl := by simpa [place] using h
      simp at hc
  | d :: p, ⟨hd, hp⟩, slots, nodes, h, hc => by
      obtain ⟨first, rest, more, hfirst, hmore, rfl⟩ := place_cons_iff.mp h
      obtain ⟨ns, hns, rfl⟩ := Definition.place_iff.mp hfirst
      rcases List.mem_append.mp hc with hc | hc
      · have hc : c ∈ ns := (List.mem_append.mp hc).resolve_left fun hc => by
          obtain ⟨span, rfl⟩ := Slot.exists_of_mem_commentsBetween hc
          exact hcn.ne_comment hn false span rfl
        obtain ⟨ls, ts', slots', ns', hts', hfollows, hslots, hplace, hns'⟩ :=
          Tree.exists_parenthesizedAll (Definition.wide_trees hd) hns hc (hcn.isExtra_eq_false hn)
            fun t ht _ _ => Tree.parenthesizes_of_contains hcn hn hw (Definition.wide_trees hd t ht)
        refine ⟨[], d, p, ls, ts', slots', rfl, hts', ?_, by simpa using hslots, ?_⟩
        · simpa [Slot.tokensAll_commentsBetween] using hfollows.append_right (Node.tokensAll more)
        rintro d' rfl
        have hback : place p (rest.map (.moveBy 2)) = some (more.map (.moveBy 2)) := by
          rw [place_moveBy, hmore]
          rfl
        refine ⟨_, place_cons_iff.mpr ⟨_, _, _, Definition.place_iff.mpr ⟨_, hplace, rfl⟩, hback,
          rfl⟩, ?_⟩
        rw [hslots.commentsBetween]
        exact (hns'.append_left _).append_right more
      · obtain ⟨front, d₀, back, ls, ts', rest', rfl, hts', hfollows, hslots, hplace⟩ :=
          Program.exists_parenthesized hcn hn hw p hp hmore hc
        obtain ⟨taken, rfl, hlength, hfirst⟩ :=
          Tree.exists_taken_of_placeAll (Definition.wide_trees hd) hns
        have hslots := hslots.append_left (hlength.trans (Tree.length_flatMap_leavesAll _).symm)
        refine ⟨d :: front, d₀, back, ls, ts', _, rfl, hts', ?_, by simpa using hslots,
          fun d' hd' => ?_⟩
        · have hleaves : (Node.tokensAll ns).map Prod.fst = Tree.leavesAll d.trees := by
            rw [Node.map_tokensAll, Tree.trees_of_placeAll d.trees hns]
          simpa [Slot.tokensAll_commentsBetween, hleaves] using
            hfollows.append_left (Node.tokensAll ns)
        obtain ⟨more', hmore', hnodes⟩ := hplace d' hd'
        refine ⟨_, place_cons_iff.mpr ⟨_, _, _, Definition.place_iff.mpr ⟨_, hfirst _, rfl⟩, hmore',
          rfl⟩, ?_⟩
        rw [hslots.commentsBetween]
        exact hnodes.append_left _

end Heptagon
