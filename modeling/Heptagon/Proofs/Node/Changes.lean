import Heptagon.Proofs.Node.Comments
import Heptagon.Row
import Mathlib.Data.List.Chain

/-!
# Trees over changed slots

The slots of a tree may lose comments, and their spans may move.  Then the tree
can still be laid over them, and the nodes change in the same way.

* `Tree.place_without`: without some comments, the result is the same without
  them.
* `Tree.place_stretch`: if a text is stretched by putting something at a place
  that is inside no token, the result is stretched.
* `Tree.exists_place_of_touchAs`: whether a tree can be laid over slots depends
  only on which of them touch.

A node neither starts nor ends with a comment (`Node.Tight`), so that the span
of a node does not depend on its comments, and losing comments is losing rows
(`Node.rows_without`).
-/

namespace Heptagon

/-! ## Without comments -/

namespace Node

/-- Whether the node is a comment. -/
def isComment : Node → Bool
  | comment _ _ => true
  | _ => false

/-- Whether the node is a comment whose span is among some. -/
def isDropped (drop : Span → Bool) : Node → Bool
  | comment _ s => drop s
  | _ => false

mutual

/-- The node without those comments in it whose spans are among some. -/
def without (drop : Span → Bool) : Node → Node
  | token l s => token l s
  | comment inside s => comment inside s
  | branch k children => branch k (withoutAll drop children)

/-- The row of nodes without those comments whose spans are among some. -/
def withoutAll (drop : Span → Bool) : List Node → List Node
  | [] => []
  | n :: ns => if n.isDropped drop then withoutAll drop ns else n.without drop :: withoutAll drop ns

end

variable {drop : Span → Bool}

@[simp] theorem withoutAll_nil : withoutAll drop [] = [] := rfl

theorem withoutAll_cons (n : Node) (ns : List Node) : withoutAll drop (n :: ns) =
    if n.isDropped drop then withoutAll drop ns else n.without drop :: withoutAll drop ns := rfl

@[simp] theorem withoutAll_append (ns ms : List Node) :
    withoutAll drop (ns ++ ms) = withoutAll drop ns ++ withoutAll drop ms := by
  induction ns with
  | nil => rfl
  | cons n ns ih =>
      rw [List.cons_append, withoutAll_cons, withoutAll_cons, ih]
      split <;> rfl

@[simp] theorem withoutAll_map_comment (inside : Bool) (cs : List Span) :
    withoutAll drop (cs.map (.comment inside)) =
      (cs.filter (!drop ·)).map (.comment inside) := by
  induction cs with
  | nil => rfl
  | cons c cs ih =>
      rw [List.map_cons, withoutAll_cons, ih, List.filter_cons]
      cases h : drop c <;> simp [isDropped, h, without]

theorem isDropped_of_isComment {n : Node} (h : n.isComment = false) : n.isDropped drop = false := by
  cases n with
  | comment => simp [isComment] at h
  | _ => rfl

end Node

/-- The slot without those comments before it whose spans are among some. -/
def Slot.without (drop : Span → Bool) (s : Slot) : Slot :=
  ⟨s.comments.filter (!drop ·), s.span⟩

@[simp] theorem Slot.withoutAll_commentsInside (drop : Span → Bool) (slots : List Slot) :
    Node.withoutAll drop (commentsInside slots) = commentsInside (slots.map (·.without drop)) := by
  cases slots with
  | nil => rfl
  | cons s slots => exact Node.withoutAll_map_comment true s.comments

/-- What can be laid over slots can be laid over them without comments. -/
theorem Leaf.place_without (drop : Span → Bool) {l : Leaf} {slots rest : List Slot} {span : Span}
    (h : l.place slots = some (span, rest)) :
    l.place (slots.map (·.without drop)) = some (span, rest.map (·.without drop)) := by
  rcases Leaf.place_cases h with ⟨x, s, hx, rfl, rfl⟩ | ⟨x, y, s, t, hxy, rfl, ht, htouch, rfl⟩
  · simp [place, hx, Slot.without]
  · simp [place, hxy, ht, htouch, Slot.without]

namespace Tree

/-- A tree over slots is no comment. -/
theorem isComment_of_place {t : Tree} {slots rest : List Slot} {n : Node}
    (h : t.place slots = some (n, rest)) : n.isComment = false := by
  cases t with
  | leaf l =>
      obtain ⟨span, -, rfl⟩ := place_leaf_iff.mp h
      rfl
  | node k ts =>
      obtain ⟨ns, -, rfl⟩ := place_node_iff.mp h
      rfl

mutual

theorem place_without (drop : Span → Bool) : (t : Tree) → ∀ {slots rest : List Slot} {n : Node},
    t.place slots = some (n, rest) →
    t.place (slots.map (·.without drop)) = some (n.without drop, rest.map (·.without drop))
  | .leaf l, slots, rest, n, h => by
      obtain ⟨span, hspan, rfl⟩ := place_leaf_iff.mp h
      exact place_leaf_iff.mpr ⟨span, Leaf.place_without drop hspan, rfl⟩
  | .node k ts, slots, rest, n, h => by
      obtain ⟨ns, hns, rfl⟩ := place_node_iff.mp h
      exact place_node_iff.mpr ⟨_, placeAll_without drop ts hns, rfl⟩

theorem placeAll_without (drop : Span → Bool) : (ts : List Tree) →
    ∀ {slots rest : List Slot} {ns : List Node}, placeAll ts slots = some (ns, rest) →
    placeAll ts (slots.map (·.without drop)) =
      some (Node.withoutAll drop ns, rest.map (·.without drop))
  | [], slots, rest, ns, h => by
      obtain ⟨rfl, rfl⟩ := placeAll_nil_iff.mp h
      rfl
  | t :: ts, slots, rest, ns, h => by
      obtain ⟨m, middle, ms, hm, hms, rfl⟩ := placeAll_cons_iff.mp h
      refine placeAll_cons_iff.mpr ⟨_, _, _, place_without drop t hm, placeMore_without drop ts hms, ?_⟩
      rw [Node.withoutAll_cons, Node.isDropped_of_isComment (isComment_of_place hm)]
      rfl

theorem placeMore_without (drop : Span → Bool) : (ts : List Tree) →
    ∀ {slots rest : List Slot} {ns : List Node}, placeMore ts slots = some (ns, rest) →
    placeMore ts (slots.map (·.without drop)) =
      some (Node.withoutAll drop ns, rest.map (·.without drop))
  | [], slots, rest, ns, h => by
      obtain ⟨rfl, rfl⟩ := placeMore_nil_iff.mp h
      rfl
  | t :: ts, slots, rest, ns, h => by
      obtain ⟨m, middle, ms, hm, hms, rfl⟩ := placeMore_cons_iff.mp h
      refine placeMore_cons_iff.mpr
        ⟨_, _, _, place_without drop t hm, placeMore_without drop ts hms, ?_⟩
      rw [Node.withoutAll_append, Slot.withoutAll_commentsInside, Node.withoutAll_cons,
        Node.isDropped_of_isComment (isComment_of_place hm)]
      rfl

end

end Tree

/-! ## Slots that touch -/

/-- Nothing stands between two slots. -/
def Slot.Touch (s t : Slot) : Prop := s.span.stop = t.span.start ∧ t.comments = []

/-- Slots touch where some other slots do. -/
inductive Slot.TouchAs : List Slot → List Slot → Prop
  | nil : TouchAs [] []
  | single (s s' : Slot) : TouchAs [s] [s']
  | cons {s t s' t' : Slot} {slots slots' : List Slot} (h : s'.Touch t' → s.Touch t)
      (hrest : TouchAs (t :: slots) (t' :: slots')) : TouchAs (s :: t :: slots) (s' :: t' :: slots')

theorem Slot.TouchAs.tail {s s' : Slot} {slots slots' : List Slot}
    (h : TouchAs (s :: slots) (s' :: slots')) : TouchAs slots slots' := by
  cases h with
  | single => exact .nil
  | cons _ hrest => exact hrest

/-- Slots touch as other slots of the same text do if each two neighbours do. -/
theorem Slot.TouchAs.of_map {f g : Slot → Slot} {slots : List Slot}
    (h : slots.IsChain fun s t => (g s).Touch (g t) → (f s).Touch (f t)) :
    TouchAs (slots.map f) (slots.map g) := by
  induction slots with
  | nil => exact .nil
  | cons s slots ih =>
      cases slots with
      | nil => exact .single _ _
      | cons t slots =>
          obtain ⟨hs, hrest⟩ := List.isChain_cons_cons.mp h
          exact .cons hs (ih hrest)

theorem Leaf.exists_place_of_touchAs {l : Leaf} {slots slots' rest' : List Slot} {span' : Span}
    (htouch : Slot.TouchAs slots slots') (h : l.place slots' = some (span', rest')) :
    ∃ span rest, l.place slots = some (span, rest) ∧ Slot.TouchAs rest rest' := by
  rcases Leaf.place_cases h with ⟨x, s', hx, rfl, -⟩ | ⟨x, y, s', t', hxy, rfl, ht, hst, -⟩
  · cases slots with
    | nil => cases htouch
    | cons s rest => exact ⟨s.span, rest, by simp [place, hx], htouch.tail⟩
  · cases htouch with
    | @cons s t _ _ rest _ htouches hrest =>
        obtain ⟨hst', ht'⟩ := htouches ⟨hst, ht⟩
        exact ⟨⟨s.span.start, t.span.stop⟩, rest, by simp [place, hxy, hst', ht'], hrest.tail⟩

namespace Tree

mutual

/-- A tree can be laid over slots that touch as others do over which it can be laid. -/
theorem exists_place_of_touchAs : (t : Tree) → ∀ {slots slots' rest' : List Slot} {n' : Node},
    Slot.TouchAs slots slots' → t.place slots' = some (n', rest') →
    ∃ n rest, t.place slots = some (n, rest) ∧ Slot.TouchAs rest rest'
  | .leaf l, slots, slots', rest', n', htouch, h => by
      obtain ⟨span', hspan, -⟩ := place_leaf_iff.mp h
      obtain ⟨span, rest, hplace, hrest⟩ := Leaf.exists_place_of_touchAs htouch hspan
      exact ⟨_, rest, place_leaf_iff.mpr ⟨span, hplace, rfl⟩, hrest⟩
  | .node k ts, slots, slots', rest', n', htouch, h => by
      obtain ⟨ns', hns, -⟩ := place_node_iff.mp h
      obtain ⟨ns, rest, hplace, hrest⟩ := exists_placeAll_of_touchAs ts htouch hns
      exact ⟨_, rest, place_node_iff.mpr ⟨ns, hplace, rfl⟩, hrest⟩

theorem exists_placeAll_of_touchAs : (ts : List Tree) →
    ∀ {slots slots' rest' : List Slot} {ns' : List Node}, Slot.TouchAs slots slots' →
    placeAll ts slots' = some (ns', rest') →
    ∃ ns rest, placeAll ts slots = some (ns, rest) ∧ Slot.TouchAs rest rest'
  | [], slots, slots', rest', ns', htouch, h => by
      obtain ⟨-, rfl⟩ := placeAll_nil_iff.mp h
      exact ⟨[], slots, rfl, htouch⟩
  | t :: ts, slots, slots', rest', ns', htouch, h => by
      obtain ⟨m', middle', ms', hm', hms', -⟩ := placeAll_cons_iff.mp h
      obtain ⟨m, middle, hm, htouch⟩ := exists_place_of_touchAs t htouch hm'
      obtain ⟨ms, rest, hms, hrest⟩ := exists_placeMore_of_touchAs ts htouch hms'
      exact ⟨_, rest, placeAll_cons_iff.mpr ⟨m, middle, ms, hm, hms, rfl⟩, hrest⟩

theorem exists_placeMore_of_touchAs : (ts : List Tree) →
    ∀ {slots slots' rest' : List Slot} {ns' : List Node}, Slot.TouchAs slots slots' →
    placeMore ts slots' = some (ns', rest') →
    ∃ ns rest, placeMore ts slots = some (ns, rest) ∧ Slot.TouchAs rest rest'
  | [], slots, slots', rest', ns', htouch, h => by
      obtain ⟨-, rfl⟩ := placeMore_nil_iff.mp h
      exact ⟨[], slots, rfl, htouch⟩
  | t :: ts, slots, slots', rest', ns', htouch, h => by
      obtain ⟨m', middle', ms', hm', hms', -⟩ := placeMore_cons_iff.mp h
      obtain ⟨m, middle, hm, htouch⟩ := exists_place_of_touchAs t htouch hm'
      obtain ⟨ms, rest, hms, hrest⟩ := exists_placeMore_of_touchAs ts htouch hms'
      exact ⟨_, rest, placeMore_cons_iff.mpr ⟨m, middle, ms, hm, hms, rfl⟩, hrest⟩

end

end Tree

/-! ## Stretched -/

/-- The span in a text that is stretched at a place: what ends there stays, what starts there
moves. -/
def Span.stretch (place n : Nat) (s : Span) : Span :=
  ⟨if s.start < place then s.start else s.start + n, if s.stop ≤ place then s.stop else s.stop + n⟩

namespace Node

mutual

/-- The node in a stretched text. -/
def stretch (place n : Nat) : Node → Node
  | token l s => token l (s.stretch place n)
  | comment inside s => comment inside (s.stretch place n)
  | branch k children => branch k (stretchAll place n children)

/-- The row of nodes in a stretched text. -/
def stretchAll (place n : Nat) : List Node → List Node
  | [] => []
  | m :: ms => m.stretch place n :: stretchAll place n ms

end

variable {place n : Nat}

@[simp] theorem stretchAll_append (ns ms : List Node) :
    stretchAll place n (ns ++ ms) = stretchAll place n ns ++ stretchAll place n ms := by
  induction ns with
  | nil => rfl
  | cons m ns ih => simp [stretchAll, ih]

@[simp] theorem stretchAll_map_comment (inside : Bool) (cs : List Span) :
    stretchAll place n (cs.map (.comment inside)) =
      (cs.map (.stretch place n)).map (.comment inside) := by
  induction cs with
  | nil => rfl
  | cons c cs ih => simp [stretchAll, stretch, ih]

end Node

/-- The slot in a stretched text. -/
def Slot.stretch (place n : Nat) (s : Slot) : Slot :=
  ⟨s.comments.map (.stretch place n), s.span.stretch place n⟩

@[simp] theorem Slot.stretchAll_commentsInside (place n : Nat) (slots : List Slot) :
    Node.stretchAll place n (commentsInside slots) =
      commentsInside (slots.map (.stretch place n)) := by
  cases slots with
  | nil => rfl
  | cons s slots => exact Node.stretchAll_map_comment true s.comments

/-- The place is inside none of some tokens. -/
def Slot.Spares (place : Nat) (tokens : List (Leaf × Span)) : Prop :=
  ∀ token ∈ tokens, ¬ (token.2.start < place ∧ place < token.2.stop)

/-- The halves of a mixed state name do not come apart. -/
theorem Leaf.place_stretch {place n : Nat} {l : Leaf} {slots rest : List Slot} {span : Span}
    (hslots : ∀ s ∈ slots, s.span.start < s.span.stop)
    (hplace : ¬ (span.start < place ∧ place < span.stop))
    (h : l.place slots = some (span, rest)) :
    l.place (slots.map (.stretch place n)) =
      some (span.stretch place n, rest.map (.stretch place n)) := by
  rcases Leaf.place_cases h with ⟨x, s, hx, rfl, rfl⟩ | ⟨x, y, s, t, hxy, rfl, ht, htouch, rfl⟩
  · simp [Leaf.place, hx, Slot.stretch]
  · have hs := hslots s (by simp)
    have ht' := hslots t (by simp)
    have htouch' : (s.span.stretch place n).stop = (t.span.stretch place n).start := by
      simp only [Span.stretch]
      simp only at hplace
      split <;> split <;> omega
    simp only [Leaf.place, List.map_cons, hxy, Slot.stretch, ht, List.map_nil, List.isEmpty_nil,
      htouch', beq_self_eq_true, Bool.and_true, if_true]
    rfl

namespace Tree

mutual

theorem place_stretch {place n : Nat} : (t : Tree) → ∀ {slots rest : List Slot} {m : Node},
    (∀ s ∈ slots, s.span.start < s.span.stop) → Slot.Spares place m.tokens →
    t.place slots = some (m, rest) →
    t.place (slots.map (.stretch place n)) =
      some (m.stretch place n, rest.map (.stretch place n))
  | .leaf l, slots, rest, m, hslots, hspares, h => by
      obtain ⟨span, hspan, rfl⟩ := place_leaf_iff.mp h
      have hplace := hspares (l, span) (by simp [Node.tokens])
      exact place_leaf_iff.mpr ⟨_, Leaf.place_stretch hslots hplace hspan, rfl⟩
  | .node k ts, slots, rest, m, hslots, hspares, h => by
      obtain ⟨ns, hns, rfl⟩ := place_node_iff.mp h
      exact place_node_iff.mpr ⟨_, placeAll_stretch ts hslots hspares hns, rfl⟩

theorem placeAll_stretch {place n : Nat} : (ts : List Tree) →
    ∀ {slots rest : List Slot} {ns : List Node},
    (∀ s ∈ slots, s.span.start < s.span.stop) → Slot.Spares place (Node.tokensAll ns) →
    placeAll ts slots = some (ns, rest) →
    placeAll ts (slots.map (.stretch place n)) =
      some (Node.stretchAll place n ns, rest.map (.stretch place n))
  | [], slots, rest, ns, _, _, h => by
      obtain ⟨rfl, rfl⟩ := placeAll_nil_iff.mp h
      rfl
  | t :: ts, slots, rest, ns, hslots, hspares, h => by
      obtain ⟨m, middle, ms, hm, hms, rfl⟩ := placeAll_cons_iff.mp h
      obtain ⟨hm', hms'⟩ := List.forall_mem_append.mp hspares
      have hmiddle : ∀ s ∈ middle, s.span.start < s.span.stop := fun s hs =>
        hslots s ((suffix_of_place t hm).mem hs)
      exact placeAll_cons_iff.mpr ⟨_, _, _, place_stretch t hslots hm' hm,
        placeMore_stretch ts hmiddle hms' hms, rfl⟩

theorem placeMore_stretch {place n : Nat} : (ts : List Tree) →
    ∀ {slots rest : List Slot} {ns : List Node},
    (∀ s ∈ slots, s.span.start < s.span.stop) → Slot.Spares place (Node.tokensAll ns) →
    placeMore ts slots = some (ns, rest) →
    placeMore ts (slots.map (.stretch place n)) =
      some (Node.stretchAll place n ns, rest.map (.stretch place n))
  | [], slots, rest, ns, _, _, h => by
      obtain ⟨rfl, rfl⟩ := placeMore_nil_iff.mp h
      rfl
  | t :: ts, slots, rest, ns, hslots, hspares, h => by
      obtain ⟨m, middle, ms, hm, hms, rfl⟩ := placeMore_cons_iff.mp h
      rw [Node.tokensAll_append, Slot.tokensAll_commentsInside, List.nil_append] at hspares
      obtain ⟨hm', hms'⟩ := List.forall_mem_append.mp hspares
      have hmiddle : ∀ s ∈ middle, s.span.start < s.span.stop := fun s hs =>
        hslots s ((suffix_of_place t hm).mem hs)
      refine placeMore_cons_iff.mpr ⟨_, _, _, place_stretch t hslots hm' hm,
        placeMore_stretch ts hmiddle hms' hms, ?_⟩
      rw [Node.stretchAll_append, Slot.stretchAll_commentsInside, Node.stretchAll]

end

end Tree

/-! ## Rows -/

/-- Whether a row is that of a comment whose span is among some. -/
def Row.isDropped (drop : Span → Bool) (r : Row) : Bool :=
  r.label == .named .comment && drop r.span

/-- The row in a stretched text. -/
def Row.stretch (place n : Nat) (r : Row) : Row := { r with span := r.span.stretch place n }

namespace Node

/-- No node starts or ends with a comment, and none but a comment is called one. -/
inductive Tight : Node → Prop
  | token (l : Leaf) (s : Span) : Tight (.token l s)
  | comment (inside : Bool) (s : Span) : Tight (.comment inside s)
  | branch {k : Kind} {children : List Node} (hk : k ≠ .comment)
      (hfirst : ∃ n ∈ children.head?, n.isComment = false)
      (hlast : ∃ n ∈ children.getLast?, n.isComment = false)
      (hchildren : ∀ n ∈ children, Tight n) : Tight (.branch k children)

/-- Where a row of nodes starts is where its first node starts. -/
theorem startAll_eq_of_head? {ns : List Node} {n : Node} (h : n ∈ ns.head?) :
    startAll ns = n.start := by
  obtain ⟨ms, rfl⟩ := List.head?_eq_some_iff.mp h
  rfl

/-- Where a row of nodes stops is where its last node stops. -/
theorem stopAll_eq_of_getLast? {ns : List Node} {n : Node} (h : n ∈ ns.getLast?) :
    stopAll ns = n.stop := by
  obtain ⟨ms, rfl⟩ := List.getLast?_eq_some_iff.mp h
  clear h
  induction ms with
  | nil => rfl
  | cons m ms ih =>
      rw [List.cons_append, ← ih]
      cases ms <;> rfl

section

variable {drop : Span → Bool}

theorem head?_withoutAll {ns : List Node} {n : Node} (h : n ∈ ns.head?)
    (hn : n.isComment = false) : n.without drop ∈ (withoutAll drop ns).head? := by
  obtain ⟨ms, rfl⟩ := List.head?_eq_some_iff.mp h
  simp [withoutAll_cons, isDropped_of_isComment hn]

theorem getLast?_withoutAll {ns : List Node} {n : Node} (h : n ∈ ns.getLast?)
    (hn : n.isComment = false) : n.without drop ∈ (withoutAll drop ns).getLast? := by
  obtain ⟨ms, rfl⟩ := List.getLast?_eq_some_iff.mp h
  simp [withoutAll_cons, isDropped_of_isComment hn]

/-- What is left of a node starts and stops where the node does. -/
theorem Tight.span_without {n : Node} (h : n.Tight) (drop : Span → Bool) :
    (n.without drop).start = n.start ∧ (n.without drop).stop = n.stop := by
  induction h with
  | token => exact ⟨rfl, rfl⟩
  | comment => exact ⟨rfl, rfl⟩
  | @branch k children hk hfirst hlast _ ih =>
      obtain ⟨n, hn, hcomment⟩ := hfirst
      obtain ⟨m, hm, hcomment'⟩ := hlast
      refine ⟨?_, ?_⟩
      · show startAll (withoutAll drop children) = startAll children
        rw [startAll_eq_of_head? (head?_withoutAll hn hcomment), startAll_eq_of_head? hn,
          (ih n (List.mem_of_mem_head? hn)).1]
      · show stopAll (withoutAll drop children) = stopAll children
        rw [stopAll_eq_of_getLast? (getLast?_withoutAll hm hcomment'), stopAll_eq_of_getLast? hm,
          (ih m (List.mem_of_mem_getLast? hm)).2]

theorem rows_branch (depth : Nat) (k : Kind) (children : List Node) :
    (branch k children).rows depth = ⟨depth, .named k, false, (branch k children).span⟩ ::
      rowsAll (depth + 1) children := rfl

mutual

/-- Losing comments is losing their rows. -/
theorem rows_without : (n : Node) → n.Tight → n.isDropped drop = false → ∀ depth,
    (n.without drop).rows depth = (n.rows depth).filter (!Row.isDropped drop ·)
  | .token l s, _, _, depth => by
      have hlabel : l.label ≠ .named .comment := by cases l <;> simp [Leaf.label]
      simp [without, rows, Row.isDropped, hlabel]
  | .comment inside s, _, hdrop, depth => by
      have hdrop : drop s = false := hdrop
      simp [without, rows, Row.isDropped, hdrop]
  | .branch k children, htight, _, depth => by
      have hspan := htight.span_without drop
      cases htight with
      | branch hk _ _ hchildren =>
          have hspan : (branch k (withoutAll drop children)).span = (branch k children).span :=
            congrArg₂ Span.mk hspan.1 hspan.2
          rw [without, rows_branch, rows_branch, hspan, rowsAll_without children hchildren]
          simp [Row.isDropped, hk]

theorem rowsAll_without : (ns : List Node) → (∀ n ∈ ns, n.Tight) → ∀ depth,
    rowsAll depth (withoutAll drop ns) = (rowsAll depth ns).filter (!Row.isDropped drop ·)
  | [], _, _ => rfl
  | n :: ns, htight, depth => by
      obtain ⟨hn, hns⟩ := List.forall_mem_cons.mp htight
      rw [withoutAll_cons, rowsAll, List.filter_append]
      split
      · next hdrop =>
          cases n with
          | comment inside s =>
              have hdrop : drop s = true := hdrop
              simp [rowsAll_without ns hns, rows, Row.isDropped, hdrop]
          | _ => simp [isDropped] at hdrop
      · next hdrop =>
          rw [rowsAll, rows_without n hn (by simpa using hdrop), rowsAll_without ns hns]

end

end

section

variable {place n : Nat}

theorem stretchAll_eq_map (ns : List Node) : stretchAll place n ns = ns.map (.stretch place n) := by
  induction ns with
  | nil => rfl
  | cons m ns ih => simp [stretchAll, ih]

theorem Tight.span_stretch {m : Node} (h : m.Tight) (place n : Nat) :
    (m.stretch place n).span = m.span.stretch place n := by
  induction h with
  | token => rfl
  | comment => rfl
  | @branch k children hk hfirst hlast _ ih =>
      obtain ⟨u, hu, -⟩ := hfirst
      obtain ⟨v, hv, -⟩ := hlast
      have hu' : u.stretch place n ∈ (stretchAll place n children).head? := by
        rw [stretchAll_eq_map, List.head?_map, Option.mem_def.mp hu]
        rfl
      have hv' : v.stretch place n ∈ (stretchAll place n children).getLast? := by
        rw [stretchAll_eq_map, List.getLast?_map, Option.mem_def.mp hv]
        rfl
      have hstart := congrArg Span.start (ih u (List.mem_of_mem_head? hu))
      have hstop := congrArg Span.stop (ih v (List.mem_of_mem_getLast? hv))
      show (⟨startAll (stretchAll place n children), stopAll (stretchAll place n children)⟩ : Span) = _
      rw [startAll_eq_of_head? hu', stopAll_eq_of_getLast? hv']
      show _ = (⟨startAll children, stopAll children⟩ : Span).stretch place n
      rw [startAll_eq_of_head? hu, stopAll_eq_of_getLast? hv]
      exact congrArg₂ Span.mk hstart hstop

mutual

theorem rows_stretch : (m : Node) → m.Tight → ∀ depth,
    (m.stretch place n).rows depth = (m.rows depth).map (.stretch place n)
  | .token l s, _, depth => rfl
  | .comment inside s, _, depth => rfl
  | .branch k children, htight, depth => by
      have hspan := htight.span_stretch place n
      cases htight with
      | branch _ _ _ hchildren =>
          rw [stretch] at hspan ⊢
          rw [rows_branch, rows_branch, hspan, rowsAll_stretch children hchildren]
          rfl

theorem rowsAll_stretch : (ns : List Node) → (∀ m ∈ ns, m.Tight) → ∀ depth,
    rowsAll depth (stretchAll place n ns) = (rowsAll depth ns).map (.stretch place n)
  | [], _, _ => rfl
  | m :: ns, htight, depth => by
      obtain ⟨hm, hns⟩ := List.forall_mem_cons.mp htight
      rw [stretchAll, rowsAll, rowsAll, rows_stretch m hm, rowsAll_stretch ns hns, List.map_append]

end

end

end Node

namespace Tree

/-- No node of the tree is called a comment. -/
inductive Uncommented : Tree → Prop
  | leaf (l : Leaf) : Uncommented (.leaf l)
  | node {k : Kind} {ts : List Tree} (hk : k ≠ .comment) (h : ∀ t ∈ ts, Uncommented t) :
      Uncommented (.node k ts)

/-- No construct of the grammar is a comment. -/
theorem Derives.uncommented {P : Tree → Prop} {t : Tree} (h : t.Derives P) : t.Uncommented := by
  induction h with
  | leaf => exact .leaf _
  | node hk _ _ _ ih =>
      refine .node ?_ ih
      rintro rfl
      simp [Grammar.constructs] at hk

mutual

/-- A tree over slots neither starts nor ends with a comment. -/
theorem tight_of_place : (t : Tree) → t.Full → t.Uncommented →
    ∀ {slots rest : List Slot} {n : Node}, t.place slots = some (n, rest) → n.Tight
  | .leaf l, _, _, slots, rest, n, h => by
      obtain ⟨span, -, rfl⟩ := place_leaf_iff.mp h
      exact .token l span
  | .node k [], hfull, _, _, _, _, _ => by cases hfull
  | .node k (t :: ts), hfull, hkinds, slots, rest, n, h => by
      cases hfull with
      | node hfull =>
          cases hkinds with
          | node hk hkinds =>
              obtain ⟨ht, hts⟩ := List.forall_mem_cons.mp hfull
              obtain ⟨ht', hts'⟩ := List.forall_mem_cons.mp hkinds
              obtain ⟨ns, hns, rfl⟩ := place_node_iff.mp h
              obtain ⟨m, middle, ms, hm, hms, rfl⟩ := placeAll_cons_iff.mp hns
              obtain ⟨htight, hlast⟩ := tight_of_placeMore ts hts hts' hms
              refine .branch hk ⟨m, rfl, isComment_of_place hm⟩ ?_
                (List.forall_mem_cons.mpr ⟨tight_of_place t ht ht' hm, htight⟩)
              cases hend : ms.getLast? with
              | none =>
                  obtain rfl := List.getLast?_eq_none_iff.mp hend
                  exact ⟨m, rfl, isComment_of_place hm⟩
              | some u => exact ⟨u, by simp [List.getLast?_cons, hend], hlast u hend⟩

theorem tight_of_placeMore : (ts : List Tree) → (∀ t ∈ ts, t.Full) → (∀ t ∈ ts, t.Uncommented) →
    ∀ {slots rest : List Slot} {ns : List Node}, placeMore ts slots = some (ns, rest) →
    (∀ n ∈ ns, n.Tight) ∧ ∀ n ∈ ns.getLast?, n.isComment = false
  | [], _, _, _, _, _, h => by
      obtain ⟨rfl, -⟩ := placeMore_nil_iff.mp h
      simp
  | t :: ts, hfull, hkinds, slots, rest, ns, h => by
      obtain ⟨ht, hts⟩ := List.forall_mem_cons.mp hfull
      obtain ⟨ht', hts'⟩ := List.forall_mem_cons.mp hkinds
      obtain ⟨m, middle, ms, hm, hms, rfl⟩ := placeMore_cons_iff.mp h
      obtain ⟨htight, hlast⟩ := tight_of_placeMore ts hts hts' hms
      refine ⟨List.forall_mem_append.mpr ⟨fun n hn => ?_,
        List.forall_mem_cons.mpr ⟨tight_of_place t ht ht' hm, htight⟩⟩, fun n hn => ?_⟩
      · cases slots with
        | nil => simp [Slot.commentsInside] at hn
        | cons s slots =>
            obtain ⟨c, -, rfl⟩ := List.mem_map.mp hn
            exact .comment true c
      · cases ms with
        | nil =>
            obtain rfl : m = n := by simpa using hn
            exact isComment_of_place hm
        | cons u us => exact hlast n (by simpa [List.getLast?_append, List.getLast?_cons] using hn)

end

end Tree

end Heptagon
