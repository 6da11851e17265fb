import Heptagon.Proofs.Document.Merging
import Heptagon.Proofs.Node.Changes
import Heptagon.Proofs.Respelling.Token

/-!
# Nodes in another text

Two texts that are read in the same way have trees with the same nodes
(`Tree.Rel`).  Where the tokens and comments of one are in the other is said by
two maps of places, one for where something starts and one for where it stops
(`Span.carry`), and what becomes of a token by a relation.

If the slots of the one text are those of the other in this sense, token by
token (`Slot.Carried`), then so are the nodes that are laid over them
(`Program.place_carried`), and the rows of the one tree are those of the other
(`Node.CarriedTo.rowsAll`).
-/

namespace Heptagon

/-- The row with its span in another text. -/
def Row.carry (start stop : Nat → Nat) (r : Row) : Row := { r with span := r.span.carry start stop }

/-- The row with the label that it has in another text. -/
def Row.relabel (label : Span → Label → Label) (r : Row) : Row :=
  { r with label := label r.span r.label }

/-- One node is the other in another text, in which its tokens have other labels. -/
inductive Node.CarriedTo (label : Span → Label → Label) (start stop : Nat → Nat) :
    Node → Node → Prop
  | token {l l' : Leaf} {s : Span} (hlabel : l'.label = label s l.label) :
      CarriedTo label start stop (.token l s) (.token l' (s.carry start stop))
  | comment {inside : Bool} {s : Span} :
      CarriedTo label start stop (.comment inside s) (.comment inside (s.carry start stop))
  | branch {k : Kind} {ns ns' : List Node} (h : List.Forall₂ (CarriedTo label start stop) ns ns') :
      CarriedTo label start stop (.branch k ns) (.branch k ns')

/-- The slots of some tokens are those of other tokens in another text. -/
inductive Slot.Carried (label : Span → Label → Label) (start stop : Nat → Nat) :
    List Leaf → List Leaf → List Slot → List Slot → Prop
  | nil : Carried label start stop [] [] [] []
  | cons {l l' : Leaf} {ls ls' : List Leaf} {slots slots' rest rest' : List Slot} {s : Span}
      (hcomments : before slots' = (before slots).map (.carry start stop))
      (hplace : l.place slots = some (s, rest))
      (hplace' : l'.place slots' = some (s.carry start stop, rest'))
      (hlabel : l'.label = label s l.label) (hrest : Carried label start stop ls ls' rest rest') :
      Carried label start stop (l :: ls) (l' :: ls') slots slots'

section

variable {label : Span → Label → Label} {S : Leaf → Leaf → Prop} {start stop : Nat → Nat}

/-! ## Rows -/

namespace Node

mutual

/-- Where a node is in the other text is up to where it is in this one. -/
theorem CarriedTo.span : (n : Node) → n.Tight → ∀ {n' : Node}, n.CarriedTo label start stop n' →
    n'.start = start n.start ∧ n'.stop = stop n.stop
  | .token _ _, _, _, .token _ => ⟨rfl, rfl⟩
  | .comment _ _, _, _, .comment => ⟨rfl, rfl⟩
  | .branch _ ns, .branch _ hfirst _ hchildren, _, .branch h =>
      CarriedTo.spanAll ns (by rintro rfl; simp at hfirst) hchildren h

theorem CarriedTo.spanAll : (ns : List Node) → ns ≠ [] → (∀ n ∈ ns, n.Tight) →
    ∀ {ns' : List Node}, List.Forall₂ (CarriedTo label start stop) ns ns' →
    startAll ns' = start (startAll ns) ∧ stopAll ns' = stop (stopAll ns)
  | [], hne, _, _, _ => absurd rfl hne
  | [n], _, htight, _, .cons hn .nil => CarriedTo.span n (htight n (by simp)) hn
  | n :: m :: ns, _, htight, _, .cons hn (.cons hm hns) =>
      ⟨(CarriedTo.span n (htight n (by simp)) hn).1,
        (CarriedTo.spanAll (m :: ns) (by simp) (fun u hu => htight u (List.mem_cons_of_mem _ hu))
          (.cons hm hns)).2⟩

end

mutual

theorem CarriedTo.rows (hnamed : ∀ s k, label s (.named k) = .named k) :
    (n : Node) → n.Tight → ∀ {n' : Node}, n.CarriedTo label start stop n' →
    ∀ depth, n'.rows depth = (n.rows depth).map fun r => (r.relabel label).carry start stop
  | .token _ _, _, _, .token hlabel, depth => by
      simp [Node.rows, Row.carry, Row.relabel, hlabel]
  | .comment _ _, _, _, .comment, depth => by
      simp [Node.rows, Row.carry, Row.relabel, hnamed]
  | .branch k ns, htight, .branch _ ns', h, depth => by
      obtain ⟨hstart, hstop⟩ := CarriedTo.span _ htight h
      have hspan : (Node.branch k ns').span = (Node.branch k ns).span.carry start stop :=
        congrArg₂ Span.mk hstart hstop
      cases htight with
      | branch _ _ _ hchildren =>
          cases h with
          | branch h =>
              rw [rows_branch, rows_branch, hspan, CarriedTo.rowsAll hnamed ns hchildren h]
              simp [Row.carry, Row.relabel, hnamed]

/-- The rows of nodes in another text are those of the nodes in this one. -/
theorem CarriedTo.rowsAll (hnamed : ∀ s k, label s (.named k) = .named k) :
    (ns : List Node) → (∀ n ∈ ns, n.Tight) → ∀ {ns' : List Node},
      List.Forall₂ (CarriedTo label start stop) ns ns' →
    ∀ depth, Node.rowsAll depth ns' =
      (Node.rowsAll depth ns).map fun r => (r.relabel label).carry start stop
  | [], _, _, .nil, _ => rfl
  | n :: ns, htight, _, .cons hn hns, depth => by
      obtain ⟨htight, htights⟩ := List.forall_mem_cons.mp htight
      rw [Node.rowsAll, Node.rowsAll, CarriedTo.rows hnamed n htight hn,
        CarriedTo.rowsAll hnamed ns htights hns, List.map_append]

end

theorem CarriedTo.rowsAll_same (ns : List Node) (htight : ∀ n ∈ ns, n.Tight) {ns' : List Node}
    (h : List.Forall₂ (CarriedTo (fun _ l => l) start stop) ns ns') (depth : Nat) :
    Node.rowsAll depth ns' = (Node.rowsAll depth ns).map (.carry start stop) :=
  CarriedTo.rowsAll (fun _ _ => rfl) ns htight h depth

end Node

/-! ## Trees over slots -/

namespace Slot

/-- Comments are comments in the other text. -/
theorem forall₂_comments (start stop : Nat → Nat) (inside : Bool) (cs : List Span) :
    List.Forall₂ (Node.CarriedTo label start stop) (cs.map (.comment inside))
      ((cs.map (.carry start stop)).map (.comment inside)) := by
  induction cs with
  | nil => exact .nil
  | cons c cs ih => exact .cons .comment ih

theorem Carried.before_eq {ls ls' : List Leaf} {slots slots' : List Slot}
    (h : Carried label start stop ls ls' slots slots') :
    before slots' = (before slots).map (.carry start stop) := by
  cases h with
  | nil => rfl
  | cons hcomments _ _ _ _ => exact hcomments

end Slot

namespace Tree

mutual

theorem place_carried : (t t' : Tree) → t.Rel S t' →
    ∀ {ls ls' : List Leaf} {slots slots' rest : List Slot} {n : Node},
    Slot.Carried label start stop (t.leaves ++ ls) (t'.leaves ++ ls') slots slots' →
    t.place slots = some (n, rest) → ∃ n' rest', t'.place slots' = some (n', rest') ∧
      n.CarriedTo label start stop n' ∧ Slot.Carried label start stop ls ls' rest rest'
  | .leaf l, .leaf l', .leaf _, ls, ls', slots, slots', rest, n, h, hplace => by
      obtain ⟨span, hspan, rfl⟩ := place_leaf_iff.mp hplace
      cases h with
      | cons _ hplace hplace' hl hrest =>
          obtain ⟨rfl, rfl⟩ := Prod.mk.inj (Option.some.inj (hspan.symm.trans hplace))
          exact ⟨_, _, place_leaf_iff.mpr ⟨_, hplace', rfl⟩, .token hl, hrest⟩
  | .node k ts, .node _ ts', .node h, ls, ls', slots, slots', rest, n, hslots, hplace => by
      obtain ⟨ns, hns, rfl⟩ := place_node_iff.mp hplace
      obtain ⟨ns', rest', hns', hcarried, hrest⟩ := placeAll_carried ts ts' h hslots hns
      exact ⟨_, rest', place_node_iff.mpr ⟨ns', hns', rfl⟩, .branch hcarried, hrest⟩

/-- Trees with the same nodes, over slots in two texts, are nodes in these texts. -/
theorem placeAll_carried : (ts ts' : List Tree) → List.Forall₂ (Rel S) ts ts' →
    ∀ {ls ls' : List Leaf} {slots slots' rest : List Slot} {ns : List Node},
    Slot.Carried label start stop (leavesAll ts ++ ls) (leavesAll ts' ++ ls') slots slots' →
    placeAll ts slots = some (ns, rest) → ∃ ns' rest', placeAll ts' slots' = some (ns', rest') ∧
      List.Forall₂ (Node.CarriedTo label start stop) ns ns' ∧
        Slot.Carried label start stop ls ls' rest rest'
  | [], [], .nil, ls, ls', slots, slots', rest, ns, h, hplace => by
      obtain ⟨rfl, rfl⟩ := placeAll_nil_iff.mp hplace
      exact ⟨[], slots', rfl, .nil, h⟩
  | t :: ts, t' :: ts', .cons ht hts, ls, ls', slots, slots', rest, ns, h, hplace => by
      obtain ⟨m, middle, ms, hm, hms, rfl⟩ := placeAll_cons_iff.mp hplace
      rw [leavesAll, leavesAll, List.append_assoc, List.append_assoc] at h
      obtain ⟨m', middle', hm', hcarried, hmiddle⟩ := place_carried t t' ht h hm
      obtain ⟨ms', rest', hms', hcarrieds, hrest⟩ := placeMore_carried ts ts' hts hmiddle hms
      exact ⟨_, rest', placeAll_cons_iff.mpr ⟨m', middle', ms', hm', hms', rfl⟩,
        .cons hcarried hcarrieds, hrest⟩

theorem placeMore_carried : (ts ts' : List Tree) → List.Forall₂ (Rel S) ts ts' →
    ∀ {ls ls' : List Leaf} {slots slots' rest : List Slot} {ns : List Node},
    Slot.Carried label start stop (leavesAll ts ++ ls) (leavesAll ts' ++ ls') slots slots' →
    placeMore ts slots = some (ns, rest) → ∃ ns' rest', placeMore ts' slots' = some (ns', rest') ∧
      List.Forall₂ (Node.CarriedTo label start stop) ns ns' ∧
        Slot.Carried label start stop ls ls' rest rest'
  | [], [], .nil, ls, ls', slots, slots', rest, ns, h, hplace => by
      obtain ⟨rfl, rfl⟩ := placeMore_nil_iff.mp hplace
      exact ⟨[], slots', rfl, .nil, h⟩
  | t :: ts, t' :: ts', .cons ht hts, ls, ls', slots, slots', rest, ns, h, hplace => by
      obtain ⟨m, middle, ms, hm, hms, rfl⟩ := placeMore_cons_iff.mp hplace
      have hcomments := h.before_eq
      rw [leavesAll, leavesAll, List.append_assoc, List.append_assoc] at h
      obtain ⟨m', middle', hm', hcarried, hmiddle⟩ := place_carried t t' ht h hm
      obtain ⟨ms', rest', hms', hcarrieds, hrest⟩ := placeMore_carried ts ts' hts hmiddle hms
      refine ⟨_, rest', placeMore_cons_iff.mpr ⟨m', middle', ms', hm', hms', rfl⟩, ?_, hrest⟩
      rw [Slot.commentsInside_eq, Slot.commentsInside_eq, hcomments]
      exact List.rel_append (Slot.forall₂_comments _ _ _ _) (.cons hcarried hcarrieds)

end

end Tree

/-- The definitions of two programs have the same nodes over tokens that are related. -/
def Program.TreesRel (S : Leaf → Leaf → Prop) (p p' : Program) : Prop :=
  List.Forall₂ (fun d d' : Definition => List.Forall₂ (Tree.Rel S) d.trees d'.trees) p p'

theorem Program.TreesRel.refl [Std.Refl S] (p : Program) : p.TreesRel S p :=
  List.forall₂_same.mpr fun d _ => Tree.Rel.reflAll d.trees

/-- Programs with the same nodes, over slots in two texts, are nodes in these texts. -/
theorem Program.place_carried {p p' : Program} (h : p.TreesRel S p') {slots slots' : List Slot}
    (hslots : Slot.Carried label start stop (Tree.leavesAll (p.flatMap Definition.trees))
      (Tree.leavesAll (p'.flatMap Definition.trees)) slots slots')
    {nodes : List Node} (hplace : p.place slots = some nodes) :
    ∃ nodes', p'.place slots' = some nodes' ∧
      List.Forall₂ (Node.CarriedTo label start stop) nodes nodes' := by
  induction h generalizing slots slots' nodes with
  | nil =>
      obtain rfl := by simpa [place] using hplace
      exact ⟨[], rfl, .nil⟩
  | @cons d d' p p' hd _ ih =>
      obtain ⟨first, rest, more, hfirst, hmore, rfl⟩ := place_cons_iff.mp hplace
      obtain ⟨ns, hns, rfl⟩ := Definition.place_iff.mp hfirst
      have hcomments := hslots.before_eq
      rw [List.flatMap_cons, List.flatMap_cons, Tree.leavesAll_append, Tree.leavesAll_append]
        at hslots
      obtain ⟨ns', rest', hns', hcarried, hrest⟩ := Tree.placeAll_carried _ _ hd hslots hns
      obtain ⟨more', hmore', hcarrieds⟩ := ih hrest hmore
      refine ⟨_, place_cons_iff.mpr ⟨_, rest', more', Definition.place_iff.mpr ⟨ns', hns', rfl⟩,
        hmore', rfl⟩, ?_⟩
      rw [Slot.commentsBetween_eq, Slot.commentsBetween_eq, hcomments]
      exact List.rel_append (List.rel_append (Slot.forall₂_comments _ _ _ _) hcarried) hcarrieds

end

end Heptagon
