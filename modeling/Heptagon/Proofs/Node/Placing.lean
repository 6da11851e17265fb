import Heptagon.Node
import Heptagon.Proofs.Grammar.Generates

/-!
# Laying a tree over a source

`Tree.place` gives every token its place and puts the comments between the
tokens.  Two things are shown about the result.

* Without its comments and positions it is the tree again (`Node.trees`).
* It stands in the source (`Node.Stands`): every token and comment has the
  bytes it is spelled with, and only blanks stand between the nodes that
  follow each other in a row of children.

The lexemes of the tree and the slots are followed in lockstep: `Slot.Stand`
says that some lexemes stand at some slots, and what is left of them after the
tree does so again.
-/

namespace Heptagon

/-! ## Trees of nodes -/

namespace Node

mutual

/-- The tree of a node without positions.  A comment where the grammar asks for none is left out. -/
def trees : Node → List Tree
  | token l _ => [.leaf l]
  | comment true _ => []
  | comment false _ => [.node .comment []]
  | branch k children => [.node k (treesAll children)]

/-- The trees of a row of nodes. -/
def treesAll : List Node → List Tree
  | [] => []
  | n :: ns => n.trees ++ treesAll ns

end

@[simp] theorem treesAll_append (ns ms : List Node) :
    treesAll (ns ++ ms) = treesAll ns ++ treesAll ms := by
  induction ns with
  | nil => rfl
  | cons n ns ih => simp [treesAll, ih]

@[simp] theorem treesAll_comments (cs : List Span) : treesAll (cs.map (.comment true)) = [] := by
  induction cs with
  | nil => rfl
  | cons c cs ih => simp [treesAll, trees, ih]

theorem trees_subset_of_mem {n : Node} {ns : List Node} (h : n ∈ ns) : n.trees ⊆ treesAll ns := by
  induction ns with
  | nil => simp at h
  | cons m ns ih =>
      rcases List.mem_cons.mp h with rfl | h
      · exact List.subset_append_left _ _
      · exact List.subset_append_of_subset_right _ (ih h)

/-- Where the grammar looks, a row of nodes has the labels of its trees. -/
theorem map_label_filter (ns : List Node) :
    (ns.filter (!·.isExtra)).map label = (treesAll ns).map Tree.label := by
  induction ns with
  | nil => rfl
  | cons n ns ih =>
      cases n with
      | comment inside s =>
          cases inside with
          | true => exact ih
          | false => exact congrArg (_ :: ·) ih
      | _ => exact congrArg (_ :: ·) ih

end Node

@[simp] theorem Slot.treesAll_commentsInside (slots : List Slot) :
    Node.treesAll (commentsInside slots) = [] := by
  cases slots with
  | nil => rfl
  | cons s slots => exact Node.treesAll_comments _

namespace Tree

mutual

/-- A tree that is laid over a source is the tree of the node. -/
theorem trees_of_place : (t : Tree) → ∀ {slots rest : List Slot} {n : Node},
    t.place slots = some (n, rest) → n.trees = [t]
  | .leaf l, _, _, _, h => by
      simp only [place, Option.bind_eq_bind, Option.bind_eq_some_iff, Prod.exists, Option.pure_def,
        Option.some.injEq, Prod.mk.injEq] at h
      obtain ⟨span, _, -, rfl, -⟩ := h
      rfl
  | .node k ts, _, _, _, h => by
      simp only [place, Option.bind_eq_bind, Option.bind_eq_some_iff, Prod.exists, Option.pure_def,
        Option.some.injEq, Prod.mk.injEq] at h
      obtain ⟨ns, _, hns, rfl, -⟩ := h
      simp [Node.trees, trees_of_placeAll ts hns]

theorem trees_of_placeAll : (ts : List Tree) → ∀ {slots rest : List Slot} {ns : List Node},
    placeAll ts slots = some (ns, rest) → Node.treesAll ns = ts
  | [], _, _, _, h => by
      obtain ⟨rfl, -⟩ := by simpa [placeAll] using h
      rfl
  | t :: ts, _, _, _, h => by
      simp only [placeAll, Option.bind_eq_bind, Option.bind_eq_some_iff, Prod.exists,
        Option.pure_def, Option.some.injEq, Prod.mk.injEq] at h
      obtain ⟨n, _, hn, ns, _, hns, rfl, -⟩ := h
      simp [Node.treesAll, trees_of_place t hn, trees_of_placeMore ts hns]

theorem trees_of_placeMore : (ts : List Tree) → ∀ {slots rest : List Slot} {ns : List Node},
    placeMore ts slots = some (ns, rest) → Node.treesAll ns = ts
  | [], _, _, _, h => by
      obtain ⟨rfl, -⟩ := by simpa [placeMore] using h
      rfl
  | t :: ts, _, _, _, h => by
      simp only [placeMore, Option.bind_eq_bind, Option.bind_eq_some_iff, Prod.exists,
        Option.pure_def, Option.some.injEq, Prod.mk.injEq] at h
      obtain ⟨n, _, hn, ns, _, hns, rfl, -⟩ := h
      simp [Node.treesAll, trees_of_place t hn, trees_of_placeMore ts hns]

end

end Tree

/-! ## Standing in a source -/

namespace Node

mutual

/-- The node stands in a source: its tokens and comments are spelled there, and its children
follow each other. -/
def Stands (source : Text) : Node → Prop
  | token l s => s.start < s.stop ∧ source.slice s = l.text ∧ ∀ x ∈ l.lexemes, x.IsToken
  | comment _ s => s.start < s.stop ∧ Comment.Spells (source.slice s)
  | branch _ children => children ≠ [] ∧ StandFrom source (startAll children) children

/-- The nodes stand in a source one after another, from an offset on. -/
def StandFrom (source : Text) : (offset : Nat) → List Node → Prop
  | _, [] => True
  | offset, n :: ns =>
    source.Blank offset n.start ∧ n.Stands source ∧ StandFrom source n.stop ns

end

/-- Where some nodes stop that start after an offset. -/
def stopFrom : (offset : Nat) → List Node → Nat
  | offset, [] => offset
  | _, n :: ns => stopFrom n.stop ns

theorem stopAll_cons (n : Node) (ns : List Node) : stopAll (n :: ns) = stopFrom n.stop ns := by
  induction ns generalizing n with
  | nil => rfl
  | cons m ns ih => exact ih m

theorem stopFrom_append (offset : Nat) (ns ms : List Node) :
    stopFrom offset (ns ++ ms) = stopFrom (stopFrom offset ns) ms := by
  induction ns generalizing offset with
  | nil => rfl
  | cons n ns ih => exact ih n.stop

variable {source : Text}

theorem standFrom_append {offset : Nat} {ns ms : List Node} :
    StandFrom source offset (ns ++ ms) ↔
      StandFrom source offset ns ∧ StandFrom source (stopFrom offset ns) ms := by
  induction ns generalizing offset with
  | nil => simp [StandFrom, stopFrom]
  | cons n ns ih => simp only [List.cons_append, StandFrom, stopFrom, ih, and_assoc]

theorem StandFrom.stands {offset : Nat} {ns : List Node} (h : StandFrom source offset ns) :
    ∀ n ∈ ns, n.Stands source := by
  induction ns generalizing offset with
  | nil => simp
  | cons n ns ih => exact List.forall_mem_cons.mpr ⟨h.2.1, ih h.2.2⟩

/-- For a comment it makes no difference whether it stands inside a definition. -/
theorem standFrom_comments_iff {offset : Nat} {cs : List Span} {inside inside' : Bool} :
    StandFrom source offset (cs.map (.comment inside)) ↔
      StandFrom source offset (cs.map (.comment inside')) := by
  induction cs generalizing offset with
  | nil => rfl
  | cons c cs ih => exact and_congr_right fun _ => and_congr_right fun _ => ih

theorem stopFrom_comments {offset : Nat} {cs : List Span} {inside inside' : Bool} :
    stopFrom offset (cs.map (.comment inside)) = stopFrom offset (cs.map (.comment inside')) := by
  induction cs generalizing offset with
  | nil => rfl
  | cons c cs ih => exact ih

end Node

/-- The lexemes stand in a source one after another, from an offset on up to another one, each at
its slot. -/
inductive Slot.Stand (source : Text) (stop : Nat) : (offset : Nat) → List Lexeme → List Slot → Prop
  | nil : Stand source stop stop [] []
  | cons {offset : Nat} {l : Lexeme} {ls : List Lexeme} {s : Slot} {slots : List Slot}
      (hcomments : Node.StandFrom source offset (s.comments.map (.comment true)))
      (hstart : source.Blank (Node.stopFrom offset (s.comments.map (.comment true))) s.span.start)
      (hspan : s.span.start < s.span.stop) (htext : source.slice s.span = l.text)
      (htoken : l.IsToken) (hrest : Stand source stop s.span.stop ls slots) :
      Stand source stop offset (l :: ls) (s :: slots)

namespace Slot.Stand

variable {source : Text} {offset stop : Nat} {ls ms : List Lexeme} {slots : List Slot}

/-- Whether a parenthesis stands apart makes no difference. -/
theorem congr (h : Stand source stop offset ls slots)
    (hshown : ls.map Lexeme.shown = ms.map Lexeme.shown) : Stand source stop offset ms slots := by
  induction h generalizing ms with
  | nil =>
      obtain rfl : ms = [] := by simpa using hshown.symm
      exact .nil
  | @cons _ l _ s _ hcomments hstart hspan htext htoken _ ih =>
      cases ms with
      | nil => simp at hshown
      | cons m ms =>
          obtain ⟨hl, hls⟩ := List.cons.inj hshown
          refine .cons hcomments hstart hspan ?_ ?_ (ih hls)
          · rw [htext, ← Lexeme.text_shown l, ← Lexeme.text_shown m]
            exact congrArg Lexeme.text hl
          · rw [← Lexeme.isToken_shown_iff]
            exact hl ▸ Lexeme.isToken_shown_iff.mpr htoken

/-- The comments before the first lexeme are before everything that starts with it. -/
theorem commentsInside (h : Stand source stop offset ls slots) {n : Node} {ns : List Node}
    (hstart : ∃ s ∈ slots.head?, n.start = s.span.start) (hn : n.Stands source)
    (hns : Node.StandFrom source n.stop ns) :
    Node.StandFrom source offset (Slot.commentsInside slots ++ n :: ns) := by
  obtain ⟨s, hs, hstart⟩ := hstart
  cases h with
  | nil => simp at hs
  | cons hcomments hle _ _ _ _ =>
      obtain rfl := Option.some.inj hs
      exact Node.standFrom_append.mpr ⟨hcomments, hstart ▸ hle, hn, hns⟩

/-- The bytes of two spans that touch. -/
theorem slice_append {s t : Span} (hs : s.start ≤ s.stop) (ht : t.start ≤ t.stop)
    (h : s.stop = t.start) :
    source.slice ⟨s.start, t.stop⟩ = source.slice s ++ source.slice t := by
  have hlength : t.stop - s.start = (s.stop - s.start) + (t.stop - t.start) := by omega
  have hdrop : t.start = s.start + (s.stop - s.start) := by omega
  simp only [Text.slice, hlength, List.take_add, List.drop_drop]
  rw [← hdrop]

end Slot.Stand

/-! ## Trees over slots -/

section

variable {source : Text} {offset stop : Nat} {ls : List Lexeme} {slots rest : List Slot}

theorem Leaf.stands_of_place {l : Leaf} {span : Span} (h : l.place slots = some (span, rest))
    (hstand : Slot.Stand source stop offset (l.lexemes ++ ls) slots) :
    (Node.token l span).Stands source ∧ (∃ s ∈ slots.head?, span.start = s.span.start) ∧
      Slot.Stand source stop span.stop ls rest := by
  rcases l.lexemes_cases with ⟨x, hx, htext⟩ | ⟨x, y, hxy, htext⟩
  · rw [hx, List.singleton_append] at hstand
    cases hstand with
    | @cons _ _ _ s slots _ _ hspan hslice htoken hrest =>
        obtain ⟨rfl, rfl⟩ : s.span = span ∧ slots = rest := by simpa [place, hx] using h
        exact ⟨⟨hspan, hslice.trans htext.symm, by simpa [hx] using htoken⟩, ⟨s, rfl, rfl⟩,
          hrest⟩
  · rw [hxy, List.cons_append, List.singleton_append] at hstand
    cases hstand with
    | @cons _ _ _ s slots _ _ hspan hslice htoken hrest =>
        cases hrest with
        | @cons _ _ _ t slots _ _ hspan' hslice' htoken' hrest =>
            simp only [place, hxy, Bool.and_eq_true, beq_iff_eq, Option.ite_none_right_eq_some,
              Option.some.injEq, Prod.mk.injEq] at h
            obtain ⟨⟨-, htouch⟩, rfl, rfl⟩ := h
            refine ⟨⟨?_, ?_, by simpa [hxy] using ⟨htoken, htoken'⟩⟩, ⟨s, rfl, rfl⟩,
              hrest⟩
            · show s.span.start < t.span.stop
              omega
            · rw [Slot.Stand.slice_append (by omega) (by omega) htouch, hslice, hslice', htext]

/-- Every node of the tree has children. -/
inductive Tree.Full : Tree → Prop
  | leaf {l : Leaf} : Full (.leaf l)
  | node {k : Kind} {t : Tree} {ts : List Tree} (h : ∀ u ∈ t :: ts, Full u) :
      Full (.node k (t :: ts))

/-- Only the root of a derivation may have no children. -/
theorem Tree.Derives.full {P : Tree → Prop} {t : Tree} (h : t.Derives P)
    (hroot : t.label ≠ .named .sourceFile) : t.Full := by
  induction h with
  | leaf => exact .leaf
  | @node k children hk _ hrule _ ih =>
      have hk' : k ≠ .sourceFile := fun hk' => hroot (by rw [hk']; rfl)
      cases children with
      | nil =>
          have := hrule.nullable_of_nil rfl
          simp [Rule.nullable_node hk hk'] at this
      | cons t ts =>
          exact .node fun u hu => ih u hu (hrule.label_ne_root (Rule.mentions_root _) u hu)

namespace Tree

mutual

/-- A tree that is laid over slots stands at them, and starts where the first of them does. -/
theorem stands_of_place : (t : Tree) → t.Full → ∀ {offset ls slots rest} {n : Node},
    t.place slots = some (n, rest) →
    Slot.Stand source stop offset ((unitsAll [t]).flatten ++ ls) slots →
    n.Stands source ∧ (∃ s ∈ slots.head?, n.start = s.span.start) ∧
      Slot.Stand source stop n.stop ls rest
  | .leaf l, _, offset, ls, slots, rest, n, h, hstand => by
      simp only [place, Option.bind_eq_bind, Option.bind_eq_some_iff, Prod.exists, Option.pure_def,
        Option.some.injEq, Prod.mk.injEq] at h
      obtain ⟨span, _, hspan, rfl, rfl⟩ := h
      exact Leaf.stands_of_place hspan (by simpa using hstand)
  | .node k [], h, _, _, _, _, _, _, _ => by cases h
  | .node k (t :: ts), hfull, offset, ls, slots, rest, n, h, hstand => by
      cases hfull with
      | node hfull =>
          obtain ⟨ht, hts⟩ := List.forall_mem_cons.mp hfull
          simp only [place, placeAll, Option.bind_eq_bind, Option.bind_eq_some_iff, Prod.exists,
            Option.pure_def, Option.some.injEq, Prod.mk.injEq] at h
          obtain ⟨_, _, ⟨m, _, hm, ms, _, hms, rfl, rfl⟩, rfl, rfl⟩ := h
          rw [unitsAll_node_cons, unitsAll_cons t ts, unitsAll_nil, List.append_nil,
            List.flatten_append, List.append_assoc] at hstand
          obtain ⟨hstands, hstart, hrest⟩ := stands_of_place t ht hm hstand
          obtain ⟨hmore, hrest⟩ := stands_of_placeMore ts hts hms hrest
          refine ⟨⟨by simp, .refl _ _, hstands, hmore⟩, hstart, ?_⟩
          rw [Node.stop, Node.stopAll_cons]
          exact hrest

theorem stands_of_placeMore : (ts : List Tree) → (∀ t ∈ ts, t.Full) →
    ∀ {offset ls slots rest} {ns : List Node}, placeMore ts slots = some (ns, rest) →
    Slot.Stand source stop offset ((unitsAll ts).flatten ++ ls) slots →
    Node.StandFrom source offset ns ∧ Slot.Stand source stop (Node.stopFrom offset ns) ls rest
  | [], _, _, _, _, _, _, h, hstand => by
      obtain ⟨rfl, rfl⟩ := by simpa [placeMore] using h
      exact ⟨trivial, hstand⟩
  | t :: ts, hfull, offset, ls, slots, rest, ns, h, hstand => by
      obtain ⟨ht, hts⟩ := List.forall_mem_cons.mp hfull
      simp only [placeMore, Option.bind_eq_bind, Option.bind_eq_some_iff, Prod.exists,
        Option.pure_def, Option.some.injEq, Prod.mk.injEq] at h
      obtain ⟨m, _, hm, ms, _, hms, rfl, rfl⟩ := h
      rw [unitsAll_cons, List.flatten_append, List.append_assoc] at hstand
      obtain ⟨hstands, hstart, hrest⟩ := stands_of_place t ht hm hstand
      obtain ⟨hmore, hrest⟩ := stands_of_placeMore ts hts hms hrest
      refine ⟨hstand.commentsInside hstart hstands hmore, ?_⟩
      rw [Node.stopFrom_append]
      exact hrest

end

end Tree

end

/-! ## Slots without comments -/

/-- The slots have no comments, and those of the two halves of a unit touch. -/
inductive Slot.Hold : Units → List Slot → Prop
  | nil : Hold [] []
  | one {x : Lexeme} {s : Span} {us : Units} {slots : List Slot} (h : Hold us slots) :
      Hold ([x] :: us) (⟨[], s⟩ :: slots)
  | two {x y : Lexeme} {s t : Span} {us : Units} {slots : List Slot} (htouch : s.stop = t.start)
      (h : Hold us slots) : Hold ([x, y] :: us) (⟨[], s⟩ :: ⟨[], t⟩ :: slots)

section

variable {us : Units} {slots : List Slot}

/-- The number of lexemes of each unit is all that counts. -/
theorem Slot.Hold.shown (h : Hold us slots) : Hold us.shown slots := by
  induction h with
  | nil => exact .nil
  | one _ ih => exact .one ih
  | two htouch _ ih => exact .two htouch ih

theorem Slot.Hold.comments_eq_nil (h : Hold us slots) : ∀ s ∈ slots, s.comments = [] := by
  induction h with
  | nil => simp
  | one _ ih => exact List.forall_mem_cons.mpr ⟨rfl, ih⟩
  | two _ _ ih => exact List.forall_mem_cons.mpr ⟨rfl, List.forall_mem_cons.mpr ⟨rfl, ih⟩⟩

end

/-! ## Slots for some units -/

/-- Two slots stand at the halves of each unit that has two, and they touch. -/
inductive Slot.Admit : Units → List Slot → Prop
  | nil : Admit [] []
  | one {x : Lexeme} {s : Slot} {us : Units} {slots : List Slot} (h : Admit us slots) :
      Admit ([x] :: us) (s :: slots)
  | two {x y : Lexeme} {s t : Slot} {us : Units} {slots : List Slot} (hcomments : t.comments = [])
      (htouch : s.span.stop = t.span.start) (h : Admit us slots) :
      Admit ([x, y] :: us) (s :: t :: slots)

section

variable {us : Units} {slots : List Slot}

theorem Slot.Hold.admits (h : Hold us slots) : Admit us slots := by
  induction h with
  | nil => exact .nil
  | one _ ih => exact .one ih
  | two htouch _ ih => exact .two rfl htouch ih

theorem Leaf.exists_place {l : Leaf} (h : Slot.Admit (l.lexemes :: us) slots) :
    ∃ span rest, l.place slots = some (span, rest) ∧ Slot.Admit us rest := by
  rcases l.lexemes_cases with ⟨x, hx, -⟩ | ⟨x, y, hxy, -⟩
  · rw [hx] at h
    cases h with
    | @one _ s _ rest h => exact ⟨s.span, rest, by simp [place, hx], h⟩
  · rw [hxy] at h
    cases h with
    | @two _ _ s t _ rest hcomments htouch h =>
        exact ⟨⟨s.span.start, t.span.stop⟩, rest, by simp [place, hxy, hcomments, htouch], h⟩

namespace Tree

mutual

/-- Every tree can be laid over slots for its tokens. -/
theorem exists_place : (t : Tree) → ∀ {us slots}, Slot.Admit (unitsAll [t] ++ us) slots →
    ∃ n rest, t.place slots = some (n, rest) ∧ Slot.Admit us rest
  | .leaf l, us, slots, h => by
      obtain ⟨span, rest, hplace, hrest⟩ := Leaf.exists_place h
      exact ⟨.token l span, rest, by simp [place, hplace], hrest⟩
  | .node k ts, us, slots, h => by
      rw [unitsAll_node_cons, unitsAll_nil, List.append_nil] at h
      obtain ⟨ns, rest, hplace, hrest⟩ := exists_placeAll ts h
      exact ⟨.branch k ns, rest, by simp [place, hplace], hrest⟩

theorem exists_placeAll : (ts : List Tree) → ∀ {us slots}, Slot.Admit (unitsAll ts ++ us) slots →
    ∃ ns rest, placeAll ts slots = some (ns, rest) ∧ Slot.Admit us rest
  | [], _, slots, h => ⟨[], slots, rfl, h⟩
  | t :: ts, us, slots, h => by
      rw [unitsAll_cons, List.append_assoc] at h
      obtain ⟨n, rest, hplace, hrest⟩ := exists_place t h
      obtain ⟨ns, rest', hplaces, hrest'⟩ := exists_placeMore ts hrest
      exact ⟨n :: ns, rest', by simp [placeAll, hplace, hplaces], hrest'⟩

theorem exists_placeMore : (ts : List Tree) → ∀ {us slots}, Slot.Admit (unitsAll ts ++ us) slots →
    ∃ ns rest, placeMore ts slots = some (ns, rest) ∧ Slot.Admit us rest
  | [], _, slots, h => ⟨[], slots, rfl, h⟩
  | t :: ts, us, slots, h => by
      rw [unitsAll_cons, List.append_assoc] at h
      obtain ⟨n, rest, hplace, hrest⟩ := exists_place t h
      obtain ⟨ns, rest', hplaces, hrest'⟩ := exists_placeMore ts hrest
      exact ⟨Slot.commentsInside slots ++ n :: ns, rest', by simp [placeMore, hplace, hplaces],
        hrest'⟩

end

end Tree

end

end Heptagon
