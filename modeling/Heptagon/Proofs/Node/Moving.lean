import Heptagon.Proofs.Document.Parts
import Heptagon.Proofs.Layout.Rescanning
import Heptagon.Proofs.Respelling.Parens

/-!
# Trees over a part of the slots

A tree takes as many slots as it is wide, and the slots behind these make no
difference (`Tree.placeAll_append`).  Over slots that stand further on in a text,
its nodes stand further on (`Tree.placeAll_moveBy`).
-/

namespace Heptagon

/-! ## Slots behind -/

section

variable {slots more : List Slot}

theorem Slot.commentsInside_append (h : slots ≠ []) :
    commentsInside (slots ++ more) = commentsInside slots := by
  cases slots with
  | nil => exact absurd rfl h
  | cons s slots => rfl

theorem Leaf.place_append {l : Leaf} (h : l.lexemes.length ≤ slots.length) :
    l.place (slots ++ more) = (l.place slots).map fun r => (r.1, r.2 ++ more) := by
  rcases l.lexemes_cases with ⟨x, hx, -⟩ | ⟨x, y, hxy, -⟩
  · rw [hx] at h
    cases slots with
    | nil => simp at h
    | cons s slots => simp [place, hx]
  · rw [hxy] at h
    obtain _ | ⟨s, _ | ⟨t, slots⟩⟩ := slots
    · simp at h
    · simp at h
    · simp only [place, hxy, List.cons_append]
      split <;> rfl

namespace Tree

mutual

theorem place_append : (t : Tree) → t.Wide → ∀ {slots : List Slot}, t.width ≤ slots.length →
    t.place (slots ++ more) = (t.place slots).map fun r => (r.1, r.2 ++ more)
  | .leaf l, _, slots, h => by
      rw [place, place, Leaf.place_append h]
      cases l.place slots <;> rfl
  | .node k ts, .node _ _ hts, slots, h => by
      rw [place, place, placeAll_append ts hts h]
      cases placeAll ts slots <;> rfl

/-- The slots behind those that some trees take make no difference. -/
theorem placeAll_append : (ts : List Tree) → (∀ t ∈ ts, t.Wide) → ∀ {slots : List Slot},
    widthAll ts ≤ slots.length →
    placeAll ts (slots ++ more) = (placeAll ts slots).map fun r => (r.1, r.2 ++ more)
  | [], _, slots, _ => rfl
  | t :: ts, hwide, slots, h => by
      obtain ⟨ht, hts⟩ := List.forall_mem_cons.mp hwide
      rw [widthAll] at h
      rw [placeAll, placeAll, place_append t ht (by omega)]
      cases hplace : t.place slots with
      | none => rfl
      | some r =>
          obtain ⟨n, rest⟩ := r
          have hrest := congrArg List.length (eq_drop_of_place t hplace)
          rw [List.length_drop] at hrest
          simp only [Option.map_some, Option.bind_eq_bind, Option.bind_some,
            placeMore_append ts hts (show widthAll ts ≤ rest.length by omega)]
          cases placeMore ts rest <;> rfl

theorem placeMore_append : (ts : List Tree) → (∀ t ∈ ts, t.Wide) → ∀ {slots : List Slot},
    widthAll ts ≤ slots.length →
    placeMore ts (slots ++ more) = (placeMore ts slots).map fun r => (r.1, r.2 ++ more)
  | [], _, slots, _ => rfl
  | t :: ts, hwide, slots, h => by
      obtain ⟨ht, hts⟩ := List.forall_mem_cons.mp hwide
      have hpos := Wide.width_pos t ht
      rw [widthAll] at h
      have hne : slots ≠ [] := List.ne_nil_of_length_pos (by omega)
      rw [placeMore, placeMore, place_append t ht (by omega), Slot.commentsInside_append hne]
      cases hplace : t.place slots with
      | none => rfl
      | some r =>
          obtain ⟨n, rest⟩ := r
          have hrest := congrArg List.length (eq_drop_of_place t hplace)
          rw [List.length_drop] at hrest
          simp only [Option.map_some, Option.bind_eq_bind, Option.bind_some,
            placeMore_append ts hts (show widthAll ts ≤ rest.length by omega)]
          cases placeMore ts rest <;> rfl

end

end Tree

end

/-! ## Further on in a text -/

namespace Node

mutual

/-- The node further on in a text. -/
def moveBy (n : Nat) : Node → Node
  | token l s => token l (s.moveBy n)
  | comment inside s => comment inside (s.moveBy n)
  | branch k children => branch k (moveAllBy n children)

/-- The row of nodes further on in a text. -/
def moveAllBy (n : Nat) : List Node → List Node
  | [] => []
  | m :: ms => m.moveBy n :: moveAllBy n ms

end

theorem moveAllBy_eq_map (n : Nat) (ms : List Node) : moveAllBy n ms = ms.map (.moveBy n) := by
  induction ms with
  | nil => rfl
  | cons m ms ih => rw [moveAllBy, ih, List.map_cons]

end Node

/-- The slot further on in a text. -/
def Slot.moveBy (n : Nat) (s : Slot) : Slot := ⟨s.comments.map (.moveBy n), s.span.moveBy n⟩

section

variable {n : Nat}

theorem Slot.commentsInside_moveBy (slots : List Slot) :
    commentsInside (slots.map (.moveBy n)) = (commentsInside slots).map (.moveBy n) := by
  cases slots with
  | nil => rfl
  | cons s slots => simp [commentsInside, moveBy, Node.moveBy]

theorem Leaf.place_moveBy (l : Leaf) (slots : List Slot) :
    l.place (slots.map (.moveBy n)) =
      (l.place slots).map fun r => (r.1.moveBy n, r.2.map (.moveBy n)) := by
  cases slots with
  | nil => rfl
  | cons s slots =>
      rcases l.lexemes_cases with ⟨x, hx, -⟩ | ⟨x, y, hxy, -⟩
      · simp [place, hx, Slot.moveBy]
      · cases slots with
        | nil => simp [place, hxy]
        | cons t slots =>
            have htouch : (s.span.stop + n == t.span.start + n) = (s.span.stop == t.span.start) := by
              rw [Bool.eq_iff_iff, beq_iff_eq, beq_iff_eq]
              omega
            simp only [place, hxy, List.map_cons, Slot.moveBy, Span.moveBy, List.isEmpty_map, htouch]
            split <;> rfl

namespace Tree

mutual

theorem place_moveBy : (t : Tree) → (slots : List Slot) → t.place (slots.map (.moveBy n)) =
    (t.place slots).map fun r => (r.1.moveBy n, r.2.map (.moveBy n))
  | .leaf l, slots => by
      rw [place, place, Leaf.place_moveBy]
      cases l.place slots <;> rfl
  | .node k ts, slots => by
      rw [place, place, placeAll_moveBy ts]
      cases placeAll ts slots with
      | none => rfl
      | some r =>
          exact congrArg (fun ns => some (Node.branch k ns, _)) (Node.moveAllBy_eq_map n r.1).symm

/-- Over slots further on in a text, the nodes are further on. -/
theorem placeAll_moveBy : (ts : List Tree) → (slots : List Slot) →
    placeAll ts (slots.map (.moveBy n)) =
      (placeAll ts slots).map fun r => (r.1.map (.moveBy n), r.2.map (.moveBy n))
  | [], slots => rfl
  | t :: ts, slots => by
      rw [placeAll, placeAll, place_moveBy t]
      cases t.place slots with
      | none => rfl
      | some r =>
          simp only [Option.map_some, Option.bind_eq_bind, Option.bind_some, placeMore_moveBy ts]
          cases placeMore ts r.2 <;> rfl

theorem placeMore_moveBy : (ts : List Tree) → (slots : List Slot) →
    placeMore ts (slots.map (.moveBy n)) =
      (placeMore ts slots).map fun r => (r.1.map (.moveBy n), r.2.map (.moveBy n))
  | [], slots => rfl
  | t :: ts, slots => by
      rw [placeMore, placeMore, place_moveBy t, Slot.commentsInside_moveBy]
      cases t.place slots with
      | none => rfl
      | some r =>
          simp only [Option.map_some, Option.bind_eq_bind, Option.bind_some, placeMore_moveBy ts]
          cases placeMore ts r.2 <;> simp

end

end Tree

end

end Heptagon
