import Heptagon.Proofs.Swap.Units
import Heptagon.Proofs.Respelling.Declaration

/-!
# A swap in a declaration

The only expressions in declarations are in the arrays that variables start
with.  A declaration after the swap of one of them is how its text is read if
the declaration was.
-/

namespace Heptagon

variable {w : Swap} {t' : Tree} {ls : List Leaf} {ts' : List Tree}

/-! ## Types and clocks -/

@[simp] theorem Name.not_turnsAll_more (ns : List Name) : ¬ w.TurnsAll ls (more ns) ts' := by
  induction ns generalizing ls ts' with
  | nil => simp [more]
  | cons n ns ih =>
      rw [more] at ih
      simp [more, ih]

@[simp] theorem Ty.not_turns_tree (t : Ty) : ¬ w.Turns ls t.tree t' := by
  induction t generalizing ls t' with
  | base b => simp [tree, Swap.turns_node_iff]
  | named n => simp [tree, Swap.turns_node_iff]
  | array t s ih => cases s <;> simp [tree, Swap.turns_node_iff, Size.tree, ih]

@[simp] theorem Sampling.not_turnsAll_trees (ss : List Sampling) :
    ¬ w.TurnsAll ls (ss.flatMap trees) ts' := by
  induction ss generalizing ls ts' with
  | nil => simp
  | cons s ss ih => simp [trees, ih]

@[simp] theorem VarGroup.not_turns_tree (g : VarGroup) : ¬ w.Turns ls g.tree t' := by
  cases hclock : g.clock <;>
    simp [tree, hclock, Swap.turns_node_iff, Clock.tree, -List.flatMap_cons]

@[simp] theorem Tree.not_turnsAll_semicolonIf (b : Bool) : ¬ w.TurnsAll ls (semicolonIf b) ts' := by
  cases b <;> simp [semicolonIf]

/-! ## Declarations -/

/-- The second declaration can stand where the first one does. -/
structure Declaration.Becomes (d d' : Declaration) : Prop where
  normal : d.Normal → d'.Normal
  closesLocals : d'.closesLocals = d.closesLocals

theorem Declaration.Becomes.refl (d : Declaration) : d.Becomes d := ⟨id, rfl⟩

theorem Declaration.exists_turned {d : Declaration} (hd : d.Normal) (hls : w.Allows ls)
    (h : w.Turns ls d.tree t') : ∃ d' : Declaration, d'.tree = t' ∧ d.Becomes d' ∧
      Units.Turns w ls d.units d'.units := by
  cases d with
  | plain g => simp [tree, Swap.turns_node_iff] at h
  | last g i =>
      cases i with
      | name n => simp [tree, Init.tree, Swap.turns_node_iff] at h
      | literal l =>
          simp [tree, Init.tree, Swap.turns_node_iff, Tree.leaves, and_assoc] at h
          obtain ⟨ms, rfl, u, h, rfl⟩ := h
          obtain ⟨es, rfl, hnormal, hlexemes⟩ := Literal.exists_turned l hd.2
            hls.of_cons.of_append.of_cons h
          refine ⟨.last g (.literal (.array es)), rfl, ⟨fun h => ⟨h.1, hnormal⟩, rfl⟩, ?_⟩
          have hturned : (Expr.literal l).Turned w ms (.literal (.array es)) :=
            ⟨hnormal, .of_closed rfl rfl rfl rfl fun _ => rfl, hlexemes⟩
          have hunits : Units.Turns w (.symbol .equal :: ms) _ _ :=
            .of_turned (show (Expr.literal l).Normal from hd.2) hturned (l := .symbol .equal) rfl
              rfl
          exact (hunits.append_tree (by simp)).cons rfl

theorem Declaration.exists_turned_more {ds : List Declaration} (hds : ∀ d ∈ ds, d.Normal)
    (hls : w.Allows ls) (h : w.TurnsAll ls (more ds) ts') :
    ∃ ds', more ds' = ts' ∧ List.Forall₂ Becomes ds ds' ∧
      Units.Turns w ls (moreUnits ds) (moreUnits ds') := by
  refine Tree.exists_turned_flatMap Becomes.refl (by simp) (fun d hd ls us hls h => ?_) hls h
  simp [Tree.leaves] at h
  obtain ⟨ms, rfl, u, h, rfl⟩ := h
  obtain ⟨d', rfl, hd', hunits⟩ := exists_turned (hds d hd) hls.of_cons h
  exact ⟨d', rfl, hd', hunits.cons rfl⟩

/-! ## Parameters and local variables -/

theorem Params.exists_turned {p : Params} (hp : p.Normal) (hls : w.Allows ls)
    (h : w.Turns ls p.tree t') : ∃ p' : Params, p'.tree = t' ∧ p'.Normal ∧
      Units.Turns w ls p.units p'.units := by
  cases p with
  | empty o => simp [tree, Swap.turns_node_iff] at h
  | list o d ds semicolon =>
      obtain ⟨hd, hds⟩ := List.forall_mem_cons.mp hp
      simp [tree, Swap.turns_node_iff, Tree.leaves, or_and_right, and_or_left, exists_or,
        and_assoc] at h
      obtain ⟨ms, rfl, u, h, rfl⟩ | ⟨ms, rfl, us, h, rfl⟩ := h
      · obtain ⟨d', rfl, hd', hunits⟩ := Declaration.exists_turned hd hls.of_cons h
        exact ⟨.list o d' ds semicolon, rfl, List.forall_mem_cons.mpr ⟨hd'.normal hd, hds⟩,
          (hunits.append_right _).cons (by simp)⟩
      · obtain ⟨ds', rfl, hds', hunits⟩ :=
          Declaration.exists_turned_more hds hls.of_cons.of_append h
        exact ⟨.list o d ds' semicolon, rfl, List.forall_mem_cons.mpr ⟨hd,
          forall_mem_of_forall₂ hds' (fun _ _ h => h.normal) hds⟩,
          ((hunits.append_right _).append_tree (by simp)).cons (by simp)⟩

theorem Locals.exists_turned {l : Option Locals} (hl : ∀ l' ∈ l, l'.Normal)
    (hls : w.Allows ls) (h : w.TurnsAll ls (trees l) ts') :
    ∃ l', trees l' = ts' ∧ (∀ l'' ∈ l', l''.Normal) ∧
      Units.Turns w ls (unitsOf l) (unitsOf l') := by
  cases l with
  | none => simp [trees] at h
  | some l =>
      obtain ⟨d, ds⟩ := l
      obtain ⟨hd, hds⟩ := hl _ rfl
      simp [trees, tree, Swap.turns_node_iff, Tree.leaves, or_and_right, and_or_left, exists_or,
        and_assoc] at h
      obtain ⟨ms, rfl, u, h, rfl⟩ | ⟨ms, rfl, us, h, rfl⟩ := h
      · obtain ⟨d', rfl, hd', hunits⟩ := Declaration.exists_turned hd hls.of_cons h
        refine ⟨some ⟨d', ds⟩, rfl, ?_, (hunits.append_right _).cons rfl⟩
        rintro _ ⟨⟩
        exact ⟨hd'.normal hd, hds⟩
      · obtain ⟨ds', rfl, hds', hunits⟩ := Declaration.exists_turned_more
          (fun d hd => (hds d hd).1) hls.of_cons.of_append h
        refine ⟨some ⟨d, ds'⟩, rfl, ?_, ((hunits.append_right _).append_tree (by simp)).cons rfl⟩
        rintro _ ⟨⟩
        exact ⟨hd, forall_mem_of_forall₂ hds' (P := fun d => d.Normal ∧ d.closesLocals = false)
          (fun _ _ h hP => ⟨h.normal hP.1, h.closesLocals.trans hP.2⟩) hds⟩

end Heptagon
