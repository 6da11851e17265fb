import Heptagon.Proofs.Program.Reading
import Heptagon.Proofs.Statement.Meeting

/-!
# No name in a program calls what meets it

The expressions and statements of a program are inside its components, so the
rest of a definition only has to be passed by (`Program.joinsAll_trees`).
-/

namespace Heptagon

variable {ts us : List Lexeme} {vs ws : List Tree}

/-- A row of trees none of which is met by anything, and what follows it. -/
theorem Tree.joinsAll_append_of_isJoint (h : ∀ t ∈ vs, t.isJoint = false) :
    JoinsAll ts (vs ++ ws) ↔ JoinsAll ts vs ∧ JoinsAll (ts.drop (widthAll vs)) ws := by
  induction vs generalizing ts with
  | nil => simp [widthAll]
  | cons v vs ih =>
      obtain ⟨hv, hvs⟩ := List.forall_mem_cons.mp h
      rw [List.cons_append, joinsAll_cons_of_isJoint hv, joinsAll_cons_of_isJoint hv, ih hvs,
        List.drop_drop, widthAll, and_assoc]

/-- Nothing meets the tree, nor anything in it. -/
def Tree.IsQuiet (t : Tree) : Prop := t.isJoint = false ∧ ∀ ts, t.Joins ts

@[simp] theorem Tree.isQuiet_leaf (l : Leaf) : (leaf l).IsQuiet := ⟨isJoint_leaf, fun _ => trivial⟩

@[simp] theorem Ty.isQuiet_tree (t : Ty) : t.tree.IsQuiet := ⟨by cases t <;> rfl, t.joins⟩

theorem Tree.joinsAll_of_isQuiet (h : ∀ t ∈ vs, t.IsQuiet) (ts : List Lexeme) :
    JoinsAll ts vs := by
  induction vs generalizing ts with
  | nil => simp
  | cons v vs ih =>
      obtain ⟨⟨hjoint, hv⟩, hvs⟩ := List.forall_mem_cons.mp h
      rw [joinsAll_cons_of_isJoint hjoint]
      exact ⟨hv ts, ih hvs _⟩

/-! ## Definitions -/

theorem FieldType.isQuiet_trees (f : FieldType) : ∀ t ∈ f.trees, t.IsQuiet := by
  simp [trees]

/-- The definition of a type has nothing in it that could be met. -/
theorem Definition.isQuiet_trees {d : Definition} (h : ∀ c, d ≠ .component c) :
    ∀ t ∈ d.trees, t.IsQuiet := by
  intro u hu
  cases d with
  | component c => exact absurd rfl (h c)
  | record n f fs =>
      simp only [trees, List.mem_cons, List.mem_append, List.mem_flatMap, List.not_mem_nil,
        or_false] at hu
      rcases hu with rfl | rfl | rfl | rfl | (hu | ⟨g, -, rfl | hu⟩) | rfl
      · simp
      · simp
      · simp
      · simp
      · exact f.isQuiet_trees u hu
      · simp
      · exact g.isQuiet_trees u hu
      · simp
  | enumeration n bar t variants =>
      simp only [trees, List.mem_cons, List.mem_append, List.mem_flatMap, List.not_mem_nil,
        or_false] at hu
      rcases hu with rfl | rfl | rfl | hu | rfl | ⟨t, -, rfl | rfl⟩
      · simp
      · simp
      · simp
      · cases bar with
        | true =>
            obtain rfl := List.mem_singleton.mp hu
            simp
        | false => simp [Tree.barIf] at hu
      · simp
      · simp
      · simp

theorem Params.isJoint_tree (p : Params) : p.tree.isJoint = false := by cases p <;> rfl

/-- No part of a definition is met by anything. -/
theorem Definition.isJoint_trees (d : Definition) : ∀ t ∈ d.trees, t.isJoint = false := by
  cases d with
  | component c =>
      obtain ⟨memory, name, generic, inputs, outputs, locals, body⟩ := c
      cases generic <;> cases locals <;>
        simp [trees, Component.trees, Generic.trees, Locals.trees, Locals.tree,
          (Ty.isQuiet_tree _).1, Params.isJoint_tree, Kind.isStatement]
  | _ => exact fun t ht => (isQuiet_trees (by simp) t ht).1

theorem Params.joinsAll_cons {p : Params} (h : p.Normal) (hvs : Tree.JoinsAll us vs) :
    Tree.JoinsAll (p.units.flatten ++ us) (p.tree :: vs) := by
  rw [Tree.joinsAll_cons_of_isJoint p.isJoint_tree, Tree.drop_width p.tree p.units (by simp)]
  exact ⟨joins h us, hvs⟩

theorem Generic.joinsAll_trees (g : Option Generic) (hvs : Tree.JoinsAll us vs) :
    Tree.JoinsAll ((unitsOf g).flatten ++ us) ((g.map trees).getD [] ++ vs) := by
  cases g with
  | none => exact hvs
  | some g =>
      have hdrop := Tree.drop_width g.type.tree g.type.units (by simp)
        (.symbol .angleClose :: us)
      simpa [unitsOf, units, trees, hdrop] using ⟨g.type.joins _, hvs⟩

theorem Component.joinsAll_trees {c : Component} (h : c.Fits ts) :
    Tree.JoinsAll ((Definition.component c).units.flatten ++ ts) c.trees := by
  have htel : Tree.JoinsAll (.kw .tel :: ts) [.kw .tel] := by simp
  have hbody := Statements.joinsAll_trees c.body h.body htel (by simp)
  have hlet : Tree.JoinsAll (.kw .let_ :: (c.body.units.flatten ++ .kw .tel :: ts))
      [.node .block (.kw .let_ :: (c.body.trees ++ [.kw .tel]))] := by simpa using hbody
  have hblock := Locals.joinsAll_trees h.locals hlet
  have houtputs := Params.joinsAll_cons h.outputs hblock
  have hreturns : Tree.JoinsAll (.kw .returns :: (c.outputs.units.flatten ++
      ((Locals.unitsOf c.locals).flatten ++ .kw .let_ :: (c.body.units.flatten ++ .kw .tel :: ts))))
      (.kw .returns :: c.outputs.tree :: (Locals.trees c.locals ++
        [.node .block (.kw .let_ :: (c.body.trees ++ [.kw .tel]))])) :=
    Tree.joinsAll_leaf_cons.mpr houtputs
  have hinputs := Params.joinsAll_cons h.inputs hreturns
  simpa [Definition.units, units, trees] using Generic.joinsAll_trees c.generic hinputs

theorem Definition.joinsAll_trees {d : Definition} (h : d.Fits ts) :
    Tree.JoinsAll (d.units.flatten ++ ts) d.trees := by
  cases d with
  | component c => exact Component.joinsAll_trees h
  | _ => exact Tree.joinsAll_of_isQuiet (isQuiet_trees (by simp)) _

/-- No name in a program calls what meets it. -/
theorem Program.joinsAll_trees {p : Program} (h : p.Fits) :
    Tree.JoinsAll p.units.flatten (p.flatMap Definition.trees) := by
  induction p with
  | nil => simp
  | cons d p ih =>
      have hunits : units (d :: p) = d.units ++ units p := by simp [units]
      have hwidth := Tree.widthAll_eq_length d.trees
      rw [d.unitsAll_trees, Units.flatten_shown, List.length_map] at hwidth
      rw [List.flatMap_cons, hunits, List.flatten_append,
        Tree.joinsAll_append_of_isJoint d.isJoint_trees, hwidth, List.drop_left]
      exact ⟨Definition.joinsAll_trees h.1, ih h.2⟩

end Heptagon
