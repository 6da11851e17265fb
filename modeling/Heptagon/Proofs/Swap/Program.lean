import Heptagon.Proofs.Swap.Statement
import Heptagon.Proofs.Program.Regrouping

/-!
# A swap in a program

A program after the swap of an expression of it is one that is read from its
own text (`Program.exists_turned`).
-/

namespace Heptagon

variable {w : Swap} {ls : List Leaf} {ts : List Lexeme} {ts' : List Tree}

@[simp] theorem Generic.not_turnsAll_trees (g : Option Generic) :
    ¬ w.TurnsAll ls ((g.map trees).getD []) ts' := by
  cases g <;> simp [trees]

@[simp] theorem FieldType.not_turnsAll_trees (f : FieldType) : ¬ w.TurnsAll ls f.trees ts' := by
  simp [trees]

@[simp] theorem FieldType.not_turnsAll_flatMap (fs : List FieldType) :
    ¬ w.TurnsAll ls (fs.flatMap fun f => .sym .semicolon :: f.trees) ts' := by
  induction fs generalizing ls ts' with
  | nil => simp
  | cons f fs ih => simp [ih]

@[simp] theorem Tree.not_turnsAll_barIf (bar : Bool) : ¬ w.TurnsAll ls (barIf bar) ts' := by
  cases bar <;> simp [barIf]

@[simp] theorem Definition.not_turnsAll_variants (variants : List Text) :
    ¬ w.TurnsAll ls (variants.flatMap fun t => [.sym .bar, .leaf (.variant t)]) ts' := by
  induction variants generalizing ls ts' with
  | nil => simp
  | cons t variants ih => simp [ih]

theorem Component.exists_turned {c : Component} (hfits : c.Fits ts) (hls : w.Allows ls)
    (h : w.TurnsAll ls c.trees ts') : ∃ c' : Component, c'.hasMemory = c.hasMemory ∧
      c'.trees = ts' ∧ c'.Fits ts ∧ Units.Turns w ls
        ([.kw (if c.hasMemory then .node else .fun_)] :: c.units)
        ([.kw (if c.hasMemory then .node else .fun_)] :: c'.units) := by
  obtain ⟨memory, name, generic, inputs, outputs, locals, body⟩ := c
  obtain ⟨hgeneric, hinputs, houtputs, hlocals, hbody⟩ := hfits
  simp [trees, Swap.turns_node_iff, Tree.leaves, or_and_right, and_or_left, exists_or,
    and_assoc] at h
  obtain ⟨ms, rfl, u, h, rfl⟩ | ⟨ms, rfl, u, h, rfl⟩ | ⟨ms, rfl, us, h, rfl⟩ |
    ⟨ms, rfl, us, h, rfl⟩ := h
  · obtain ⟨inputs', rfl, hinputs', hunits⟩ :=
      Params.exists_turned hinputs hls.of_cons.of_cons.of_append h
    exact ⟨⟨memory, name, generic, inputs', outputs, locals, body⟩, rfl, rfl,
      ⟨hgeneric, hinputs', houtputs, hlocals, hbody⟩,
      (((hunits.append_right _).append_left (Generic.unitsAll_trees generic)).cons rfl).cons rfl⟩
  · obtain ⟨outputs', rfl, houtputs', hunits⟩ :=
      Params.exists_turned houtputs hls.of_cons.of_cons.of_append.of_append.of_cons h
    exact ⟨⟨memory, name, generic, inputs, outputs', locals, body⟩, rfl, rfl,
      ⟨hgeneric, hinputs, houtputs', hlocals, hbody⟩,
      (((((hunits.append_right _).cons rfl).append_tree (by simp)).append_left
        (Generic.unitsAll_trees generic)).cons rfl).cons rfl⟩
  · obtain ⟨locals', rfl, hlocals', hunits⟩ := Locals.exists_turned hlocals
      hls.of_cons.of_cons.of_append.of_append.of_cons.of_append h
    exact ⟨⟨memory, name, generic, inputs, outputs, locals', body⟩, rfl, rfl,
      ⟨hgeneric, hinputs, houtputs, hlocals', hbody⟩,
      ((((((hunits.append_right _).append_tree (by simp)).cons rfl).append_tree
        (by simp)).append_left (Generic.unitsAll_trees generic)).cons rfl).cons rfl⟩
  · obtain ⟨body', rfl, hbody', -, hunits⟩ := Statements.exists_turned body hbody
      hls.of_cons.of_cons.of_append.of_append.of_cons.of_append.of_append.of_cons h
    exact ⟨⟨memory, name, generic, inputs, outputs, locals, body'⟩, rfl, rfl,
      ⟨hgeneric, hinputs, houtputs, hlocals, hbody'⟩,
      ((((((((hunits.append_right _).cons rfl).append_left
        (Locals.unitsAll_trees locals)).append_tree (by simp)).cons rfl).append_tree (by simp)).append_left
          (Generic.unitsAll_trees generic)).cons rfl).cons rfl⟩

theorem Definition.exists_turned {d : Definition} (hfits : d.Fits ts) (hls : w.Allows ls)
    (h : w.TurnsAll ls d.trees ts') :
    ∃ d' : Definition, d'.trees = ts' ∧ d'.Fits ts ∧ Units.Turns w ls d.units d'.units := by
  cases d with
  | component c =>
      obtain ⟨c', hmemory, rfl, hfits', hunits⟩ := Component.exists_turned hfits hls h
      exact ⟨.component c', rfl, hfits', by rw [units, units, hmemory]; exact hunits⟩
  | record n f fs => simp [trees] at h
  | enumeration n bar t variants => simp [trees] at h

/-- What follows a definition makes no difference if it starts no constructor. -/
theorem Definition.Fits.of_ne {d : Definition} (h : d.Fits ts) {us : List Lexeme}
    (hus : ∀ t vs, us ≠ .symbol .bar :: .capital t :: vs) : d.Fits us := by
  cases d with
  | component c => exact ⟨h.generic, h.inputs, h.outputs, h.locals,
      Statements.Fits.of_followsAs c.body (.cons (by simp) _ _) h.body⟩
  | record n f fs => exact h
  | enumeration n bar t variants => exact hus

/-- A program after a swap in one of its definitions is read as such. -/
theorem Program.exists_turned {d : Definition} {back : Program} :
    (front : Program) → Fits (front ++ d :: back) → ∀ {ls : List Leaf} {ts' : List Tree},
      w.Allows ls → w.TurnsAll ls d.trees ts' →
      ∃ d' : Definition, d'.trees = ts' ∧ Fits (front ++ d' :: back) ∧
        Units.Turns w (Tree.leavesAll (front.flatMap Definition.trees) ++ ls)
          (units (front ++ d :: back)) (units (front ++ d' :: back))
  | [], ⟨hd, hback⟩, ls, ts', hls, h => by
      obtain ⟨d', rfl, hd', hunits⟩ := Definition.exists_turned hd hls h
      exact ⟨d', rfl, ⟨hd', hback⟩, hunits.append_right _⟩
  | d₀ :: front, ⟨hd₀, hfits⟩, ls, ts', hls, h => by
      obtain ⟨d', hd', hfits', hunits⟩ := Program.exists_turned front hfits hls h
      refine ⟨d', hd', ⟨hd₀.of_ne (flatten_units_ne _), hfits'⟩, ?_⟩
      rw [List.flatMap_cons, Tree.leavesAll_append, List.append_assoc]
      exact hunits.append_left d₀.unitsAll_trees

end Heptagon
