import Heptagon.Proofs.Program.Reading
import Heptagon.Proofs.Statement.Regrouping

/-!
# Regrouping programs

Every plain program has the text of one that is read (`Program.exists_fits`),
token by token.
-/

namespace Heptagon

theorem Component.exists_fits {c : Component} (h : c.Plain) (ts : List Lexeme) :
    ∃ c' : Component, c'.hasMemory = c.hasMemory ∧ c'.units = c.units ∧ c'.Fits ts := by
  obtain ⟨inputs, hinputs, hin⟩ := Params.exists_normal h.inputs
  obtain ⟨outputs, houtputs, hout⟩ := Params.exists_normal h.outputs
  obtain ⟨locals, hlocals, hlocal⟩ := Locals.exists_normal h.locals
  obtain ⟨body, hbody, hfits, -⟩ :=
    c.body.exists_fits h.body (b := .block) (t := .kw .tel) rfl ts
  refine ⟨⟨c.hasMemory, c.name, c.generic, inputs, outputs, locals, body⟩, rfl, ?_, ?_⟩
  · simp [units, hin, hout, hlocal, hbody]
  · exact ⟨fun g hg => Ty.normal_of_plain (h.generic g hg).2, hinputs, houtputs, hlocals, hfits⟩

/-- A definition starts with a word, which no enumeration goes on with. -/
theorem Program.flatten_units_ne (p : Program) (t : Text) (us : List Lexeme) :
    p.units.flatten ≠ .symbol .bar :: .capital t :: us := by
  cases p with
  | nil => simp [units]
  | cons d p => cases d <;> simp [units, Definition.units]

theorem Definition.exists_fits {d : Definition} (h : d.Plain) {ts : List Lexeme}
    (hts : ∀ t us, ts ≠ .symbol .bar :: .capital t :: us) :
    ∃ d' : Definition, d'.units = d.units ∧ d'.Fits ts := by
  cases d with
  | component c =>
      obtain ⟨c', hmemory, hunits, hfits⟩ := Component.exists_fits h ts
      exact ⟨.component c', by rw [units, units, hmemory, hunits], hfits⟩
  | record n f fs => exact ⟨.record n f fs, rfl, fun f' hf => Ty.normal_of_plain (h.2 f' hf).2⟩
  | enumeration n bar t variants => exact ⟨.enumeration n bar t variants, rfl, hts⟩

/-- A plain program has the text of a program that is read. -/
theorem Program.exists_fits {p : Program} (h : p.Plain) :
    ∃ p' : Program, p'.units = p.units ∧ p'.Fits := by
  induction p with
  | nil => exact ⟨[], rfl, trivial⟩
  | cons d p ih =>
      obtain ⟨hd, hp⟩ := List.forall_mem_cons.mp h
      obtain ⟨p', hunits, hfits⟩ := ih hp
      obtain ⟨d', hunits', hfits'⟩ := Definition.exists_fits hd (flatten_units_ne p')
      refine ⟨d' :: p', ?_, hfits', hfits⟩
      rw [units, List.flatMap_cons, hunits', ← units, hunits]
      rfl

end Heptagon
