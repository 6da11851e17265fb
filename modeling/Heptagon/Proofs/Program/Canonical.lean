import Heptagon.Proofs.Program.Regrouping
import Heptagon.Proofs.Statement.Canonical

/-!
# Programs with canonical trees

A plain program is what the reader takes if its tree is canonical
(`Program.fits_of_canonical`).
-/

namespace Heptagon

open Tree (Canonical)

theorem Component.fits_of_canonical {c : Component} (h : c.Plain)
    (hd : ∀ t ∈ c.trees, t.Derives Canonical) (ts : List Lexeme) : c.Fits ts := by
  simp only [trees, List.forall_mem_cons, List.forall_mem_append] at hd
  obtain ⟨-, -, -, hinputs, -, houtputs, hlocals, hblock, -⟩ := hd
  obtain ⟨-, -, hsingle, hchain⟩ := hblock.self
  have hchain := (List.isChain_cons.mp (hchain rfl)).2
  exact
    { generic := fun g hg => Ty.normal_of_plain (h.generic g hg).2
      inputs := Params.normal_of_canonical h.inputs hinputs
      outputs := Params.normal_of_canonical h.outputs houtputs
      locals := Locals.normal_of_canonical h.locals hlocals
      body := c.body.fits_of_canonical h.body (fun t ht => hblock.children t (by simp [ht]))
        (fun t ht => hsingle rfl t (by simp [ht])) (List.isChain_append.mp hchain).1 rfl ts }

theorem Definition.fits_of_canonical {d : Definition} (h : d.Plain)
    (hd : ∀ t ∈ d.trees, t.Derives Canonical) {ts : List Lexeme}
    (hts : ∀ t us, ts ≠ .symbol .bar :: .capital t :: us) : d.Fits ts := by
  cases d with
  | component c => exact c.fits_of_canonical h hd ts
  | record n f fs => exact fun f' hf => Ty.normal_of_plain (h.2 f' hf).2
  | enumeration n bar t variants => exact hts

/-- A plain program is what the reader takes if its tree is canonical. -/
theorem Program.fits_of_canonical {p : Program} (h : p.Plain) (hd : p.tree.Derives Canonical) :
    p.Fits := by
  have htrees := hd.children
  clear hd
  induction p with
  | nil => trivial
  | cons d p ih =>
      obtain ⟨hplain, hplains⟩ := List.forall_mem_cons.mp h
      rw [List.flatMap_cons] at htrees
      obtain ⟨hfirst, hmore⟩ := List.forall_mem_append.mp htrees
      exact ⟨d.fits_of_canonical hplain hfirst (flatten_units_ne p), ih hplains hmore⟩

end Heptagon
