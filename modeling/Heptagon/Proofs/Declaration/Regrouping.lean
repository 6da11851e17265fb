import Heptagon.Proofs.Expr.Regrouping

/-!
# Plain declarations

A plain declaration is read as it is, except for the expressions in the first
value of a variable, which may group in another way.
-/

namespace Heptagon

theorem Ty.normal_of_plain {t : Ty} (h : t.Plain) : t.Normal := by
  induction t with
  | base b => trivial
  | named n => exact Word.isTypeName_of_isPlain h
  | array t s ih => exact ih h.1

theorem VarGroup.normal_of_plain {g : VarGroup} (h : g.Plain) : g.Normal :=
  ⟨Ty.normal_of_plain h.type, fun c hc s hs => (h.clock c hc s hs).state⟩

theorem VarGroup.Plain.exists_first {g : VarGroup} (h : g.Plain) : ∃ t, g.first = .plain t := by
  have hfirst := h.names g.first (by simp)
  cases hg : g.first with
  | plain t => exact ⟨t, rfl⟩
  | keyword k => simp [hg, Word.isPlain] at hfirst

theorem Init.exists_normal {i : Init} (h : i.Plain) : ∃ i' : Init, i'.Normal ∧ i'.units = i.units := by
  cases i with
  | name n =>
      refine ⟨.name n, ?_, rfl⟩
      cases n with
      | plain t => simp [Normal]
      | keyword k => simp [Init.Plain, Word.isPlain] at h
  | literal l =>
      obtain ⟨l', hl, hlexemes⟩ := l.exists_normal h
      exact ⟨.literal l', hl, by simp [units, hlexemes]⟩

/-- A plain declaration has the text of a normal one, which closes no local variables. -/
theorem Declaration.exists_normal {d : Declaration} (h : d.Plain) :
    ∃ d' : Declaration, (d'.Normal ∧ d'.closesLocals = false) ∧ d'.units = d.units := by
  cases d with
  | plain g =>
      obtain ⟨t, ht⟩ := VarGroup.Plain.exists_first h
      refine ⟨.plain g, ⟨⟨by simp [ht], VarGroup.normal_of_plain h⟩, ?_⟩, rfl⟩
      rw [closesLocals, ht]
      rfl
  | last g i =>
      obtain ⟨i', hi, hunits⟩ := Init.exists_normal h.2
      exact ⟨.last g i', ⟨⟨VarGroup.normal_of_plain h.1, hi⟩, rfl⟩, by simp [units, hunits]⟩

theorem Declaration.exists_normal_more {ds : List Declaration} (h : ∀ d ∈ ds, d.Plain) :
    ∃ ds' : List Declaration, (∀ d ∈ ds', d.Normal ∧ d.closesLocals = false) ∧
      moreUnits ds' = moreUnits ds := by
  induction ds with
  | nil => exact ⟨[], by simp, rfl⟩
  | cons d ds ih =>
      obtain ⟨hd, hds⟩ := List.forall_mem_cons.mp h
      obtain ⟨d', hd', hunits⟩ := exists_normal hd
      obtain ⟨ds', hds', hmore⟩ := ih hds
      refine ⟨d' :: ds', List.forall_mem_cons.mpr ⟨hd', hds'⟩, ?_⟩
      rw [moreUnits, moreUnits, List.flatMap_cons, List.flatMap_cons, hunits]
      rw [moreUnits, moreUnits] at hmore
      rw [hmore]

theorem Params.exists_normal {p : Params} (h : p.Plain) :
    ∃ p' : Params, p'.Normal ∧ p'.units = p.units := by
  cases p with
  | empty o => exact ⟨.empty o, trivial, rfl⟩
  | list o d ds semicolon =>
      obtain ⟨hd, hds⟩ := List.forall_mem_cons.mp h.2
      obtain ⟨d', hd', hunits⟩ := Declaration.exists_normal hd
      obtain ⟨ds', hds', hmore⟩ := Declaration.exists_normal_more hds
      exact ⟨.list o d' ds' semicolon, List.forall_mem_cons.mpr ⟨hd'.1, fun d hd => (hds' d hd).1⟩,
        by simp [units, hunits, hmore]⟩

theorem Locals.exists_normal {l : Option Locals} (h : ∀ l' ∈ l, l'.Plain) :
    ∃ l' : Option Locals, (∀ m ∈ l', m.Normal) ∧ unitsOf l' = unitsOf l := by
  cases l with
  | none => exact ⟨none, by simp, rfl⟩
  | some l =>
      obtain ⟨hd, hds⟩ := List.forall_mem_cons.mp (h l rfl)
      obtain ⟨d', hd', hunits⟩ := Declaration.exists_normal hd
      obtain ⟨ds', hds', hmore⟩ := Declaration.exists_normal_more hds
      refine ⟨some ⟨d', ds'⟩, fun m hm => ?_, by simp [unitsOf, units, hunits, hmore]⟩
      obtain rfl := Option.mem_some_iff.mp hm
      exact ⟨hd'.1, hds'⟩

end Heptagon
