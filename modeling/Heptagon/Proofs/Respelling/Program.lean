import Heptagon.Proofs.Program.Regrouping
import Heptagon.Proofs.Respelling.Fitting

/-!
# Programs in another spelling

Two programs are alike if they have the same structure and differ in how names,
numbers, constructors and states are spelled (`Program.Alike`).  The one is read
from its text if the other is from its own (`Program.Alike.fits`), their units
and trees are alike, and whatever other tokens the leaves of a program are
replaced by, they are the leaves of a program that is like it
(`Program.exists_alike`).
-/

namespace Heptagon

/-! ## Components -/

structure Generic.Alike (g g' : Generic) : Prop where
  name : g.name.Alike g'.name
  type : g.type.Alike g'.type

namespace Generic

variable {g g' : Option Generic}

theorem Alike.unitsOf (h : Option.Rel Generic.Alike g g') {us us' : Units} (hus : us.Alike us') :
    Units.Alike (unitsOf g ++ us) (unitsOf g' ++ us') := by
  cases h with
  | none => exact hus
  | some h =>
      simp only [Generic.unitsOf, Generic.units, List.cons_append, List.append_assoc,
        List.nil_append]
      exact .one (.refl _) (.one (.word h.name) (.one (.refl _)
        (h.type.units (.one (.refl _) hus))))

theorem Alike.trees (h : Option.Rel Generic.Alike g g') :
    List.Forall₂ Tree.Alike ((g.map Generic.trees).getD []) ((g'.map Generic.trees).getD []) := by
  cases h with
  | none => exact .nil
  | some h =>
      exact .cons (.refl _) (.cons (.leaf (.name h.name)) (.cons (.refl _)
        (.cons h.type.tree (.cons (.refl _) .nil))))

theorem exists_alike {ls : List Leaf}
    (h : List.Forall₂ Leaf.Alike (Tree.leavesAll ((g.map trees).getD [])) ls) :
    ∃ g', Option.Rel Generic.Alike g g' ∧ Tree.leavesAll ((g'.map trees).getD []) = ls := by
  cases g with
  | none =>
      obtain rfl := List.forall₂_nil_left_iff.mp h
      exact ⟨none, .none, rfl⟩
  | some g =>
      simp only [Option.map_some, Option.getD_some, trees, Tree.leaves, Tree.leavesAll,
        List.append_nil, List.cons_append, List.nil_append, List.forall₂_cons_left_iff,
        forall₂_append_left_iff, List.forall₂_nil_left_iff, Leaf.alike_symbol_iff,
        Leaf.alike_name_iff] at h
      obtain ⟨_, _, rfl, ⟨_, _, ⟨n, rfl, hn⟩, ⟨_, _, rfl, ⟨us, _, hus, ⟨_, _, rfl, rfl, rfl⟩, rfl⟩,
        rfl⟩, rfl⟩, rfl⟩ := h
      obtain ⟨t, ht, rfl⟩ := Ty.exists_alike hus
      exact ⟨some ⟨n, t⟩, .some ⟨hn, ht⟩, by simp [trees, Tree.leaves, Tree.leavesAll]⟩

end Generic

structure Component.Alike (c c' : Component) : Prop where
  hasMemory : c'.hasMemory = c.hasMemory
  name : c.name.Alike c'.name
  generic : Option.Rel Generic.Alike c.generic c'.generic
  inputs : c.inputs.Alike c'.inputs
  outputs : c.outputs.Alike c'.outputs
  locals : Option.Rel Locals.Alike c.locals c'.locals
  body : c.body.Alike c'.body

namespace Component

variable {c c' : Component}

theorem Alike.units (h : c.Alike c') {us us' : Units} (hus : us.Alike us') :
    Units.Alike (c.units ++ us) (c'.units ++ us') := by
  simp only [Component.units, List.cons_append, List.append_assoc, List.nil_append]
  exact .one (.word h.name) (Generic.Alike.unitsOf h.generic (h.inputs.units (.one (.kw _)
    (h.outputs.units (Locals.Alike.unitsOf h.locals (.one (.kw _)
      (Statements.Alike.units _ h.body (.one (.kw _) hus))))))))

theorem Alike.trees (h : c.Alike c') : List.Forall₂ Tree.Alike c.trees c'.trees := by
  rw [Component.trees, Component.trees, h.hasMemory]
  exact .cons (.refl _) (.cons (.leaf (.name h.name)) (List.rel_append (Generic.Alike.trees h.generic)
    (.cons h.inputs.tree (.cons (.refl _) (.cons h.outputs.tree (List.rel_append
      (Locals.Alike.trees h.locals) (.cons (.node (.cons (.refl _) (List.rel_append
        (Statements.Alike.trees _ h.body) (.cons (.refl _) .nil)))) .nil)))))))

theorem Alike.fits (h : c.Alike c') {ts : List Lexeme} (ts' : List Lexeme) (hfits : c.Fits ts) :
    c'.Fits ts' where
  generic := forall_mem_of_rel h.generic (fun _ _ hg => hg.type.normal) hfits.generic
  inputs := h.inputs.normal hfits.inputs
  outputs := h.outputs.normal hfits.outputs
  locals := forall_mem_of_rel h.locals (fun _ _ hl => hl.normal) hfits.locals
  body := Statements.Alike.fits _ h.body (.cons (.refl _) _ _) hfits.body

theorem exists_alike {ls : List Leaf} (h : List.Forall₂ Leaf.Alike (Tree.leavesAll c.trees) ls) :
    ∃ c' : Component, c.Alike c' ∧ Tree.leavesAll c'.trees = ls := by
  simp only [trees, Tree.leaves, Tree.leavesAll, Tree.leavesAll_append, List.append_nil,
    List.cons_append, List.nil_append, List.forall₂_cons_left_iff, forall₂_append_left_iff,
    List.forall₂_nil_left_iff, Leaf.alike_keyword_iff, Leaf.alike_name_iff] at h
  obtain ⟨_, _, rfl, ⟨_, _, ⟨n, rfl, hn⟩, ⟨us, _, hus, ⟨vs, _, hvs, ⟨_, _, rfl, ⟨ws, _, hws, ⟨xs, _, hxs,
    ⟨_, _, rfl, ⟨ys, _, hys, ⟨_, _, rfl, rfl, rfl⟩, rfl⟩, rfl⟩, rfl⟩, rfl⟩, rfl⟩, rfl⟩, rfl⟩, rfl⟩, rfl⟩ := h
  obtain ⟨generic, hgeneric, rfl⟩ := Generic.exists_alike hus
  obtain ⟨inputs, hinputs, rfl⟩ := Params.exists_alike hvs
  obtain ⟨outputs, houtputs, rfl⟩ := Params.exists_alike hws
  obtain ⟨locals, hlocals, rfl⟩ := Locals.exists_alike hxs
  obtain ⟨body, hbody, rfl⟩ := Statements.exists_alike _ hys
  exact ⟨⟨c.hasMemory, n, generic, inputs, outputs, locals, body⟩,
    ⟨rfl, hn, hgeneric, hinputs, houtputs, hlocals, hbody⟩, by
      simp [trees, Tree.leaves, Tree.leavesAll]⟩

end Component

/-! ## Types -/

structure FieldType.Alike (f f' : FieldType) : Prop where
  name : f.name.Alike f'.name
  type : f.type.Alike f'.type

namespace FieldType

variable {f f' : FieldType}

theorem Alike.units (h : f.Alike f') {us us' : Units} (hus : us.Alike us') :
    Units.Alike (f.units ++ us) (f'.units ++ us') :=
  .one (.word h.name) (.one (.refl _) (h.type.units hus))

theorem Alike.trees (h : f.Alike f') : List.Forall₂ Tree.Alike f.trees f'.trees :=
  .cons (.leaf (.name h.name)) (.cons (.refl _) (.cons h.type.tree .nil))

theorem exists_alike {ls : List Leaf} (h : List.Forall₂ Leaf.Alike (Tree.leavesAll f.trees) ls) :
    ∃ f' : FieldType, f.Alike f' ∧ Tree.leavesAll f'.trees = ls := by
  simp only [trees, Tree.leaves, Tree.leavesAll, List.append_nil, List.cons_append, List.nil_append,
    List.forall₂_cons_left_iff, Leaf.alike_symbol_iff, Leaf.alike_name_iff] at h
  obtain ⟨_, _, ⟨n, rfl, hn⟩, ⟨_, us, rfl, hus, rfl⟩, rfl⟩ := h
  obtain ⟨t, ht, rfl⟩ := Ty.exists_alike hus
  exact ⟨⟨n, t⟩, ⟨hn, ht⟩, by simp [trees, Tree.leaves, Tree.leavesAll]⟩

end FieldType

theorem Units.Alike.barIf (b : Bool) {us us' : Units} (hus : us.Alike us') :
    Units.Alike (Units.barIf b ++ us) (Units.barIf b ++ us') := by
  cases b with
  | true => exact .one (.refl _) hus
  | false => exact hus

theorem Tree.eq_of_alike_barIf {b : Bool} {ls : List Leaf}
    (h : List.Forall₂ Leaf.Alike (leavesAll (barIf b)) ls) : ls = leavesAll (barIf b) := by
  cases b with
  | true =>
      simp only [barIf, leavesAll, leaves, List.append_nil, List.forall₂_cons_left_iff,
        List.forall₂_nil_left_iff, Leaf.alike_symbol_iff] at h
      obtain ⟨_, _, rfl, rfl, rfl⟩ := h
      rfl
  | false => exact List.forall₂_nil_left_iff.mp h

/-! ## Definitions -/

inductive Definition.Alike : Definition → Definition → Prop
  | component {c c' : Component} (h : c.Alike c') : Alike (.component c) (.component c')
  | record {n n' : Name} {f f' : FieldType} {fs fs' : List FieldType} (hn : n.Alike n')
      (hf : f.Alike f') (hfs : List.Forall₂ FieldType.Alike fs fs') :
      Alike (.record n f fs) (.record n' f' fs')
  | enumeration {n n' : Name} (bar : Bool) (t t' : Text) {variants variants' : List Text}
      (hn : n.Alike n') (hvariants : List.Forall₂ (fun _ _ => True) variants variants') :
      Alike (.enumeration n bar t variants) (.enumeration n' bar t' variants')

namespace Definition

variable {d d' : Definition}

theorem Alike.units (h : d.Alike d') {us us' : Units} (hus : us.Alike us') :
    Units.Alike (d.units ++ us) (d'.units ++ us') := by
  cases h with
  | component h =>
      simp only [Definition.units, List.cons_append, h.hasMemory]
      exact .one (.refl _) (h.units hus)
  | record hn hf hfs =>
      simp only [Definition.units, List.cons_append, List.append_assoc, List.nil_append]
      exact .one (.kw _) (.one (.word hn) (.one (.refl _) (.one (.refl _) (hf.units
        (.flatMap (fun _ _ _ _ h hus => .one (.refl _) (h.units hus)) hfs (.one (.refl _) hus))))))
  | enumeration bar t t' hn hvariants =>
      simp only [Definition.units, List.cons_append, List.append_assoc]
      exact .one (.kw _) (.one (.word hn) (.one (.refl _) (.barIf bar (.one (.capital t t')
        (.flatMap (fun t t' _ _ _ hus => .one (.refl _) (.one (.capital t t') hus)) hvariants hus)))))

theorem Alike.trees (h : d.Alike d') : List.Forall₂ Tree.Alike d.trees d'.trees := by
  cases h with
  | component h => exact h.trees
  | record hn hf hfs =>
      exact .cons (.refl _) (.cons (.leaf (.name hn)) (.cons (.refl _) (.cons (.refl _)
        (List.rel_append (List.rel_append hf.trees
          (List.rel_flatMap hfs fun _ _ h => .cons (.refl _) h.trees)) (.cons (.refl _) .nil)))))
  | enumeration bar t t' hn hvariants =>
      exact .cons (.refl _) (.cons (.leaf (.name hn)) (.cons (.refl _)
        (List.rel_append (Tree.Rel.reflAll _) (.cons (.leaf (.variant t t'))
          (List.rel_flatMap hvariants fun t t' _ =>
            .cons (.refl _) (.cons (.leaf (.variant t t')) .nil))))))

/-- A definition is read in front of some lexemes if one that is like it is in front of others, unless
only these are no further constructor. -/
theorem Alike.fits (h : d.Alike d') {ts ts' : List Lexeme}
    (hts : (∀ t us, ts ≠ .symbol .bar :: .capital t :: us) →
      ∀ t us, ts' ≠ .symbol .bar :: .capital t :: us) (hfits : d.Fits ts) : d'.Fits ts' := by
  cases h with
  | component hc => exact hc.fits ts' hfits
  | record _ hf hfs => exact forall_mem_of_forall₂ (.cons hf hfs) (fun _ _ h => h.type.normal) hfits
  | enumeration _ _ _ _ _ => exact hts hfits

theorem exists_alike {ls : List Leaf} (h : List.Forall₂ Leaf.Alike (Tree.leavesAll d.trees) ls) :
    ∃ d' : Definition, d.Alike d' ∧ Tree.leavesAll d'.trees = ls := by
  cases d with
  | component c =>
      obtain ⟨c', hc, rfl⟩ := Component.exists_alike h
      exact ⟨.component c', .component hc, rfl⟩
  | record n f fs =>
      simp only [trees, Tree.leaves, Tree.leavesAll, Tree.leavesAll_append, List.append_nil,
        List.append_assoc, List.cons_append, List.nil_append, List.forall₂_cons_left_iff,
        forall₂_append_left_iff, List.forall₂_nil_left_iff, Leaf.alike_keyword_iff,
        Leaf.alike_symbol_iff, Leaf.alike_name_iff] at h
      obtain ⟨_, _, rfl, ⟨_, _, ⟨n', rfl, hn⟩, ⟨_, _, rfl, ⟨_, _, rfl, ⟨us, _, hus, ⟨vs, _, hvs,
        ⟨_, _, rfl, rfl, rfl⟩, rfl⟩, rfl⟩, rfl⟩, rfl⟩, rfl⟩, rfl⟩ := h
      obtain ⟨f', hf, rfl⟩ := FieldType.exists_alike hus
      obtain ⟨fs', hfs, rfl⟩ := Tree.exists_forall₂_flatMap (R := FieldType.Alike)
        (fun f ls h => by
          obtain ⟨_, us, hl, hus, rfl⟩ := List.forall₂_cons_left_iff.mp h
          obtain rfl := (Leaf.alike_symbol_iff rfl).mp hl
          obtain ⟨f', hf, rfl⟩ := FieldType.exists_alike hus
          exact ⟨f', hf, rfl⟩) hvs
      exact ⟨.record n' f' fs', .record hn hf hfs, by simp [trees, Tree.leaves, Tree.leavesAll]⟩
  | enumeration n bar t variants =>
      simp only [trees, Tree.leaves, Tree.leavesAll, Tree.leavesAll_append, List.cons_append,
        List.nil_append, List.forall₂_cons_left_iff, forall₂_append_left_iff,
        Leaf.alike_keyword_iff, Leaf.alike_symbol_iff, Leaf.alike_name_iff,
        Leaf.alike_variant_iff] at h
      obtain ⟨_, _, rfl, ⟨_, _, ⟨n', rfl, hn⟩, ⟨_, _, rfl, ⟨us, _, hus, ⟨_, vs, ⟨t', rfl⟩, hvs, rfl⟩, rfl⟩,
        rfl⟩, rfl⟩, rfl⟩ := h
      obtain rfl := Tree.eq_of_alike_barIf hus
      obtain ⟨variants', hvariants, rfl⟩ := Tree.exists_forall₂_flatMap (R := fun _ _ : Text => True)
        (fun t ls h => by
          simp only [Tree.leaves, Tree.leavesAll, List.append_nil, List.cons_append, List.nil_append,
            List.forall₂_cons_left_iff, List.forall₂_nil_left_iff, Leaf.alike_symbol_iff,
            Leaf.alike_variant_iff] at h
          obtain ⟨_, _, rfl, ⟨_, _, ⟨t', rfl⟩, rfl, rfl⟩, rfl⟩ := h
          exact ⟨t', trivial, rfl⟩) hvs
      exact ⟨.enumeration n' bar t' variants', .enumeration bar t t' hn hvariants, by
        simp [trees, Tree.leaves, Tree.leavesAll]⟩

end Definition

/-! ## Programs -/

/-- Two programs differ in the spelling of their names, numbers, constructors and states only. -/
def Program.Alike (p p' : Program) : Prop := List.Forall₂ Definition.Alike p p'

namespace Program

variable {p p' : Program}

theorem Alike.units (h : p.Alike p') : Units.Alike p.units p'.units := by
  have hd : ∀ (d d' : Definition) us us', d.Alike d' → Units.Alike us us' →
      Units.Alike (d.units ++ us) (d'.units ++ us') := fun _ _ _ _ hd hus => hd.units hus
  have hunits := Units.Alike.flatMap hd h .nil
  rwa [List.append_nil, List.append_nil] at hunits

/-- A program is how its text is read if one that is like it is. -/
theorem Alike.fits (h : p.Alike p') (hfits : p.Fits) : p'.Fits := by
  induction h with
  | nil => trivial
  | @cons d d' p p' hd _ ih => exact ⟨hd.fits (fun _ => flatten_units_ne p') hfits.1, ih hfits.2⟩

/-- Whatever tokens like its own a program is given, there is a program with them. -/
theorem exists_alike {ls : List Leaf}
    (h : List.Forall₂ Leaf.Alike (Tree.leavesAll (p.flatMap Definition.trees)) ls) :
    ∃ p' : Program, p.Alike p' ∧ Tree.leavesAll (p'.flatMap Definition.trees) = ls :=
  Tree.exists_forall₂_flatMap (fun _ _ h => Definition.exists_alike h) h

end Program

end Heptagon
