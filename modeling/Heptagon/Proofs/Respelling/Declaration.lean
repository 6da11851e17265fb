import Heptagon.Proofs.Respelling.Expr

/-!
# Declarations in another spelling

Types, clocks, declarations and parameter lists that are alike: they have the
same structure, and their names, numbers and states differ in spelling only.
Their units and trees are alike then, and the one is how its text is read if
the other is.  Whatever other tokens the leaves are replaced by, they are the
leaves of a declaration that is like it.
-/

namespace Heptagon

/-! ## Lists of parts -/

section

variable {α : Type} {R : α → α → Prop} {as as' : List α}

/-- Units of parts that are alike, one part after another. -/
theorem Units.Alike.flatMap {f : α → Units}
    (hf : ∀ a a' us us', R a a' → Alike us us' → Alike (f a ++ us) (f a' ++ us'))
    (h : List.Forall₂ R as as') {us us' : Units} (hus : Alike us us') :
    Alike (as.flatMap f ++ us) (as'.flatMap f ++ us') := by
  induction h with
  | nil => exact hus
  | cons ha _ ih =>
      rw [List.flatMap_cons, List.flatMap_cons, List.append_assoc, List.append_assoc]
      exact hf _ _ _ _ ha ih

/-- Other tokens for parts that can have other tokens each. -/
theorem Tree.exists_forall₂_flatMap {f : α → List Tree}
    (hf : ∀ a ls, List.Forall₂ Leaf.Alike (leavesAll (f a)) ls → ∃ a', R a a' ∧ leavesAll (f a') = ls)
    {ls : List Leaf} (h : List.Forall₂ Leaf.Alike (leavesAll (as.flatMap f)) ls) :
    ∃ as', List.Forall₂ R as as' ∧ leavesAll (as'.flatMap f) = ls := by
  induction as generalizing ls with
  | nil =>
      obtain rfl := List.forall₂_nil_left_iff.mp h
      exact ⟨[], .nil, rfl⟩
  | cons a as ih =>
      rw [List.flatMap_cons, leavesAll_append] at h
      obtain ⟨us, vs, hus, hvs, rfl⟩ := forall₂_append_left_iff.mp h
      obtain ⟨a', ha, rfl⟩ := hf a us hus
      obtain ⟨as', has, rfl⟩ := ih hvs
      exact ⟨a' :: as', .cons ha has, by simp⟩

end

theorem forall_mem_of_forall₂ {α : Type} {R : α → α → Prop} {P : α → Prop} {as as' : List α}
    (h : List.Forall₂ R as as') (hR : ∀ a a', R a a' → P a → P a') (hP : ∀ a ∈ as, P a) :
    ∀ a' ∈ as', P a' := by
  induction h with
  | nil => simp
  | cons ha _ ih =>
      obtain ⟨hPa, hPas⟩ := List.forall_mem_cons.mp hP
      exact List.forall_mem_cons.mpr ⟨hR _ _ ha hPa, ih hPas⟩

/-- What holds of an optional part holds of one that is like it. -/
theorem forall_mem_of_rel {α : Type} {R : α → α → Prop} {P : α → Prop} {o o' : Option α}
    (h : Option.Rel R o o') (hR : ∀ a a', R a a' → P a → P a') (hP : ∀ a ∈ o, P a) :
    ∀ a' ∈ o', P a' := by
  cases h with
  | none => simp
  | some h =>
      rintro a' ⟨⟩
      exact hR _ _ h (hP _ rfl)

/-! ## Names -/

namespace Name

variable {ns ns' : List Name} {us us' : Units}

theorem alike_moreUnits (h : List.Forall₂ Word.Alike ns ns') (hus : us.Alike us') :
    Units.Alike (moreUnits ns ++ us) (moreUnits ns' ++ us') :=
  .flatMap (fun _ _ _ _ hn hus => .one (.refl _) (.one (.word hn) hus)) h hus

theorem alike_more (h : List.Forall₂ Word.Alike ns ns') :
    List.Forall₂ Tree.Alike (more ns) (more ns') :=
  List.rel_flatMap h fun _ _ hn => .cons (.refl _) (.cons (.leaf (.name hn)) .nil)

theorem exists_alike_more {ls : List Leaf}
    (h : List.Forall₂ Leaf.Alike (Tree.leavesAll (more ns)) ls) :
    ∃ ns', List.Forall₂ Word.Alike ns ns' ∧ Tree.leavesAll (more ns') = ls := by
  refine Tree.exists_forall₂_flatMap (fun n ls h => ?_) h
  simp only [Tree.leaves, Tree.leavesAll, List.append_nil, List.cons_append, List.nil_append,
    List.forall₂_cons_left_iff, List.forall₂_nil_left_iff, Leaf.alike_symbol_iff,
    Leaf.alike_name_iff] at h
  obtain ⟨_, _, rfl, ⟨_, _, ⟨n', rfl, hn⟩, rfl, rfl⟩, rfl⟩ := h
  exact ⟨n', hn, rfl⟩

end Name

/-! ## Types -/

inductive Size.Alike : Size → Size → Prop
  | name {n n' : Name} (h : n.Alike n') : Alike (.name n) (.name n')
  | number (t t' : Text) : Alike (.number t) (.number t')

theorem Size.Alike.lexeme {s s' : Size} (h : s.Alike s') : s.lexeme.Alike s'.lexeme := by
  cases h with
  | name h => exact .word h
  | number t t' => exact .number t t'

theorem Size.Alike.tree {s s' : Size} (h : s.Alike s') : s.tree.Alike s'.tree := by
  cases h with
  | name h => exact .leaf (.name h)
  | number t t' => exact .leaf (.number t t')

theorem Size.exists_alike {s : Size} {ls : List Leaf}
    (h : List.Forall₂ Leaf.Alike s.tree.leaves ls) :
    ∃ s' : Size, s.Alike s' ∧ s'.tree.leaves = ls := by
  cases s with
  | name n =>
      simp only [tree, Tree.leaves, List.forall₂_cons_left_iff, List.forall₂_nil_left_iff,
        Leaf.alike_name_iff] at h
      obtain ⟨_, _, ⟨n', rfl, hn⟩, rfl, rfl⟩ := h
      exact ⟨.name n', .name hn, rfl⟩
  | number t =>
      simp only [tree, Tree.leaves, List.forall₂_cons_left_iff, List.forall₂_nil_left_iff,
        Leaf.alike_number_iff] at h
      obtain ⟨_, _, ⟨t', rfl⟩, rfl, rfl⟩ := h
      exact ⟨.number t', .number t t', rfl⟩

inductive Ty.Alike : Ty → Ty → Prop
  | base (b : BaseType) : Alike (.base b) (.base b)
  | named {n n' : Name} (h : n.Alike n') : Alike (.named n) (.named n')
  | array {t t' : Ty} {s s' : Size} (ht : Alike t t') (hs : s.Alike s') :
      Alike (.array t s) (.array t' s')

/-- A word like the name of a type is one, too. -/
theorem Word.Alike.isTypeName {w w' : Word} (h : w.Alike w') (hw : w.isTypeName) :
    w'.isTypeName := by
  cases h with
  | keyword k => exact hw
  | plain t t' => simp [Word.isTypeName]

namespace Ty.Alike

variable {t t' : Ty}

theorem units (h : t.Alike t') {us us' : Units} (hus : us.Alike us') :
    Units.Alike (t.units ++ us) (t'.units ++ us') := by
  induction h generalizing us us' with
  | base b => exact .one (.refl _) hus
  | named h => exact .one (.word h) hus
  | array _ hs ih =>
      rw [Ty.units, Ty.units, List.append_assoc, List.append_assoc]
      exact ih (.one (.refl _) (.one hs.lexeme hus))

theorem tree (h : t.Alike t') : t.tree.Alike t'.tree := by
  induction h with
  | base b => exact .refl _
  | named h => exact .node (.cons (.leaf (.name h)) .nil)
  | array _ hs ih => exact .node (.cons (.node (.cons ih (.cons (.refl _) (.cons hs.tree .nil)))) .nil)

theorem normal (h : t.Alike t') (hnormal : t.Normal) : t'.Normal := by
  induction h with
  | base b => trivial
  | named h => exact h.isTypeName hnormal
  | array _ _ ih => exact ih hnormal

end Ty.Alike

theorem Ty.exists_alike {t : Ty} {ls : List Leaf} (h : List.Forall₂ Leaf.Alike t.tree.leaves ls) :
    ∃ t' : Ty, t.Alike t' ∧ t'.tree.leaves = ls := by
  induction t generalizing ls with
  | base b =>
      simp only [tree, Tree.leaves, Tree.leavesAll, List.append_nil, List.forall₂_cons_left_iff,
        List.forall₂_nil_left_iff, Leaf.alike_keyword_iff] at h
      obtain ⟨_, _, rfl, rfl, rfl⟩ := h
      exact ⟨.base b, .base b, rfl⟩
  | named n =>
      simp only [tree, Tree.leaves, Tree.leavesAll, List.append_nil, List.forall₂_cons_left_iff,
        List.forall₂_nil_left_iff, Leaf.alike_name_iff] at h
      obtain ⟨_, _, ⟨n', rfl, hn⟩, rfl, rfl⟩ := h
      exact ⟨.named n', .named hn, rfl⟩
  | array t s ih =>
      simp only [tree, Tree.leaves, Tree.leavesAll, List.append_nil, List.cons_append,
        List.nil_append, List.forall₂_cons_left_iff, forall₂_append_left_iff,
        Leaf.alike_symbol_iff] at h
      obtain ⟨us, _, hus, ⟨_, vs, rfl, hvs, rfl⟩, rfl⟩ := h
      obtain ⟨t', ht, rfl⟩ := ih hus
      obtain ⟨s', hs, rfl⟩ := Size.exists_alike hvs
      exact ⟨.array t' s', .array ht hs, by simp [tree, Tree.leaves, Tree.leavesAll]⟩

/-! ## Clocks -/

structure Sampling.Alike (s s' : Sampling) : Prop where
  state : s.state.Normal → s'.state.Normal
  opening : s'.opening = s.opening
  variable_ : s.variable_.Alike s'.variable_

theorem Sampling.Alike.units {s s' : Sampling} (h : s.Alike s') {us us' : Units}
    (hus : us.Alike us') : Units.Alike (s.units ++ us) (s'.units ++ us') := by
  rw [Sampling.units, Sampling.units, h.opening]
  refine .one (.kw _) (.state ?_ (.one (.opening _) (.one (.word h.variable_)
    (.one (.refl _) hus))))
  cases s.opening <;> simp [Opening.lexeme, Lexeme.followsState]

theorem Sampling.Alike.trees {s s' : Sampling} (h : s.Alike s') :
    List.Forall₂ Tree.Alike s.trees s'.trees :=
  .cons (.refl _) (.cons (.leaf (.state h.state)) (.cons (.refl _)
    (.cons (.leaf (.name h.variable_)) (.cons (.refl _) .nil))))

theorem Sampling.exists_alike {s : Sampling} {ls : List Leaf}
    (h : List.Forall₂ Leaf.Alike (Tree.leavesAll s.trees) ls) :
    ∃ s' : Sampling, s.Alike s' ∧ Tree.leavesAll s'.trees = ls := by
  simp only [trees, Tree.leaves, Tree.leavesAll, List.append_nil, List.cons_append, List.nil_append,
    List.forall₂_cons_left_iff, List.forall₂_nil_left_iff, Leaf.alike_keyword_iff,
    Leaf.alike_state_iff, Leaf.alike_symbol_iff, Leaf.alike_name_iff] at h
  obtain ⟨_, _, rfl, ⟨_, _, ⟨state, rfl, hstate⟩, ⟨_, _, rfl, ⟨_, _, ⟨n, rfl, hn⟩,
    ⟨_, _, rfl, rfl, rfl⟩, rfl⟩, rfl⟩, rfl⟩, rfl⟩ := h
  exact ⟨⟨state, s.opening, n⟩, ⟨hstate, rfl, hn⟩, rfl⟩

structure Clock.Alike (c c' : Clock) : Prop where
  first : c.first.Alike c'.first
  others : List.Forall₂ Sampling.Alike c.others c'.others

namespace Clock

variable {c c' : Option Clock}

theorem Alike.unitsOf (h : Option.Rel Clock.Alike c c') {us us' : Units} (hus : us.Alike us') :
    Units.Alike (unitsOf c ++ us) (unitsOf c' ++ us') := by
  cases h with
  | none => exact hus
  | some h =>
      exact .one (.refl _) (.one (.refl _)
        (.flatMap (fun _ _ _ _ hs hus => hs.units hus) (.cons h.first h.others) hus))

theorem Alike.tree {c c' : Clock} (h : c.Alike c') : c.tree.Alike c'.tree :=
  .node (.cons (.refl _) (.cons (.refl _)
    (List.rel_flatMap (.cons h.first h.others) fun _ _ hs => hs.trees)))

theorem exists_alike {ls : List Leaf}
    (h : List.Forall₂ Leaf.Alike (Tree.leavesAll (c.map Clock.tree).toList) ls) :
    ∃ c', Option.Rel Clock.Alike c c' ∧ Tree.leavesAll (c'.map Clock.tree).toList = ls := by
  cases c with
  | none =>
      obtain rfl := List.forall₂_nil_left_iff.mp h
      exact ⟨none, .none, rfl⟩
  | some c =>
      simp only [Option.map_some, Option.toList_some, tree, Tree.leaves, Tree.leavesAll,
        List.append_nil, List.cons_append, List.nil_append, List.forall₂_cons_left_iff,
        Leaf.alike_symbol_iff] at h
      obtain ⟨_, _, rfl, ⟨_, ls, rfl, hls, rfl⟩, rfl⟩ := h
      obtain ⟨_, has, rfl⟩ := Tree.exists_forall₂_flatMap
        (fun s ls h => Sampling.exists_alike (s := s) h) hls
      cases has with
      | @cons _ s' _ ss' hs hss =>
          exact ⟨some ⟨s', ss'⟩, .some ⟨hs, hss⟩, by simp [tree, Tree.leaves, Tree.leavesAll]⟩

end Clock

/-! ## Variables -/

structure VarGroup.Alike (g g' : VarGroup) : Prop where
  first : g.first.Alike g'.first
  others : List.Forall₂ Word.Alike g.others g'.others
  type : g.type.Alike g'.type
  clock : Option.Rel Clock.Alike g.clock g'.clock

namespace VarGroup

variable {g g' : VarGroup}

theorem Alike.units (h : g.Alike g') {us us' : Units} (hus : us.Alike us') :
    Units.Alike (g.units ++ us) (g'.units ++ us') := by
  simp only [VarGroup.units, List.cons_append, List.append_assoc]
  exact .one (.word h.first) (Name.alike_moreUnits h.others
    (.one (.refl _) (h.type.units (Clock.Alike.unitsOf h.clock hus))))

theorem Alike.tree (h : g.Alike g') : g.tree.Alike g'.tree := by
  refine .node (.cons (.leaf (.name h.first)) (List.rel_append (Name.alike_more h.others)
    (.cons (.refl _) (.cons h.type.tree ?_))))
  have hclock := h.clock
  generalize g.clock = c, g'.clock = c' at hclock
  cases hclock with
  | none => exact .nil
  | some hc => exact .cons hc.tree .nil

theorem Alike.normal (h : g.Alike g') (hnormal : g.Normal) : g'.Normal where
  type := h.type.normal hnormal.type
  clock := forall_mem_of_rel (P := fun c => ∀ s ∈ c.first :: c.others, s.state.Normal) h.clock
    (fun _ _ hc hstates => forall_mem_of_forall₂ (.cons hc.first hc.others)
      (fun _ _ hs => hs.state) hstates) hnormal.clock

theorem exists_alike {ls : List Leaf} (h : List.Forall₂ Leaf.Alike g.tree.leaves ls) :
    ∃ g' : VarGroup, g.Alike g' ∧ g'.tree.leaves = ls := by
  simp only [tree, Tree.leaves, Tree.leavesAll, Tree.leavesAll_append,
    List.cons_append, List.nil_append, List.forall₂_cons_left_iff, forall₂_append_left_iff,
    Leaf.alike_symbol_iff, Leaf.alike_name_iff] at h
  obtain ⟨_, _, ⟨n, rfl, hn⟩, ⟨us, _, hus, ⟨_, _, rfl, ⟨vs, ws, hvs, hws, rfl⟩, rfl⟩, rfl⟩, rfl⟩ := h
  obtain ⟨ns, hns, rfl⟩ := Name.exists_alike_more hus
  obtain ⟨t, ht, rfl⟩ := Ty.exists_alike hvs
  obtain ⟨c, hc, rfl⟩ := Clock.exists_alike hws
  exact ⟨⟨n, ns, t, c⟩, ⟨hn, hns, ht, hc⟩, by simp [tree, Tree.leaves, Tree.leavesAll]⟩

end VarGroup

inductive Init.Alike : Init → Init → Prop
  | name {n n' : Name} (h : n.Alike n') : Alike (.name n) (.name n')
  | literal {l l' : Literal} (h : l.Alike l') : Alike (.literal l) (.literal l')

namespace Init

variable {i i' : Init}

theorem Alike.units (h : i.Alike i') {us us' : Units} (hus : us.Alike us') :
    Units.Alike (i.units ++ us) (i'.units ++ us') := by
  cases h with
  | name h => exact .one (.word h) hus
  | literal h => exact .ofLexemes_append (Literal.Alike.lexemes _ h) hus

theorem Alike.tree (h : i.Alike i') : i.tree.Alike i'.tree := by
  cases h with
  | name h => exact .leaf (.name h)
  | literal h => exact Literal.Alike.tree _ h

theorem Alike.normal (h : i.Alike i') (hnormal : i.Normal) : i'.Normal := by
  cases h with
  | name h =>
      cases h with
      | keyword k => exact hnormal
      | plain t t' => simp [Init.Normal]
  | literal h => exact Literal.Alike.normal _ h hnormal

theorem exists_alike {ls : List Leaf} (h : List.Forall₂ Leaf.Alike i.tree.leaves ls) :
    ∃ i' : Init, i.Alike i' ∧ i'.tree.leaves = ls := by
  cases i with
  | name n =>
      simp only [tree, Tree.leaves, List.forall₂_cons_left_iff, List.forall₂_nil_left_iff,
        Leaf.alike_name_iff] at h
      obtain ⟨_, _, ⟨n', rfl, hn⟩, rfl, rfl⟩ := h
      exact ⟨.name n', .name hn, rfl⟩
  | literal l =>
      obtain ⟨l', hl, rfl⟩ := Literal.exists_alike l h
      exact ⟨.literal l', .literal hl, rfl⟩

end Init

/-! ## Declarations -/

inductive Declaration.Alike : Declaration → Declaration → Prop
  | plain {g g' : VarGroup} (h : g.Alike g') : Alike (.plain g) (.plain g')
  | last {g g' : VarGroup} {i i' : Init} (hg : g.Alike g') (hi : i.Alike i') :
      Alike (.last g i) (.last g' i')

namespace Declaration

variable {d d' : Declaration} {ds ds' : List Declaration} {us us' : Units}

theorem Alike.units (h : d.Alike d') (hus : us.Alike us') :
    Units.Alike (d.units ++ us) (d'.units ++ us') := by
  cases h with
  | plain h => exact h.units hus
  | last hg hi =>
      simp only [Declaration.units, List.cons_append, List.append_assoc]
      exact .one (.kw _) (hg.units (.one (.refl _) (hi.units hus)))

theorem Alike.tree (h : d.Alike d') : d.tree.Alike d'.tree := by
  cases h with
  | plain h => exact .node (.cons h.tree .nil)
  | last hg hi =>
      exact .node (.cons (.node (.cons (.refl _) (.cons hg.tree (.cons (.refl _)
        (.cons hi.tree .nil))))) .nil)

theorem Alike.normal (h : d.Alike d') (hnormal : d.Normal) : d'.Normal := by
  cases h with
  | plain h =>
      exact ⟨fun hlast => hnormal.1 ((h.first.eq_keyword_iff _).mp hlast), h.normal hnormal.2⟩
  | last hg hi => exact ⟨hg.normal hnormal.1, hi.normal hnormal.2⟩

theorem Alike.closesLocals_eq (h : d.Alike d') : d'.closesLocals = d.closesLocals := by
  cases h with
  | plain h =>
      have hfirst := h.first
      rw [closesLocals, closesLocals]
      generalize VarGroup.first _ = w at hfirst
      generalize VarGroup.first _ = w' at hfirst
      cases hfirst <;> rfl
  | last _ _ => rfl

theorem exists_alike {ls : List Leaf} (h : List.Forall₂ Leaf.Alike d.tree.leaves ls) :
    ∃ d' : Declaration, d.Alike d' ∧ d'.tree.leaves = ls := by
  cases d with
  | plain g =>
      obtain ⟨g', hg, rfl⟩ := VarGroup.exists_alike (g := g) (by
        simpa [tree, Tree.leaves, Tree.leavesAll] using h)
      exact ⟨.plain g', .plain hg, by simp [tree, Tree.leaves, Tree.leavesAll]⟩
  | last g i =>
      simp only [tree, Tree.leaves, Tree.leavesAll, List.append_nil, List.cons_append,
        List.nil_append, List.forall₂_cons_left_iff, forall₂_append_left_iff,
        Leaf.alike_keyword_iff, Leaf.alike_symbol_iff] at h
      obtain ⟨_, _, rfl, ⟨us, _, hus, ⟨_, vs, rfl, hvs, rfl⟩, rfl⟩, rfl⟩ := h
      obtain ⟨g', hg, rfl⟩ := VarGroup.exists_alike hus
      obtain ⟨i', hi, rfl⟩ := Init.exists_alike hvs
      exact ⟨.last g' i', .last hg hi, by simp [tree, Tree.leaves, Tree.leavesAll]⟩

theorem alike_moreUnits (h : List.Forall₂ Alike ds ds') (hus : us.Alike us') :
    Units.Alike (moreUnits ds ++ us) (moreUnits ds' ++ us') :=
  .flatMap (fun _ _ _ _ hd hus => .one (.refl _) (hd.units hus)) h hus

theorem alike_more (h : List.Forall₂ Alike ds ds') :
    List.Forall₂ Tree.Alike (more ds) (more ds') :=
  List.rel_flatMap h fun _ _ hd => .cons (.refl _) (.cons hd.tree .nil)

theorem exists_alike_more {ls : List Leaf}
    (h : List.Forall₂ Leaf.Alike (Tree.leavesAll (more ds)) ls) :
    ∃ ds', List.Forall₂ Alike ds ds' ∧ Tree.leavesAll (more ds') = ls := by
  refine Tree.exists_forall₂_flatMap (fun d ls h => ?_) h
  simp only [Tree.leaves, Tree.leavesAll, List.append_nil, List.cons_append, List.nil_append,
    List.forall₂_cons_left_iff, Leaf.alike_symbol_iff] at h
  obtain ⟨_, ls, rfl, hls, rfl⟩ := h
  obtain ⟨d', hd, rfl⟩ := exists_alike hls
  exact ⟨d', hd, by simp [Tree.leaves, Tree.leavesAll]⟩

end Declaration

theorem Units.Alike.semicolonIf (b : Bool) {us us' : Units} (hus : us.Alike us') :
    Units.Alike (Units.semicolonIf b ++ us) (Units.semicolonIf b ++ us') := by
  cases b with
  | true => exact .one (.refl _) hus
  | false => exact hus

theorem Tree.eq_of_alike_semicolonIf {b : Bool} {ls : List Leaf}
    (h : List.Forall₂ Leaf.Alike (leavesAll (semicolonIf b)) ls) :
    ls = leavesAll (semicolonIf b) := by
  cases b with
  | true =>
      simp only [semicolonIf, leavesAll, leaves, List.append_nil, List.forall₂_cons_left_iff,
        List.forall₂_nil_left_iff, Leaf.alike_symbol_iff] at h
      obtain ⟨_, _, rfl, rfl, rfl⟩ := h
      rfl
  | false => exact List.forall₂_nil_left_iff.mp h

/-! ## Parameters and local variables -/

inductive Params.Alike : Params → Params → Prop
  | empty (o : Opening) : Alike (.empty o) (.empty o)
  | list (o : Opening) {d d' : Declaration} {ds ds' : List Declaration} (semicolon : Bool)
      (hd : d.Alike d') (hds : List.Forall₂ Declaration.Alike ds ds') :
      Alike (.list o d ds semicolon) (.list o d' ds' semicolon)

namespace Params

variable {p p' : Params}

theorem Alike.units (h : p.Alike p') {us us' : Units} (hus : us.Alike us') :
    Units.Alike (p.units ++ us) (p'.units ++ us') := by
  cases h with
  | empty o => exact .one (.opening o) (.one (.refl _) hus)
  | list o semicolon hd hds =>
      simp only [Params.units, List.cons_append, List.append_assoc, List.nil_append]
      exact .one (.opening o) (hd.units (Declaration.alike_moreUnits hds
        (.semicolonIf semicolon (.one (.refl _) hus))))

theorem Alike.tree (h : p.Alike p') : p.tree.Alike p'.tree := by
  cases h with
  | empty o => exact .refl _
  | list o semicolon hd hds =>
      exact .node (.cons (.refl _) (.cons (.node (.cons hd.tree
        (List.rel_append (Declaration.alike_more hds) (Tree.Rel.reflAll _))))
        (.cons (.refl _) .nil)))

theorem Alike.normal (h : p.Alike p') (hnormal : p.Normal) : p'.Normal := by
  cases h with
  | empty o => trivial
  | list o semicolon hd hds =>
      exact forall_mem_of_forall₂ (.cons hd hds) (fun _ _ h => h.normal) hnormal

theorem exists_alike {ls : List Leaf} (h : List.Forall₂ Leaf.Alike p.tree.leaves ls) :
    ∃ p' : Params, p.Alike p' ∧ p'.tree.leaves = ls := by
  cases p with
  | empty o =>
      simp only [tree, Tree.leaves, Tree.leavesAll, List.append_nil, List.cons_append,
        List.nil_append, List.forall₂_cons_left_iff, List.forall₂_nil_left_iff,
        Leaf.alike_symbol_iff] at h
      obtain ⟨_, _, rfl, ⟨_, _, rfl, rfl, rfl⟩, rfl⟩ := h
      exact ⟨.empty o, .empty o, rfl⟩
  | list o d ds semicolon =>
      simp only [tree, Tree.leaves, Tree.leavesAll, Tree.leavesAll_append, List.append_nil,
        List.cons_append, List.nil_append, List.append_assoc, List.forall₂_cons_left_iff,
        forall₂_append_left_iff, List.forall₂_nil_left_iff, Leaf.alike_symbol_iff] at h
      obtain ⟨_, _, rfl, ⟨us, _, hus, ⟨vs, _, hvs, ⟨ws, _, hws, ⟨_, _, rfl, rfl, rfl⟩, rfl⟩, rfl⟩,
        rfl⟩, rfl⟩ := h
      obtain ⟨d', hd, rfl⟩ := Declaration.exists_alike hus
      obtain ⟨ds', hds, rfl⟩ := Declaration.exists_alike_more hvs
      obtain rfl := Tree.eq_of_alike_semicolonIf hws
      exact ⟨.list o d' ds' semicolon, .list o semicolon hd hds, by
        simp [tree, Tree.leaves, Tree.leavesAll]⟩

end Params

structure Locals.Alike (l l' : Locals) : Prop where
  first : l.first.Alike l'.first
  others : List.Forall₂ Declaration.Alike l.others l'.others

namespace Locals

variable {l l' : Option Locals}

theorem Alike.unitsOf (h : Option.Rel Locals.Alike l l') {us us' : Units} (hus : us.Alike us') :
    Units.Alike (unitsOf l ++ us) (unitsOf l' ++ us') := by
  cases h with
  | none => exact hus
  | some h =>
      simp only [Locals.unitsOf, Locals.units, List.cons_append, List.append_assoc,
        List.nil_append]
      exact .one (.kw _) (h.first.units (Declaration.alike_moreUnits h.others
        (.one (.refl _) hus)))

theorem Alike.trees (h : Option.Rel Locals.Alike l l') :
    List.Forall₂ Tree.Alike (trees l) (trees l') := by
  cases h with
  | none => exact .nil
  | some h =>
      exact .cons (.node (.cons (.refl _) (.cons (.node (.cons h.first.tree (List.rel_append
        (Declaration.alike_more h.others) (.cons (.refl _) .nil)))) .nil))) .nil

theorem Alike.normal {l l' : Locals} (h : l.Alike l') (hnormal : l.Normal) : l'.Normal where
  first := h.first.normal hnormal.first
  others := forall_mem_of_forall₂ h.others (P := fun d => d.Normal ∧ d.closesLocals = false)
    (fun _ _ hd hP => ⟨hd.normal hP.1, hd.closesLocals_eq.trans hP.2⟩) hnormal.others

theorem exists_alike {ls : List Leaf}
    (h : List.Forall₂ Leaf.Alike (Tree.leavesAll (trees l)) ls) :
    ∃ l', Option.Rel Locals.Alike l l' ∧ Tree.leavesAll (trees l') = ls := by
  cases l with
  | none =>
      obtain rfl := List.forall₂_nil_left_iff.mp h
      exact ⟨none, .none, rfl⟩
  | some l =>
      simp only [trees, Option.map_some, Option.toList_some, tree, Tree.leaves, Tree.leavesAll,
        Tree.leavesAll_append, List.append_nil, List.cons_append, List.nil_append,
        List.forall₂_cons_left_iff, forall₂_append_left_iff, List.forall₂_nil_left_iff,
        Leaf.alike_keyword_iff, Leaf.alike_symbol_iff] at h
      obtain ⟨_, _, rfl, ⟨us, _, hus, ⟨vs, _, hvs, ⟨_, _, rfl, rfl, rfl⟩, rfl⟩, rfl⟩, rfl⟩ := h
      obtain ⟨d, hd, rfl⟩ := Declaration.exists_alike hus
      obtain ⟨ds, hds, rfl⟩ := Declaration.exists_alike_more hvs
      exact ⟨some ⟨d, ds⟩, .some ⟨hd, hds⟩, by simp [trees, tree, Tree.leaves, Tree.leavesAll]⟩

end Locals

end Heptagon
