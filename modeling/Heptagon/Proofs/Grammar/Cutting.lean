import Heptagon.Proofs.Document.Keywords

/-!
# Rows cut at a symbol

Many constructs have names before a symbol and something else behind it, as an
equation does.  If the part of a rule before the symbol does not have this
symbol, a row of the rule is cut at the first one into a row of each part
(`Rule.Generates.exists_cut`).

What stands below a node is of few kinds: a set of kinds is closed if the rules
of these kinds have no others (`Grammar.Closed`), and below a node of one of them
every leaf is then directly below such a node
(`Node.Derives.parent_mem_of_closed`).
-/

namespace Heptagon

/-! ## The kinds in a rule -/

namespace Rule

/-- The kinds in a rule, besides those that constructs without a node bring with them. -/
def kinds : Rule → List Kind
  | ref (.node k) => [k]
  | seq a b | either a b => a.kinds ++ b.kinds
  | some r => r.kinds
  | _ => []

variable {α : Type} {label : α → Label} {r a b : Rule} {xs : List α} {s : Symbol}

/-- A node in a row is of a kind that the rule has. -/
theorem Generates.kind_mem (h : Generates label r xs) (hr : r.hides = false) :
    ∀ x ∈ xs, ∀ k, label x = .named k → k ∈ r.kinds := by
  induction h with
  | blank => simp
  | keyword h | symbol h =>
      intro x hx k hk
      obtain rfl := List.mem_singleton.mp hx
      cases h.symm.trans hk
  | node h =>
      intro x hx k hk
      obtain rfl := List.mem_singleton.mp hx
      exact List.mem_singleton.mpr (Label.named.inj (hk.symm.trans h))
  | hidden hc => simp [hides, Construct.isHidden, hc] at hr
  | seq _ _ iha ihb =>
      intro x hx k hk
      obtain ⟨ha, hb⟩ := Bool.or_eq_false_iff.mp hr
      rcases List.mem_append.mp hx with hx | hx
      · exact List.mem_append_left _ (iha ha x hx k hk)
      · exact List.mem_append_right _ (ihb hb x hx k hk)
  | more _ _ ih ihs =>
      intro x hx k hk
      rcases List.mem_append.mp hx with hx | hx
      · exact ih hr x hx k hk
      · exact ihs hr x hx k hk
  | left _ ih =>
      intro x hx k hk
      exact List.mem_append_left _ (ih (Bool.or_eq_false_iff.mp hr).1 x hx k hk)
  | right _ ih =>
      intro x hx k hk
      exact List.mem_append_right _ (ih (Bool.or_eq_false_iff.mp hr).2 x hx k hk)
  | one _ ih => exact ih hr

/-- A keyword or symbol in a row is one of the rule. -/
theorem Generates.literal_mem_of_not_hides (h : Generates label r xs) (hr : r.hides = false) :
    ∀ x ∈ xs, ∀ t, label x = .literal t → t ∈ r.literals := by
  intro x hx t ht
  refine (h.literal_mem x hx t ht).resolve_right ?_
  rintro ⟨hhides, -⟩
  cases hr.symm.trans hhides

/-! ## Cutting a row -/

/-- A rule is cut at the first one of a symbol: what stands before it, and what stands behind it. -/
inductive Cut (s : Symbol) : (r before behind : Rule) → Prop
  | here {b : Rule} : Cut s (seq (symbol s) b) blank b
  | later {a r before behind : Rule} (hhides : a.hides = false) (hfree : s.spelling ∉ a.literals)
      (h : Cut s r before behind) : Cut s (seq a r) (seq a before) behind

/-- A row is cut where its rule is. -/
theorem Generates.exists_cut {before behind : Rule} (h : Generates label r xs)
    (hcut : Cut s r before behind) :
    ∃ x zs, xs.dropWhile (label · ≠ .literal s.spelling) = x :: zs ∧
      label x = .literal s.spelling ∧ Generates label behind zs ∧
      Generates label before (xs.takeWhile (label · ≠ .literal s.spelling)) := by
  induction hcut generalizing xs with
  | here =>
      obtain ⟨x, zs, rfl, hx, hzs⟩ := symbol_seq_iff.mp h
      exact ⟨x, zs, by simp [hx], hx, hzs, by simp [hx]⟩
  | later hhides hfree _ ih =>
      obtain ⟨us, vs, rfl, hus, hvs⟩ := seq_iff.mp h
      obtain ⟨x, zs, hdrop, hx, hzs, htake⟩ := ih hvs
      have hne : ∀ u ∈ us, decide (label u ≠ .literal s.spelling) = true := fun u hu =>
        decide_eq_true fun heq => hfree (hus.literal_mem_of_not_hides hhides u hu _ heq)
      refine ⟨x, zs, ?_, hx, hzs, ?_⟩
      · rw [List.dropWhile_append_of_pos hne, hdrop]
      · rw [List.takeWhile_append_of_pos hne]
        exact .seq hus htake

end Rule

/-! ## Kinds below a kind -/

/-- The rules of these kinds have no other kinds, and no construct without a node. -/
def Grammar.Closed (ks : List Kind) : Prop :=
  ∀ k ∈ ks, (rule (.node k)).hides = false ∧ (rule (.node k)).kinds ⊆ ks

instance (ks : List Kind) : Decidable (Grammar.Closed ks) :=
  inferInstanceAs (Decidable (∀ k ∈ ks, _ ∧ _))

namespace Node

variable {source : Text}

theorem seatsAll_eq (parent : Kind) (ns : List Node) :
    seatsAll parent ns = ns.flatMap (seats parent) := by
  induction ns with
  | nil => rfl
  | cons n ns ih => rw [seatsAll, ih, List.flatMap_cons]

theorem mem_seatsAll {parent : Kind} {ns : List Node} {t : Seat} :
    t ∈ seatsAll parent ns ↔ ∃ n ∈ ns, t ∈ n.seats parent := by
  rw [seatsAll_eq, List.mem_flatMap]

/-- In a node of one of the kinds, every leaf is directly below a node of one of them. -/
theorem Derives.parent_mem_of_closed {ks : List Kind} (hks : Grammar.Closed ks) {n : Node}
    (h : n.Derives source) : ∀ parent ∈ ks, (∀ k, n.label = .named k → k ∈ ks) →
    ∀ t ∈ n.seats parent, t.parent ∈ ks := by
  induction h with
  | token | comment =>
      intro parent hparent _ t ht
      exact List.mem_singleton.mp ht ▸ hparent
  | @branch k children _ hrule hchildren ih =>
      intro _ _ hlabel t ht
      have hk : k ∈ ks := hlabel k rfl
      obtain ⟨hhides, hkinds⟩ := hks k hk
      obtain ⟨c, hc, ht⟩ := mem_seatsAll.mp ht
      by_cases hextra : c.isExtra = true
      · cases c with
        | comment inside s => exact List.mem_singleton.mp ht ▸ hk
        | _ => cases hextra
      · have hpart : c ∈ children.filter (!·.isExtra) :=
          List.mem_filter.mpr ⟨hc, by simpa using hextra⟩
        exact ih c hc k hk (fun k' hk' => hkinds (hrule.kind_mem hhides c hpart k' hk')) t ht

end Node

end Heptagon
