import Heptagon.Proofs.Expr.Meeting
import Heptagon.Proofs.Grammar.Spelling

/-!
# Canonical trees

A derivation is canonical if it is the one that its text is meant to have:
operators group to the left, an argument does not go on with the one before it,
each equation in a list of statements is a statement of its own, and a statement
does not go on with the one before it either (`Tree.Canonical`).

All this is said in terms of labels, so it stays when the leaves of a derivation
become tokens (`Tree.Canonical.tokenized`).
-/

namespace Heptagon

/-! ## Canonical nodes -/

/-- Whether statements follow each other among the children of a kind. -/
def Kind.listsStatements : Kind → Bool
  | .block | .switchStatement | .resetStatement | .automatonState => true
  | _ => false

namespace Tree

/-- The second of two expressions does not go on with the first. -/
def Divides (t u : Tree) : Prop := t.label = .named .expression → u.label = .named .expression →
  u.leaves.head? ∉ [some (.symbol .minus), some (.symbol .minusDot)] ∧
    (t.EndsInName → ¬ u.StartsInParen)

/-- The second of two statements does not go on with the first. -/
def Severs (t u : Tree) : Prop :=
  t.isStatement = true → u.isStatement = true → t.EndsInName → ¬ u.StartsInParen

/-- A list of equations holds one. -/
def IsSingle : Tree → Prop
  | node k ts => k = .equationList → ts.countP (·.label = .named .equation) = 1
  | leaf _ => True

/-- The children of a kind are as they are meant to be. -/
structure CanonicalRow (k : Kind) (ts : List Tree) : Prop where
  operands : k = .subExpression → Groups ts
  arguments : k = .functionCall → ts.IsChain Divides
  singles : k.listsStatements = true → ∀ t ∈ ts, t.IsSingle
  statements : k.listsStatements = true → ts.IsChain Severs

/-- The children of a node are as they are meant to be. -/
def Canonical : Tree → Prop
  | leaf _ => True
  | node k ts => CanonicalRow k ts

theorem Derives.children {P : Tree → Prop} {k : Kind} {ts : List Tree}
    (h : (Tree.node k ts).Derives P) : ∀ t ∈ ts, t.Derives P := by
  cases h with
  | node _ _ _ hchildren => exact hchildren

theorem Derives.parts {P : Tree → Prop} {parts : List Tree} (h : (Tree.operand parts).Derives P) :
    P (.node .subExpression parts) ∧ ∀ t ∈ parts, t.Derives P := by
  have hparts := h.children (.node .subExpression parts) (by simp)
  exact ⟨hparts.self, hparts.children⟩

end Tree

namespace Tree

/-! ## Deciding whether a tree is canonical -/

/-- The last token is a name if it has the label of names. -/
theorem endsInName_iff {t : Tree} :
    t.EndsInName ↔ t.leaves.getLast?.map Leaf.label = some (.named .identifier) := by
  rw [EndsInName]
  cases t.leaves.getLast? with
  | none => simp
  | some l => cases l <;> simp [Leaf.label]

instance (t : Tree) : Decidable t.EndsInName := decidable_of_iff _ endsInName_iff.symm

instance (t : Tree) : Decidable t.StartsInParen := inferInstanceAs (Decidable (_ = _))

instance (t u : Tree) : Decidable (t.Divides u) := inferInstanceAs (Decidable (_ → _ → _ ∧ _))

instance (t u : Tree) : Decidable (t.Severs u) := inferInstanceAs (Decidable (_ → _ → _ → ¬ _))

instance : (t : Tree) → Decidable t.IsSingle
  | node _ _ => inferInstanceAs (Decidable (_ → _))
  | leaf _ => isTrue trivial

instance : (ts : List Tree) → Decidable (Groups ts)
  | [_, _, _] => inferInstanceAs (Decidable (_ → _ ∧ _))
  | [_, _] => inferInstanceAs (Decidable (_ → _))
  | [] | [_] | _ :: _ :: _ :: _ :: _ => isTrue trivial

instance (k : Kind) (ts : List Tree) : Decidable (CanonicalRow k ts) :=
  decidable_of_iff ((k = .subExpression → Groups ts) ∧ (k = .functionCall → ts.IsChain Divides) ∧
      (k.listsStatements = true → ∀ t ∈ ts, t.IsSingle) ∧
      (k.listsStatements = true → ts.IsChain Severs))
    ⟨fun ⟨ho, ha, hs, hc⟩ => ⟨ho, ha, hs, hc⟩, fun ⟨ho, ha, hs, hc⟩ => ⟨ho, ha, hs, hc⟩⟩

instance : (t : Tree) → Decidable t.Canonical
  | leaf _ => isTrue trivial
  | node k ts => inferInstanceAs (Decidable (CanonicalRow k ts))

end Tree

/-! ## Tokens for leaves -/

namespace Leaf

theorem token_eq_symbol_iff {l : Leaf} {s : Symbol} : l.token = .symbol s ↔ l = .symbol s := by
  cases l <;> simp [token]

end Leaf

namespace Tree

variable {t u : Tree} {ts : List Tree}

theorem head?_leaves_tokenized (s : Symbol) :
    t.tokenized.leaves.head? = some (.symbol s) ↔ t.leaves.head? = some (.symbol s) := by
  simp [List.head?_map, Leaf.token_eq_symbol_iff]

theorem endsInName_tokenized : t.tokenized.EndsInName ↔ t.EndsInName := by
  simp [endsInName_iff, List.getLast?_map, Function.comp_def]

theorem startsInParen_tokenized : t.tokenized.StartsInParen ↔ t.StartsInParen :=
  head?_leaves_tokenized .parenOpen

@[simp] theorem isStatement_tokenized : t.tokenized.isStatement = t.isStatement := by
  cases t <;> rfl

theorem Divides.tokenized (h : t.Divides u) : t.tokenized.Divides u.tokenized := by
  intro ht hu
  rw [label_tokenized] at ht hu
  obtain ⟨hsign, hparen⟩ := h ht hu
  rw [endsInName_tokenized, startsInParen_tokenized]
  refine ⟨?_, hparen⟩
  simp only [List.mem_cons, List.not_mem_nil, or_false, head?_leaves_tokenized] at hsign ⊢
  exact hsign

theorem Severs.tokenized (h : t.Severs u) : t.tokenized.Severs u.tokenized := by
  rw [Severs, isStatement_tokenized, isStatement_tokenized, endsInName_tokenized,
    startsInParen_tokenized]
  exact h

theorem IsSingle.tokenized (h : t.IsSingle) : t.tokenized.IsSingle := by
  cases t with
  | leaf l => trivial
  | node k ts =>
      rw [Tree.tokenized, IsSingle, tokenizedAll_eq_map, List.countP_map]
      rw [IsSingle] at h
      simpa [Function.comp_def] using h

mutual

@[simp] theorem endsIn_tokenized (k : Kind) : (t : Tree) → t.tokenized.endsIn k = t.endsIn k
  | leaf _ => rfl
  | node k' ts => by rw [Tree.tokenized, endsIn, endsIn, endsInAll_tokenizedAll k ts]

@[simp] theorem endsInAll_tokenizedAll (k : Kind) :
    (ts : List Tree) → endsInAll k (tokenizedAll ts) = endsInAll k ts
  | [] => rfl
  | [t] => endsIn_tokenized k t
  | _ :: u :: us => endsInAll_tokenizedAll k (u :: us)

end

theorem isBinary_of_tokenized (h : t.tokenized.isBinary = true) : t.isBinary = true := by
  match t, h with
  | node .expression [node .subExpression [_, op, _]], h =>
      simpa [Tree.tokenized, tokenizedAll, isBinary] using h

theorem Groups.tokenized (h : Groups ts) : Groups (tokenizedAll ts) := by
  match ts, h with
  | [l, op, r], h =>
      intro hop
      rw [label_tokenized] at hop
      obtain ⟨hright, hleft⟩ := h hop
      refine ⟨?_, by rwa [endsIn_tokenized]⟩
      by_contra hbinary
      simp [isBinary_of_tokenized (by simpa using hbinary)] at hright
  | [op, e], h =>
      intro hop
      rw [label_tokenized] at hop
      have hoperand := h hop
      by_contra hbinary
      simp [isBinary_of_tokenized (by simpa using hbinary)] at hoperand
  | [], _ | [_], _ | _ :: _ :: _ :: _ :: _, _ => trivial

theorem isChain_tokenizedAll {R : Tree → Tree → Prop} (h : ts.IsChain R)
    (hR : ∀ t u, R t u → R t.tokenized u.tokenized) : (tokenizedAll ts).IsChain R := by
  rw [tokenizedAll_eq_map, List.isChain_map]
  exact h.imp hR

/-- A canonical tree stays one if its leaves become tokens. -/
theorem Canonical.tokenized (h : t.Canonical) : t.tokenized.Canonical := by
  cases t with
  | leaf l => trivial
  | node k ts =>
      obtain ⟨hoperands, harguments, hsingles, hstatements⟩ := h
      exact
        { operands := fun hk => (hoperands hk).tokenized
          arguments := fun hk => isChain_tokenizedAll (harguments hk) fun _ _ => Divides.tokenized
          singles := fun hk => by
            simpa [tokenizedAll_eq_map] using fun t ht => (hsingles hk t ht).tokenized
          statements := fun hk =>
            isChain_tokenizedAll (hstatements hk) fun _ _ => Severs.tokenized }

end Tree

end Heptagon
