import Heptagon.Proofs.Expr.Meeting
import Heptagon.Proofs.Respelling.Token

/-!
# A tree in place of a part of another one

`Tree.Turns old new ls t t'` says that the tree `t'` is `t` with the tree `new`
in place of its part `old`, which stands behind the tokens `ls`.  The tokens of
the two trees then differ in those of the part (`Tree.Turns.exists_leaves`), and
the trees have the same nodes if the parts have (`Tree.Turns.rel`).
-/

namespace Heptagon

/-- The second tree is the first one with `new` in place of its part `old`, which stands behind some
tokens. -/
inductive Tree.Turns (old new : Tree) : List Leaf → Tree → Tree → Prop
  | here : Turns old new [] old new
  | child {k : Kind} (before : List Tree) {after : List Tree} {ls : List Leaf} {t t' : Tree}
      (h : Turns old new ls t t') : Turns old new (leavesAll before ++ ls)
        (.node k (before ++ t :: after)) (.node k (before ++ t' :: after))

/-- The second row of trees is the first one with `new` in place of a part `old`, which stands
behind some tokens. -/
def Tree.TurnsAll (old new : Tree) (ls : List Leaf) (ts ts' : List Tree) : Prop :=
  ∃ before t t' after ls', ts = before ++ t :: after ∧ ts' = before ++ t' :: after ∧
    ls = leavesAll before ++ ls' ∧ Turns old new ls' t t'

namespace Tree

variable {old new t t' : Tree} {ts ts' us : List Tree} {ls : List Leaf} {k : Kind} {l : Leaf}

theorem turns_leaf_iff : Turns old new ls (.leaf l) t' ↔ old = .leaf l ∧ ls = [] ∧ t' = new :=
  ⟨fun h => by cases h; exact ⟨rfl, rfl, rfl⟩, by rintro ⟨rfl, rfl, rfl⟩; exact .here⟩

theorem turns_node_iff : Turns old new ls (.node k ts) t' ↔
    (old = .node k ts ∧ ls = [] ∧ t' = new) ∨
      ∃ ts', TurnsAll old new ls ts ts' ∧ t' = .node k ts' := by
  constructor
  · rintro (_ | ⟨before, h⟩)
    · exact .inl ⟨rfl, rfl, rfl⟩
    · exact .inr ⟨_, ⟨before, _, _, _, _, rfl, rfl, rfl, h⟩, rfl⟩
  · rintro (⟨rfl, rfl, rfl⟩ | ⟨ts', ⟨before, u, u', after, ls', rfl, rfl, rfl, h⟩, rfl⟩)
    · exact .here
    · exact .child before h

@[simp] theorem turnsAll_nil : ¬ TurnsAll old new ls [] ts' := by
  simp [TurnsAll]

@[simp] theorem turnsAll_cons : TurnsAll old new ls (t :: ts) ts' ↔
    (∃ t', Turns old new ls t t' ∧ ts' = t' :: ts) ∨
      ∃ ls' us, ls = t.leaves ++ ls' ∧ TurnsAll old new ls' ts us ∧ ts' = t :: us := by
  constructor
  · rintro ⟨before, u, u', after, ls', hts, rfl, rfl, h⟩
    cases before with
    | nil =>
        obtain ⟨rfl, rfl⟩ := List.cons.inj hts
        exact .inl ⟨u', h, rfl⟩
    | cons b before =>
        obtain ⟨rfl, rfl⟩ := List.cons.inj hts
        exact .inr ⟨leavesAll before ++ ls', _, by simp,
          ⟨before, u, u', after, ls', rfl, rfl, rfl, h⟩, rfl⟩
  · rintro (⟨t', h, rfl⟩ | ⟨ls', us, rfl, ⟨before, u, u', after, ls'', rfl, rfl, rfl, h⟩, rfl⟩)
    · exact ⟨[], t, t', ts, ls, rfl, rfl, rfl, h⟩
    · exact ⟨t :: before, u, u', after, ls'', rfl, rfl, by simp, h⟩

@[simp] theorem turnsAll_append : TurnsAll old new ls (ts ++ us) ts' ↔
    (∃ vs, TurnsAll old new ls ts vs ∧ ts' = vs ++ us) ∨
      ∃ ls' vs, ls = leavesAll ts ++ ls' ∧ TurnsAll old new ls' us vs ∧ ts' = ts ++ vs := by
  induction ts generalizing ls ts' with
  | nil => simp
  | cons t ts ih =>
      simp only [List.cons_append, turnsAll_cons, ih]
      constructor
      · rintro (⟨t', h, rfl⟩ | ⟨ls', ws, rfl, ⟨vs, h, rfl⟩ | ⟨ls'', vs, rfl, h, rfl⟩, rfl⟩)
        · exact .inl ⟨t' :: ts, .inl ⟨t', h, rfl⟩, rfl⟩
        · exact .inl ⟨t :: vs, .inr ⟨ls', vs, rfl, h, rfl⟩, rfl⟩
        · exact .inr ⟨ls'', vs, by simp, h, rfl⟩
      · rintro (⟨vs, ⟨t', h, rfl⟩ | ⟨ls', ws, rfl, h, rfl⟩, rfl⟩ | ⟨ls', vs, rfl, h, rfl⟩)
        · exact .inl ⟨t', h, rfl⟩
        · exact .inr ⟨ls', ws ++ us, rfl, .inl ⟨ws, h, rfl⟩, rfl⟩
        · exact .inr ⟨leavesAll ts ++ ls', ts ++ vs, by simp, .inr ⟨ls', vs, rfl, h, rfl⟩, rfl⟩

/-- The tokens before the part and behind it stay. -/
theorem Turns.exists_leaves (h : Turns old new ls t t') :
    ∃ back, t.leaves = ls ++ (old.leaves ++ back) ∧ t'.leaves = ls ++ (new.leaves ++ back) := by
  induction h with
  | here => exact ⟨[], by simp, by simp⟩
  | @child k before after ls t t' _ ih =>
      obtain ⟨back, hold, hnew⟩ := ih
      exact ⟨back ++ leavesAll after, by simp [leaves, hold], by simp [leaves, hnew]⟩

theorem TurnsAll.exists_leaves (h : TurnsAll old new ls ts ts') :
    ∃ back, leavesAll ts = ls ++ (old.leaves ++ back) ∧
      leavesAll ts' = ls ++ (new.leaves ++ back) := by
  obtain ⟨before, t, t', after, ls', rfl, rfl, rfl, h⟩ := h
  obtain ⟨back, hold, hnew⟩ := h.exists_leaves
  exact ⟨back ++ leavesAll after, by simp [hold], by simp [hnew]⟩

section

variable {S : Leaf → Leaf → Prop} [Std.Refl S]

/-- A part with the same nodes leaves the nodes around it. -/
theorem Turns.rel (h : Turns old new ls t t') (hrel : old.Rel S new) : t.Rel S t' := by
  induction h with
  | here => exact hrel
  | @child k before after ls t t' _ ih =>
      exact .node (List.rel_append (Rel.reflAll before) (.cons ih (Rel.reflAll after)))

theorem TurnsAll.rel (h : TurnsAll old new ls ts ts') (hrel : old.Rel S new) :
    List.Forall₂ (Rel S) ts ts' := by
  obtain ⟨before, t, t', after, ls', rfl, rfl, rfl, h⟩ := h
  exact List.rel_append (Rel.reflAll before) (.cons (h.rel hrel) (Rel.reflAll after))

end

end Tree

end Heptagon
