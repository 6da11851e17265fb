import Heptagon.Proofs.Declaration.Written
import Mathlib.Data.List.Forall2

/-!
# Tokens in another spelling

What a text is read as depends on the spelling of its tokens only as far as
words are keywords, a name of a state can be spelled in any way, and most
operators are read as the same ones with a point behind them
(`Symbol.undotted`).  Two tokens are alike (`Leaf.Alike`) if they are of one kind
and differ in spelling only as far as that; two trees are alike (`Tree.Alike`) if
their tokens are.

Lexemes that are alike are the same for every reader (`Lexeme.Alike.eq_iff`).
The names of states are an exception: as many lexemes as one of them has, of
whatever kind, stand for those of the other (`Units.Alike`).  No comma, bar or
closing parenthesis follows them.
-/

namespace Heptagon

theorem forall₂_append_left_iff {α β : Type} {R : α → β → Prop} {as bs : List α} {cs : List β} :
    List.Forall₂ R (as ++ bs) cs ↔
      ∃ us vs, List.Forall₂ R as us ∧ List.Forall₂ R bs vs ∧ cs = us ++ vs := by
  constructor
  · intro h
    exact ⟨_, _, List.forall₂_take_append cs as bs h.flip |>.flip,
      List.forall₂_drop_append cs as bs h.flip |>.flip, (List.take_append_drop _ _).symm⟩
  · rintro ⟨us, vs, hus, hvs, rfl⟩
    exact List.rel_append hus hvs

/-! ## Words, symbols and lexemes -/

/-- Two words are the same keyword, or both are spelled like none. -/
inductive Word.Alike : Word → Word → Prop
  | keyword (k : Keyword) : Alike (.keyword k) (.keyword k)
  | plain (t t' : Text) : Alike (.plain t) (.plain t')

namespace Word.Alike

variable {w w' : Word}

@[refl] theorem refl (w : Word) : w.Alike w := by
  cases w with
  | keyword k => exact .keyword k
  | plain t => exact .plain t t

theorem symm (h : w.Alike w') : w'.Alike w := by
  cases h with
  | keyword k => exact .keyword k
  | plain t t' => exact .plain t' t

/-- Words that are alike are spelled like the same keywords. -/
theorem eq_keyword_iff (h : w.Alike w') (k : Keyword) : w' = .keyword k ↔ w = .keyword k := by
  cases h <;> simp

theorem isOperand_eq (h : w.Alike w') : w'.isOperand = w.isOperand := by
  cases h <;> rfl

end Word.Alike

namespace Symbol

variable {s t : Symbol}

/-- The operator without its point, if every reader takes it as the one with the point.  An
equality sign is not such an operator, because it may also belong to an equation. -/
def undotted : Symbol → Symbol
  | plusDot => plus | minusDot => minus | starDot => star | slashDot => slash
  | atMostDot => atMost | lessDot => less | greaterDot => greater
  | s => s

/-- Whether no reader takes another symbol as this one. -/
abbrev isAlone : Symbol → Bool
  | plusDot | plus | minusDot | minus | starDot | star | slashDot | slash
  | atMostDot | atMost | lessDot | less | greaterDot | greater => false
  | _ => true

/-- What does not look at the point is the same for operators that differ in it. -/
theorem congr_of_undotted {β : Type} (f : Symbol → β) (hf : ∀ s, f s.undotted = f s)
    (h : t.undotted = s.undotted) : f t = f s := by
  rw [← hf t, h, hf]

theorem undotted_eq_iff (hs : s.isAlone = true) : t.undotted = s.undotted ↔ t = s := by
  refine ⟨fun h => ?_, congrArg undotted⟩
  cases s <;> simp [isAlone] at hs <;> (cases t <;> simp [undotted] at h ⊢)

end Symbol

/-- Two lexemes differ only in the spelling of names and numbers, and in the points of operators. -/
inductive Lexeme.Alike : Lexeme → Lexeme → Prop
  | word {w w' : Word} (h : w.Alike w') : Alike (.word w) (.word w')
  | capital (t t' : Text) : Alike (.capital t) (.capital t')
  | number (t t' : Text) : Alike (.number t) (.number t')
  | symbol {s s' : Symbol} (h : s'.undotted = s.undotted) : Alike (.symbol s) (.symbol s')
  | apart : Alike .apart .apart

namespace Lexeme.Alike

variable {l l' : Lexeme}

@[refl] theorem refl (l : Lexeme) : l.Alike l := by
  cases l with
  | word w => exact .word (.refl w)
  | capital t => exact .capital t t
  | number t => exact .number t t
  | symbol s => exact .symbol rfl
  | apart => exact .apart

theorem symm (h : l.Alike l') : l'.Alike l := by
  cases h with
  | word h => exact .word h.symm
  | capital t t' => exact .capital t' t
  | number t t' => exact .number t' t
  | symbol h => exact .symbol h.symm
  | apart => exact .apart

theorem kw (k : Keyword) : (Lexeme.kw k).Alike (.kw k) := .refl _

theorem opening (o : Opening) : o.lexeme.Alike o.lexeme := .refl _

/-- Which keyword a lexeme is does not depend on the spelling of names. -/
theorem eq_kw_iff (h : l.Alike l') (k : Keyword) : l' = .kw k ↔ l = .kw k := by
  cases h with
  | word h => simpa using h.eq_keyword_iff k
  | _ => simp

theorem eq_symbol_iff (h : l.Alike l') {s : Symbol} (hs : s.isAlone = true) :
    l' = .symbol s ↔ l = .symbol s := by
  cases h with
  | symbol h =>
      rw [Lexeme.symbol.injEq, Lexeme.symbol.injEq, ← Symbol.undotted_eq_iff hs,
        ← Symbol.undotted_eq_iff hs, h]
  | _ => simp

theorem eq_apart_iff (h : l.Alike l') : l' = .apart ↔ l = .apart := by
  cases h <;> simp

theorem shown (h : l.Alike l') : l.shown.Alike l'.shown := by
  cases h with
  | apart => exact .symbol rfl
  | word h => exact .word h
  | capital t t' => exact .capital t t'
  | number t t' => exact .number t t'
  | symbol h => exact .symbol h

/-- What is like an operator is one. -/
theorem isSome_ofLexeme? (h : l.Alike l') :
    (BinaryOp.ofLexeme? l').isSome = (BinaryOp.ofLexeme? l).isSome := by
  cases h with
  | word h => cases h <;> rfl
  | symbol h =>
      exact Symbol.congr_of_undotted (fun s => (BinaryOp.ofLexeme? (.symbol s)).isSome)
        (fun s => by cases s <;> rfl) h
  | _ => rfl

theorem isSome_unaryOfLexeme? (h : l.Alike l') :
    (UnaryOp.ofLexeme? l').isSome = (UnaryOp.ofLexeme? l).isSome := by
  cases h with
  | word h => cases h <;> rfl
  | symbol h =>
      exact Symbol.congr_of_undotted (fun s => (UnaryOp.ofLexeme? (.symbol s)).isSome)
        (fun s => by cases s <;> rfl) h
  | _ => rfl

end Lexeme.Alike

/-- The first lexemes of two texts are alike, or both texts are at an end. -/
def Lexeme.HeadAlike (ts ts' : List Lexeme) : Prop := Option.Rel Lexeme.Alike ts.head? ts'.head?

namespace Lexeme.HeadAlike

variable {ts ts' : List Lexeme}

theorem cons {l l' : Lexeme} (h : l.Alike l') (ts ts' : List Lexeme) :
    HeadAlike (l :: ts) (l' :: ts') := .some h

theorem of_forall₂ (h : List.Forall₂ Lexeme.Alike ts ts') : HeadAlike ts ts' := by
  cases h with
  | nil => exact .none
  | cons h _ => exact .some h

theorem head?_eq_symbol_iff (h : HeadAlike ts ts') {s : Symbol} (hs : s.isAlone = true) :
    ts'.head? = some (.symbol s) ↔ ts.head? = some (.symbol s) := by
  unfold HeadAlike at h
  generalize ts.head? = o, ts'.head? = o' at h
  cases h with
  | none => rfl
  | some h => simpa using h.eq_symbol_iff hs

theorem take?_eq_none_iff (h : HeadAlike ts ts') :
    BinaryOp.take? ts' = none ↔ BinaryOp.take? ts = none := by
  cases ts with
  | nil =>
      cases ts' with
      | nil => rfl
      | cons l' ts' => cases h
  | cons l ts =>
      cases ts' with
      | nil => cases h
      | cons l' ts' =>
          cases h with
          | some h =>
              rw [BinaryOp.take?_cons_eq_none_iff, BinaryOp.take?_cons_eq_none_iff,
                ← Option.isNone_iff_eq_none, ← Option.isNone_iff_eq_none, ← Option.not_isSome,
                ← Option.not_isSome, h.isSome_ofLexeme?]

end Lexeme.HeadAlike

/-! ## Tokens and trees -/

/-- Two tokens differ only in spelling or in the point of an operator, and name states only if both
can. -/
inductive Leaf.Alike : Leaf → Leaf → Prop
  | name {n n' : Name} (h : n.Alike n') : Alike (.name n) (.name n')
  | variant (t t' : Text) : Alike (.variant t) (.variant t')
  | state {s s' : StateName} (h : s.Normal → s'.Normal) : Alike (.state s) (.state s')
  | number (t t' : Text) : Alike (.number t) (.number t')
  | keyword (k : Keyword) : Alike (.keyword k) (.keyword k)
  | symbol {s s' : Symbol} (h : s'.undotted = s.undotted) : Alike (.symbol s) (.symbol s')

namespace Leaf.Alike

variable {l l' : Leaf}

@[refl] theorem refl (l : Leaf) : l.Alike l := by
  cases l with
  | name n => exact .name (.refl n)
  | variant t => exact .variant t t
  | state s => exact .state id
  | number t => exact .number t t
  | keyword k => exact .keyword k
  | symbol s => exact .symbol rfl

theorem label_eq (h : l.Alike l') (hl : l.label.isNamed = true) : l'.label = l.label := by
  cases h with
  | symbol _ => simp [label, Label.isNamed] at hl
  | _ => rfl

instance : Std.Refl Leaf.Alike := ⟨.refl⟩

end Leaf.Alike

namespace Leaf

variable {l : Leaf}

@[simp] theorem alike_name_iff {n : Name} :
    (name n).Alike l ↔ ∃ n' : Name, l = .name n' ∧ n.Alike n' :=
  ⟨fun h => by cases h with | name h => exact ⟨_, rfl, h⟩, by rintro ⟨n', rfl, h⟩; exact .name h⟩

@[simp] theorem alike_variant_iff {t : Text} : (variant t).Alike l ↔ ∃ t', l = .variant t' :=
  ⟨fun h => by cases h; exact ⟨_, rfl⟩, by rintro ⟨t', rfl⟩; exact .variant t t'⟩

@[simp] theorem alike_state_iff {s : StateName} :
    (state s).Alike l ↔ ∃ s' : StateName, l = .state s' ∧ (s.Normal → s'.Normal) :=
  ⟨fun h => by cases h with | state h => exact ⟨_, rfl, h⟩, by rintro ⟨s', rfl, h⟩; exact .state h⟩

@[simp] theorem alike_number_iff {t : Text} : (number t).Alike l ↔ ∃ t', l = .number t' :=
  ⟨fun h => by cases h; exact ⟨_, rfl⟩, by rintro ⟨t', rfl⟩; exact .number t t'⟩

@[simp] theorem alike_keyword_iff {k : Keyword} : (keyword k).Alike l ↔ l = .keyword k :=
  ⟨fun h => by cases h; rfl, by rintro rfl; exact .keyword k⟩

@[simp] theorem alike_symbol_iff {s : Symbol} (hs : s.isAlone = true) :
    (symbol s).Alike l ↔ l = .symbol s := by
  refine ⟨fun h => ?_, by rintro rfl; exact .refl _⟩
  cases h with
  | symbol h => rw [(Symbol.undotted_eq_iff hs).mp h]

end Leaf

/-! ## Operators -/

/-- Two operators are written with tokens that are alike. -/
def UnaryOp.Alike (op op' : UnaryOp) : Prop := op.leaf.Alike op'.leaf

namespace UnaryOp

variable {op op' : UnaryOp} {l : Leaf}

theorem leaf_cases (op : UnaryOp) : (∃ s, op.leaf = .symbol s ∧ op.lexeme = .symbol s) ∨
    ∃ k, op.leaf = .keyword k ∧ op.lexeme = .kw k := by
  cases op <;> simp [leaf, lexeme]

theorem Alike.lexeme (h : op.Alike op') : op.lexeme.Alike op'.lexeme := by
  obtain ⟨s, hleaf, hlexeme⟩ | ⟨k, hleaf, hlexeme⟩ := op.leaf_cases <;>
  obtain ⟨s', hleaf', hlexeme'⟩ | ⟨k', hleaf', hlexeme'⟩ := op'.leaf_cases <;>
  rw [UnaryOp.Alike, hleaf, hleaf'] at h <;> rw [hlexeme, hlexeme'] <;> cases h
  · next h => exact .symbol h
  · exact .refl _

/-- A token like that of an operator is that of one. -/
theorem exists_leaf_eq (h : op.leaf.Alike l) : ∃ op' : UnaryOp, op.Alike op' ∧ l = op'.leaf := by
  obtain ⟨s, hleaf, hlexeme⟩ | ⟨k, hleaf, -⟩ := op.leaf_cases
  · rw [hleaf] at h
    cases h with
    | @symbol _ s' h =>
        have hsome := (Lexeme.Alike.symbol h).isSome_unaryOfLexeme?
        rw [← hlexeme, ofLexeme?_lexeme] at hsome
        obtain ⟨op', hop'⟩ := Option.isSome_iff_exists.mp hsome
        have hleaf' : op'.leaf = .symbol s' := by
          have hlexeme' := eq_lexeme_of_ofLexeme? hop'
          obtain ⟨t, ht, htext⟩ | ⟨k, -, hk⟩ := op'.leaf_cases
          · rw [ht, Lexeme.symbol.inj (hlexeme'.trans htext)]
          · simp [hk] at hlexeme'
        exact ⟨op', by rw [UnaryOp.Alike, hleaf, hleaf']; exact .symbol h, hleaf'.symm⟩
  · rw [hleaf] at h
    cases h
    exact ⟨op, by rw [UnaryOp.Alike], hleaf.symm⟩

theorem alike_leaf_iff : op.leaf.Alike l ↔ ∃ op' : UnaryOp, op.Alike op' ∧ l = op'.leaf :=
  ⟨exists_leaf_eq, by rintro ⟨op', h, rfl⟩; exact h⟩

end UnaryOp

/-- Two operators are written with tokens that are alike. -/
def BinaryOp.Alike (op op' : BinaryOp) : Prop := op.leaf.Alike op'.leaf

namespace BinaryOp

variable {op op' : BinaryOp} {l : Leaf}

theorem leaf_cases (op : BinaryOp) : (∃ s, op.leaf = .symbol s ∧ op.lexeme = .symbol s) ∨
    ∃ k, op.leaf = .keyword k ∧ op.lexeme = .kw k := by
  cases op <;> simp [leaf, lexeme]

theorem Alike.lexeme (h : op.Alike op') : op.lexeme.Alike op'.lexeme := by
  obtain ⟨s, hleaf, hlexeme⟩ | ⟨k, hleaf, hlexeme⟩ := op.leaf_cases <;>
  obtain ⟨s', hleaf', hlexeme'⟩ | ⟨k', hleaf', hlexeme'⟩ := op'.leaf_cases <;>
  rw [BinaryOp.Alike, hleaf, hleaf'] at h <;> rw [hlexeme, hlexeme'] <;> cases h
  · next h => exact .symbol h
  · exact .refl _

/-- A token like that of an operator is that of one. -/
theorem exists_leaf_eq (h : op.leaf.Alike l) : ∃ op' : BinaryOp, op.Alike op' ∧ l = op'.leaf := by
  obtain ⟨s, hleaf, hlexeme⟩ | ⟨k, hleaf, -⟩ := op.leaf_cases
  · rw [hleaf] at h
    cases h with
    | @symbol _ s' h =>
        have hsome := (Lexeme.Alike.symbol h).isSome_ofLexeme?
        rw [← hlexeme, ofLexeme?_lexeme] at hsome
        obtain ⟨op', hop'⟩ := Option.isSome_iff_exists.mp hsome
        have hleaf' : op'.leaf = .symbol s' := by
          have hlexeme' := eq_lexeme_of_ofLexeme? hop'
          obtain ⟨t, ht, htext⟩ | ⟨k, -, hk⟩ := op'.leaf_cases
          · rw [ht, Lexeme.symbol.inj (hlexeme'.trans htext)]
          · simp [hk] at hlexeme'
        exact ⟨op', by rw [BinaryOp.Alike, hleaf, hleaf']; exact .symbol h, hleaf'.symm⟩
  · rw [hleaf] at h
    cases h
    exact ⟨op, by rw [BinaryOp.Alike], hleaf.symm⟩

theorem alike_leaf_iff : op.leaf.Alike l ↔ ∃ op' : BinaryOp, op.Alike op' ∧ l = op'.leaf :=
  ⟨exists_leaf_eq, by rintro ⟨op', h, rfl⟩; exact h⟩

/-- The equality sign is like no other operator. -/
theorem Alike.eq_equal_iff (h : op.Alike op') : op' = .equal ↔ op = .equal := by
  have hleaf : ∀ op : BinaryOp, op = .equal ↔ op.lexeme = .symbol .equal := fun op => by
    cases op <;> simp [BinaryOp.lexeme]
  rw [hleaf, hleaf, h.lexeme.eq_symbol_iff rfl]

end BinaryOp

/-- Two trees have the same nodes over tokens that are related one by one. -/
inductive Tree.Rel (R : Leaf → Leaf → Prop) : Tree → Tree → Prop
  | leaf {l l' : Leaf} (h : R l l') : Rel R (.leaf l) (.leaf l')
  | node {k : Kind} {ts ts' : List Tree} (h : List.Forall₂ (Rel R) ts ts') :
      Rel R (.node k ts) (.node k ts')

/-- Two trees differ in the spelling of their tokens only. -/
abbrev Tree.Alike : Tree → Tree → Prop := Tree.Rel Leaf.Alike

namespace Tree

section

variable {R : Leaf → Leaf → Prop}

mutual

@[refl] theorem Rel.refl [Std.Refl R] : (t : Tree) → t.Rel R t
  | .leaf l => .leaf (Std.Refl.refl l)
  | .node _ ts => .node (Rel.reflAll ts)

theorem Rel.reflAll [Std.Refl R] : (ts : List Tree) → List.Forall₂ (Rel R) ts ts
  | [] => .nil
  | t :: ts => .cons (Rel.refl t) (Rel.reflAll ts)

end

mutual

theorem Rel.leaves : (t : Tree) → ∀ {t' : Tree}, t.Rel R t' →
    List.Forall₂ R t.leaves t'.leaves
  | .leaf _, _, .leaf h => .cons h .nil
  | .node _ ts, _, .node h => Rel.leavesAll ts h

/-- The tokens of trees that are related are so. -/
theorem Rel.leavesAll : (ts : List Tree) → ∀ {ts' : List Tree}, List.Forall₂ (Rel R) ts ts' →
    List.Forall₂ R (leavesAll ts) (leavesAll ts')
  | [], _, .nil => .nil
  | t :: ts, _, .cons ht hts => List.rel_append (Rel.leaves t ht) (Rel.leavesAll ts hts)

end

end


@[simp] theorem alike_leaf_leaf_iff {l l' : Leaf} : (leaf l).Alike (.leaf l') ↔ l.Alike l' :=
  ⟨fun h => by cases h with | leaf h => exact h, .leaf⟩

@[simp] theorem alike_node_node_iff {k k' : Kind} {ts ts' : List Tree} :
    (node k ts).Alike (.node k' ts') ↔ k' = k ∧ List.Forall₂ Alike ts ts' :=
  ⟨fun h => by cases h with | node h => exact ⟨rfl, h⟩, by rintro ⟨rfl, h⟩; exact .node h⟩

end Tree

/-! ## Units -/

/-- Whether a lexeme may follow the name of a state. -/
def Lexeme.followsState : Lexeme → Bool
  | .symbol .comma => false
  | .symbol .parenClose => false
  | .symbol .bar => false
  | _ => true

/-- Two rows of units differ only in the spelling of names and numbers, and in how the names of
states are written. -/
inductive Units.Alike : Units → Units → Prop
  | nil : Alike [] []
  | one {l l' : Lexeme} {us us' : Units} (hl : l.Alike l') (h : Alike us us') :
      Alike ([l] :: us) ([l'] :: us')
  | state {s s' : StateName} {us us' : Units} (hfollows : ∀ l ∈ us.flatten.head?, l.followsState)
      (h : Alike us us') : Alike (s.lexemes :: us) (s'.lexemes :: us')

namespace Units.Alike

variable {us us' vs vs' : Units}

/-- Lexemes that are alike, before units that are. -/
theorem ofLexemes_append {ts ts' : List Lexeme} (hts : List.Forall₂ Lexeme.Alike ts ts')
    (h : Alike us us') : Alike (ofLexemes ts ++ us) (ofLexemes ts' ++ us') := by
  induction hts with
  | nil => exact h
  | cons hl _ ih => exact .one hl ih

end Units.Alike

end Heptagon
