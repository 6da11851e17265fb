import Heptagon.Proofs.Grammar.Pattern
import Heptagon.Proofs.Layout.Scanning

/-!
# Derivations

`Rule.Generates` says which rows of parts a rule generates, where a part is
known by its label only and a construct without a node stands for what its own
rule generates.  A tree is a derivation (`Tree.Derives`) if every node has a
row of children that its rule generates and every leaf is a token.

How operators group and lists divide plays no role here: a text may have many
derivations.
-/

namespace Heptagon

/-- The rows of parts that a rule generates; `label` tells what a part is. -/
inductive Rule.Generates {α : Type} (label : α → Label) : Rule → List α → Prop
  | blank : Generates label .blank []
  | keyword {k : Keyword} {x : α} (h : label x = .literal k.spelling) :
      Generates label (.keyword k) [x]
  | symbol {s : Symbol} {x : α} (h : label x = .literal s.spelling) :
      Generates label (.symbol s) [x]
  | node {k : Kind} {x : α} (h : label x = .named k) : Generates label (.of k) [x]
  /-- a construct that has no node -/
  | hidden {c : Construct} {xs : List α} (hc : Grammar.labelOf? c = none)
      (h : Generates label (Grammar.rule c) xs) : Generates label (.ref c) xs
  | seq {a b : Rule} {xs ys : List α} (ha : Generates label a xs) (hb : Generates label b ys) :
      Generates label (.seq a b) (xs ++ ys)
  | left {a b : Rule} {xs : List α} (h : Generates label a xs) : Generates label (.either a b) xs
  | right {a b : Rule} {xs : List α} (h : Generates label b xs) : Generates label (.either a b) xs
  | one {r : Rule} {xs : List α} (h : Generates label r xs) : Generates label (.some r) xs
  | more {r : Rule} {xs ys : List α} (h : Generates label r xs) (hs : Generates label (.some r) ys) :
      Generates label (.some r) (xs ++ ys)

namespace Rule.Generates

variable {α β : Type} {label : α → Label} {label' : β → Label} {a b r : Rule} {xs ys zs : List α}

/-! ## Inversion -/

@[simp] theorem blank_iff : Generates label .blank xs ↔ xs = [] :=
  ⟨fun h => by cases h; rfl, by rintro rfl; exact .blank⟩

@[simp] theorem keyword_iff {k : Keyword} :
    Generates label (.keyword k) xs ↔ ∃ x, xs = [x] ∧ label x = .literal k.spelling :=
  ⟨fun h => by cases h with | keyword h => exact ⟨_, rfl, h⟩, by rintro ⟨x, rfl, h⟩; exact .keyword h⟩

@[simp] theorem symbol_iff {s : Symbol} :
    Generates label (.symbol s) xs ↔ ∃ x, xs = [x] ∧ label x = .literal s.spelling :=
  ⟨fun h => by cases h with | symbol h => exact ⟨_, rfl, h⟩, by rintro ⟨x, rfl, h⟩; exact .symbol h⟩

@[simp] theorem node_iff {k : Kind} :
    Generates label (.of k) xs ↔ ∃ x, xs = [x] ∧ label x = .named k := by
  constructor
  · intro h
    cases h with
    | node h => exact ⟨_, rfl, h⟩
    | hidden hc => simp [Grammar.labelOf?] at hc
  · rintro ⟨x, rfl, h⟩
    exact .node h

theorem hidden_iff {c : Construct} (hc : Grammar.labelOf? c = none) :
    Generates label (.ref c) xs ↔ Generates label (Grammar.rule c) xs := by
  constructor
  · intro h
    cases h with
    | node => simp [Grammar.labelOf?] at hc
    | hidden _ h => exact h
  · exact .hidden hc

theorem seq_iff : Generates label (.seq a b) zs ↔
    ∃ xs ys, zs = xs ++ ys ∧ Generates label a xs ∧ Generates label b ys :=
  ⟨fun h => by cases h with | seq ha hb => exact ⟨_, _, rfl, ha, hb⟩, by
    rintro ⟨xs, ys, rfl, ha, hb⟩
    exact .seq ha hb⟩

@[simp] theorem either_iff :
    Generates label (.either a b) xs ↔ Generates label a xs ∨ Generates label b xs := by
  constructor
  · intro h
    cases h with
    | left h => exact .inl h
    | right h => exact .inr h
  · rintro (h | h)
    · exact .left h
    · exact .right h

/-- Repeated rules generate at least one row after another. -/
theorem some_iff : Generates label (.some r) zs ↔
    ∃ xs yss, zs = xs ++ List.flatten yss ∧ ∀ ys ∈ xs :: yss, Generates label r ys := by
  constructor
  · intro h
    generalize hs : Rule.some r = s at h
    induction h with
    | @one _ xs h =>
        cases hs
        exact ⟨xs, [], by simp, by simpa using h⟩
    | more h _ _ ih =>
        cases hs
        obtain ⟨xs, yss, rfl, hyss⟩ := ih rfl
        exact ⟨_, xs :: yss, by simp, List.forall_mem_cons.mpr ⟨h, hyss⟩⟩
    | _ => cases hs
  · rintro ⟨xs, yss, rfl, h⟩
    induction yss generalizing xs with
    | nil => simpa using one (List.forall_mem_cons.mp h).1
    | cons ys yss ih =>
        obtain ⟨hxs, hyss⟩ := List.forall_mem_cons.mp h
        exact .more hxs (ih ys hyss)

theorem many_iff : Generates label (.many r) zs ↔
    ∃ yss, zs = List.flatten yss ∧ ∀ ys ∈ yss, Generates label r ys := by
  rw [Rule.many, Rule.optional, either_iff, blank_iff, some_iff]
  constructor
  · rintro (⟨xs, yss, rfl, h⟩ | rfl)
    · exact ⟨xs :: yss, rfl, h⟩
    · exact ⟨[], rfl, by simp⟩
  · rintro ⟨yss, rfl, h⟩
    cases yss with
    | nil => exact .inr rfl
    | cons ys yss => exact .inl ⟨ys, yss, rfl, h⟩

theorem optional_iff : Generates label (.optional r) xs ↔ Generates label r xs ∨ xs = [] := by
  rw [Rule.optional, either_iff, blank_iff]

/-! ## What a row starts with -/

theorem keyword_seq_iff {k : Keyword} : Generates label (.seq (.keyword k) r) zs ↔
    ∃ x xs, zs = x :: xs ∧ label x = .literal k.spelling ∧ Generates label r xs := by
  rw [seq_iff]
  constructor
  · rintro ⟨_, ys, rfl, ha, hb⟩
    obtain ⟨x, rfl, hx⟩ := keyword_iff.mp ha
    exact ⟨x, ys, rfl, hx, hb⟩
  · rintro ⟨x, xs, rfl, hx, hr⟩
    exact ⟨[x], xs, rfl, .keyword hx, hr⟩

theorem symbol_seq_iff {s : Symbol} : Generates label (.seq (.symbol s) r) zs ↔
    ∃ x xs, zs = x :: xs ∧ label x = .literal s.spelling ∧ Generates label r xs := by
  rw [seq_iff]
  constructor
  · rintro ⟨_, ys, rfl, ha, hb⟩
    obtain ⟨x, rfl, hx⟩ := symbol_iff.mp ha
    exact ⟨x, ys, rfl, hx, hb⟩
  · rintro ⟨x, xs, rfl, hx, hr⟩
    exact ⟨[x], xs, rfl, .symbol hx, hr⟩

theorem node_seq_iff {k : Kind} : Generates label (.seq (.of k) r) zs ↔
    ∃ x xs, zs = x :: xs ∧ label x = .named k ∧ Generates label r xs := by
  rw [seq_iff]
  constructor
  · rintro ⟨_, ys, rfl, ha, hb⟩
    obtain ⟨x, rfl, hx⟩ := node_iff.mp ha
    exact ⟨x, ys, rfl, hx, hb⟩
  · rintro ⟨x, xs, rfl, hx, hr⟩
    exact ⟨[x], xs, rfl, .node hx, hr⟩

/-! ## Building -/

theorem part_cons {x : α} (h : Generates label a [x]) (hr : Generates label r xs) :
    Generates label (.seq a r) (x :: xs) :=
  .seq h hr

theorem keyword_cons {k : Keyword} {x : α} (h : label x = .literal k.spelling)
    (hr : Generates label r xs) : Generates label (.seq (.keyword k) r) (x :: xs) :=
  keyword_seq_iff.mpr ⟨x, xs, rfl, h, hr⟩

theorem symbol_cons {s : Symbol} {x : α} (h : label x = .literal s.spelling)
    (hr : Generates label r xs) : Generates label (.seq (.symbol s) r) (x :: xs) :=
  symbol_seq_iff.mpr ⟨x, xs, rfl, h, hr⟩

theorem node_cons {k : Kind} {x : α} (h : label x = .named k) (hr : Generates label r xs) :
    Generates label (.seq (.of k) r) (x :: xs) :=
  node_seq_iff.mpr ⟨x, xs, rfl, h, hr⟩

/-- One alternative of several. -/
theorem choice_of_mem {rs : List Rule} (h : Generates label r xs) (hr : r ∈ rs) :
    Generates label (.choice rs) xs := by
  induction rs with
  | nil => simp at hr
  | cons s rs ih =>
      cases rs with
      | nil =>
          obtain rfl := List.mem_singleton.mp hr
          exact h
      | cons t rs =>
          rcases List.mem_cons.mp hr with rfl | hr
          · exact .left h
          · exact .right (ih hr)

/-- What several alternatives generate is generated by one of them. -/
theorem choice {rs : List Rule} (h : Generates label (.choice rs) xs) (hrs : rs ≠ []) :
    ∃ r ∈ rs, Generates label r xs := by
  induction rs with
  | nil => simp at hrs
  | cons r rs ih =>
      cases rs with
      | nil => exact ⟨r, by simp, h⟩
      | cons r' rs =>
          rcases either_iff.mp h with h | h
          · exact ⟨r, by simp, h⟩
          · obtain ⟨r'', hr, hgenerates⟩ := ih h (by simp)
            exact ⟨r'', List.mem_cons_of_mem r hr, hgenerates⟩

theorem nil_optional : Generates label (.optional r) [] := .right .blank

theorem nil_many : Generates label (.many r) [] := .right .blank

theorem cons_many (xs : List α) (h : Generates label r xs) (hs : Generates label (.many r) ys) :
    Generates label (.many r) (xs ++ ys) := by
  obtain ⟨yss, rfl, hyss⟩ := many_iff.mp hs
  exact many_iff.mpr ⟨xs :: yss, rfl, List.forall_mem_cons.mpr ⟨h, hyss⟩⟩

/-- Repetition of a rule for single parts. -/
theorem many_of_forall (h : ∀ x ∈ xs, Generates label r [x]) : Generates label (.many r) xs := by
  induction xs with
  | nil => exact nil_many
  | cons x xs ih =>
      obtain ⟨hx, hxs⟩ := List.forall_mem_cons.mp h
      exact cons_many [x] hx (ih hxs)

/-- Rows that come from a list, each of which a rule generates. -/
theorem many_flatMap {γ : Type} {f : γ → List α} {cs : List γ}
    (h : ∀ c ∈ cs, Generates label r (f c)) : Generates label (.many r) (cs.flatMap f) := by
  induction cs with
  | nil => exact nil_many
  | cons c cs ih =>
      obtain ⟨hc, hcs⟩ := List.forall_mem_cons.mp h
      exact cons_many (f c) hc (ih hcs)

/-! ## Labels are all that counts -/

/-- Parts with the same labels are generated alike. -/
theorem of_map_eq (h : Generates label r xs) {us : List β} (hmap : us.map label' = xs.map label) :
    Generates label' r us := by
  induction h generalizing us with
  | blank =>
      obtain rfl : us = [] := by simpa using hmap
      exact .blank
  | keyword h | symbol h | node h =>
      obtain ⟨u, rfl, hu⟩ := List.map_eq_singleton_iff.mp hmap
      constructor
      exact hu.trans h
  | hidden hc _ ih => exact .hidden hc (ih hmap)
  | seq _ _ iha ihb =>
      rw [List.map_append] at hmap
      obtain ⟨us, vs, rfl, hus, hvs⟩ := List.map_eq_append_iff.mp hmap
      exact .seq (iha hus) (ihb hvs)
  | left _ ih => exact .left (ih hmap)
  | right _ ih => exact .right (ih hmap)
  | one _ ih => exact .one (ih hmap)
  | more _ _ ih ihs =>
      rw [List.map_append] at hmap
      obtain ⟨us, vs, rfl, hus, hvs⟩ := List.map_eq_append_iff.mp hmap
      exact .more (ih hus) (ihs hvs)

end Rule.Generates

/-! ## Empty rows and the root -/

namespace Rule

/-- Whether a rule may generate the empty row, no construct being empty. -/
def nullable : Rule → Bool
  | blank => true
  | seq a b => a.nullable && b.nullable
  | either a b => a.nullable || b.nullable
  | some r => r.nullable
  | _ => false

/-- Whether a construct is mentioned in a rule. -/
def mentions (c : Construct) : Rule → Bool
  | ref d => d = c
  | seq a b => a.mentions c || b.mentions c
  | either a b => a.mentions c || b.mentions c
  | some r => r.mentions c
  | _ => false

variable {α : Type} {label : α → Label} {r : Rule} {xs : List α}

theorem nullable_hidden {c : Construct} (hc : Grammar.labelOf? c = none) :
    (Grammar.rule c).nullable = false := by
  cases c with
  | node k => simp [Grammar.labelOf?] at hc
  | _ => decide

theorem Generates.nullable_of_nil (h : Generates label r xs) (hxs : xs = []) :
    r.nullable = true := by
  induction h with
  | blank => rfl
  | keyword | symbol | node => simp at hxs
  | hidden hc _ ih => simpa [nullable_hidden hc] using ih hxs
  | seq _ _ iha ihb =>
      obtain ⟨hxs, hys⟩ := List.append_eq_nil_iff.mp hxs
      simp [nullable, iha hxs, ihb hys]
  | left _ ih => simp [nullable, ih hxs]
  | right _ ih => simp [nullable, ih hxs]
  | one _ ih => exact ih hxs
  | more _ _ ih => exact ih (List.append_eq_nil_iff.mp hxs).1

/-- Only the root may have no children. -/
theorem nullable_node {k : Kind} (hk : .node k ∈ Grammar.constructs) (hroot : k ≠ .sourceFile) :
    (Grammar.rule (.node k)).nullable = false := by
  cases k <;> first | decide | simp [Grammar.constructs] at hk hroot

/-- A row that a rule generates has no node of a kind that neither the rule nor a rule without a node
mentions. -/
theorem Generates.label_ne {k : Kind} (h : Generates label r xs)
    (hhidden : ∀ c, Grammar.labelOf? c = none → (Grammar.rule c).mentions (.node k) = false)
    (hr : r.mentions (.node k) = false) : ∀ x ∈ xs, label x ≠ .named k := by
  induction h with
  | blank => simp
  | keyword h | symbol h =>
      intro x hx
      obtain rfl := List.mem_singleton.mp hx
      simp [h]
  | node h =>
      intro x hx
      obtain rfl := List.mem_singleton.mp hx
      rw [h]
      rintro ⟨⟩
      simp [mentions] at hr
  | hidden hc _ ih => exact ih (hhidden _ hc)
  | seq _ _ iha ihb | more _ _ iha ihb =>
      intro x hx
      simp only [mentions, Bool.or_eq_false_iff] at hr
      rcases List.mem_append.mp hx with hx | hx
      · exact iha (by simp_all [mentions]) x hx
      · exact ihb (by simp_all [mentions]) x hx
  | left _ ih | right _ ih =>
      simp only [mentions, Bool.or_eq_false_iff] at hr
      exact ih (by simp_all)
  | one _ ih => exact ih hr

/-- No rule mentions the root. -/
theorem mentions_root (c : Construct) : (Grammar.rule c).mentions (.node .sourceFile) = false := by
  cases c with
  | node k => cases k <;> decide
  | _ => decide

theorem Generates.label_ne_root (h : Generates label r xs)
    (hr : r.mentions (.node .sourceFile) = false) : ∀ x ∈ xs, label x ≠ .named .sourceFile :=
  h.label_ne (fun c _ => mentions_root c) hr

end Rule

/-! ## Derivations -/

/-- A derivation of the grammar all of whose subtrees are as given. -/
inductive Tree.Derives (P : Tree → Prop) : Tree → Prop
  | leaf {l : Leaf} (h : P (.leaf l)) : Derives P (.leaf l)
  | node {k : Kind} {children : List Tree} (hk : .node k ∈ Grammar.constructs)
      (h : P (.node k children)) (hrule : (Grammar.rule (.node k)).Generates Tree.label children)
      (hchildren : ∀ t ∈ children, Derives P t) : Derives P (.node k children)

theorem Tree.Derives.self {P : Tree → Prop} {t : Tree} (h : t.Derives P) : P t := by
  cases h with
  | leaf h => exact h
  | node _ h => exact h

end Heptagon
