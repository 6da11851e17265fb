import Heptagon.Proofs.Document.Derivation
import Heptagon.Proofs.Grammar.Generates
import Heptagon.Proofs.Node.Comments

/-!
# What stands before a constructor or a state

In a derivation, the name of a state comes directly after one of the words
`state`, `then` and `on`, and a constructor comes directly after a bar or an equals
sign (`Node.Derives.isChain_tokens`).

Which labels may come first or last in a row of a rule is computed from the rule
(`Rule.firsts`, `Rule.lasts`), and with them which labels may meet
(`Rule.Generates.isChain`).  In a row of children a state or constructor is never
the first one, so what is before it as a token is what is before it as a child.
-/

namespace Heptagon

/-! ## First and last labels -/

namespace Rule

/-- The labels that may come first in a row of a rule, if those are known that may come first in a
construct. -/
def firsts (first : Construct → List Label) : Rule → List Label
  | blank => []
  | keyword k => [.literal k.spelling]
  | symbol s => [.literal s.spelling]
  | ref c => first c
  | seq a b => a.firsts first ++ if a.nullable then b.firsts first else []
  | either a b => a.firsts first ++ b.firsts first
  | some r => r.firsts first

/-- The labels that may come last in a row of a rule. -/
def lasts (last : Construct → List Label) : Rule → List Label
  | blank => []
  | keyword k => [.literal k.spelling]
  | symbol s => [.literal s.spelling]
  | ref c => last c
  | seq a b => b.lasts last ++ if b.nullable then a.lasts last else []
  | either a b => a.lasts last ++ b.lasts last
  | some r => r.lasts last

end Rule

namespace Construct

/-- The labels that may come first in a construct, constructs without a node being opened up to a
depth. -/
def firstsTo : Nat → Construct → List Label
  | _, node k => [.named k]
  | 0, _ => []
  | n + 1, c => (Grammar.rule c).firsts (firstsTo n)

/-- The labels that may come last in a construct. -/
def lastsTo : Nat → Construct → List Label
  | _, node k => [.named k]
  | 0, _ => []
  | n + 1, c => (Grammar.rule c).lasts (lastsTo n)

/-- A definition is a type definition, and that is one of an enumeration: no construct without a
node is deeper. -/
def firsts : Construct → List Label := firstsTo 3

def lasts : Construct → List Label := lastsTo 3

theorem firsts_hidden {c : Construct} (hc : Grammar.labelOf? c = none) :
    (Grammar.rule c).firsts firsts ⊆ c.firsts ∧ (Grammar.rule c).lasts lasts ⊆ c.lasts := by
  cases c with
  | node k => simp [Grammar.labelOf?] at hc
  | _ => exact ⟨by decide, by decide⟩

end Construct

namespace Rule

variable {α : Type} {label : α → Label} {r : Rule} {xs : List α} {R : Label → Label → Bool}

theorem Generates.head_mem_firsts (h : Generates label r xs) :
    ∀ l ∈ (xs.map label).head?, l ∈ r.firsts Construct.firsts := by
  induction h with
  | blank => simp
  | keyword h | symbol h => simp [firsts, h]
  | node h => simp [firsts, Construct.firsts, Construct.firstsTo, h]
  | hidden hc _ ih => exact fun l hl => (Construct.firsts_hidden hc).1 (ih l hl)
  | @seq a b xs ys ha hb iha ihb =>
      intro l hl
      rw [firsts]
      cases xs with
      | nil =>
          rw [if_pos (ha.nullable_of_nil rfl)]
          exact List.mem_append_right _ (ihb l hl)
      | cons x xs => exact List.mem_append_left _ (iha l hl)
  | left _ ih => exact fun l hl => List.mem_append_left _ (ih l hl)
  | right _ ih => exact fun l hl => List.mem_append_right _ (ih l hl)
  | one _ ih => exact ih
  | @more r xs ys h hs ih ihs =>
      intro l hl
      cases xs with
      | nil => exact ihs l hl
      | cons x xs => exact ih l hl

theorem Generates.getLast_mem_lasts (h : Generates label r xs) :
    ∀ l ∈ (xs.map label).getLast?, l ∈ r.lasts Construct.lasts := by
  induction h with
  | blank => simp
  | keyword h | symbol h => simp [lasts, h]
  | node h => simp [lasts, Construct.lasts, Construct.lastsTo, h]
  | hidden hc _ ih => exact fun l hl => (Construct.firsts_hidden hc).2 (ih l hl)
  | @seq a b xs ys ha hb iha ihb =>
      intro l hl
      rw [lasts]
      by_cases hys : ys = []
      · subst hys
        rw [if_pos (hb.nullable_of_nil rfl)]
        rw [List.append_nil] at hl
        exact List.mem_append_right _ (iha l hl)
      · rw [List.map_append, List.getLast?_append_of_ne_nil _ (by simpa using hys)] at hl
        exact List.mem_append_left _ (ihb l hl)
  | left _ ih => exact fun l hl => List.mem_append_left _ (ih l hl)
  | right _ ih => exact fun l hl => List.mem_append_right _ (ih l hl)
  | one _ ih => exact ih
  | @more r xs ys h hs ih ihs =>
      intro l hl
      by_cases hys : ys = []
      · subst hys
        rw [List.append_nil] at hl
        exact ih l hl
      · rw [List.map_append, List.getLast?_append_of_ne_nil _ (by simpa using hys)] at hl
        exact ihs l hl

/-- Whether what ends a row of one rule and what starts a row of another one are related. -/
def meets (R : Label → Label → Bool) (a b : Rule) : Bool :=
  (a.lasts Construct.lasts).all fun x => (b.firsts Construct.firsts).all (R x)

/-- Whether labels that meet in a row of the rule are related. -/
def relates (R : Label → Label → Bool) : Rule → Bool
  | seq a b => a.relates R && b.relates R && a.meets R b
  | either a b => a.relates R && b.relates R
  | some r => r.relates R && r.meets R r
  | _ => true

/-- Rows follow each other as their rules meet. -/
theorem isChain_append_of_meets {a b : Rule} {ys : List α} (ha : Generates label a xs)
    (hb : Generates label b ys) (hxs : (xs.map label).IsChain (R · ·))
    (hys : (ys.map label).IsChain (R · ·)) (hmeets : a.meets R b = true) :
    ((xs ++ ys).map label).IsChain (R · ·) := by
  rw [List.map_append]
  refine List.isChain_append.mpr ⟨hxs, hys, fun x hx y hy => ?_⟩
  have hfirst := List.all_eq_true.mp hmeets x (ha.getLast_mem_lasts x hx)
  exact List.all_eq_true.mp hfirst y (hb.head_mem_firsts y hy)

/-- If the labels that meet in the rules are related, so are those that meet in a row. -/
theorem Generates.isChain (h : Generates label r xs)
    (hidden : ∀ c, Grammar.labelOf? c = none → (Grammar.rule c).relates R = true)
    (hr : r.relates R = true) : (xs.map label).IsChain (R · ·) := by
  induction h with
  | blank => exact .nil
  | keyword | symbol | node => exact .singleton _
  | @hidden c _ hc _ ih => exact ih (hidden c hc)
  | seq ha hb iha ihb =>
      rw [relates, Bool.and_eq_true, Bool.and_eq_true] at hr
      exact isChain_append_of_meets ha hb (iha hr.1.1) (ihb hr.1.2) hr.2
  | left _ ih =>
      rw [relates, Bool.and_eq_true] at hr
      exact ih hr.1
  | right _ ih =>
      rw [relates, Bool.and_eq_true] at hr
      exact ih hr.2
  | one _ ih =>
      rw [relates, Bool.and_eq_true] at hr
      exact ih hr.1
  | more h hs ih ihs =>
      have hself := ihs hr
      rw [relates, Bool.and_eq_true] at hr
      exact isChain_append_of_meets h hs (ih hr.1) hself hr.2

end Rule

/-! ## Constructors and states -/

namespace Label

/-- The labels that may stand directly before a constructor or a state. -/
def leaders : Label → List Label
  | .named .stateIdentifier =>
      [.literal Keyword.state.spelling, .literal Keyword.then_.spelling,
        .literal Keyword.on_.spelling]
  | .named .enumIdentifier => [.literal Symbol.bar.spelling, .literal Symbol.equal.spelling]
  | _ => []

/-- Whether the label is one of a constructor or a state. -/
def isLed (l : Label) : Bool := l = .named .stateIdentifier || l = .named .enumIdentifier

/-- Whether one label may stand directly before another one. -/
def leads (a b : Label) : Bool := !b.isLed || b.leaders.contains a

theorem mem_leaders {a b : Label} (h : a.leads b = true) (hb : b.isLed = true) :
    a ∈ b.leaders := by
  simpa [leads, hb] using h

/-- Only keywords and symbols stand before a constructor or a state. -/
theorem isNamed_of_mem_leaders {a b : Label} (h : a ∈ b.leaders) : a.isNamed = false := by
  unfold leaders at h
  split at h
  · simp only [List.mem_cons, List.not_mem_nil, or_false] at h
    rcases h with rfl | rfl | rfl <;> rfl
  · simp only [List.mem_cons, List.not_mem_nil, or_false] at h
    rcases h with rfl | rfl <;> rfl
  · simp at h

end Label

theorem Rule.relates_rule (c : Construct) : (Grammar.rule c).relates Label.leads = true := by
  cases c with
  | node k => cases k <;> decide
  | _ => decide

/-- No node starts with a constructor or a state. -/
theorem Rule.isLed_of_mem_firsts (k : Kind) :
    ∀ l ∈ (Grammar.rule (.node k)).firsts Construct.firsts, l.isLed = false := by
  cases k <;> decide

/-! ## Derivations -/

namespace Node

variable {source : Text}

/-- The labels of the tokens of a node. -/
def tokenLabels (n : Node) : List Label := n.tokens.map (·.1.label)

def tokenLabelsAll (ns : List Node) : List Label := (tokensAll ns).map (·.1.label)

theorem tokenLabelsAll_cons (n : Node) (ns : List Node) :
    tokenLabelsAll (n :: ns) = n.tokenLabels ++ tokenLabelsAll ns := List.map_append

/-- Comments have no tokens. -/
theorem tokenLabelsAll_filter (ns : List Node) :
    tokenLabelsAll (ns.filter (!·.isExtra)) = tokenLabelsAll ns := by
  induction ns with
  | nil => rfl
  | cons n ns ih =>
      rw [List.filter_cons, tokenLabelsAll_cons]
      split
      · rw [tokenLabelsAll_cons, ih]
      · next hextra =>
          cases n with
          | comment => exact ih
          | _ => simp [isExtra] at hextra

/-- Before a constructor or a state, a node is one token. -/
theorem getLast_of_mem_leaders {n : Node} {b : Label} (h : n.label ∈ b.leaders) :
    n.tokenLabels = [n.label] := by
  have hnamed := Label.isNamed_of_mem_leaders h
  cases n with
  | token l s => rfl
  | comment => cases hnamed
  | branch => cases hnamed

/-- The tokens of a row follow each other as the nodes do; a constructor or a state comes first only
if it is the first node. -/
theorem isChain_tokenLabelsAll {ns : List Node}
    (hrow : (ns.map Node.label).IsChain (Label.leads · ·))
    (hchain : ∀ n ∈ ns, n.tokenLabels.IsChain (Label.leads · ·))
    (hfirst : ∀ n ∈ ns, ∀ b ∈ n.tokenLabels.head?, b.isLed = true → n.label = b) :
    (tokenLabelsAll ns).IsChain (Label.leads · ·) ∧
      ∀ b ∈ (tokenLabelsAll ns).head?, b.isLed = true → ∃ n ∈ ns.head?, n.label = b := by
  induction ns with
  | nil => exact ⟨.nil, nofun⟩
  | cons n ns ih =>
      obtain ⟨hn, hns⟩ := List.forall_mem_cons.mp hchain
      obtain ⟨hn', hns'⟩ := List.forall_mem_cons.mp hfirst
      rw [List.map_cons, List.isChain_cons] at hrow
      obtain ⟨hmore, hhead⟩ := ih hrow.2 hns hns'
      -- a constructor or state at the start of the rest is led by this node
      have hled : ∀ b ∈ (tokenLabelsAll ns).head?, b.isLed = true → n.label ∈ b.leaders := by
        intro b hb hisLed
        obtain ⟨m, hm, rfl⟩ := hhead b hb hisLed
        exact Label.mem_leaders (hrow.1 m.label (by simp [Option.mem_def.mp hm])) hisLed
      rw [tokenLabelsAll_cons]
      constructor
      · refine List.isChain_append.mpr ⟨hn, hmore, fun a ha b hb => ?_⟩
        by_cases hisLed : b.isLed = true
        · have hmem := hled b hb hisLed
          rw [getLast_of_mem_leaders hmem] at ha
          obtain rfl := Option.some.inj ha
          simp [Label.leads, hmem]
        · simp [Label.leads, hisLed]
      · intro b hb hisLed
        cases htokens : n.tokenLabels with
        | nil =>
            rw [htokens, List.nil_append] at hb
            simp [getLast_of_mem_leaders (hled b hb hisLed)] at htokens
        | cons c cs =>
            rw [htokens] at hb
            exact ⟨n, rfl, hn' b (by simpa [htokens] using hb) hisLed⟩

/-- In a derivation, constructors and states come directly after what may lead to them. -/
theorem Derives.isChain_tokens {n : Node} (h : n.Derives source) :
    n.tokenLabels.IsChain (Label.leads · ·) ∧
      ∀ b ∈ n.tokenLabels.head?, b.isLed = true → n.label = b := by
  induction h with
  | @token l span => exact ⟨.singleton _, fun b hb _ => Option.some.inj hb⟩
  | comment => exact ⟨.nil, nofun⟩
  | @branch k children hk hrule hchildren ih =>
      have hmem : ∀ n ∈ children.filter (!·.isExtra), n ∈ children := fun n hn =>
        (List.mem_filter.mp hn).1
      have hrow := hrule.isChain (fun c _ => Rule.relates_rule c) (Rule.relates_rule (.node k))
      obtain ⟨hchain, hhead⟩ := isChain_tokenLabelsAll hrow (fun n hn => (ih n (hmem n hn)).1)
        fun n hn => (ih n (hmem n hn)).2
      rw [tokenLabelsAll_filter] at hchain hhead
      refine ⟨hchain, fun b hb hisLed => ?_⟩
      obtain ⟨n, hn, rfl⟩ := hhead b hb hisLed
      have hmem := hrule.head_mem_firsts n.label (by simp [Option.mem_def.mp hn])
      rw [Rule.isLed_of_mem_firsts k _ hmem] at hisLed
      cases hisLed

end Node

end Heptagon
