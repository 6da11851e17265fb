import Heptagon.Proofs.Division
import Heptagon.Proofs.Grammar.Meaning
import Heptagon.Proofs.Node.Placing

/-!
# Neighbours in a derivation

A word that needs an operand never stands directly before a comma or a closing
parenthesis in the text of a derivation whose names are plain, so no
parenthesis of it is set apart before it is read
(`Tree.Derives.separateTargets_eq`).

Which labels may come first or last in a row of a rule, and which ones may
meet, is computed from the rule.  What the labels say about a row of trees then
holds of its lexemes as well.
-/

namespace Heptagon

/-! ## Labels -/

def Label.closes (l : Label) : Bool :=
  l = .literal (Symbol.comma.spelling) || l = .literal (Symbol.parenClose.spelling)

/-- Whether the text of a part may end in a word that cannot stand alone as an argument. -/
def Label.pends (l : Label) : Bool :=
  [.literal Keyword.if_.spelling, .literal Keyword.not.spelling, .literal Keyword.pre.spelling,
    .literal Keyword.last.spelling, .named .unaryOperator, .named .stateIdentifier,
    .named .automatonTransition, .named .automatonState].contains l

def Label.Precedes (x y : Label) : Prop := x.pends = true → y.closes = false

/-! ## Rows -/

namespace Rule

/-- Whether a row may start with a part that closes. -/
def opens : Rule → Bool
  | keyword k => (Label.literal k.spelling).closes
  | symbol s => (Label.literal s.spelling).closes
  | ref (.node k) => (Label.named k).closes
  | seq a b => a.opens || (a.nullable && b.opens)
  | either a b => a.opens || b.opens
  | some r => r.opens
  | _ => false

/-- Whether a row may end with a part that pends. -/
def pends : Rule → Bool
  | keyword k => (Label.literal k.spelling).pends
  | symbol s => (Label.literal s.spelling).pends
  | ref (.node k) => (Label.named k).pends
  | seq a b => b.pends || (b.nullable && a.pends)
  | either a b => a.pends || b.pends
  | some r => r.pends
  | _ => false

/-- Whether no part that pends stands before one that closes. -/
def ordered : Rule → Bool
  | seq a b => a.ordered && b.ordered && !(a.pends && b.opens)
  | either a b => a.ordered && b.ordered
  | some r => r.ordered && !(r.pends && r.opens)
  | _ => true

theorem ordered_rule (c : Construct) : (Grammar.rule c).ordered = true := by
  cases c with
  | node k => cases k <;> decide
  | _ => decide

/-- A construct without a node neither starts with what closes nor ends with what pends. -/
theorem opens_pends_hidden {c : Construct} (hc : Grammar.labelOf? c = none) :
    (Grammar.rule c).opens = false ∧ (Grammar.rule c).pends = false := by
  cases c with
  | node k => simp [Grammar.labelOf?] at hc
  | _ => decide

/-- The label of a node allows what its rule does. -/
theorem opens_pends_node (k : Kind) :
    ((Grammar.rule (.node k)).opens = true → (Label.named k).closes = true) ∧
      ((Grammar.rule (.node k)).pends = true → (Label.named k).pends = true) := by
  cases k <;> decide

variable {α : Type} {label : α → Label} {r : Rule} {xs : List α}

/-- What a rule says about the rows that it generates. -/
structure Orders (r : Rule) (ls : List Label) : Prop where
  chain : ls.IsChain Label.Precedes
  opens : ∀ l ∈ ls.head?, l.closes = true → r.opens = true
  pends : ∀ l ∈ ls.getLast?, l.pends = true → r.pends = true

theorem Orders.append {a b : Rule} {ks ls : List Label} (ha : a.Orders ks) (hb : b.Orders ls)
    (hab : (a.pends && b.opens) = false) : (ks ++ ls).IsChain Label.Precedes := by
  refine List.isChain_append.mpr ⟨ha.chain, hb.chain, fun k hk l hl hpends => ?_⟩
  by_contra hcloses
  simp [ha.pends k hk hpends, hb.opens l hl (by simpa using hcloses)] at hab

theorem Orders.opens_append {a b : Rule} {ks ls : List Label} (ha : a.Orders ks)
    (hb : b.Orders ls) (hnull : ks = [] → a.nullable = true) :
    ∀ l ∈ (ks ++ ls).head?, l.closes = true → (a.opens || (a.nullable && b.opens)) = true := by
  intro l hl hcloses
  cases ks with
  | nil => simp [hnull rfl, hb.opens l hl hcloses]
  | cons k ks => simp [ha.opens l hl hcloses]

theorem Orders.pends_append {a b : Rule} {ks ls : List Label} (ha : a.Orders ks)
    (hb : b.Orders ls) (hnull : ls = [] → b.nullable = true) :
    ∀ l ∈ (ks ++ ls).getLast?, l.pends = true → (b.pends || (b.nullable && a.pends)) = true := by
  intro l hl hpends
  by_cases hls : ls = []
  · subst hls
    simp [hnull rfl, ha.pends l (by simpa using hl) hpends]
  · rw [List.getLast?_append_of_ne_nil _ hls] at hl
    simp [hb.pends l hl hpends]

theorem Generates.orders (h : Generates label r xs) (hr : r.ordered = true) :
    r.Orders (xs.map label) := by
  induction h with
  | blank => exact ⟨.nil, by simp, by simp⟩
  | keyword h | symbol h | node h =>
      rw [List.map_singleton, h]
      exact ⟨.singleton _, fun l hl => by simp_all [opens], fun l hl => by simp_all [pends]⟩
  | @hidden c _ hc _ ih =>
      obtain ⟨hchain, hopens, hpends⟩ := ih (ordered_rule c)
      obtain ⟨hnone, hnone'⟩ := opens_pends_hidden hc
      rw [hnone] at hopens
      rw [hnone'] at hpends
      exact ⟨hchain, fun l hl h => by simpa using hopens l hl h,
        fun l hl h => by simpa using hpends l hl h⟩
  | @seq a b xs ys ha hb iha ihb =>
      simp only [ordered, Bool.and_eq_true, Bool.not_eq_true'] at hr
      have ha' := iha hr.1.1
      have hb' := ihb hr.1.2
      rw [List.map_append]
      refine ⟨ha'.append hb' hr.2, ha'.opens_append hb' fun hxs => ?_,
        ha'.pends_append hb' fun hys => ?_⟩
      · exact ha.nullable_of_nil (by simpa using hxs)
      · exact hb.nullable_of_nil (by simpa using hys)
  | left _ ih =>
      simp only [ordered, Bool.and_eq_true] at hr
      obtain ⟨hchain, hopens, hpends⟩ := ih hr.1
      exact ⟨hchain, fun l hl h => by simp [Rule.opens, hopens l hl h],
        fun l hl h => by simp [Rule.pends, hpends l hl h]⟩
  | right _ ih =>
      simp only [ordered, Bool.and_eq_true] at hr
      obtain ⟨hchain, hopens, hpends⟩ := ih hr.2
      exact ⟨hchain, fun l hl h => by simp [Rule.opens, hopens l hl h],
        fun l hl h => by simp [Rule.pends, hpends l hl h]⟩
  | one _ ih =>
      simp only [ordered, Bool.and_eq_true] at hr
      obtain ⟨hchain, hopens, hpends⟩ := ih hr.1
      exact ⟨hchain, hopens, hpends⟩
  | @more r xs ys h hs ih ihs =>
      have hself := ihs hr
      simp only [ordered, Bool.and_eq_true, Bool.not_eq_true'] at hr
      have hfirst := ih hr.1
      rw [List.map_append]
      refine ⟨hfirst.append hself hr.2, fun l hl hcloses => ?_, fun l hl hpends => ?_⟩
      · have hopens := hfirst.opens_append hself
          (fun hxs => h.nullable_of_nil (by simpa using hxs)) l hl hcloses
        simp only [Rule.opens, Bool.or_eq_true, Bool.and_eq_true] at hopens ⊢
        exact hopens.elim id And.right
      · have hends := hfirst.pends_append hself
          (fun hys => hs.nullable_of_nil (by simpa using hys)) l hl hpends
        simp only [Rule.pends, Bool.or_eq_true, Bool.and_eq_true] at hends ⊢
        exact hends.elim id And.right

end Rule

/-! ## Trees -/

/-- What the label of a tree says about its lexemes. -/
structure Tree.Ordered (label : Label) (ls : List Lexeme) : Prop where
  chain : ls.IsChain Lexeme.Precedes
  closes : ∀ l ∈ ls.head?, l.closes = true → label.closes = true
  pends : ∀ l ∈ ls.getLast?, l.pends = true → label.pends = true

theorem Leaf.ordered {l : Leaf} (h : (Tree.leaf l).Plain) : Tree.Ordered l.label l.lexemes := by
  cases l with
  | name n =>
      cases n with
      | plain t => exact ⟨.singleton _, by simp [Lexeme.closes], by
          simp [Lexeme.pends, Lexeme.holdsOperators.needsOperand]⟩
      | keyword k => simp [Tree.Plain, Word.isPlain] at h
  | variant t => exact ⟨.singleton _, by simp [Lexeme.closes], by simp [Lexeme.pends]⟩
  | number t => exact ⟨.singleton _, by simp [Lexeme.closes], by simp [Lexeme.pends]⟩
  | state s =>
      cases s with
      | mixed w t =>
          exact ⟨by simp [StateName.lexemes, Lexeme.Precedes, Lexeme.closes],
            by simp [StateName.lexemes, Lexeme.closes], fun _ _ _ => rfl⟩
      | capital t =>
          exact ⟨.singleton _, by simp [StateName.lexemes, Lexeme.closes], fun _ _ _ => rfl⟩
      | small w =>
          exact ⟨.singleton _, by simp [StateName.lexemes, Lexeme.closes], fun _ _ _ => rfl⟩
  | keyword k => exact ⟨.singleton _, by simp [Lexeme.closes], by cases k <;> decide⟩
  | symbol s => exact ⟨.singleton _, by cases s <;> decide, by simp [Lexeme.pends]⟩

namespace Tree

/-- Rows of trees that are ordered have ordered lexemes if their labels are. -/
theorem Ordered.row {ts : List Tree} (hrow : (ts.map label).IsChain Label.Precedes)
    (hne : ∀ t ∈ ts, (unitsAll [t]).flatten ≠ [])
    (h : ∀ t ∈ ts, Ordered t.label (unitsAll [t]).flatten) :
    (unitsAll ts).flatten.IsChain Lexeme.Precedes ∧
      (∀ l ∈ (unitsAll ts).flatten.head?, l.closes = true →
        ∃ t ∈ ts.head?, t.label.closes = true) ∧
      ∀ l ∈ (unitsAll ts).flatten.getLast?, l.pends = true →
        ∃ t ∈ ts.getLast?, t.label.pends = true := by
  induction ts with
  | nil => simp
  | cons t ts ih =>
      obtain ⟨ht, hts⟩ := List.forall_mem_cons.mp h
      obtain ⟨hnet, hnets⟩ := List.forall_mem_cons.mp hne
      rw [List.map_cons, List.isChain_cons] at hrow
      obtain ⟨hchain, hcloses, hpends⟩ := ih hrow.2 hnets hts
      rw [unitsAll_cons, List.flatten_append]
      refine ⟨List.isChain_append.mpr ⟨ht.chain, hchain, fun x hx y hy hxp => ?_⟩, ?_, ?_⟩
      · by_contra hyc
        obtain ⟨u, hu, huc⟩ := hcloses y hy (by simpa using hyc)
        have hprecedes := hrow.1 u.label (by simp_all) (ht.pends x hx hxp)
        simp [huc] at hprecedes
      · intro l hl hlc
        rw [List.head?_append_of_ne_nil _ hnet] at hl
        exact ⟨t, rfl, ht.closes l hl hlc⟩
      · intro l hl hlp
        cases ts with
        | nil => exact ⟨t, rfl, ht.pends l (by simpa using hl) hlp⟩
        | cons u us =>
            have hmore : (unitsAll (u :: us)).flatten ≠ [] := by
              rw [unitsAll_cons, List.flatten_append]
              simp [hnets u (by simp)]
            rw [List.getLast?_append_of_ne_nil _ hmore] at hl
            obtain ⟨v, hv, hvp⟩ := hpends l hl hlp
            exact ⟨v, by simpa using hv, hvp⟩

theorem Full.flatten_units_ne {t : Tree} (h : t.Full) : (unitsAll [t]).flatten ≠ [] := by
  induction h with
  | @leaf l =>
      rcases l.lexemes_cases with ⟨x, hx, -⟩ | ⟨x, y, hxy, -⟩
      · simp [hx]
      · simp [hxy]
  | @node k t ts h ih =>
      rw [unitsAll_node_cons, unitsAll_cons, unitsAll_nil, List.append_nil, List.flatten_append]
      intro hnil
      exact ih t (by simp) (List.append_eq_nil_iff.mp hnil).1

/-- The labels of a derivation order its lexemes. -/
theorem Derives.ordered {t : Tree} (h : t.Derives Tree.Plain) :
    Ordered t.label (unitsAll [t]).flatten := by
  induction h with
  | @leaf l h =>
      rw [unitsAll_leaf_cons, unitsAll_nil, List.flatten_singleton]
      exact Leaf.ordered h
  | @node k children hk _ hrule hchildren ih =>
      have horders := hrule.orders (Rule.ordered_rule _)
      have hne : ∀ t ∈ children, (unitsAll [t]).flatten ≠ [] := fun t ht =>
        ((hchildren t ht).full (hrule.label_ne_root (Rule.mentions_root _) t ht)).flatten_units_ne
      obtain ⟨hchain, hcloses, hpends⟩ := Ordered.row horders.chain hne ih
      rw [unitsAll_node_cons, unitsAll_nil, List.append_nil]
      refine ⟨hchain, fun l hl hlc => ?_, fun l hl hlp => ?_⟩
      · obtain ⟨u, hu, huc⟩ := hcloses l hl hlc
        exact (Rule.opens_pends_node k).1 (horders.opens u.label (by simp_all) huc)
      · obtain ⟨u, hu, hup⟩ := hpends l hl hlp
        exact (Rule.opens_pends_node k).2 (horders.pends u.label (by simp_all) hup)

end Tree

/-- No parenthesis of a derivation holds targets that cannot be arguments. -/
theorem Tree.Derives.separateTargets_eq {t : Tree} (h : t.Derives Tree.Plain) :
    Lexeme.separateTargets (unitsAll [t]).flatten = (unitsAll [t]).flatten :=
  Lexeme.separateTargets_eq h.ordered.chain

end Heptagon
