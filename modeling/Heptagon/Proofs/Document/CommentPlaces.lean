import Heptagon.Proofs.Document.Blanking
import Heptagon.Proofs.Node.Between

/-!
# Where the comments of a document are

The children of the root are the parts of the definitions and the comments
before, between and behind these (`Node.Splits`).  A comment in a part of a
definition, or between two of them, is an extra one, any other comment is not
(`Node.Splits.inside_iff`).  That a definition has no node of its own makes no
difference: its parts are a row that neither starts nor ends with a comment, so
a comment in it has tokens of the definition on both sides.
-/

namespace Heptagon

/-- Whether a keyword starts a definition. -/
def Keyword.opens : Keyword → Bool
  | fun_ | node | type => true
  | _ => false

namespace Node

variable {source : Text} {n : Node} {ns ms : List Node} {ds : List (List Node)} {c : Span}

/-- Whether a node is the keyword that starts a definition. -/
def opens : Node → Bool
  | token (.keyword k) _ => k.opens
  | _ => false

/-- The tokens of each definition in a row of nodes.  A definition starts with its keyword and goes
on up to the next one. -/
def definitions : List Node → List (List (Leaf × Span))
  | [] => []
  | n :: ns =>
    if n.opens then (n.tokens ++ tokensAll (ns.takeWhile (!·.opens))) :: definitions ns
    else definitions ns

/-! ## Rows of definitions -/

/-- The nodes are the parts of a definition and the comments between them. -/
structure Defines (ns : List Node) : Prop where
  opened : ∃ n rest, ns = n :: rest ∧ n.opens = true ∧ ∀ m ∈ rest, m.opens = false
  closed : Closed ns
  inside : ∀ n ∈ ns, ∀ inside c, n.Contains (.comment inside c) → inside = true

/-- The nodes are those of some definitions, with comments before, between and behind them. -/
inductive Splits : List Node → List (List Node) → Prop
  | nil : Splits [] []
  | comment {c : Span} {ns : List Node} {ds : List (List Node)} (h : Splits ns ds) :
      Splits (.comment false c :: ns) ds
  | definition {ms ns : List Node} {ds : List (List Node)} (hms : Defines ms) (h : Splits ns ds) :
      Splits (ms ++ ns) (ms :: ds)

theorem definitions_append (h : ∀ m ∈ ms, m.opens = false) (ns : List Node) :
    definitions (ms ++ ns) = definitions ns := by
  induction ms with
  | nil => rfl
  | cons m ms ih =>
      obtain ⟨hm, hms⟩ := List.forall_mem_cons.mp h
      rw [List.cons_append, definitions, if_neg (by simp [hm]), ih hms]

namespace Splits

/-- No token is before the first definition. -/
theorem tokensAll_takeWhile (h : Splits ns ds) : tokensAll (ns.takeWhile (!·.opens)) = [] := by
  induction h with
  | nil => rfl
  | comment _ ih => simpa [opens, tokensAll, tokens] using ih
  | definition hms _ _ =>
      obtain ⟨n, rest, rfl, hn, -⟩ := hms.opened
      simp [hn, tokensAll]

theorem definitions_eq (h : Splits ns ds) : definitions ns = ds.map tokensAll := by
  induction h with
  | nil => rfl
  | comment _ ih => simpa [definitions, opens] using ih
  | definition hms h ih =>
      obtain ⟨n, rest, rfl, hn, hrest⟩ := hms.opened
      rw [List.cons_append, definitions, if_pos hn, definitions_append hrest, ih, List.map_cons,
        List.takeWhile_append_of_pos (by simpa using hrest), tokensAll_append,
        h.tokensAll_takeWhile, List.append_nil]
      rfl

/-- Every token belongs to a definition. -/
theorem tokensAll_eq (h : Splits ns ds) : tokensAll ns = (definitions ns).flatten := by
  rw [h.definitions_eq]
  induction h with
  | nil => rfl
  | comment _ ih => simpa [tokensAll, tokens] using ih
  | definition _ _ ih => simp [ih]

/-- A definition is part of the row. -/
theorem subset (h : Splits ns ds) (hms : ms ∈ ds) : ms ⊆ ns := by
  induction h with
  | nil => simp at hms
  | comment _ ih => exact List.Subset.trans (ih hms) (List.subset_cons_self _ _)
  | definition _ _ ih =>
      rcases List.mem_cons.mp hms with rfl | hms
      · exact List.subset_append_left _ _
      · exact List.Subset.trans (ih hms) (List.subset_append_right _ _)

end Splits

/-- A comment between tokens of some nodes stands where these do. -/
theorem StandFrom.reaches {offset : Nat} (h : StandFrom source offset ns) (hsub : ms ⊆ ns)
    (hc : c.Between (tokensAll ms)) : offset < c.start ∧ c.stop < stopFrom offset ns := by
  obtain ⟨⟨l, s⟩, hfirst, ⟨l', s'⟩, hlast, hle, hle'⟩ := hc
  obtain ⟨n, hn, hs⟩ := contains_of_mem_tokensAll ms (List.mem_of_mem_head? hfirst)
  obtain ⟨n', hn', hs'⟩ := contains_of_mem_tokensAll ms (List.mem_of_mem_getLast? hlast)
  have hstands := h.stands n (hsub hn)
  have hstands' := h.stands n' (hsub hn')
  have hoffset := h.le_start (hsub hn)
  have hstart : n.start ≤ s.start := hs.le_start hstands
  have hlt : s.start < s.stop := (hs.stands hstands).1
  have hstop : s'.stop ≤ n'.stop := hs'.stop_le hstands'
  have hlt' : s'.start < s'.stop := (hs'.stands hstands').1
  have hend : n'.stop ≤ stopFrom offset ns := by
    obtain ⟨pre, post, rfl⟩ := List.append_of_mem (hsub hn')
    rw [stopFrom_append]
    exact (standFrom_append.mp h).2.2.2.le_stopFrom
  simp only at hle hle'
  omega

/-- A comment in a row of definitions is extra if and only if it stands between two tokens of one of
them. -/
theorem Splits.inside_iff (h : Splits ns ds) {offset : Nat} (hstands : StandFrom source offset ns)
    (hn : n ∈ ns) {inside : Bool} (hc : n.Contains (.comment inside c)) :
    inside = true ↔ ∃ ms ∈ ds, c.Between (tokensAll ms) := by
  induction h generalizing offset with
  | nil => simp at hn
  | @comment c' ns ds h ih =>
      rcases List.mem_cons.mp hn with rfl | hn
      · cases hc
        have hlt : c.start < c.stop := hstands.2.1.1
        refine iff_of_false (by simp) ?_
        rintro ⟨ms, hms, hbetween⟩
        -- the tokens of the definitions are behind this comment
        have hreach : c.stop < c.start := (hstands.2.2.reaches (h.subset hms) hbetween).1
        omega
      · exact ih hstands.2.2 hn
  | @definition ms ns ds hms h ih =>
      obtain ⟨hfront, hback⟩ := standFrom_append.mp hstands
      rcases List.mem_append.mp hn with hn | hn
      · exact iff_of_true (hms.inside n hn inside c hc)
          ⟨ms, List.mem_cons_self, hms.closed.between hfront hn hc⟩
      · have hstart : n.start ≤ c.start := hc.le_start (hback.stands n hn)
        have hlt : c.start < c.stop := (hc.stands (hback.stands n hn)).1
        have hle := hback.le_start hn
        -- the tokens of this definition are before the node
        have hnot : ¬ c.Between (tokensAll ms) := fun hbetween => by
          have hreach := hfront.reaches (List.Subset.refl ms) hbetween
          omega
        simp only [List.exists_mem_cons_iff, hnot, false_or]
        exact ih hback hn

/-- A comment in a tree that has none as a construct is extra. -/
theorem Contains.inside_eq_true {inside : Bool} (h : n.Contains (.comment inside c))
    (htrees : ∀ t ∈ n.trees, t.Uncommented) : inside = true := by
  generalize hm : comment inside c = m at h
  induction h with
  | refl =>
      subst hm
      cases inside with
      | true => rfl
      | false => cases htrees _ (List.mem_singleton_self _) with | node hk _ => exact absurd rfl hk
  | child hx _ ih =>
      refine ih (fun t ht => ?_) hm
      cases htrees _ (List.mem_singleton_self _) with
      | node _ hchildren => exact hchildren t (trees_subset_of_mem hx ht)

theorem exists_trees_of_opens (h : n.opens = true) :
    ∃ k : Keyword, n.trees = [.kw k] ∧ k.opens = true := by
  unfold opens at h
  split at h
  · exact ⟨_, rfl, h⟩
  · simp at h

end Node

/-! ## Definitions over slots -/

theorem Ty.tree_ne_kw (t : Ty) (k : Keyword) : .kw k ≠ t.tree := by
  cases t <;> simp [tree]

theorem Params.tree_ne_kw (p : Params) (k : Keyword) : .kw k ≠ p.tree := by
  cases p <;> simp [tree]

theorem Locals.kw_not_mem_trees (l : Option Locals) (k : Keyword) : .kw k ∉ Locals.trees l := by
  cases l <;> simp [trees, tree]

theorem Generic.kw_not_mem_trees (g : Option Generic) (k : Keyword) :
    .kw k ∉ (g.map Generic.trees).getD [] := by
  cases g <;> simp [trees, Ty.tree_ne_kw]

/-- A definition starts with its keyword, and no other part of it is such a keyword. -/
theorem Definition.exists_trees_eq_opens (d : Definition) : ∃ k ts, d.trees = .kw k :: ts ∧
    k.opens = true ∧ ∀ k' : Keyword, k'.opens = true → Tree.kw k' ∉ ts := by
  cases d with
  | component c =>
      refine ⟨_, _, rfl, by cases c.hasMemory <;> rfl, fun k hk => ?_⟩
      have hreturns : k ≠ .returns := by
        rintro rfl
        simp [Keyword.opens] at hk
      simp [Generic.kw_not_mem_trees, Params.tree_ne_kw, Locals.kw_not_mem_trees, hreturns]
  | record n f fs =>
      exact ⟨_, _, rfl, rfl, fun k _ => by simp [FieldType.trees, Ty.tree_ne_kw]⟩
  | enumeration n bar t ts =>
      exact ⟨_, _, rfl, rfl, fun k _ => by cases bar <;> simp [Tree.barIf]⟩

variable {source : Text}

/-- The parts of a definition over slots. -/
theorem Definition.defines_of_place {d : Definition} {us : List Lexeme} (hfits : d.Fits us)
    {slots rest : List Slot} {ns : List Node}
    (h : Tree.placeAll d.trees slots = some (ns, rest)) : Node.Defines ns := by
  obtain ⟨k, ts, htrees, hk, hts⟩ := d.exists_trees_eq_opens
  have hfull := d.full_trees hfits
  have hkinds : ∀ t ∈ d.trees, t.Uncommented := fun t ht => (d.derives_trees hfits t ht).uncommented
  have hall := Tree.trees_of_placeAll d.trees h
  rw [htrees] at h hfull
  obtain ⟨m, middle, ms, hm, hms, rfl⟩ := Tree.placeAll_cons_iff.mp h
  obtain ⟨span, -, rfl⟩ := Tree.place_leaf_iff.mp hm
  have hmore := Tree.trees_of_placeMore ts hms
  obtain ⟨htight, hlast⟩ := Tree.tight_of_placeMore ts (List.forall_mem_cons.mp hfull).2
    (List.forall_mem_cons.mp (htrees ▸ hkinds)).2 hms
  refine ⟨⟨_, ms, rfl, hk, fun n hn => ?_⟩, ⟨⟨_, rfl, rfl⟩, ?_,
    List.forall_mem_cons.mpr ⟨.token _ _, htight⟩⟩, fun n hn inside c hc => ?_⟩
  · by_contra hopens
    obtain ⟨k', hk', hopens⟩ := Node.exists_trees_of_opens (by simpa using hopens)
    have hmem := Node.trees_subset_of_mem hn (hk' ▸ List.mem_singleton_self _)
    exact hts k' hopens (hmore ▸ hmem)
  · cases hend : ms.getLast? with
    | none =>
        obtain rfl := List.getLast?_eq_none_iff.mp hend
        exact ⟨_, rfl, rfl⟩
    | some n => exact ⟨n, by simp [List.getLast?_cons, hend], hlast n hend⟩
  · refine hc.inside_eq_true fun t ht => hkinds t ?_
    rw [← hall]
    exact Node.trees_subset_of_mem hn ht

namespace Node.Splits

variable {ns : List Node} {ds : List (List Node)}

theorem comments_append (cs : List Span) (h : Splits ns ds) :
    Splits (cs.map (.comment false) ++ ns) ds := by
  induction cs with
  | nil => exact h
  | cons c cs ih => exact .comment ih

theorem append_comments (h : Splits ns ds) (cs : List Span) :
    Splits (ns ++ cs.map (.comment false)) ds := by
  induction h with
  | nil => simpa using comments_append cs .nil
  | comment _ ih => exact .comment ih
  | definition hms _ ih =>
      rw [List.append_assoc]
      exact .definition hms ih

end Node.Splits

/-- The nodes of a program are those of its definitions and comments between them. -/
theorem Program.exists_splits {p : Program} (hfits : p.Fits) {slots : List Slot}
    {nodes : List Node} (h : p.place slots = some nodes) :
    ∃ ds, Node.Splits nodes ds ∧ ds.map Node.treesAll = p.map Definition.trees := by
  induction p generalizing slots nodes with
  | nil =>
      obtain rfl := by simpa [place] using h
      exact ⟨[], .nil, rfl⟩
  | cons d p ih =>
      obtain ⟨first, rest, more, hfirst, hmore, rfl⟩ := place_cons_iff.mp h
      obtain ⟨ns, hns, rfl⟩ := Definition.place_iff.mp hfirst
      obtain ⟨ds, hds, htrees⟩ := ih hfits.2 hmore
      refine ⟨ns :: ds, ?_, congrArg₂ List.cons (Tree.trees_of_placeAll d.trees hns) htrees⟩
      rw [List.append_assoc]
      have hdefinition := Node.Splits.definition (Definition.defines_of_place hfits.1 hns) hds
      cases slots with
      | nil => exact hdefinition
      | cons s slots => exact hdefinition.comments_append s.comments

/-! ## Documents -/

namespace Document

variable {d : Document} {c : Span}

/-- The tokens of each definition of a document. -/
def definitions (d : Document) : List (List (Leaf × Span)) := Node.definitions d.children

theorem exists_splits (h : ofSource? source = some d) : ∃ ds, Node.Splits d.children ds := by
  obtain ⟨items, -, hnodes, -⟩ := ofSource?_eq_some_iff.mp h
  obtain ⟨-, inner, hinner, hchildren⟩ := nodes?_eq_some_iff.mp hnodes
  obtain ⟨p, hfits, -, hplace⟩ := Program.of_placed? hinner
  obtain ⟨ds, hds, -⟩ := Program.exists_splits hfits hplace
  exact ⟨ds, hchildren ▸ hds.append_comments _⟩

/-- Every token of a document belongs to a definition. -/
theorem flatten_definitions (h : ofSource? source = some d) : d.definitions.flatten = d.tokens := by
  obtain ⟨ds, hds⟩ := exists_splits h
  exact hds.tokensAll_eq.symm

theorem inside_iff (h : ofSource? source = some d) {inside : Bool}
    (hc : d.root.Contains (.comment inside c)) :
    inside = true ↔ ∃ tokens ∈ d.definitions, c.Between tokens := by
  obtain ⟨p, hshows⟩ := exists_program h
  obtain ⟨ds, hds⟩ := exists_splits h
  cases hc with
  | child hn hc =>
      rw [definitions, hds.definitions_eq]
      simpa using hds.inside_iff hshows.stands hn hc

/-- An extra comment stands between two tokens of the node whose child it is. -/
theorem between_of_mem_children (h : ofSource? source = some d) {n : Node} (hn : d.root.Contains n)
    (hc : .comment true c ∈ n.children) : c.Between n.tokens := by
  obtain ⟨p, hshows⟩ := exists_program h
  cases hn with
  | refl =>
      obtain ⟨tokens, htokens, hbetween⟩ := (inside_iff h (.child hc (.refl _))).mp rfl
      refine hshows.stands.between_of_subset (fun t ht => ?_) hbetween
      show t ∈ d.tokens
      rw [← flatten_definitions h]
      exact List.mem_flatten_of_mem htokens ht
  | child hx hn =>
      have hstands := hn.stands (hshows.stands.stands _ hx)
      have htight := hn.tight (tight_children h _ hx)
      cases n with
      | branch k ns => exact htight.between hstands rfl (.child hc (.refl _))
      | _ => simp [Node.children] at hc

/-- A comment is extra if and only if it stands between two tokens of one definition.  The node whose
child it is then has tokens on both sides of it and lies in every other node that has; and no node
but the root starts or ends with a comment. -/
theorem comments_placed (h : ofSource? source = some d) :
    (∀ inside c, d.root.Contains (.comment inside c) →
      (inside = true ↔ ∃ tokens ∈ d.definitions, c.Between tokens)) ∧
    (∀ c, d.root.Contains (.comment true c) → ∃ n, d.root.Contains n ∧
      .comment true c ∈ n.children) ∧
    (∀ n c, d.root.Contains n → .comment true c ∈ n.children → c.Between n.tokens ∧
      ∀ m, d.root.Contains m → c.Between m.tokens → m.Contains n) ∧
    ∀ n, d.root.Contains n → n ≠ d.root →
      (∀ x ∈ n.children.head?, x.isComment = false) ∧
        ∀ x ∈ n.children.getLast?, x.isComment = false := by
  obtain ⟨p, hshows⟩ := exists_program h
  refine ⟨fun inside c hc => inside_iff h hc, fun c hc => ?parent, fun n c hn hc => ?innermost,
    fun n hn hroot => ?ends⟩
  case parent =>
    obtain ⟨n, hn, hc⟩ := hc.exists_parent (by simp [root])
    exact ⟨n, hn, hc⟩
  case innermost =>
    exact ⟨between_of_mem_children h hn hc, fun m hm hbetween =>
      hm.innermost hshows.stands hn hc hbetween⟩
  case ends =>
    cases hn with
    | refl => exact absurd rfl hroot
    | child hx hn => exact (hn.tight (tight_children h _ hx)).ends

/-- A comment in front of a definition and one in it. -/
theorem comments_placed_of_type : ∃ d,
    ofSource? (Text.ofString "(*a*) type t (*b*) = A") = some d ∧
      (¬ ∃ tokens ∈ d.definitions, Span.Between ⟨0, 5⟩ tokens) ∧
      ∃ tokens ∈ d.definitions, Span.Between ⟨13, 18⟩ tokens := by
  have hchildren : (ofSource? (Text.ofString "(*a*) type t (*b*) = A")).map (·.children) =
      some [.comment false ⟨0, 5⟩, .token (.keyword .type) ⟨6, 10⟩,
        .token (.name (.plain (Text.ofString "t"))) ⟨11, 12⟩, .comment true ⟨13, 18⟩,
        .token (.symbol .equal) ⟨19, 20⟩, .token (.variant (Text.ofString "A")) ⟨21, 22⟩] := by
    decide +kernel
  obtain ⟨d, hd, hchildren⟩ := Option.map_eq_some_iff.mp hchildren
  have hinside := (comments_placed hd).1
  simp only [root, hchildren] at hinside
  refine ⟨d, hd, fun h => ?_, ?_⟩
  · exact absurd ((hinside false ⟨0, 5⟩ (.child (by simp) (.refl _))).mpr h) (by decide)
  · exact (hinside true ⟨13, 18⟩ (.child (by simp) (.refl _))).mp rfl

end Document

end Heptagon
