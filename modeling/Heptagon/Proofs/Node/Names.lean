import Heptagon.Proofs.Grammar.Cutting

/-!
# Names in nodes

In an equation, in a call and in a declaration of variables all names that stand
directly below the node come first, up to a symbol.  So the names directly below
the nodes of such a kind can be listed node by node, in preorder, although the
nodes may contain each other (`Node.Derives.namesBelow_eq`): what stands among the
names of a node are tokens, and nothing is below a token.
-/

namespace Heptagon

/-! ## Nodes in preorder -/

namespace Node

mutual

/-- A node and all nodes below it, in preorder. -/
def preorder : Node → List Node
  | branch k children => branch k children :: preorderAll children
  | n => [n]

def preorderAll : List Node → List Node
  | [] => []
  | n :: ns => n.preorder ++ preorderAll ns

end

/-- The nodes of a kind in a node, in preorder. -/
def nodesOf (k : Kind) (n : Node) : List Node := n.preorder.filter (·.label = .named k)

theorem preorderAll_eq (ns : List Node) : preorderAll ns = ns.flatMap preorder := by
  induction ns with
  | nil => rfl
  | cons n ns ih => rw [preorderAll, ih, List.flatMap_cons]

mutual

theorem contains_of_mem_preorder : {n m : Node} → m ∈ n.preorder → n.Contains m
  | branch k children, m, h => by
      rcases List.mem_cons.mp h with rfl | h
      · exact .refl _
      · obtain ⟨c, hc, hm⟩ := exists_contains_of_mem_preorderAll h
        exact .child hc hm
  | token l s, m, h => List.mem_singleton.mp h ▸ .refl _
  | comment inside s, m, h => List.mem_singleton.mp h ▸ .refl _

theorem exists_contains_of_mem_preorderAll : {ns : List Node} → {m : Node} →
    m ∈ preorderAll ns → ∃ n ∈ ns, n.Contains m
  | n :: ns, m, h => by
      rcases List.mem_append.mp h with h | h
      · exact ⟨n, List.mem_cons_self, contains_of_mem_preorder h⟩
      · obtain ⟨c, hc, hm⟩ := exists_contains_of_mem_preorderAll h
        exact ⟨c, List.mem_cons_of_mem _ hc, hm⟩

end

theorem mem_preorder_self (n : Node) : n ∈ n.preorder := by
  cases n <;> exact List.mem_cons_self

theorem Contains.mem_preorder {n m : Node} (h : n.Contains m) : m ∈ n.preorder := by
  induction h with
  | refl n => exact mem_preorder_self n
  | child hc _ ih =>
      rw [preorder, preorderAll_eq]
      exact List.mem_cons_of_mem _ (List.mem_flatMap.mpr ⟨_, hc, ih⟩)

/-- The nodes of a kind are those parts of the node that are labelled with it. -/
theorem mem_nodesOf_iff {k : Kind} {n m : Node} :
    m ∈ n.nodesOf k ↔ n.Contains m ∧ m.label = .named k := by
  rw [nodesOf, List.mem_filter, decide_eq_true_iff]
  exact and_congr_left fun _ => ⟨contains_of_mem_preorder, Contains.mem_preorder⟩

/-! ## Names before a symbol -/

/-- The parts of a node before the first one of a symbol. -/
def before (s : Symbol) (n : Node) : List Node :=
  n.parts.takeWhile (·.label ≠ .literal s.spelling)

/-- The parts of a node from the first one of a symbol on. -/
def behind (s : Symbol) (n : Node) : List Node :=
  n.parts.dropWhile (·.label ≠ .literal s.spelling)

/-- Where the names among the tokens of some nodes stand. -/
def names (ns : List Node) : List Span :=
  (tokensAll ns).filterMap fun t =>
    match t.1 with
    | .name _ => some t.2
    | _ => none

/-- Where the name stands, if the node is one. -/
def ownName : Node → List Span
  | token (.name _) s => [s]
  | _ => []

/-- Where the name stands that is the only part of a node. -/
def aloneName (n : Node) : List Span :=
  match n.parts with
  | [m] => m.ownName
  | _ => []

/-- Where the first token of a node stands. -/
def firstSpan? (n : Node) : Option Span := n.tokens.head?.map Prod.snd

/-- Where the names directly below a node stand. -/
def partNames (n : Node) : List Span := n.parts.flatMap ownName

variable {source : Text} {n m : Node} {k : Kind}

/-- Where nothing is listed for comments, it makes no difference that they are not parts. -/
theorem flatMap_filter_isExtra {α : Type} {f : Node → List α} (ns : List Node)
    (h : ∀ n : Node, n.isExtra = true → f n = []) :
    (ns.filter (!·.isExtra)).flatMap f = ns.flatMap f := by
  induction ns with
  | nil => rfl
  | cons n ns ih =>
      rw [List.filter_cons, List.flatMap_cons]
      cases hn : n.isExtra with
      | false => simp [ih]
      | true => simp [ih, h n hn]

theorem tokensAll_eq_flatMap (ns : List Node) : tokensAll ns = ns.flatMap tokens := by
  induction ns with
  | nil => rfl
  | cons n ns ih => rw [tokensAll, ih, List.flatMap_cons]

theorem tokens_of_isExtra (h : m.isExtra = true) : m.tokens = [] := by
  cases m with
  | comment => rfl
  | _ => cases h

theorem tokensAll_parts (h : n.parts ≠ []) : tokensAll n.parts = n.tokens := by
  cases n with
  | branch k ns =>
      rw [tokens, tokensAll_eq_flatMap, tokensAll_eq_flatMap, parts,
        flatMap_filter_isExtra ns fun _ => tokens_of_isExtra]
  | _ => exact absurd rfl h

theorem ownName_of_label (h : m.label ≠ .named .identifier) : m.ownName = [] := by
  cases m with
  | token l s =>
      cases l with
      | name w => exact absurd rfl h
      | _ => rfl
  | _ => rfl

theorem ownName_of_isExtra (h : m.isExtra = true) : m.ownName = [] := by
  cases m with
  | comment => rfl
  | _ => cases h

/-- A token or comment has nothing below it. -/
theorem flatMap_partNames_eq_nil (hself : n.preorder = [n]) (hparts : n.parts = []) :
    (n.nodesOf k).flatMap partNames = [] := by
  refine List.flatMap_eq_nil_iff.mpr fun m hm => ?_
  rw [nodesOf, hself] at hm
  obtain rfl := List.mem_singleton.mp (List.mem_filter.mp hm).1
  rw [partNames, hparts, List.flatMap_nil]

/-- No node with children is labelled as a name. -/
theorem Derives.exists_token (h : m.Derives source)
    (hlabel : ∀ k, m.label = .named k → k = .identifier) : ∃ l s, m = Node.token l s := by
  cases h with
  | token => exact ⟨_, _, rfl⟩
  | comment => cases hlabel .comment rfl
  | @branch k _ hk =>
      obtain rfl := hlabel k rfl
      exact absurd hk (by decide)

theorem names_of_tokens {ns : List Node} (h : ∀ n ∈ ns, ∃ l s, n = token l s) :
    names ns = ns.flatMap ownName := by
  induction ns with
  | nil => rfl
  | cons n ns ih =>
      obtain ⟨⟨l, s, rfl⟩, hns⟩ := List.forall_mem_cons.mp h
      rw [List.flatMap_cons, ← ih hns]
      cases l <;> rfl

/-! ## Nodes in which names come first -/

/-- In the parts of a node all names come first, and no other nodes stand among them. -/
def LeadsNames (n : Node) : Prop :=
  ∃ ms ns, n.parts = ms ++ ns ∧ (∀ m ∈ ms, ∃ l s, m = token l s) ∧
    ∀ m ∈ ns, m.label ≠ .named .identifier

/-- If names come first in a node, they can be listed before what is listed below its parts. -/
theorem LeadsNames.flatMap_append {children : List Node} {f : Node → List Span}
    (h : (branch k children).LeadsNames) (htoken : ∀ l s, f (token l s) = [])
    (hextra : ∀ n : Node, n.isExtra = true → f n = []) :
    children.flatMap (fun m => m.ownName ++ f m) =
      (branch k children).partNames ++ children.flatMap f := by
  obtain ⟨ms, ns, hparts, hms, hns⟩ := h
  have hboth : ∀ n : Node, n.isExtra = true → n.ownName ++ f n = [] := fun n hn => by
    rw [ownName_of_isExtra hn, hextra n hn, List.append_nil]
  rw [← flatMap_filter_isExtra children hboth, ← flatMap_filter_isExtra children hextra, partNames]
  rw [parts] at hparts ⊢
  have hfirst : ms.flatMap f = [] := List.flatMap_eq_nil_iff.mpr fun m hm => by
    obtain ⟨l, s, rfl⟩ := hms m hm
    exact htoken l s
  have hlast : ns.flatMap ownName = [] := List.flatMap_eq_nil_iff.mpr fun m hm =>
    ownName_of_label (hns m hm)
  have hleft : ms.flatMap (fun m => m.ownName ++ f m) = ms.flatMap ownName := by
    refine List.flatMap_congr fun m hm => ?_
    obtain ⟨l, s, rfl⟩ := hms m hm
    rw [htoken, List.append_nil]
  have hright : ns.flatMap (fun m => m.ownName ++ f m) = ns.flatMap f := by
    refine List.flatMap_congr fun m hm => ?_
    rw [ownName_of_label (hns m hm), List.nil_append]
  rw [hparts, List.flatMap_append, List.flatMap_append, List.flatMap_append, hleft, hright,
    hfirst, hlast, List.append_nil, List.nil_append]

end Node

/-- The leaf is a name directly below a node of a kind. -/
def Seat.isNameIn (k : Kind) (t : Seat) : Bool := t.parent = k && t.label = .named .identifier

namespace Node

variable {source : Text} {k : Kind}

theorem nodesOf_branch (k' : Kind) (children : List Node) :
    (branch k' children).nodesOf k =
      (if k' = k then [branch k' children] else []) ++ children.flatMap (nodesOf k) := by
  have hbelow : (children.flatMap preorder).filter (·.label = .named k) =
      children.flatMap (nodesOf k) := List.filter_flatMap
  have hself : (branch k' children).label = .named k ↔ k' = k := by simp [label]
  rw [nodesOf, preorder, preorderAll_eq, List.filter_cons, hbelow]
  by_cases hk : k' = k
  · rw [if_pos (decide_eq_true (hself.mpr hk)), if_pos hk, List.singleton_append]
  · rw [if_neg (by simpa using hself.not.mpr hk), if_neg hk, List.nil_append]

/-- In a derivation, the names directly below nodes of a kind in which names come first, listed node
by node. -/
theorem Derives.namesBelow_eq {n : Node} (h : n.Derives source)
    (hk : ∀ m, n.Contains m → m.label = .named k → m.LeadsNames) : ∀ parent,
    ((n.seats parent).filter (Seat.isNameIn k)).map Seat.span =
      (if parent = k then n.ownName else []) ++ (n.nodesOf k).flatMap partNames := by
  induction h with
  | @token l s =>
      intro parent
      rw [flatMap_partNames_eq_nil rfl rfl, List.append_nil, seats]
      cases l <;> by_cases hparent : parent = k <;>
        simp [Seat.isNameIn, Leaf.label, ownName, hparent]
  | @comment inside s =>
      intro parent
      rw [flatMap_partNames_eq_nil rfl rfl, List.append_nil, seats]
      simp [Seat.isNameIn, ownName]
  | @branch k' children _ _ _ ih =>
      intro parent
      have hbelow : ∀ m ∈ children, ((m.seats k').filter (Seat.isNameIn k)).map Seat.span =
          (if k' = k then m.ownName else []) ++ (m.nodesOf k).flatMap partNames := fun m hm =>
        ih m hm (fun m' hm' => hk m' (.child hm hm')) k'
      rw [seats, seatsAll_eq, List.filter_flatMap, List.map_flatMap, nodesOf_branch,
        List.flatMap_append, List.flatMap_assoc, List.flatMap_congr hbelow]
      have hown : (Node.branch k' children).ownName = [] := rfl
      rw [hown, ite_self, List.nil_append]
      by_cases hkind : k' = k
      · subst hkind
        simp only [if_true, List.flatMap_singleton]
        have htoken : ∀ l span, ((Node.token l span).nodesOf k').flatMap partNames = [] := fun _ _ =>
          flatMap_partNames_eq_nil rfl rfl
        refine (hk _ (.refl _) rfl).flatMap_append htoken fun n hn => ?_
        cases n with
        | comment => exact flatMap_partNames_eq_nil rfl rfl
        | _ => cases hn
      · simp [hkind]

end Node

end Heptagon
