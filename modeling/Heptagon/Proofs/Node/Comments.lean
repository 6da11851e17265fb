import Heptagon.Proofs.Node.Placing

/-!
# Comments and tokens of nodes

Laying a tree over slots changes nothing about the slots: the comments of the
result are those of the slots in their order (`Tree.comments_of_place`), and its
tokens are written with the lexemes at the slots (`Tree.write_of_place`).
-/

namespace Heptagon

/-! ## Comments in order -/

namespace Node

mutual

/-- The spans of the comments in a node, from left to right. -/
def comments : Node → List Span
  | token _ _ => []
  | comment _ s => [s]
  | branch _ children => commentsAll children

/-- The spans of the comments in a row of nodes, from left to right. -/
def commentsAll : List Node → List Span
  | [] => []
  | n :: ns => n.comments ++ commentsAll ns

end

mutual

/-- The tokens in a node, from left to right. -/
def tokens : Node → List (Leaf × Span)
  | token l s => [(l, s)]
  | comment _ _ => []
  | branch _ children => tokensAll children

/-- The tokens in a row of nodes, from left to right. -/
def tokensAll : List Node → List (Leaf × Span)
  | [] => []
  | n :: ns => n.tokens ++ tokensAll ns

end

@[simp] theorem commentsAll_append (ns ms : List Node) :
    commentsAll (ns ++ ms) = commentsAll ns ++ commentsAll ms := by
  induction ns with
  | nil => rfl
  | cons n ns ih => simp [commentsAll, ih]

@[simp] theorem tokensAll_append (ns ms : List Node) :
    tokensAll (ns ++ ms) = tokensAll ns ++ tokensAll ms := by
  induction ns with
  | nil => rfl
  | cons n ns ih => simp [tokensAll, ih]

@[simp] theorem commentsAll_map_comment (inside : Bool) (cs : List Span) :
    commentsAll (cs.map (.comment inside)) = cs := by
  induction cs with
  | nil => rfl
  | cons c cs ih => simp [commentsAll, comments, ih]

@[simp] theorem tokensAll_map_comment (inside : Bool) (cs : List Span) :
    tokensAll (cs.map (.comment inside)) = [] := by
  induction cs with
  | nil => rfl
  | cons c cs ih => simp [tokensAll, tokens, ih]

end Node

/-! ## Tokens of trees -/

mutual

/-- The tokens of a node are those of its tree. -/
theorem Node.map_tokens : (n : Node) → n.tokens.map Prod.fst = Tree.leavesAll n.trees
  | .token _ _ => rfl
  | .comment inside _ => by cases inside <;> rfl
  | .branch _ children => by
      simpa [tokens, trees, Tree.leavesAll, Tree.leaves] using Node.map_tokensAll children

theorem Node.map_tokensAll : (ns : List Node) →
    (tokensAll ns).map Prod.fst = Tree.leavesAll (treesAll ns)
  | [] => rfl
  | n :: ns => by
      rw [tokensAll, List.map_append, Node.map_tokens n, Node.map_tokensAll ns, treesAll,
        Tree.leavesAll_append]

end

/-! ## Comments of slots -/

/-- The comments before some slots, from left to right. -/
def Slot.commentsAll (slots : List Slot) : List Span := slots.flatMap (·.comments)

/-- The comments before some slots but the first. -/
def Slot.commentsLater (slots : List Slot) : List Span := commentsAll slots.tail

namespace Slot

@[simp] theorem nodeComments_commentsInside (slots : List Slot) :
    Node.commentsAll (commentsInside slots) ++ commentsLater slots = commentsAll slots := by
  cases slots with
  | nil => rfl
  | cons s slots => simp [commentsInside, commentsAll, commentsLater]

@[simp] theorem tokensAll_commentsInside (slots : List Slot) :
    Node.tokensAll (commentsInside slots) = [] := by
  cases slots with
  | nil => rfl
  | cons s slots => exact Node.tokensAll_map_comment _ _

end Slot

/-- Some tokens are written with the first lexemes at the first slots, the two lexemes of a mixed
state name touching. -/
inductive Slot.Write : List (Leaf × Span) → List Lexeme → List Slot → Prop
  | nil : Write [] [] []
  | one {l : Leaf} {x : Lexeme} {s : Slot} {tokens : List (Leaf × Span)} {ls : List Lexeme}
      {slots : List Slot} (hl : l.lexemes = [x]) (h : Write tokens ls slots) :
      Write ((l, s.span) :: tokens) (x :: ls) (s :: slots)
  | two {l : Leaf} {x y : Lexeme} {s t : Slot} {tokens : List (Leaf × Span)} {ls : List Lexeme}
      {slots : List Slot} (hl : l.lexemes = [x, y]) (hcomments : t.comments = [])
      (htouch : s.span.stop = t.span.start) (h : Write tokens ls slots) :
      Write ((l, ⟨s.span.start, t.span.stop⟩) :: tokens) (x :: y :: ls) (s :: t :: slots)

/-- What laying a token over slots says about these. -/
theorem Leaf.place_cases {l : Leaf} {slots rest : List Slot} {span : Span}
    (h : l.place slots = some (span, rest)) :
    (∃ x s, l.lexemes = [x] ∧ slots = s :: rest ∧ span = s.span) ∨
      ∃ x y s t, l.lexemes = [x, y] ∧ slots = s :: t :: rest ∧ t.comments = [] ∧
        s.span.stop = t.span.start ∧ span = ⟨s.span.start, t.span.stop⟩ := by
  cases slots with
  | nil => simp [place] at h
  | cons s slots =>
      rcases l.lexemes_cases with ⟨x, hx, -⟩ | ⟨x, y, hxy, -⟩
      · obtain ⟨rfl, rfl⟩ : s.span = span ∧ slots = rest := by simpa [place, hx] using h
        exact .inl ⟨x, s, hx, rfl, rfl⟩
      · cases slots with
        | nil => simp [place, hxy] at h
        | cons t slots =>
            simp only [place, hxy, Bool.and_eq_true, List.isEmpty_iff, beq_iff_eq,
              Option.ite_none_right_eq_some, Option.some.injEq, Prod.mk.injEq] at h
            obtain ⟨⟨hcomments, htouch⟩, rfl, rfl⟩ := h
            exact .inr ⟨x, y, s, t, hxy, rfl, hcomments, htouch, rfl⟩

namespace Tree

/-! ## Steps of laying a tree over slots -/

section

variable {k : Kind} {l : Leaf} {t : Tree} {ts : List Tree} {slots rest : List Slot} {n : Node}
  {ns : List Node}

theorem place_leaf_iff : (leaf l).place slots = some (n, rest) ↔
    ∃ span, l.place slots = some (span, rest) ∧ n = .token l span := by
  simp only [place, Option.bind_eq_bind, Option.bind_eq_some_iff, Prod.exists, Option.pure_def,
    Option.some.injEq, Prod.mk.injEq]
  constructor
  · rintro ⟨span, _, h, rfl, rfl⟩
    exact ⟨span, h, rfl⟩
  · rintro ⟨span, h, rfl⟩
    exact ⟨span, rest, h, rfl, rfl⟩

theorem place_node_iff : (node k ts).place slots = some (n, rest) ↔
    ∃ ns, placeAll ts slots = some (ns, rest) ∧ n = .branch k ns := by
  simp only [place, Option.bind_eq_bind, Option.bind_eq_some_iff, Prod.exists, Option.pure_def,
    Option.some.injEq, Prod.mk.injEq]
  constructor
  · rintro ⟨ns, _, h, rfl, rfl⟩
    exact ⟨ns, h, rfl⟩
  · rintro ⟨ns, h, rfl⟩
    exact ⟨ns, rest, h, rfl, rfl⟩

theorem placeAll_cons_iff : placeAll (t :: ts) slots = some (ns, rest) ↔
    ∃ m middle ms, t.place slots = some (m, middle) ∧ placeMore ts middle = some (ms, rest) ∧
      ns = m :: ms := by
  simp only [placeAll, Option.bind_eq_bind, Option.bind_eq_some_iff, Prod.exists, Option.pure_def,
    Option.some.injEq, Prod.mk.injEq]
  constructor
  · rintro ⟨m, middle, hm, ms, _, hms, rfl, rfl⟩
    exact ⟨m, middle, ms, hm, hms, rfl⟩
  · rintro ⟨m, middle, ms, hm, hms, rfl⟩
    exact ⟨m, middle, hm, ms, rest, hms, rfl, rfl⟩

theorem placeMore_cons_iff : placeMore (t :: ts) slots = some (ns, rest) ↔
    ∃ m middle ms, t.place slots = some (m, middle) ∧ placeMore ts middle = some (ms, rest) ∧
      ns = Slot.commentsInside slots ++ m :: ms := by
  simp only [placeMore, Option.bind_eq_bind, Option.bind_eq_some_iff, Prod.exists, Option.pure_def,
    Option.some.injEq, Prod.mk.injEq]
  constructor
  · rintro ⟨m, middle, hm, ms, _, hms, rfl, rfl⟩
    exact ⟨m, middle, ms, hm, hms, rfl⟩
  · rintro ⟨m, middle, ms, hm, hms, rfl⟩
    exact ⟨m, middle, hm, ms, rest, hms, rfl, rfl⟩

theorem placeAll_nil_iff : placeAll [] slots = some (ns, rest) ↔ ns = [] ∧ rest = slots := by
  simp [placeAll, eq_comm]

theorem placeMore_nil_iff : placeMore [] slots = some (ns, rest) ↔ ns = [] ∧ rest = slots := by
  simp [placeMore, eq_comm]

end

/-! ## What is laid over the slots -/

mutual

/-- The slots that are left behind a tree are some of those before it. -/
theorem suffix_of_place : (t : Tree) → ∀ {slots rest : List Slot} {n : Node},
    t.place slots = some (n, rest) → rest <:+ slots
  | .leaf l, slots, rest, n, h => by
      obtain ⟨span, hspan, rfl⟩ := place_leaf_iff.mp h
      rcases Leaf.place_cases hspan with ⟨x, s, hx, rfl, rfl⟩ | ⟨x, y, s, u, hxy, rfl, hu, htouch, rfl⟩
      · exact List.suffix_cons s rest
      · exact (List.suffix_cons u rest).trans (List.suffix_cons s _)
  | .node k ts, slots, rest, n, h => by
      obtain ⟨ns, hns, rfl⟩ := place_node_iff.mp h
      exact suffix_of_placeAll ts hns

theorem suffix_of_placeAll : (ts : List Tree) → ∀ {slots rest : List Slot} {ns : List Node},
    placeAll ts slots = some (ns, rest) → rest <:+ slots
  | [], _, _, _, h => by
      obtain ⟨rfl, rfl⟩ := placeAll_nil_iff.mp h
      exact List.suffix_refl _
  | t :: ts, slots, rest, ns, h => by
      obtain ⟨n, middle, ms, hn, hms, rfl⟩ := placeAll_cons_iff.mp h
      exact (suffix_of_placeMore ts hms).trans (suffix_of_place t hn)

theorem suffix_of_placeMore : (ts : List Tree) → ∀ {slots rest : List Slot} {ns : List Node},
    placeMore ts slots = some (ns, rest) → rest <:+ slots
  | [], _, _, _, h => by
      obtain ⟨rfl, rfl⟩ := placeMore_nil_iff.mp h
      exact List.suffix_refl _
  | t :: ts, slots, rest, ns, h => by
      obtain ⟨n, middle, ms, hn, hms, rfl⟩ := placeMore_cons_iff.mp h
      exact (suffix_of_placeMore ts hms).trans (suffix_of_place t hn)

end

mutual

/-- The tokens of a tree are written at its slots. -/
theorem write_of_place : (t : Tree) → ∀ {slots rest : List Slot} {n : Node}
    {tokens : List (Leaf × Span)} {ls : List Lexeme}, t.place slots = some (n, rest) →
    Slot.Write tokens ls rest →
    Slot.Write (n.tokens ++ tokens) ((unitsAll [t]).flatten ++ ls) slots
  | .leaf l, slots, rest, n, tokens, ls, h, hrest => by
      obtain ⟨span, hspan, rfl⟩ := place_leaf_iff.mp h
      rcases Leaf.place_cases hspan with ⟨x, s, hx, rfl, rfl⟩ | ⟨x, y, s, u, hxy, rfl, hu, htouch, rfl⟩
      · simpa [Node.tokens, hx] using .one hx hrest
      · simpa [Node.tokens, hxy] using .two hxy hu htouch hrest
  | .node k ts, slots, rest, n, tokens, ls, h, hrest => by
      obtain ⟨ns, hns, rfl⟩ := place_node_iff.mp h
      simpa [Node.tokens] using write_of_placeAll ts hns hrest

theorem write_of_placeAll : (ts : List Tree) → ∀ {slots rest : List Slot} {ns : List Node}
    {tokens : List (Leaf × Span)} {ls : List Lexeme}, placeAll ts slots = some (ns, rest) →
    Slot.Write tokens ls rest →
    Slot.Write (Node.tokensAll ns ++ tokens) ((unitsAll ts).flatten ++ ls) slots
  | [], _, _, _, _, _, h, hrest => by
      obtain ⟨rfl, rfl⟩ := placeAll_nil_iff.mp h
      exact hrest
  | t :: ts, slots, rest, ns, tokens, ls, h, hrest => by
      obtain ⟨n, middle, ms, hn, hms, rfl⟩ := placeAll_cons_iff.mp h
      rw [unitsAll_cons, List.flatten_append, Node.tokensAll, List.append_assoc, List.append_assoc]
      exact write_of_place t hn (write_of_placeMore ts hms hrest)

theorem write_of_placeMore : (ts : List Tree) → ∀ {slots rest : List Slot} {ns : List Node}
    {tokens : List (Leaf × Span)} {ls : List Lexeme}, placeMore ts slots = some (ns, rest) →
    Slot.Write tokens ls rest →
    Slot.Write (Node.tokensAll ns ++ tokens) ((unitsAll ts).flatten ++ ls) slots
  | [], _, _, _, _, _, h, hrest => by
      obtain ⟨rfl, rfl⟩ := placeMore_nil_iff.mp h
      exact hrest
  | t :: ts, slots, rest, ns, tokens, ls, h, hrest => by
      obtain ⟨n, middle, ms, hn, hms, rfl⟩ := placeMore_cons_iff.mp h
      rw [unitsAll_cons, List.flatten_append, Node.tokensAll_append, Slot.tokensAll_commentsInside,
        List.nil_append, Node.tokensAll, List.append_assoc, List.append_assoc]
      exact write_of_place t hn (write_of_placeMore ts hms hrest)

end

theorem Leaf.commentsLater_of_place {l : Leaf} {slots rest : List Slot} {span : Span}
    (h : l.place slots = some (span, rest)) : Slot.commentsLater slots = Slot.commentsAll rest := by
  rcases Leaf.place_cases h with ⟨_, s, _, rfl, _⟩ | ⟨_, _, s, t, _, rfl, ht, _, _⟩
  · rfl
  · simp [Slot.commentsLater, Slot.commentsAll, ht]

mutual

/-- The comments in a tree are those of its slots but the first. -/
theorem comments_of_place : (t : Tree) → t.Full → ∀ {slots rest : List Slot} {n : Node},
    t.place slots = some (n, rest) →
    n.comments ++ Slot.commentsAll rest = Slot.commentsLater slots
  | .leaf l, _, slots, rest, n, h => by
      obtain ⟨span, hspan, rfl⟩ := place_leaf_iff.mp h
      exact (Leaf.commentsLater_of_place hspan).symm
  | .node k [], hfull, _, _, _, _ => by cases hfull
  | .node k (t :: ts), hfull, slots, rest, n, h => by
      cases hfull with
      | node hfull =>
          obtain ⟨ht, hts⟩ := List.forall_mem_cons.mp hfull
          obtain ⟨ns, hns, rfl⟩ := place_node_iff.mp h
          obtain ⟨m, middle, ms, hm, hms, rfl⟩ := placeAll_cons_iff.mp hns
          rw [Node.comments, Node.commentsAll, List.append_assoc, comments_of_placeMore ts hts hms,
            comments_of_place t ht hm]

theorem comments_of_placeMore : (ts : List Tree) → (∀ t ∈ ts, t.Full) →
    ∀ {slots rest : List Slot} {ns : List Node}, placeMore ts slots = some (ns, rest) →
    Node.commentsAll ns ++ Slot.commentsAll rest = Slot.commentsAll slots
  | [], _, _, _, _, h => by
      obtain ⟨rfl, rfl⟩ := placeMore_nil_iff.mp h
      rfl
  | t :: ts, hfull, slots, rest, ns, h => by
      obtain ⟨ht, hts⟩ := List.forall_mem_cons.mp hfull
      obtain ⟨m, middle, ms, hm, hms, rfl⟩ := placeMore_cons_iff.mp h
      rw [Node.commentsAll_append, Node.commentsAll, List.append_assoc, List.append_assoc,
        comments_of_placeMore ts hts hms, comments_of_place t ht hm,
        Slot.nodeComments_commentsInside]

end

theorem comments_of_placeAll {t : Tree} {ts : List Tree} (hfull : ∀ u ∈ t :: ts, u.Full)
    {slots rest : List Slot} {ns : List Node} (h : placeAll (t :: ts) slots = some (ns, rest)) :
    Node.commentsAll ns ++ Slot.commentsAll rest = Slot.commentsLater slots := by
  obtain ⟨ht, hts⟩ := List.forall_mem_cons.mp hfull
  obtain ⟨m, middle, ms, hm, hms, rfl⟩ := placeAll_cons_iff.mp h
  rw [Node.commentsAll, List.append_assoc, comments_of_placeMore ts hts hms,
    comments_of_place t ht hm]

end Tree

/-! ## Lexemes at slots -/

namespace Slot.Write

variable {tokens : List (Leaf × Span)} {ls : List Lexeme} {slots : List Slot}

/-- A token of one lexeme is at a slot. -/
theorem mem_zip (h : Write tokens ls slots) {l : Leaf} {x : Lexeme} {span : Span}
    (hmem : (l, span) ∈ tokens) (hx : l.lexemes = [x]) :
    (x, span) ∈ ls.zip (slots.map (·.span)) := by
  induction h with
  | nil => simp at hmem
  | one hl _ ih =>
      rcases List.mem_cons.mp hmem with heq | hmem
      · obtain ⟨rfl, rfl⟩ := Prod.mk.inj heq
        obtain rfl : x = _ := by simpa [hl] using hx.symm
        exact List.mem_cons_self
      · exact List.mem_cons_of_mem _ (ih hmem)
  | two hl _ _ _ ih =>
      rcases List.mem_cons.mp hmem with heq | hmem
      · obtain ⟨rfl, -⟩ := Prod.mk.inj heq
        simp [hl] at hx
      · exact List.mem_cons_of_mem _ (List.mem_cons_of_mem _ (ih hmem))

end Slot.Write

end Heptagon
