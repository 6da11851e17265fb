import Heptagon.Proofs.Document.Leaves
import Heptagon.Proofs.Document.Operators
import Heptagon.Proofs.Node.Changes

/-!
# Comments between tokens

A comment in a node that neither starts nor ends with one stands between two
tokens of the node (`Node.between_of_contains`): in the row of leaves of the node
the first and the last are tokens, and the leaves follow each other.

Two nodes of a tree that stands in a source lie one in the other or side by
side (`Node.Contains.cross`), so of the nodes that have tokens on both sides of
a comment the one whose child it is lies in all others
(`Node.Contains.innermost`).
-/

namespace Heptagon

/-- A span lies between the first and the last of some tokens. -/
def Span.Between (c : Span) (tokens : List (Leaf × Span)) : Prop :=
  ∃ first ∈ tokens.head?, ∃ last ∈ tokens.getLast?, first.2.stop ≤ c.start ∧ c.stop ≤ last.2.start

namespace Node

variable {source : Text} {m n x y : Node} {ns : List Node}

/-- The children of a node. -/
def children : Node → List Node
  | branch _ ns => ns
  | _ => []

/-! ## First and last leaves -/

/-- The row of a token. -/
def tokenRow (depth : Nat) (token : Leaf × Span) : Row := ⟨depth, token.1.label, false, token.2⟩

/-- The first leaf of a node that does not start with a comment is its first token. -/
theorem Tight.head_leafRows (h : n.Tight) (hn : n.isComment = false) (depth : Nat) :
    ∃ token ∈ n.tokens.head?, ∃ depth', (n.leafRows depth).head? = some (tokenRow depth' token) := by
  induction h generalizing depth with
  | token l s => exact ⟨(l, s), rfl, depth, rfl⟩
  | comment => simp [isComment] at hn
  | @branch k children _ hfirst _ _ ih =>
      obtain ⟨m, hm, hcomment⟩ := hfirst
      obtain ⟨token, htoken, depth', hrow⟩ := ih m (List.mem_of_mem_head? hm) hcomment (depth + 1)
      obtain ⟨ms, rfl⟩ := List.head?_eq_some_iff.mp hm
      refine ⟨token, ?_, depth', ?_⟩
      · simp [tokens, tokensAll, List.head?_append, Option.mem_def.mp htoken]
      · simp [leafRows, leafRowsAll, List.head?_append, hrow]

/-- The last leaf of a node that does not end with a comment is its last token. -/
theorem Tight.getLast_leafRows (h : n.Tight) (hn : n.isComment = false) (depth : Nat) :
    ∃ token ∈ n.tokens.getLast?, ∃ depth',
      (n.leafRows depth).getLast? = some (tokenRow depth' token) := by
  induction h generalizing depth with
  | token l s => exact ⟨(l, s), rfl, depth, rfl⟩
  | comment => simp [isComment] at hn
  | @branch k children _ _ hlast _ ih =>
      obtain ⟨m, hm, hcomment⟩ := hlast
      obtain ⟨token, htoken, depth', hrow⟩ :=
        ih m (List.mem_of_mem_getLast? hm) hcomment (depth + 1)
      obtain ⟨ms, rfl⟩ := List.getLast?_eq_some_iff.mp hm
      refine ⟨token, ?_, depth', ?_⟩
      · simp [tokens, tokensAll, List.getLast?_append, Option.mem_def.mp htoken]
      · simp [leafRows, leafRowsAll_append, leafRowsAll, List.getLast?_append, hrow]

/-- A comment in a node is one of its leaves. -/
theorem Contains.comment_mem_leafRows {inside : Bool} {c : Span} (h : n.Contains (.comment inside c))
    (depth : Nat) : ∃ depth', ⟨depth', .named .comment, inside, c⟩ ∈ n.leafRows depth := by
  generalize hm : comment inside c = m at h
  induction h generalizing depth with
  | refl =>
      subst hm
      exact ⟨depth, List.mem_singleton_self _⟩
  | @child k children n m hn _ ih =>
      obtain ⟨depth', hmem⟩ := ih (depth + 1) hm
      obtain ⟨pre, post, rfl⟩ := List.append_of_mem hn
      refine ⟨depth', ?_⟩
      rw [leafRows, leafRowsAll_append, leafRowsAll]
      exact List.mem_append_right _ (List.mem_append_left _ hmem)

/-! ## Comments in rows of nodes -/

theorem label_ne_comment (l : Leaf) : l.label ≠ .named .comment := by cases l <;> simp [Leaf.label]

/-- A row of nodes neither starts nor ends with a comment. -/
structure Closed (ns : List Node) : Prop where
  first : ∃ n ∈ ns.head?, n.isComment = false
  last : ∃ n ∈ ns.getLast?, n.isComment = false
  tight : ∀ n ∈ ns, n.Tight

/-- A comment in a row that neither starts nor ends with one stands between two tokens. -/
theorem Closed.between (h : Closed ns) {offset : Nat} (hstands : StandFrom source offset ns)
    (hn : n ∈ ns) {inside : Bool} {c : Span} (hc : n.Contains (.comment inside c)) :
    c.Between (tokensAll ns) := by
  -- the row is that of a node, so the two lemmas about the ends of a node serve
  have hnode : (branch .sourceFile ns).Tight := .branch (by simp) h.first h.last h.tight
  obtain ⟨first, hfirst, _, hhead⟩ := hnode.head_leafRows rfl 0
  obtain ⟨last, hlast, _, hend⟩ := hnode.getLast_leafRows rfl 0
  obtain ⟨_, hmem⟩ := (Contains.child (k := .sourceFile) hn hc).comment_mem_leafRows 0
  have hpairwise := (stand_leafRowsAll ns 1 hstands).pairwise
  simp only [leafRows, Nat.zero_add] at hhead hend hmem
  refine ⟨first, hfirst, last, hlast, ?_, ?_⟩
  · obtain ⟨rows, hrows⟩ := List.head?_eq_some_iff.mp hhead
    rw [hrows] at hpairwise hmem
    rcases List.mem_cons.mp hmem with heq | hmem
    · exact absurd (Row.mk.inj heq).2.1.symm (label_ne_comment _)
    · exact (List.pairwise_cons.mp hpairwise).1 _ hmem
  · obtain ⟨rows, hrows⟩ := List.getLast?_eq_some_iff.mp hend
    rw [hrows] at hpairwise hmem
    rcases List.mem_append.mp hmem with hmem | hmem
    · exact (List.pairwise_append.mp hpairwise).2.2 _ hmem _ (List.mem_singleton_self _)
    · exact absurd (Row.mk.inj (List.mem_singleton.mp hmem)).2.1.symm (label_ne_comment _)

/-- A comment in a node that is none itself stands between two tokens of the node. -/
theorem Tight.between (h : n.Tight) (hstands : n.Stands source) (hn : n.isComment = false)
    {inside : Bool} {c : Span} (hc : n.Contains (.comment inside c)) : c.Between n.tokens := by
  cases h with
  | token => cases hc
  | comment => simp [isComment] at hn
  | branch _ hfirst hlast htight =>
      cases hc with
      | child hx hc => exact Closed.between ⟨hfirst, hlast, htight⟩ hstands.2 hx hc

theorem Contains.tight (h : n.Contains m) (hn : n.Tight) : m.Tight := by
  induction h with
  | refl => exact hn
  | child hx _ ih => cases hn with | branch _ _ _ htight => exact ih (htight _ hx)

/-- A node neither starts nor ends with a comment. -/
theorem Tight.ends (h : n.Tight) : (∀ x ∈ n.children.head?, x.isComment = false) ∧
    ∀ x ∈ n.children.getLast?, x.isComment = false := by
  cases h with
  | branch _ hfirst hlast _ =>
      obtain ⟨x, hx, hcomment⟩ := hfirst
      obtain ⟨y, hy, hcomment'⟩ := hlast
      refine ⟨fun z hz => ?_, fun z hz => ?_⟩
      · obtain rfl := Option.mem_unique hx hz
        exact hcomment
      · obtain rfl := Option.mem_unique hy hz
        exact hcomment'
  | _ => simp [children]

/-- A part of a node is the node or a child of one of its parts. -/
theorem Contains.exists_parent (h : n.Contains m) (hne : n ≠ m) :
    ∃ x, n.Contains x ∧ m ∈ x.children := by
  induction h with
  | refl => exact absurd rfl hne
  | @child k ns y m hy hm ih =>
      by_cases hym : y = m
      · exact ⟨_, .refl _, hym ▸ hy⟩
      · obtain ⟨x, hx, hmem⟩ := ih hym
        exact ⟨x, .child hy hx, hmem⟩

/-! ## One in the other, or side by side -/

theorem StandFrom.le_start {offset : Nat} (h : StandFrom source offset ns) (hn : n ∈ ns) :
    offset ≤ n.start := by
  obtain ⟨pre, post, rfl⟩ := List.append_of_mem hn
  obtain ⟨hpre, hstart, -⟩ := standFrom_append.mp h
  exact hpre.le_stopFrom.trans hstart.1

theorem Contains.le_start (h : n.Contains m) (hn : n.Stands source) : n.start ≤ m.start := by
  induction h with
  | refl => exact Nat.le_refl _
  | @child k children c m hc _ ih =>
      have hle : startAll children ≤ c.start := hn.2.le_start hc
      exact hle.trans (ih (hn.2.stands _ hc))

/-- Two nodes lie side by side. -/
def Apart (m n : Node) : Prop := m.stop ≤ n.start ∨ n.stop ≤ m.start

instance : Std.Symm Apart := ⟨fun _ _ => Or.symm⟩

/-- The nodes of a row lie side by side. -/
theorem StandFrom.apart {offset : Nat} (h : StandFrom source offset ns) (hx : x ∈ ns)
    (hy : y ∈ ns) (hne : x ≠ y) : x.Apart y := by
  have hpairwise : ns.Pairwise Apart := by
    clear hx hy
    induction ns generalizing offset with
    | nil => exact .nil
    | cons n ns ih => exact .cons (fun m hm => .inl (h.2.2.le_start hm)) (ih h.2.2)
  exact hpairwise.forall hx hy hne

/-- What is in two nodes that lie side by side does so, too. -/
theorem Apart.of_contains (h : x.Apart y) (hx : x.Stands source) (hy : y.Stands source)
    (hm : x.Contains m) (hn : y.Contains n) : m.Apart n := by
  have hxm := hm.stop_le hx
  have hmx := hm.le_start hx
  have hyn := hn.stop_le hy
  have hny := hn.le_start hy
  unfold Apart at h ⊢
  omega

/-- Two nodes of a tree lie one in the other or side by side. -/
theorem Contains.cross (hm : x.Contains m) (hn : x.Contains n) (hx : x.Stands source) :
    m.Contains n ∨ n.Contains m ∨ m.Apart n := by
  induction hm with
  | refl => exact .inl hn
  | @child k children y m hy hm ih =>
      cases hn with
      | refl => exact .inr (.inl (.child hy hm))
      | @child _ _ z _ hz hn =>
          by_cases hyz : y = z
          · subst hyz
            exact ih hn (hx.2.stands _ hy)
          · exact .inr (.inr ((hx.2.apart hy hz hyz).of_contains (hx.2.stands _ hy)
              (hx.2.stands _ hz) hm hn))

/-! ## The innermost node -/

mutual

/-- The tokens of a node are parts of it. -/
theorem contains_of_mem_tokens : (n : Node) → ∀ {l : Leaf} {s : Span}, (l, s) ∈ n.tokens →
    n.Contains (token l s)
  | token l s, _, _, h => by
      obtain ⟨rfl, rfl⟩ := Prod.mk.inj (List.mem_singleton.mp h)
      exact .refl _
  | comment _ _, _, _, h => absurd h List.not_mem_nil
  | branch _ ns, _, _, h => by
      obtain ⟨n, hn, hcontains⟩ := contains_of_mem_tokensAll ns h
      exact .child hn hcontains

theorem contains_of_mem_tokensAll : (ns : List Node) → ∀ {l : Leaf} {s : Span},
    (l, s) ∈ tokensAll ns → ∃ n ∈ ns, n.Contains (token l s)
  | [], _, _, h => absurd h List.not_mem_nil
  | n :: ns, _, _, h => by
      rcases List.mem_append.mp h with h | h
      · exact ⟨n, List.mem_cons_self, contains_of_mem_tokens n h⟩
      · obtain ⟨m, hm, hcontains⟩ := contains_of_mem_tokensAll ns h
        exact ⟨m, List.mem_cons_of_mem _ hm, hcontains⟩

end

/-- The tokens of a part are tokens of the node. -/
theorem Contains.tokens_subset (h : m.Contains n) : n.tokens ⊆ m.tokens := by
  induction h with
  | refl => exact fun _ => id
  | @child k children c n hc _ ih =>
      obtain ⟨before, after, rfl⟩ := List.append_of_mem hc
      intro token htoken
      simp [tokens, tokensAll_append, tokensAll, ih htoken]

mutual

/-- The tokens of a node follow each other. -/
theorem Stands.pairwise_tokens : {n : Node} → n.Stands source →
    n.tokens.Pairwise fun a b => a.2.stop ≤ b.2.start
  | token _ _, _ => List.pairwise_singleton _ _
  | comment _ _, _ => .nil
  | branch _ _, h => h.2.pairwise_tokensAll

theorem StandFrom.pairwise_tokensAll : {ns : List Node} → {offset : Nat} →
    StandFrom source offset ns → (tokensAll ns).Pairwise fun a b => a.2.stop ≤ b.2.start
  | [], _, _ => .nil
  | n :: ns, _, h => by
      refine List.pairwise_append.mpr ⟨h.2.1.pairwise_tokens, h.2.2.pairwise_tokensAll, ?_⟩
      rintro ⟨l, s⟩ hs ⟨l', s'⟩ hs'
      obtain ⟨m, hm, hcontains⟩ := contains_of_mem_tokensAll ns hs'
      have hstop : s.stop ≤ n.stop := (contains_of_mem_tokens n hs).stop_le h.2.1
      have hstart : m.start ≤ s'.start := hcontains.le_start (h.2.2.stands m hm)
      exact hstop.trans ((h.2.2.le_start hm).trans hstart)

end

/-- A comment between some of the tokens of a row is between the first and the last of the row. -/
theorem StandFrom.between_of_subset {offset : Nat} (h : StandFrom source offset ns)
    {tokens : List (Leaf × Span)} (hsub : tokens ⊆ tokensAll ns) {c : Span}
    (hc : c.Between tokens) : c.Between (tokensAll ns) := by
  obtain ⟨a, ha, b, hb, hle, hle'⟩ := hc
  have hpairwise := h.pairwise_tokensAll
  have hlt : ∀ t ∈ tokensAll ns, t.2.start < t.2.stop := fun t ht =>
    (stands_of_mem_tokensAll ns h ht).1
  have ha := hsub (List.mem_of_mem_head? ha)
  have hb := hsub (List.mem_of_mem_getLast? hb)
  have hlta := hlt a ha
  have hltb := hlt b hb
  generalize tokensAll ns = all at *
  cases hhead : all.head? with
  | none => simp [List.head?_eq_none_iff.mp hhead] at ha
  | some first =>
    cases hlast : all.getLast? with
    | none => simp [List.getLast?_eq_none_iff.mp hlast] at hb
    | some last =>
      refine ⟨first, hhead, last, hlast, ?_, ?_⟩
      · obtain ⟨rest, rfl⟩ := List.head?_eq_some_iff.mp hhead
        rcases List.mem_cons.mp ha with rfl | ha
        · exact hle
        · have := (List.pairwise_cons.mp hpairwise).1 a ha
          omega
      · obtain ⟨rest, rfl⟩ := List.getLast?_eq_some_iff.mp hlast
        rcases List.mem_append.mp hb with hb | hb
        · have := (List.pairwise_append.mp hpairwise).2.2 b hb last (List.mem_singleton_self _)
          omega
        · obtain rfl := List.mem_singleton.mp hb
          exact hle'

/-- A node with tokens on both sides of a comment reaches further than the comment. -/
theorem Stands.reaches (hm : m.Stands source) {c : Span} (hc : c.Between m.tokens) :
    m.start < c.start ∧ c.stop < m.stop := by
  obtain ⟨⟨l, s⟩, hfirst, ⟨l', s'⟩, hlast, hle, hle'⟩ := hc
  have hs := contains_of_mem_tokens m (List.mem_of_mem_head? hfirst)
  have hs' := contains_of_mem_tokens m (List.mem_of_mem_getLast? hlast)
  have hstart : m.start ≤ s.start := hs.le_start hm
  have hstop : s'.stop ≤ m.stop := hs'.stop_le hm
  have hlt : s.start < s.stop := (hs.stands hm).1
  have hlt' : s'.start < s'.stop := (hs'.stands hm).1
  simp only at hle hle'
  omega

/-- A node in a row next to a comment has no tokens on both sides of it. -/
theorem StandFrom.not_between {offset : Nat} (hstands : StandFrom source offset ns) (hx : x ∈ ns)
    (hm : x.Contains m) {inside : Bool} {c : Span} (hc : comment inside c ∈ ns) :
    ¬ c.Between m.tokens := by
  intro hbetween
  by_cases hxc : x = comment inside c
  · subst hxc
    cases hm
    obtain ⟨_, hfirst, -⟩ := hbetween
    simp [tokens] at hfirst
  · have hmstands := hm.stands (hstands.stands _ hx)
    have hreach := hmstands.reaches hbetween
    have hcstands := hstands.stands _ hc
    have hlt : c.start < c.stop := hcstands.1
    have hapart : m.stop ≤ c.start ∨ c.stop ≤ m.start :=
      (hstands.apart hx hc hxc).of_contains (hstands.stands _ hx) hcstands hm (.refl _)
    omega

/-- Of the nodes with tokens on both sides of a comment, the one whose child it is lies in all
others. -/
theorem Contains.innermost {k : Kind} {offset : Nat} (hstands : StandFrom source offset ns)
    (hm : (branch k ns).Contains m) (hn : (branch k ns).Contains n) {inside : Bool} {c : Span}
    (hc : comment inside c ∈ n.children) (hbetween : c.Between m.tokens) : m.Contains n := by
  cases hm with
  | refl => exact hn
  | @child _ _ x _ hx hm =>
      have hmstands := hm.stands (hstands.stands _ hx)
      cases hn with
      | refl => exact absurd hbetween (hstands.not_between hx hm hc)
      | @child _ _ y _ hy hn =>
          have hnstands := hn.stands (hstands.stands _ hy)
          have hreach := hmstands.reaches hbetween
          cases n with
          | branch k' cs =>
              have hcontains : (branch k' cs).Contains (comment inside c) := .child hc (.refl _)
              have hlt : c.start < c.stop := (hcontains.stands hnstands).1
              have hstart : (branch k' cs).start ≤ c.start := hcontains.le_start hnstands
              have hstop : c.stop ≤ (branch k' cs).stop := hcontains.stop_le hnstands
              have happart : ¬ m.Apart (branch k' cs) := by
                unfold Apart
                omega
              by_cases hxy : x = y
              · subst hxy
                rcases hm.cross hn (hstands.stands _ hx) with h | h | h
                · exact h
                · cases h with
                  | refl => exact .refl _
                  | child hz h => exact absurd hbetween (hnstands.2.not_between hz h hc)
                · exact absurd h happart
              · exact absurd ((hstands.apart hx hy hxy).of_contains (hstands.stands _ hx)
                  (hstands.stands _ hy) hm hn) happart
          | _ => simp [children] at hc

end Node

/-! ## The tokens around one of them -/

namespace Document

variable {source : Text} {d : Document} {front back : List (Leaf × Span)} {l : Leaf} {s : Span}

/-- The tokens of an accepted source follow each other. -/
theorem pairwise_tokens (h : ofSource? source = some d) :
    d.tokens.Pairwise fun a b => a.2.stop ≤ b.2.start := by
  obtain ⟨p, hshows⟩ := exists_program h
  exact hshows.stands.pairwise_tokensAll

/-- A token of an accepted source takes room, and the ones before it and behind it leave it that. -/
theorem bounds_of_tokens (h : ofSource? source = some d)
    (htokens : d.tokens = front ++ (l, s) :: back) :
    s.start < s.stop ∧ (∀ t ∈ front, t.2.stop ≤ s.start) ∧ ∀ t ∈ back, s.stop ≤ t.2.start := by
  have hmem : (l, s) ∈ d.tokens := by simp [htokens]
  have hpairwise := pairwise_tokens h
  rw [htokens] at hpairwise
  obtain ⟨-, hback, hfront⟩ := List.pairwise_append.mp hpairwise
  exact ⟨(stands_of_mem_tokens h hmem).1,
    fun t ht => hfront t ht (l, s) List.mem_cons_self, (List.pairwise_cons.mp hback).1⟩

/-- Where a token of an accepted source stops, no token goes on. -/
theorem spares_stop (h : ofSource? source = some d)
    (htokens : d.tokens = front ++ (l, s) :: back) : Slot.Spares s.stop d.tokens := by
  obtain ⟨hlt, hfront, hback⟩ := bounds_of_tokens h htokens
  rw [htokens]
  refine List.forall_mem_append.mpr ⟨fun t ht hplace => ?_,
    List.forall_mem_cons.mpr ⟨fun hplace => Nat.lt_irrefl _ hplace.2, fun t ht hplace => ?_⟩⟩
  · have hle := hfront t ht
    omega
  · have hle := hback t ht
    omega

end Document

end Heptagon
