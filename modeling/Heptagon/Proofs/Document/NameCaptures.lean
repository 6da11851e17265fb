import Heptagon.Proofs.Node.Names

/-!
# Which names are captured

The highlighting captures names for what they stand for: the functions that are
called, the variables that equations define, the parameters that are declared,
and the types that have a name.  `Document.names_captured` says which names these
are, by their place in the tree.

A query captures every name directly below a node of some kind.  Two things make
this the right ones.  In a node of each of these kinds all names come first, up to
a symbol or alone (`Node.Derives.leadsNames`, `Node.Derives.leadsNames_litType`), so
what is captured can be listed node by node (`Document.captured_eq_flatMap`).  And
what stands behind the symbol has no node of this kind below it, so that nothing
there is captured under the same name (`Document.not_captured_behind`).
-/

namespace Heptagon

/-! ## The constructs with captured names -/

namespace Grammar

/-- In the rule of a kind, all names stand before a symbol, and no other nodes do. -/
def NamesBefore (k : Kind) (s : Symbol) : Prop :=
  ∃ before behind, Rule.Cut s (rule (.node k)) before behind ∧ before.hides = false ∧
    before.kinds ⊆ [.identifier] ∧ behind.hides = false ∧ .identifier ∉ behind.kinds

theorem namesBefore_functionCall : NamesBefore .functionCall .parenOpen :=
  ⟨_, _, .later (by decide) (by decide) .here, by decide, by decide, by decide, by decide⟩

theorem namesBefore_equation : NamesBefore .equation .equal :=
  ⟨_, _, .later (by decide) (by decide) .here, by decide, by decide, by decide, by decide⟩

theorem namesBefore_varDeclBase : NamesBefore .varDeclBase .colon :=
  ⟨_, _, .later (by decide) (by decide) .here, by decide, by decide, by decide, by decide⟩

/-- Behind a symbol in a node of a kind stand only nodes of certain kinds.  The captured kind is none
of them, and if it is the kind of the node itself, no names stand there. -/
def KeepsOut (k : Kind) (s : Symbol) (captured : Kind) (ks : List Kind) : Prop :=
  Closed ks ∧ captured ∉ ks ∧ ∃ before behind, Rule.Cut s (rule (.node k)) before behind ∧
    behind.hides = false ∧ behind.kinds ⊆ ks ∧ (k = captured → .identifier ∉ behind.kinds)

/-- The kinds of nodes in an expression. -/
def expressionKinds : List Kind :=
  [.expression, .subExpression, .tuple, .functionCall, .recordConstruction, .ifthenelse, .literal,
    .lNumber, .lBool, .lArray, .unaryOperator, .binaryOperator, .identifier]

/-- The kinds of nodes in a type or a clock. -/
def typeKinds : List Kind :=
  [.litType, .primitiveType, .arrayType, .varDeclClock, .identifier, .lNumber, .stateIdentifier]

theorem keepsOut_equation : KeepsOut .equation .equal .equation expressionKinds :=
  ⟨by decide, by decide, _, _, .later (by decide) (by decide) .here, by decide, by decide,
    fun _ => by decide⟩

theorem keepsOut_varDeclBase : KeepsOut .varDeclBase .colon .varDeclBase typeKinds :=
  ⟨by decide, by decide, _, _, .later (by decide) (by decide) .here, by decide, by decide,
    fun _ => by decide⟩

theorem keepsOut_varDeclLast : KeepsOut .varDeclLast .equal .varDeclBase expressionKinds :=
  ⟨by decide, by decide, _, _,
    .later (by decide) (by decide) (.later (by decide) (by decide) .here), by decide, by decide,
    nofun⟩

theorem keepsOut_arrayType : KeepsOut .arrayType .caret .litType [.identifier, .lNumber] :=
  ⟨by decide, by decide, _, _, .later (by decide) (by decide) .here, by decide, by decide, nofun⟩

end Grammar

namespace Node

variable {source : Text} {k captured : Kind} {s : Symbol} {n : Node} {ks : List Kind}

/-- The parts of a node of a construct are a row of its rule. -/
theorem Derives.generates (h : n.Derives source) (hk : .node k ∈ Grammar.constructs)
    (hlabel : n.label = .named k) :
    (Grammar.rule (.node k)).Generates Node.label n.parts ∧ ∀ m ∈ n.parts, m.Derives source := by
  cases h with
  | @token l s =>
      cases l with
      | keyword | symbol => cases hlabel
      | _ =>
          obtain rfl := Label.named.inj hlabel
          exact absurd hk (by decide)
  | comment =>
      obtain rfl := Label.named.inj hlabel
      exact absurd hk (by decide)
  | branch _ hrule hchildren =>
      obtain rfl := Label.named.inj hlabel
      exact ⟨hrule, fun m hm => hchildren m (List.mem_filter.mp hm).1⟩

/-- In a node whose names stand before a symbol, they come first, and they are all names before the
symbol. -/
theorem Derives.leadsNames (h : n.Derives source) (hconstruct : .node k ∈ Grammar.constructs)
    (hlabel : n.label = .named k) (hk : Grammar.NamesBefore k s) :
    n.LeadsNames ∧ n.partNames = names (n.before s) := by
  obtain ⟨before, behind, hcut, hhides, hkinds, hhides', hfree⟩ := hk
  obtain ⟨hrule, hderives⟩ := h.generates hconstruct hlabel
  obtain ⟨x, zs, hdrop, hx, hzs, hbefore⟩ := hrule.exists_cut hcut
  have hparts : n.parts = n.before s ++ x :: zs := by
    rw [Node.before, ← hdrop, List.takeWhile_append_dropWhile]
  have htokens : ∀ m ∈ n.before s, ∃ l s, m = Node.token l s := fun m hm =>
    (hderives m (hparts ▸ List.mem_append_left _ hm)).exists_token fun k' hk' =>
      List.mem_singleton.mp (hkinds (hbefore.kind_mem hhides m hm k' hk'))
  have hlast : ∀ m ∈ x :: zs, m.label ≠ .named .identifier := by
    refine List.forall_mem_cons.mpr ⟨by simp [hx], fun m hm hname => ?_⟩
    exact hfree (hzs.kind_mem hhides' m hm _ hname)
  refine ⟨⟨n.before s, x :: zs, hparts, htokens, hlast⟩, ?_⟩
  have hnone : (x :: zs).flatMap ownName = [] :=
    List.flatMap_eq_nil_iff.mpr fun m hm => ownName_of_label (hlast m hm)
  rw [partNames, hparts, List.flatMap_append, hnone, List.append_nil, names_of_tokens htokens]

/-- A call has one name before its parenthesis, its first token. -/
theorem Derives.firstSpan?_functionCall (h : n.Derives source)
    (hlabel : n.label = .named .functionCall) :
    (names (n.before .parenOpen)).map some = [n.firstSpan?] := by
  obtain ⟨hrule, hderives⟩ := h.generates (by decide) hlabel
  obtain ⟨_, _, hparts, hname, hrest⟩ := Rule.Generates.seq_iff.mp hrule
  obtain ⟨x, rfl, hx⟩ := Rule.Generates.node_iff.mp hname
  obtain ⟨y, zs, rfl, hy, -⟩ := Rule.Generates.symbol_seq_iff.mp hrest
  rw [List.singleton_append] at hparts
  obtain ⟨l, span, rfl⟩ := (hderives x (hparts ▸ List.mem_cons_self)).exists_token fun k hk =>
    Label.named.inj (hk.symm.trans hx)
  have hbefore : n.before .parenOpen = [.token l span] := by simp [before, hparts, hx, hy]
  have hfirst : n.firstSpan? = some span := by
    rw [firstSpan?, ← tokensAll_parts (by simp [hparts]), hparts]
    rfl
  rw [hbefore, hfirst]
  cases l with
  | name w => rfl
  | _ => cases hx

/-- A type has one part, so that its name stands alone if it has one. -/
theorem Derives.leadsNames_litType (h : n.Derives source) (hlabel : n.label = .named .litType) :
    n.LeadsNames ∧ n.partNames = n.aloneName := by
  obtain ⟨hrule, hderives⟩ := h.generates (by decide) hlabel
  obtain ⟨r, hr, hgenerates⟩ := hrule.choice (by simp)
  obtain ⟨m, hm⟩ : ∃ m, n.parts = [m] := by
    simp only [List.mem_cons, List.not_mem_nil, or_false] at hr
    rcases hr with rfl | rfl | rfl <;> obtain ⟨m, hm, -⟩ := Rule.Generates.node_iff.mp hgenerates <;>
      exact ⟨m, hm⟩
  refine ⟨?_, by simp [partNames, aloneName, hm]⟩
  by_cases hname : m.label = .named .identifier
  · obtain ⟨l, s, rfl⟩ := (hderives m (by simp [hm])).exists_token fun k hk =>
      Label.named.inj (hk.symm.trans hname)
    exact ⟨[.token l s], [], hm, by simp, by simp⟩
  · exact ⟨[], [m], hm, by simp, by simpa using hname⟩

/-- Behind the symbol no name is directly below a node of the kind that is kept out. -/
theorem Derives.isNameIn_behind (h : n.Derives source) (hconstruct : .node k ∈ Grammar.constructs)
    (hlabel : n.label = .named k) (hk : Grammar.KeepsOut k s captured ks) :
    ∀ t ∈ seatsAll k (n.behind s), t.isNameIn captured = false := by
  obtain ⟨hclosed, hcaptured, before, behind, hcut, hhides, hkinds, hfree⟩ := hk
  obtain ⟨hrule, hderives⟩ := h.generates hconstruct hlabel
  obtain ⟨x, zs, hdrop, hx, hzs, -⟩ := hrule.exists_cut hcut
  have hkind : ∀ m ∈ n.behind s, ∀ k', m.label = .named k' → k' ∈ behind.kinds := by
    rw [Node.behind, hdrop]
    refine List.forall_mem_cons.mpr ⟨fun k' hk' => ?_, hzs.kind_mem hhides⟩
    cases hx.symm.trans hk'
  intro t ht
  obtain ⟨m, hm, ht⟩ := mem_seatsAll.mp ht
  have hpart : m ∈ n.parts := (List.dropWhile_sublist _).subset hm
  rw [Seat.isNameIn, Bool.and_eq_false_iff, decide_eq_false_iff_not, decide_eq_false_iff_not]
  cases m with
  | token l span =>
      obtain rfl := List.mem_singleton.mp ht
      by_cases heq : k = captured
      · exact .inr fun hname => hfree heq (hkind _ hm .identifier hname)
      · exact .inl heq
  | comment inside span =>
      obtain rfl := List.mem_singleton.mp ht
      exact .inr (by simp)
  | branch k' ms =>
      -- a name further down is below a kind that is not the captured one
      have hk' : k' ∈ ks := hkinds (hkind _ hm k' rfl)
      have hparent : t.parent ∈ ks :=
        (hderives _ hpart).parent_mem_of_closed hclosed k' hk' (by rintro _ ⟨⟩; exact hk') t ht
      exact .inl fun heq => hcaptured (heq ▸ hparent)

/-- A leaf is directly below a node of a construct. -/
theorem Derives.parent_mem (h : n.Derives source) : ∀ parent, .node parent ∈ Grammar.constructs →
    ∀ t ∈ n.seats parent, .node t.parent ∈ Grammar.constructs := by
  induction h with
  | token | comment =>
      intro parent hparent t ht
      exact List.mem_singleton.mp ht ▸ hparent
  | branch hk _ _ ih =>
      intro _ _ t ht
      obtain ⟨c, hc, ht⟩ := mem_seatsAll.mp ht
      exact ih c hc _ hk t ht

mutual

theorem exists_seat : (n : Node) → ∀ parent, ∀ t ∈ n.tokens,
    ∃ k, ⟨k, t.1.label, t.2⟩ ∈ n.seats parent
  | token l s, parent, t, ht => by
      obtain rfl := List.mem_singleton.mp ht
      exact ⟨parent, List.mem_singleton.mpr rfl⟩
  | comment _ _, _, _, ht => absurd ht List.not_mem_nil
  | branch k ns, _, t, ht => exists_seatAll ns k t ht

/-- Every token of a row has its seat. -/
theorem exists_seatAll : (ns : List Node) → ∀ parent, ∀ t ∈ tokensAll ns,
    ∃ k, ⟨k, t.1.label, t.2⟩ ∈ seatsAll parent ns
  | [], _, _, ht => absurd ht List.not_mem_nil
  | n :: ns, parent, t, ht => by
      rcases List.mem_append.mp ht with ht | ht
      · obtain ⟨k, hk⟩ := exists_seat n parent t ht
        exact ⟨k, List.mem_append_left _ hk⟩
      · obtain ⟨k, hk⟩ := exists_seatAll ns parent t ht
        exact ⟨k, List.mem_append_right _ hk⟩

end

/-- A seat directly below a part of a node is a seat of the node. -/
theorem Contains.seat_mem_of_mem_parts {m : Node} {ns : List Node} {t : Seat} (h : n.Contains m)
    (hlabel : m.label = .named k) (hns : ns ⊆ m.parts) (ht : t ∈ seatsAll k ns) (parent : Kind) :
    t ∈ n.seats parent := by
  obtain ⟨c, hc, ht⟩ := mem_seatsAll.mp ht
  induction h generalizing parent with
  | refl m =>
      obtain ⟨children, rfl⟩ := exists_eq_branch hlabel (List.ne_nil_of_mem (hns hc))
      exact seats_subset_of_mem (List.mem_filter.mp (hns hc)).1 _ ht
  | @child k' _ _ _ hm _ ih => exact seats_subset_of_mem hm k' (ih hlabel hns k')

end Node

namespace Query

variable {q : Query} {name : String} {k : Kind}

/-- The query captures under the name exactly the names directly below nodes of the kind. -/
def CapturesNames (q : Query) (name : String) (k : Kind) : Prop :=
  q.filter (·.2 = name) = [(.child k (.named .identifier), name)]

instance : Decidable (q.CapturesNames name k) := inferInstanceAs (Decidable (_ = _))

theorem CapturesNames.map_span_filter (hq : q.CapturesNames name k) {t : Seat}
    (ht : t.parent ≠ .identifier) : ((q.capturesOf t).filter (·.name = name)).map Capture.span =
      if t.isNameIn k then [t.span] else [] := by
  have htakes : (Pattern.child k (.named .identifier)).takes t.parent t.label = t.isNameIn k := by
    rw [Bool.eq_iff_iff]
    simp only [Pattern.takes, Pattern.captures, Pattern.labels, Seat.isNameIn, Bool.or_eq_true,
      Bool.and_eq_true, beq_iff_eq, decide_eq_true_eq, List.contains_eq_mem, List.mem_singleton,
      Label.named.injEq, ht, or_false]
    exact and_congr eq_comm eq_comm
  have hentries : (q.filter fun e => e.1.takes t.parent t.label).filter (·.2 = name) =
      (q.filter (·.2 = name)).filter fun e => e.1.takes t.parent t.label := by
    simp only [List.filter_filter, Bool.and_comm]
  have hcaptures : (q.capturesOf t).filter (·.name = name) =
      ((q.filter fun e => e.1.takes t.parent t.label).filter (·.2 = name)).map
        fun e => ⟨e.2, t.span⟩ := List.filter_map
  rw [hcaptures, hentries, hq, List.filter_cons, htakes]
  split <;> rfl

/-- What a query captures of some leaves under the name. -/
theorem CapturesNames.map_span_flatMap (hq : q.CapturesNames name k) {ts : List Seat}
    (hts : ∀ t ∈ ts, t.parent ≠ .identifier) :
    ((ts.flatMap q.capturesOf).filter (·.name = name)).map Capture.span =
      (ts.filter (Seat.isNameIn k)).map Seat.span := by
  induction ts with
  | nil => rfl
  | cons t ts ih =>
      obtain ⟨ht, hts⟩ := List.forall_mem_cons.mp hts
      rw [List.flatMap_cons, List.filter_append, List.map_append, ih hts, hq.map_span_filter ht,
        List.filter_cons]
      split <;> rfl

end Query

namespace Document

variable {source : Text} {d : Document}

/-- Where the nodes and tokens are that the highlighting captures under a name, in order. -/
def captured (d : Document) (name : String) : List Span :=
  (d.captures.filter (·.name = name)).map Capture.span

/-- The nodes of a kind in a document, in preorder. -/
def nodesOf (d : Document) (k : Kind) : List Node := d.root.nodesOf k

theorem derives_of_mem_nodesOf (h : ofSource? source = some d) {k : Kind} {n : Node}
    (hn : n ∈ d.nodesOf k) : n.Derives source :=
  (Node.mem_nodesOf_iff.mp hn).1.derivation (derives_root h).1

theorem captured_eq (h : ofSource? source = some d) {name : String} {k : Kind}
    (hq : Query.highlights.CapturesNames name k) :
    d.captured name = ((d.root.seats .sourceFile).filter (Seat.isNameIn k)).map Seat.span := by
  have hderives := (derives_root h).1
  rw [captured, captures_eq_flatMap h]
  refine hq.map_span_flatMap fun t ht hparent => ?_
  have hmem := hderives.parent_mem .sourceFile (by decide) t ht
  rw [hparent] at hmem
  exact absurd hmem (by decide)

/-- If names come first in the nodes of a kind, the captured ones are those directly below them. -/
theorem captured_eq_flatMap (h : ofSource? source = some d) {name : String} {k : Kind}
    (hq : Query.highlights.CapturesNames name k)
    (hk : ∀ n ∈ d.nodesOf k, n.Derives source → n.LeadsNames) :
    d.captured name = (d.nodesOf k).flatMap Node.partNames := by
  have hderives := (derives_root h).1
  have hleads : ∀ n, d.root.Contains n → n.label = .named k → n.LeadsNames := fun n hn hlabel =>
    hk n (Node.mem_nodesOf_iff.mpr ⟨hn, hlabel⟩) (hn.derivation hderives)
  rw [captured_eq h hq, hderives.namesBelow_eq hleads .sourceFile]
  have hown : d.root.ownName = [] := rfl
  rw [hown, ite_self, List.nil_append]
  rfl

/-- No two leaves stand at one place. -/
theorem seat_eq_of_span (h : ofSource? source = some d) {t t' : Seat}
    (ht : t ∈ d.root.seats .sourceFile) (ht' : t' ∈ d.root.seats .sourceFile)
    (hspan : t.span = t'.span) : t = t' := by
  have hcut := cut_of_ofSource? h
  have hnodup : ((d.root.seats .sourceFile).map Seat.span).Nodup := by
    rw [map_span_seats h]
    refine List.pairwise_map.mpr (hcut.ordered.imp_of_mem ?_)
    intro r r' hr _ hle heq
    rw [← heq] at hle
    exact absurd (hcut.nonempty r hr).1 (Nat.not_lt.mpr hle)
  exact List.inj_on_of_nodup_map hnodup ht ht' hspan

/-- What stands behind a symbol that keeps names out is not captured under the name. -/
theorem not_captured_behind (h : ofSource? source = some d) {name : String} {k captured : Kind}
    {s : Symbol} {ks : List Kind} (hq : Query.highlights.CapturesNames name captured)
    (hconstruct : .node k ∈ Grammar.constructs) (hk : Grammar.KeepsOut k s captured ks) :
    ∀ n ∈ d.nodesOf k, ∀ t ∈ Node.tokensAll (n.behind s), ⟨name, t.2⟩ ∉ d.captures := by
  intro n hn t ht hcapture
  obtain ⟨hcontains, hlabel⟩ := Node.mem_nodesOf_iff.mp hn
  have hderives := hcontains.derivation (derives_root h).1
  -- the seat of the token, and that of the name that is captured
  obtain ⟨parent, hseat⟩ := Node.exists_seatAll _ k t ht
  have hcaptured : t.2 ∈ d.captured name :=
    List.mem_map.mpr ⟨_, List.mem_filter.mpr ⟨hcapture, by simp⟩, rfl⟩
  rw [captured_eq h hq] at hcaptured
  obtain ⟨t', ht', hspan⟩ := List.mem_map.mp hcaptured
  obtain ⟨hmem, hname⟩ := List.mem_filter.mp ht'
  have hroot : ⟨parent, t.1.label, t.2⟩ ∈ d.root.seats .sourceFile := by
    refine hcontains.seat_mem_of_mem_parts hlabel (fun m hm => ?_) hseat .sourceFile
    exact (List.dropWhile_sublist _).subset hm
  have hfree := hderives.isNameIn_behind hconstruct hlabel hk _ hseat
  rw [seat_eq_of_span h hroot hmem hspan.symm, hname] at hfree
  cases hfree

/-- If the names of a construct stand before a symbol, these are the captured ones. -/
theorem captured_before (h : ofSource? source = some d) {name : String} {k : Kind} {s : Symbol}
    (hq : Query.highlights.CapturesNames name k) (hconstruct : .node k ∈ Grammar.constructs)
    (hk : Grammar.NamesBefore k s) :
    d.captured name = (d.nodesOf k).flatMap fun n => Node.names (n.before s) := by
  have hleads : ∀ n ∈ d.nodesOf k, n.Derives source →
      n.LeadsNames ∧ n.partNames = Node.names (n.before s) := fun n hn hderives =>
    hderives.leadsNames hconstruct (Node.mem_nodesOf_iff.mp hn).2 hk
  rw [captured_eq_flatMap h hq fun n hn hderives => (hleads n hn hderives).1]
  exact List.flatMap_congr fun n hn => (hleads n hn (derives_of_mem_nodesOf h hn)).2

/-- **Which names are captured**: the first token of each call; the variables that an equation
defines, and none behind its `=`; the parameters that are declared before a `:`, and none in their
type, their clock or their initial value; and the names that are a type by themselves, and none in
the size of an array. -/
theorem names_captured (h : ofSource? source = some d) :
    (d.captured "function.call").map some = (d.nodesOf .functionCall).map Node.firstSpan? ∧
    (d.captured "variable" =
        (d.nodesOf .equation).flatMap (fun n => Node.names (n.before .equal)) ∧
      ∀ n ∈ d.nodesOf .equation, ∀ t ∈ Node.tokensAll (n.behind .equal),
        ⟨"variable", t.2⟩ ∉ d.captures) ∧
    (d.captured "variable.parameter" =
        (d.nodesOf .varDeclBase).flatMap (fun n => Node.names (n.before .colon)) ∧
      (∀ n ∈ d.nodesOf .varDeclBase, ∀ t ∈ Node.tokensAll (n.behind .colon),
        ⟨"variable.parameter", t.2⟩ ∉ d.captures) ∧
      ∀ n ∈ d.nodesOf .varDeclLast, ∀ t ∈ Node.tokensAll (n.behind .equal),
        ⟨"variable.parameter", t.2⟩ ∉ d.captures) ∧
    d.captured "type" = (d.nodesOf .litType).flatMap Node.aloneName ∧
      ∀ n ∈ d.nodesOf .arrayType, ∀ t ∈ Node.tokensAll (n.behind .caret),
        ⟨"type", t.2⟩ ∉ d.captures := by
  have hcall : Query.highlights.CapturesNames "function.call" .functionCall := by decide +kernel
  have hvariable : Query.highlights.CapturesNames "variable" .equation := by decide +kernel
  have hparameter : Query.highlights.CapturesNames "variable.parameter" .varDeclBase := by
    decide +kernel
  have htype : Query.highlights.CapturesNames "type" .litType := by decide +kernel
  refine ⟨?_, ⟨?_, ?_⟩, ⟨?_, ?_, ?_⟩, ?_, ?_⟩
  · have hfirst : ∀ n ∈ d.nodesOf .functionCall,
        (Node.names (n.before .parenOpen)).map some = [n.firstSpan?] := fun n hn =>
      (derives_of_mem_nodesOf h hn).firstSpan?_functionCall (Node.mem_nodesOf_iff.mp hn).2
    rw [captured_before h hcall (by decide) Grammar.namesBefore_functionCall, List.map_flatMap,
      List.flatMap_congr hfirst, List.map_eq_flatMap]
  · exact captured_before h hvariable (by decide) Grammar.namesBefore_equation
  · exact not_captured_behind h hvariable (by decide) Grammar.keepsOut_equation
  · exact captured_before h hparameter (by decide) Grammar.namesBefore_varDeclBase
  · exact not_captured_behind h hparameter (by decide) Grammar.keepsOut_varDeclBase
  · exact not_captured_behind h hparameter (by decide) Grammar.keepsOut_varDeclLast
  · have hleads : ∀ n ∈ d.nodesOf .litType, n.Derives source →
        n.LeadsNames ∧ n.partNames = n.aloneName := fun n hn hderives =>
      hderives.leadsNames_litType (Node.mem_nodesOf_iff.mp hn).2
    rw [captured_eq_flatMap h htype fun n hn hderives => (hleads n hn hderives).1]
    exact List.flatMap_congr fun n hn => (hleads n hn (derives_of_mem_nodesOf h hn)).2
  · exact not_captured_behind h htype (by decide) Grammar.keepsOut_arrayType

/-- A call in a call, an equation with two variables, an array of a named type, and a parameter with
an initial value. -/
theorem names_captured_of_nested_calls : ∃ d,
    ofSource? (Text.ofString "fun f(a,b:t^n;last c:u=e)returns()let(x,y)=g(h(z));v=w tel") =
        some d ∧
      d.captured "function.call" = [⟨43, 44⟩, ⟨45, 46⟩] ∧
      d.captured "variable" = [⟨38, 39⟩, ⟨40, 41⟩, ⟨51, 52⟩] ∧
      d.captured "variable.parameter" = [⟨6, 7⟩, ⟨8, 9⟩, ⟨19, 20⟩] ∧
      d.captured "type" = [⟨10, 11⟩, ⟨21, 22⟩] := by
  have hnodes :
      (ofSource? (Text.ofString
        "fun f(a,b:t^n;last c:u=e)returns()let(x,y)=g(h(z));v=w tel")).map (fun d =>
        ((d.nodesOf .functionCall).map Node.firstSpan?,
          (d.nodesOf .equation).flatMap (fun n => Node.names (n.before .equal)),
          (d.nodesOf .varDeclBase).flatMap (fun n => Node.names (n.before .colon)),
          (d.nodesOf .litType).flatMap Node.aloneName)) =
      some ([some ⟨43, 44⟩, some ⟨45, 46⟩], [⟨38, 39⟩, ⟨40, 41⟩, ⟨51, 52⟩],
        [⟨6, 7⟩, ⟨8, 9⟩, ⟨19, 20⟩], [⟨10, 11⟩, ⟨21, 22⟩]) := by
    decide +kernel
  obtain ⟨d, hd, hat⟩ := Option.map_eq_some_iff.mp hnodes
  simp only [Prod.mk.injEq] at hat
  obtain ⟨hfirst, hdefined, hdeclared, halone⟩ := hat
  obtain ⟨hcalls, ⟨hvariables, -⟩, ⟨hparameters, -, -⟩, htypes, -⟩ := names_captured hd
  have hcalled : (d.captured "function.call").map some = [⟨43, 44⟩, ⟨45, 46⟩].map some :=
    hcalls.trans hfirst
  exact ⟨d, hd, List.map_injective_iff.mpr (Option.some_injective _) hcalled,
    hvariables.trans hdefined, hparameters.trans hdeclared, htypes.trans halone⟩

end Document

end Heptagon
