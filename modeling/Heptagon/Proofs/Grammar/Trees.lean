import Heptagon.Proofs.Expr.Grouping
import Heptagon.Proofs.Grammar.Generates
import Heptagon.Proofs.Program.Reading

/-!
# The trees of programs are derivations

Every program has a tree that the grammar derives, however its operators group
and its lists divide.  The proof goes through the constructs one by one; for
each the row of children is put together as its rule says.

Along the way each node is known as that of a piece of the program
(`Tree.Made`), with what the reader makes sure of there.  So a property that all
nodes of a program have needs one look at each kind of piece, and no other way
through the tree.
-/

namespace Heptagon

open Grammar (rule separated)
open Rule.Generates

/-! ## Nodes of pieces -/

/-- Whether nothing is made sure of about the nodes of a kind but their rule. -/
def Kind.isPlain : Kind → Bool
  | .subExpression | .functionCall | .equationList | .block | .switchStatement | .presentStatement
  | .resetStatement | .automatonState => false
  | _ => true

/-- The nodes of the pieces of a program, as the reader leaves these. -/
inductive Tree.Made : Tree → Prop
  | leaf {l : Leaf} (h : (Tree.leaf l).Normal) : Made (.leaf l)
  | operand {ts : List Tree} (hgroups : Groups ts)
      (hname : ∀ n, ts.head? = some (.name n) → n.isOperand = true) : Made (.node .subExpression ts)
  | call {f : Name} {ts : List Tree} (hname : f.isOperand = true) :
      Made (.node .functionCall (.name f :: ts))
  | equations {es : Equations} {alone : Bool} {ts : List Lexeme} (h : es.Fits alone ts) :
      Made es.tree
  | block {ss : Statements} {ts : List Lexeme} (h : ss.Fits .block ts) :
      Made (.node .block (.kw .let_ :: (ss.trees ++ [.kw .tel])))
  | switch {x : Name} {cs : Cases} {ts : List Lexeme} (h : cs.Fits ts) :
      Made (Statement.switch x cs).tree
  | present {bs : Branches} {ts : List Lexeme} (h : bs.Fits ts) : Made (Statement.present bs).tree
  | reset {body : Statements} {e : Expr} {ts : List Lexeme} (h : body.Fits .reset ts) :
      Made (Statement.reset body e).tree
  | state {name : StateName} {locals : Option Locals} {body : Statements} {trs : List Transition}
      {ts : List Lexeme} (h : body.Fits .state ts) :
      Made (.node .automatonState (.kw .state :: .leaf (.state name) :: (Locals.trees locals ++
        .kw .do_ :: (body.trees ++ trs.map Transition.tree))))
  | plain {k : Kind} {ts : List Tree} (hk : k.isPlain = true) : Made (.node k ts)

theorem Tree.Made.normal {t : Tree} (h : t.Made) : t.Normal := by
  cases h with
  | leaf h => exact h
  | operand hgroups _ => exact hgroups
  | @plain k ts hk => cases k <;> trivial
  | _ => trivial

theorem Tree.Derives.imp {P Q : Tree → Prop} (hPQ : ∀ t, P t → Q t) {t : Tree} (h : t.Derives P) :
    t.Derives Q := by
  induction h with
  | leaf h => exact .leaf (hPQ _ h)
  | node hk h hrule _ ih => exact .node hk (hPQ _ h) hrule ih

namespace Tree.Derives

theorem state {s : StateName} (h : s.Normal) : (Tree.leaf (.state s)).Derives Tree.Made :=
  .leaf (.leaf h)

theorem variant (t : Text) : (Tree.leaf (.variant t)).Derives Tree.Made := .leaf (.leaf trivial)

theorem kw (k : Keyword) : (Tree.kw k).Derives Tree.Made := .leaf (.leaf trivial)

theorem sym (s : Symbol) : (Tree.sym s).Derives Tree.Made := .leaf (.leaf trivial)

theorem name (n : Name) : (Tree.name n).Derives Tree.Made := .leaf (.leaf trivial)

theorem operand {parts : List Tree} (hgroups : Tree.Groups parts)
    (hhead : ∀ t ∈ parts.head?, t.label ≠ .named .identifier)
    (hrule : (rule (.node .subExpression)).Generates Tree.label parts)
    (hparts : ∀ t ∈ parts, t.Derives Tree.Made) : (Tree.operand parts).Derives Tree.Made := by
  refine .node (by decide) (.plain rfl) (.right (.node rfl)) (List.forall_mem_singleton.mpr ?_)
  refine .node (by decide) (.operand hgroups fun n hn => ?_) hrule hparts
  exact absurd rfl (hhead (.name n) hn)

end Tree.Derives

open Tree.Derives

/-! ## Expressions -/

@[simp] theorem Literal.label_tree (l : Literal) : l.tree.label = .named .literal := by
  cases l with
  | bool value => cases value <;> rfl
  | _ => rfl

theorem UnaryOp.derives (op : UnaryOp) :
    (Tree.node .unaryOperator [.leaf op.leaf]).Derives Tree.Made := by
  refine .node (by decide) (.plain rfl) ?_ (List.forall_mem_singleton.mpr ?_)
  · cases op <;> first
      | exact choice_of_mem (.symbol rfl) (by decide)
      | exact choice_of_mem (.keyword rfl) (by decide)
  · cases op <;> exact .leaf (.leaf trivial)

theorem BinaryOp.derives (op : BinaryOp) :
    (Tree.node .binaryOperator [.leaf op.leaf]).Derives Tree.Made := by
  refine .node (by decide) (.plain rfl) ?_ (List.forall_mem_singleton.mpr ?_)
  · cases op <;> first
      | exact choice_of_mem (.symbol rfl) (by decide)
      | exact choice_of_mem (.keyword rfl) (by decide)
  · cases op <;> exact .leaf (.leaf trivial)

theorem Exprs.generates_more : (es : Exprs) →
    (Rule.many (.seq (.symbol .comma) (.of .expression))).Generates Tree.label es.more
  | .nil => nil_many
  | .cons e es => cons_many [Tree.sym .comma, e.tree]
      (.symbol_cons rfl (.node e.label_tree)) es.generates_more

theorem Exprs.generates_separated (e : Expr) (es : Exprs) :
    (separated (.of .expression) (.symbol .comma)).Generates Tree.label (e.tree :: es.more) :=
  .node_cons e.label_tree es.generates_more

theorem Fields.generates_more : (fs : Fields) →
    (Rule.many (.seq (.symbol .semicolon)
      (.seq (.of .identifier) (.seq (.symbol .equal) (.of .expression))))).Generates
        Tree.label fs.more
  | .nil => nil_many
  | .cons n e fs => cons_many [Tree.sym .semicolon, .name n, .sym .equal, e.tree]
      (.symbol_cons rfl (.node_cons rfl (.symbol_cons rfl (.node e.label_tree))))
      fs.generates_more

theorem Args.generates_trees : (args : Args) →
    (Rule.many (separated (.of .expression) (.symbol .comma))).Generates Tree.label args.trees
  | .nil => nil_many
  | .group e es rest => by
      have h := cons_many _ (Exprs.generates_separated e es) rest.generates_trees
      simpa [Args.trees] using h

mutual

theorem Literal.derives : (l : Literal) → l.Normal → l.tree.Derives Tree.Made
  | .number t, _ => .node (by decide) (.plain rfl) (.left (.node rfl))
      (List.forall_mem_singleton.mpr (.leaf (.leaf trivial)))
  | .bool value, _ => by
      cases value with
      | true =>
          refine .node (by decide) (.plain rfl) (.right (.left (.node rfl)))
            (List.forall_mem_singleton.mpr ?_)
          exact .node (by decide) (.plain rfl) (.left (.keyword rfl))
            (List.forall_mem_singleton.mpr (kw _))
      | false =>
          refine .node (by decide) (.plain rfl) (.right (.left (.node rfl)))
            (List.forall_mem_singleton.mpr ?_)
          exact .node (by decide) (.plain rfl) (.right (.keyword rfl))
            (List.forall_mem_singleton.mpr (kw _))
  | .array es, h => by
      refine .node (by decide) (.plain rfl) (.right (.right (.node rfl)))
        (List.forall_mem_singleton.mpr ?_)
      obtain ⟨hrule, hes⟩ := Exprs.derives_trees es h
      refine .node (by decide) (.plain rfl) (.symbol_cons rfl (.seq hrule (.symbol rfl))) ?_
      simpa [sym, or_imp, forall_and] using hes

theorem Expr.derives : (e : Expr) → e.Normal → e.tree.Derives Tree.Made
  | .literal l, h => .operand trivial (by simp) (choice_of_mem (.node l.label_tree) (by decide))
      (List.forall_mem_singleton.mpr (Literal.derives l h))
  | .name n, h => by
      refine .node (by decide) (.plain rfl) (.right (.node rfl)) (List.forall_mem_singleton.mpr ?_)
      have hname : ∀ m, [Tree.name n].head? = some (.name m) → m.isOperand = true := by
        rintro m ⟨⟩
        exact h
      exact .node (by decide) (.operand trivial hname) (choice_of_mem (.node rfl) (by decide))
        (List.forall_mem_singleton.mpr (name n))
  | .paren _ e, h => by
      refine .operand (fun hop => by simp at hop) (by simp [Tree.label, Leaf.label]) (choice_of_mem
        (.symbol_cons rfl (.node_cons e.label_tree (.symbol rfl))) (by decide)) ?_
      simpa [sym] using Expr.derives e h
  | .unary op e, h => by
      refine .operand (fun _ => e.isBinary_tree.trans h.1) (by simp [Tree.label])
        (choice_of_mem (.node_cons rfl (.node e.label_tree)) (by decide)) ?_
      simpa [op.derives] using Expr.derives e h.2
  | .binary l op r, h => by
      obtain ⟨hcond, hbinary, hl, hr⟩ := h
      refine .operand (fun _ => ⟨r.isBinary_tree.trans hbinary, l.endsIn_tree.trans hcond⟩)
        (by simp) (choice_of_mem (.node_cons l.label_tree (.node_cons rfl (.node r.label_tree)))
          (by decide)) ?_
      simpa [op.derives] using ⟨Expr.derives l hl, Expr.derives r hr⟩
  | .record n e fs, h => by
      refine .operand trivial (by simp [Tree.label]) (choice_of_mem (.node rfl) (by decide))
        (List.forall_mem_singleton.mpr ?_)
      have hfields : (separated (.seq (.of .identifier) (.seq (.symbol .equal) (.of .expression)))
          (.symbol .semicolon)).Generates Tree.label
            ([.name n, .sym .equal, e.tree] ++ fs.more) :=
        .seq (.node_cons rfl (.symbol_cons rfl (.node e.label_tree))) fs.generates_more
      refine .node (by decide) (.plain rfl) (.symbol_cons rfl (hfields.seq (.symbol rfl))) ?_
      simpa [sym, name, or_imp, forall_and] using ⟨Expr.derives e h.1, Fields.derives_more fs h.2⟩
  | .call f args, h => by
      refine .operand trivial (by simp [Tree.label]) (choice_of_mem (.node rfl) (by decide))
        (List.forall_mem_singleton.mpr ?_)
      refine .node (by decide) (.call h.1) (.node_cons rfl (.symbol_cons rfl
        (args.generates_trees.seq (.symbol rfl)))) ?_
      simpa [sym, name, or_imp, forall_and] using Args.derives_trees args h.2
  | .tuple _ e f es, h => by
      refine .operand trivial (by simp [Tree.label]) (choice_of_mem (.node rfl) (by decide))
        (List.forall_mem_singleton.mpr ?_)
      have hsome : (Rule.some (.seq (.symbol .comma) (.of .expression))).Generates Tree.label
          (Exprs.cons f es).more := by
        rcases optional_iff.mp (Exprs.cons f es).generates_more with h | h
        · exact h
        · simp [Exprs.more] at h
      refine .node (by decide) (.plain rfl) (.symbol_cons rfl (.node_cons e.label_tree
        (hsome.seq (.symbol rfl)))) ?_
      simpa [sym, or_imp, forall_and, Exprs.more] using
        ⟨Expr.derives e h.1, Expr.derives f h.2.1, Exprs.derives_more es h.2.2⟩
  | .cond c y n, h => by
      refine .node (by decide) (.plain rfl) (.left (.node rfl)) (List.forall_mem_singleton.mpr ?_)
      refine .node (by decide) (.plain rfl) (.keyword_cons rfl (.node_cons c.label_tree
        (.keyword_cons rfl (.node_cons y.label_tree (.keyword_cons rfl
          (.node n.label_tree)))))) ?_
      simpa [kw] using ⟨Expr.derives c h.1, Expr.derives y h.2.1, Expr.derives n h.2.2⟩

theorem Exprs.derives_trees : (es : Exprs) → es.Normal →
    (Rule.optional (separated (.of .expression) (.symbol .comma))).Generates Tree.label es.trees ∧
      ∀ t ∈ es.trees, t.Derives Tree.Made
  | .nil, _ => ⟨nil_optional, by simp [Exprs.trees]⟩
  | .cons e es, h => ⟨.left (Exprs.generates_separated e es),
      List.forall_mem_cons.mpr ⟨Expr.derives e h.1, Exprs.derives_more es h.2⟩⟩

theorem Exprs.derives_more : (es : Exprs) → es.Normal → ∀ t ∈ es.more, t.Derives Tree.Made
  | .nil, _ => by simp [Exprs.more]
  | .cons e es, h => by
      simpa [Exprs.more, sym] using ⟨Expr.derives e h.1, Exprs.derives_more es h.2⟩

theorem Fields.derives_more : (fs : Fields) → fs.Normal → ∀ t ∈ fs.more, t.Derives Tree.Made
  | .nil, _ => by simp [Fields.more]
  | .cons _ e fs, h => by
      simpa [Fields.more, sym, name] using ⟨Expr.derives e h.1, Fields.derives_more fs h.2⟩

theorem Args.derives_trees : (args : Args) → args.Normal → ∀ t ∈ args.trees, t.Derives Tree.Made
  | .nil, _ => by simp [Args.trees]
  | .group e es rest, h => by
      simpa [Args.trees, or_imp, forall_and] using
        ⟨Expr.derives e h.1, Exprs.derives_more es h.2.1, Args.derives_trees rest h.2.2.1⟩

end

/-! ## Declarations -/

theorem Name.generates_more (ns : List Name) :
    (Rule.many (.seq (.symbol .comma) (.of .identifier))).Generates Tree.label (Name.more ns) :=
  many_flatMap fun _ _ => .symbol_cons rfl (.node rfl)

theorem Name.derives_more (ns : List Name) : ∀ t ∈ Name.more ns, t.Derives Tree.Made := by
  intro t ht
  obtain ⟨n, -, ht⟩ := List.mem_flatMap.mp ht
  simp only [List.mem_cons, List.not_mem_nil, or_false] at ht
  rcases ht with rfl | rfl
  · exact sym _
  · exact name _

@[simp] theorem Ty.label_tree (t : Ty) : t.tree.label = .named .litType := by
  cases t <;> rfl

theorem Ty.derives (t : Ty) : t.tree.Derives Tree.Made := by
  induction t with
  | base b =>
      refine .node (by decide) (.plain rfl) (.left (.node rfl)) (List.forall_mem_singleton.mpr ?_)
      refine .node (by decide) (.plain rfl) ?_ (List.forall_mem_singleton.mpr (kw _))
      cases b <;> exact choice_of_mem (.keyword rfl) (by decide)
  | named n =>
      exact .node (by decide) (.plain rfl) (.right (.right (.node rfl)))
        (List.forall_mem_singleton.mpr (name n))
  | array t s ih =>
      refine .node (by decide) (.plain rfl) (.right (.left (.node rfl)))
        (List.forall_mem_singleton.mpr ?_)
      refine .node (by decide) (.plain rfl) (.node_cons t.label_tree (.symbol_cons rfl ?_)) ?_
      · cases s <;> exact choice_of_mem (.node rfl) (by decide)
      · have hs : s.tree.Derives Tree.Made := by cases s <;> exact .leaf (.leaf trivial)
        simpa [sym] using ⟨ih, hs⟩

theorem Clock.derives {c : Clock} (h : ∀ s ∈ c.first :: c.others, s.state.Normal) :
    c.tree.Derives Tree.Made := by
  have hone : ∀ s : Sampling, (Rule.seqs [.keyword .on_, .of .stateIdentifier, .symbol .parenOpen,
      .of .identifier, .symbol .parenClose]).Generates Tree.label s.trees := fun s =>
    .keyword_cons rfl (.node_cons rfl (.symbol_cons rfl (.node_cons rfl (.symbol rfl))))
  have hsome := some_iff.mpr ⟨c.first.trees, c.others.map Sampling.trees, rfl,
    List.forall_mem_cons.mpr ⟨hone _, fun ts hts => by
      obtain ⟨s, -, rfl⟩ := List.mem_map.mp hts
      exact hone s⟩⟩
  refine .node (by decide) (.plain rfl) (.symbol_cons rfl (.symbol_cons rfl hsome)) ?_
  simp only [List.forall_mem_cons, sym, true_and]
  have hall : ∀ s ∈ c.first :: c.others, ∀ t ∈ s.trees, t.Derives Tree.Made := by
    intro s hs
    simpa [Sampling.trees, kw, sym, name] using state (h s hs)
  intro t ht
  rcases List.mem_append.mp ht with ht | ht
  · exact hall _ (by simp) t ht
  · obtain ⟨s, hs, ht⟩ := List.mem_flatMap.mp ht
    exact hall s (by simp [hs]) t ht

theorem VarGroup.derives {g : VarGroup} (h : g.Normal) : g.tree.Derives Tree.Made := by
  have hnames : Grammar.names.Generates Tree.label (.name g.first :: Name.more g.others) :=
    .node_cons rfl (Name.generates_more _)
  have hclock : (Rule.optional (.of .varDeclClock)).Generates Tree.label
      (g.clock.map Clock.tree).toList ∧
        ∀ t ∈ (g.clock.map Clock.tree).toList, t.Derives Tree.Made := by
    cases hc : g.clock with
    | none => exact ⟨nil_optional, by simp⟩
    | some c =>
        exact ⟨.left (.node rfl), List.forall_mem_singleton.mpr (Clock.derives (h.clock c hc))⟩
  obtain ⟨hclock, hderives⟩ := hclock
  refine .node (by decide) (.plain rfl)
    (hnames.seq (.symbol_cons rfl (.node_cons g.type.label_tree hclock))) ?_
  simp only [List.forall_mem_cons, List.forall_mem_append, name, sym, g.type.derives, true_and]
  exact ⟨Name.derives_more g.others, hderives⟩

theorem Declaration.derives {d : Declaration} (h : d.Normal) : d.tree.Derives Tree.Made := by
  cases d with
  | plain g =>
      exact .node (by decide) (.plain rfl) (.left (.node rfl))
        (List.forall_mem_singleton.mpr (VarGroup.derives h.2))
  | last g i =>
      refine .node (by decide) (.plain rfl) (.right (.node rfl)) (List.forall_mem_singleton.mpr ?_)
      have hi : (Rule.choice [.of .identifier, .of .literal]).Generates Tree.label [i.tree] ∧
          i.tree.Derives Tree.Made := by
        cases i with
        | name n => exact ⟨.left (.node rfl), name n⟩
        | literal l => exact ⟨.right (.node l.label_tree), l.derives h.2⟩
      refine .node (by decide) (.plain rfl)
        (.keyword_cons rfl (.node_cons rfl (.symbol_cons rfl hi.1))) ?_
      simpa [kw, sym] using ⟨VarGroup.derives h.1, hi.2⟩

@[simp] theorem Declaration.label_tree (d : Declaration) : d.tree.label = .named .varDecl := by
  cases d <;> rfl

theorem Declaration.generates_separated (d : Declaration) (ds : List Declaration) :
    (separated (.of .varDecl) (.symbol .semicolon)).Generates Tree.label
      (d.tree :: Declaration.more ds) :=
  .node_cons d.label_tree (many_flatMap fun d _ => .symbol_cons rfl (.node d.label_tree))

theorem Declaration.derives_more {ds : List Declaration} (h : ∀ d ∈ ds, d.Normal) :
    ∀ t ∈ Declaration.more ds, t.Derives Tree.Made := by
  intro t ht
  obtain ⟨d, hd, ht⟩ := List.mem_flatMap.mp ht
  simp only [List.mem_cons, List.not_mem_nil, or_false] at ht
  rcases ht with rfl | rfl
  · exact sym _
  · exact Declaration.derives (h d hd)

theorem Tree.generates_semicolonIf (b : Bool) :
    (Rule.optional (.symbol .semicolon)).Generates Tree.label (Tree.semicolonIf b) := by
  cases b with
  | true => exact .left (.symbol rfl)
  | false => exact nil_optional

theorem Tree.derives_semicolonIf (b : Bool) :
    ∀ t ∈ Tree.semicolonIf b, t.Derives Tree.Made := by
  cases b with
  | true => exact List.forall_mem_singleton.mpr (Tree.Derives.sym _)
  | false => simp [Tree.semicolonIf]

theorem Params.derives {p : Params} (h : p.Normal) : p.tree.Derives Tree.Made := by
  cases p with
  | empty o =>
      refine .node (by decide) (.plain rfl) (.symbol_cons rfl (nil_optional.seq (.symbol rfl))) ?_
      simp [sym]
  | list o d ds semicolon =>
      obtain ⟨hd, hds⟩ := List.forall_mem_cons.mp h
      have hlist : (Rule.optional (.of .paramVarDeclList)).Generates Tree.label
          [Tree.node .paramVarDeclList
            (d.tree :: (Declaration.more ds ++ Tree.semicolonIf semicolon))] := .left (.node rfl)
      refine .node (by decide) (.plain rfl) (.symbol_cons rfl (hlist.seq (.symbol rfl))) ?_
      suffices (Tree.node .paramVarDeclList
          (d.tree :: (Declaration.more ds ++ Tree.semicolonIf semicolon))).Derives Tree.Made by
        simpa [sym] using this
      refine .node (by decide) (.plain rfl) ((Declaration.generates_separated d ds).seq
        (Tree.generates_semicolonIf semicolon)) ?_
      simpa [or_imp, forall_and] using ⟨Declaration.derives hd, Declaration.derives_more hds,
        Tree.derives_semicolonIf semicolon⟩

theorem Locals.derives {l : Locals} (h : l.Normal) : l.tree.Derives Tree.Made := by
  refine .node (by decide) (.plain rfl) (.keyword_cons rfl (.node rfl)) ?_
  suffices (Tree.node .localVarDeclList (l.first.tree ::
      (Declaration.more l.others ++ [.sym .semicolon]))).Derives Tree.Made by
    simpa [kw] using this
  refine .node (by decide) (.plain rfl)
    ((Declaration.generates_separated l.first l.others).seq (.symbol rfl)) ?_
  simpa [sym, or_imp, forall_and] using ⟨Declaration.derives h.first,
    Declaration.derives_more fun d hd => (h.others d hd).1⟩

theorem Locals.derives_trees {l : Option Locals} (h : ∀ l' ∈ l, l'.Normal) :
    (Rule.optional (.of .localVars)).Generates Tree.label (Locals.trees l) ∧
      ∀ t ∈ Locals.trees l, t.Derives Tree.Made := by
  cases l with
  | none => exact ⟨nil_optional, by simp [Locals.trees]⟩
  | some l => exact ⟨.left (.node rfl), List.forall_mem_singleton.mpr (Locals.derives (h l rfl))⟩

/-! ## Statements -/

theorem Target.generates_trees (t : Target) :
    (Rule.choice [.of .identifier, .seqs [.symbol .parenOpen, Grammar.names,
      .symbol .parenClose]]).Generates Tree.label t.trees := by
  cases t with
  | single n => exact .left (.node rfl)
  | several o n ns =>
      have hnames : Grammar.names.Generates Tree.label (.name n :: Name.more ns) :=
        .node_cons rfl (Name.generates_more ns)
      exact .right (.symbol_cons rfl (hnames.seq (.symbol rfl)))

theorem Target.derives_trees (t : Target) : ∀ u ∈ t.trees, u.Derives Tree.Made := by
  cases t with
  | single n => exact List.forall_mem_singleton.mpr (name n)
  | several o n ns =>
      simpa [Target.trees, sym, name, or_imp, forall_and] using Name.derives_more ns

theorem Equation.derives {e : Equation} (h : e.Normal) : e.tree.Derives Tree.Made := by
  refine .node (by decide) (.plain rfl) (e.target.generates_trees.seq
    (.symbol_cons rfl (.node e.value.label_tree))) ?_
  simpa [sym, or_imp, forall_and] using ⟨e.target.derives_trees, e.value.derives h⟩

theorem Equations.derives {es : Equations} {alone : Bool} {ts : List Lexeme}
    (h : es.Fits alone ts) : es.tree.Derives Tree.Made := by
  have hothers : (Rule.many (.seq (.symbol .semicolon) (.of .equation))).Generates Tree.label
      (es.others.flatMap fun e => [.sym .semicolon, e.tree]) :=
    many_flatMap fun e _ => .symbol_cons rfl (.node rfl)
  have hlist : (separated (.of .equation) (.symbol .semicolon)).Generates Tree.label
      (es.first.tree :: es.others.flatMap fun e => [.sym .semicolon, e.tree]) :=
    .node_cons rfl hothers
  refine .node (by decide) (.equations h) (hlist.seq (Tree.generates_semicolonIf es.semicolon)) ?_
  have hderives : ∀ t ∈ es.others.flatMap fun e => [.sym .semicolon, e.tree],
      t.Derives Tree.Made := by
    intro t ht
    obtain ⟨e, he, ht⟩ := List.mem_flatMap.mp ht
    simp only [List.mem_cons, List.not_mem_nil, or_false] at ht
    rcases ht with rfl | rfl
    · exact sym _
    · exact Equation.derives (h.others e he).1
  simp only [List.forall_mem_append, List.forall_mem_cons]
  exact ⟨Equation.derives h.first, hderives, Tree.derives_semicolonIf _⟩

theorem Transition.derives_of_fit {trs : List Transition} {ts : List Lexeme} (h : Fit trs ts) :
    ∀ t ∈ trs.map Transition.tree, t.Derives Tree.Made := by
  induction trs with
  | nil => simp
  | cons t trs ih =>
      obtain ⟨hguard, hgoal, -, htail⟩ := h
      refine List.forall_mem_cons.mpr ⟨?_, ih htail⟩
      refine .node (by decide) (.plain rfl) (.part_cons ?_ (.node_cons t.guard.label_tree
        (.keyword_cons rfl (.node rfl)))) ?_
      · cases t.strong <;> exact choice_of_mem (.keyword rfl) (by decide)
      · simpa [kw] using ⟨t.guard.derives hguard, state hgoal⟩

theorem Statement.generates (s : Statement) :
    (Rule.ref .statement).Generates Tree.label [s.tree] := by
  refine .hidden rfl ?_
  cases s <;> exact choice_of_mem (.node rfl) (by decide)

theorem Statements.generates_trees : (ss : Statements) →
    (Rule.many (.ref .statement)).Generates Tree.label ss.trees
  | .nil => nil_many
  | .cons s ss => cons_many _ s.generates ss.generates_trees

theorem States.generates_trees : (states : States) →
    (Rule.many (.of .automatonState)).Generates Tree.label states.trees
  | .nil => nil_many
  | .cons _ _ _ _ tail => cons_many [_] (.node rfl) tail.generates_trees

/-- A case of a `switch` has at least one statement. -/
theorem Cases.generates_trees : (cs : Cases) →
    (Rule.many (.seqs [.symbol .bar, .of .enumIdentifier, .keyword .do_,
      .some (.ref .statement)])).Generates Tree.label cs.trees
  | .nil => nil_many
  | .cons t s ss tail => by
      have hsome : (Rule.some (.ref .statement)).Generates Tree.label (s.tree :: ss.trees) := by
        rcases optional_iff.mp (Statements.cons s ss).generates_trees with h | h
        · exact h
        · simp [Statements.trees] at h
      have hcase : (Rule.seqs [.symbol .bar, .of .enumIdentifier, .keyword .do_,
          .some (.ref .statement)]).Generates Tree.label
            (.sym .bar :: .leaf (.variant t) :: .kw .do_ :: s.tree :: ss.trees) :=
        .symbol_cons rfl (.node_cons rfl (.keyword_cons rfl hsome))
      simpa [Cases.trees] using cons_many _ hcase tail.generates_trees

theorem Branches.generates_trees : (bs : Branches) →
    ∃ xs ys, bs.trees = xs ++ ys ∧
      (Rule.many (.seqs [.symbol .bar, .of .expression, .keyword .do_,
        .ref .statement])).Generates Tree.label xs ∧
      (Rule.optional (.seqs [.keyword .default, .keyword .do_, .ref .statement])).Generates
        Tree.label ys
  | .nil => ⟨[], [], rfl, nil_many, nil_optional⟩
  | .otherwise s => ⟨[], _, rfl, nil_many, .left (.keyword_cons rfl (.keyword_cons rfl s.generates))⟩
  | .cons e s tail => by
      obtain ⟨xs, ys, htail, hxs, hys⟩ := tail.generates_trees
      refine ⟨_, ys, ?_, cons_many [.sym .bar, e.tree, .kw .do_, s.tree]
        (.symbol_cons rfl (.node_cons e.label_tree (.keyword_cons rfl s.generates))) hxs, hys⟩
      simp [Branches.trees, htail]

mutual

theorem Statement.derives : (s : Statement) → ∀ {alone ts}, s.Fits alone ts →
    s.tree.Derives Tree.Made
  | .equations _, _, _, h => Equations.derives h
  | .automaton locals states, _, _, h => by
      obtain ⟨hlocals, hstates⟩ := h
      obtain ⟨hrule, hlocals⟩ := Locals.derives_trees hlocals
      refine .node (by decide) (.plain rfl) (.keyword_cons rfl ?_) ?_
      · rw [List.append_assoc]
        exact hrule.seq (states.generates_trees.seq (.keyword rfl))
      · simpa [kw, or_imp, forall_and] using ⟨hlocals, States.derives_trees states hstates⟩
  | .switch x cs, _, _, h => by
      refine .node (by decide) (.switch h) (.keyword_cons rfl (.node_cons rfl
        (cs.generates_trees.seq (.keyword rfl)))) ?_
      simpa [kw, name, or_imp, forall_and] using Cases.derives_trees cs h
  | .present bs, _, _, h => by
      obtain ⟨xs, ys, hbs, hxs, hys⟩ := bs.generates_trees
      refine .node (by decide) (.present h) (.keyword_cons rfl ?_) ?_
      · rw [hbs, List.append_assoc]
        exact hxs.seq (hys.seq (.keyword rfl))
      · simpa [kw, or_imp, forall_and] using Branches.derives_trees bs h
  | .reset body e, _, _, h => by
      refine .node (by decide) (.reset h.1) (.keyword_cons rfl (body.generates_trees.seq
        (.keyword_cons rfl (.node e.label_tree)))) ?_
      simpa [kw, or_imp, forall_and] using
        ⟨Statements.derives_trees body h.1, e.derives h.2.normal⟩

theorem Statements.derives_trees : (ss : Statements) → ∀ {b ts}, ss.Fits b ts →
    ∀ t ∈ ss.trees, t.Derives Tree.Made
  | .nil, _, _, _ => by simp [Statements.trees]
  | .cons s ss, _, _, h => List.forall_mem_cons.mpr
      ⟨Statement.derives s h.2.1, Statements.derives_trees ss h.2.2⟩

theorem States.derives_trees : (states : States) → ∀ {ts}, states.Fits ts →
    ∀ t ∈ states.trees, t.Derives Tree.Made
  | .nil, _, _ => by simp [States.trees]
  | .cons n locals body trs tail, _, h => by
      obtain ⟨hname, hlocals, hbody, htrs, htail⟩ := h
      obtain ⟨hrule, hlocals⟩ := Locals.derives_trees hlocals
      refine List.forall_mem_cons.mpr ⟨?_, States.derives_trees tail htail⟩
      have htransitions : (Rule.many (.of .automatonTransition)).Generates Tree.label
          (trs.map Transition.tree) :=
        many_of_forall fun t ht => by
          obtain ⟨tr, -, rfl⟩ := List.mem_map.mp ht
          exact .node rfl
      refine .node (by decide) (.state hbody) (.keyword_cons rfl (.node_cons rfl (hrule.seq
        (.keyword_cons rfl (body.generates_trees.seq htransitions))))) ?_
      simp only [List.forall_mem_cons, List.forall_mem_append, kw, true_and]
      exact ⟨state hname, hlocals, Statements.derives_trees body hbody,
        Transition.derives_of_fit htrs⟩

theorem Cases.derives_trees : (cs : Cases) → ∀ {ts}, cs.Fits ts →
    ∀ t ∈ cs.trees, t.Derives Tree.Made
  | .nil, _, _ => by simp [Cases.trees]
  | .cons t s ss tail, _, h => by
      simpa [Cases.trees, sym, kw, variant, or_imp, forall_and] using ⟨Statement.derives s h.1,
        Statements.derives_trees ss h.2.1, Cases.derives_trees tail h.2.2⟩

theorem Branches.derives_trees : (bs : Branches) → ∀ {ts}, bs.Fits ts →
    ∀ t ∈ bs.trees, t.Derives Tree.Made
  | .nil, _, _ => by simp [Branches.trees]
  | .otherwise s, _, h => by
      simpa [Branches.trees, kw] using Statement.derives s h
  | .cons e s tail, _, h => by
      simpa [Branches.trees, sym, kw, e.derives h.1] using
        ⟨Statement.derives s h.2.1, Branches.derives_trees tail h.2.2⟩

end

/-! ## Programs -/

theorem Component.generates_trees (c : Component) :
    (Rule.ref .functionDef).Generates Tree.label c.trees := by
  have hgeneric : (Rule.optional (.seqs [.symbol .angleOpen, .of .identifier, .symbol .colon,
      .of .litType, .symbol .angleClose])).Generates Tree.label
        ((c.generic.map Generic.trees).getD []) := by
    cases c.generic with
    | none => exact nil_optional
    | some g =>
        exact .left (.symbol_cons rfl (.node_cons rfl (.symbol_cons rfl
          (.node_cons g.type.label_tree (.symbol rfl)))))
  have hlocals : (Rule.optional (.of .localVars)).Generates Tree.label (Locals.trees c.locals) := by
    cases c.locals with
    | none => exact nil_optional
    | some l => exact .left (.node rfl)
  have hparams : ∀ p : Params, p.tree.label = .named .parameterList := fun p => by cases p <;> rfl
  refine .hidden rfl (.part_cons ?_ (.node_cons rfl (hgeneric.seq (.node_cons (hparams _)
    (.keyword_cons rfl (.node_cons (hparams _) (hlocals.seq (.node rfl))))))))
  cases c.hasMemory <;> exact choice_of_mem (.keyword rfl) (by decide)

theorem Component.derives_trees {c : Component} {ts : List Lexeme} (h : c.Fits ts) :
    ∀ t ∈ c.trees, t.Derives Tree.Made := by
  have hgeneric : ∀ t ∈ (c.generic.map Generic.trees).getD [], t.Derives Tree.Made := by
    cases c.generic with
    | none => simp
    | some g => simpa [Generic.trees, sym, Tree.Derives.name] using g.type.derives
  have hbody : (Tree.node .block (.kw .let_ :: (c.body.trees ++ [.kw .tel]))).Derives
      Tree.Made := by
    refine .node (by decide) (.block h.body)
      (.keyword_cons rfl (c.body.generates_trees.seq (.keyword rfl))) ?_
    simpa [kw, or_imp, forall_and] using c.body.derives_trees h.body
  simp only [Component.trees, List.forall_mem_cons, List.forall_mem_append, kw, Tree.Derives.name,
    true_and]
  exact ⟨hgeneric, Params.derives h.inputs, Params.derives h.outputs,
    (Locals.derives_trees h.locals).2, hbody, by simp⟩

theorem FieldType.generates_trees (f : FieldType) :
    (Rule.seqs [.of .identifier, .symbol .colon, .of .litType]).Generates Tree.label f.trees :=
  .node_cons rfl (.symbol_cons rfl (.node f.type.label_tree))

theorem FieldType.derives_trees (f : FieldType) : ∀ t ∈ f.trees, t.Derives Tree.Made := by
  simpa [FieldType.trees, sym, Tree.Derives.name] using f.type.derives

/-- What a definition consists of is a type or a component. -/
theorem Definition.generates_trees (d : Definition) :
    (Rule.ref .definition).Generates Tree.label d.trees := by
  refine .hidden rfl ?_
  cases d with
  | component c => exact choice_of_mem c.generates_trees (by decide)
  | record n f fs =>
      have hfields : (separated (.seqs [.of .identifier, .symbol .colon, .of .litType])
          (.symbol .semicolon)).Generates Tree.label
            (f.trees ++ fs.flatMap fun f => .sym .semicolon :: f.trees) :=
        .seq f.generates_trees (many_flatMap fun f _ => .symbol_cons rfl f.generates_trees)
      have htype : (Rule.choice [.ref .recordTypeDef, .ref .enumTypeDef]).Generates Tree.label
          (.sym .braceOpen :: (f.trees ++ fs.flatMap (fun f => .sym .semicolon :: f.trees) ++
            [.sym .braceClose])) :=
        .left (.hidden rfl (.symbol_cons rfl (hfields.seq (.symbol rfl))))
      exact choice_of_mem (.hidden (c := .typeDef) rfl (.keyword_cons rfl (.node_cons rfl
        (.symbol_cons rfl htype)))) (by decide)
  | enumeration n bar t variants =>
      have hbar : (Rule.optional (.symbol .bar)).Generates Tree.label (Tree.barIf bar) := by
        cases bar with
        | true => exact .left (.symbol rfl)
        | false => exact nil_optional
      have hvariants : (separated (.of .enumIdentifier) (.symbol .bar)).Generates Tree.label
          (.leaf (.variant t) :: variants.flatMap fun t => [.sym .bar, .leaf (.variant t)]) :=
        .node_cons rfl (many_flatMap fun t _ => .symbol_cons rfl (.node rfl))
      have htype : (Rule.choice [.ref .recordTypeDef, .ref .enumTypeDef]).Generates Tree.label
          (Tree.barIf bar ++ .leaf (.variant t) ::
            variants.flatMap fun t => [.sym .bar, .leaf (.variant t)]) :=
        .right (.hidden rfl (hbar.seq hvariants))
      exact choice_of_mem (.hidden (c := .typeDef) rfl (.keyword_cons rfl (.node_cons rfl
        (.symbol_cons rfl htype)))) (by decide)

theorem Definition.derives_trees {d : Definition} {ts : List Lexeme} (h : d.Fits ts) :
    ∀ t ∈ d.trees, t.Derives Tree.Made := by
  cases d with
  | component c => exact Component.derives_trees h
  | record n f fs =>
      simp only [Definition.trees, List.forall_mem_cons, List.forall_mem_append, kw, name, sym,
        true_and]
      refine ⟨⟨f.derives_trees, fun t ht => ?_⟩, by simp⟩
      obtain ⟨f', -, ht⟩ := List.mem_flatMap.mp ht
      rcases List.mem_cons.mp ht with rfl | ht
      · exact sym _
      · exact f'.derives_trees t ht
  | enumeration n bar t variants =>
      simp only [Definition.trees, List.forall_mem_cons, List.forall_mem_append, kw, name, sym,
        variant, true_and]
      refine ⟨?_, fun u hu => ?_⟩
      · cases bar with
        | true => exact List.forall_mem_singleton.mpr (sym _)
        | false => simp [Tree.barIf]
      · obtain ⟨t', -, hu⟩ := List.mem_flatMap.mp hu
        simp only [List.mem_cons, List.not_mem_nil, or_false] at hu
        rcases hu with rfl | rfl
        · exact sym _
        · exact variant t'

theorem Program.derives_trees {p : Program} (h : p.Fits) :
    ∀ d ∈ p, ∀ t ∈ d.trees, t.Derives Tree.Made := by
  induction p with
  | nil => simp
  | cons d p ih => exact List.forall_mem_cons.mpr ⟨Definition.derives_trees h.1, ih h.2⟩

/-- The tree of a program that is read is a derivation of the grammar. -/
theorem Program.derives {p : Program} (h : p.Fits) : p.tree.Derives Tree.Made := by
  refine .node (by decide) (.plain rfl) (many_flatMap fun d _ => d.generates_trees) fun t ht => ?_
  obtain ⟨d, hd, ht⟩ := List.mem_flatMap.mp ht
  exact derives_trees h d hd t ht

end Heptagon
