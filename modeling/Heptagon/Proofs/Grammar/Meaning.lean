import Heptagon.Proofs.Grammar.Generates
import Heptagon.Proofs.Plain

/-!
# Derivations are trees of programs

Every derivation of the grammar in which no name is spelled like a keyword is
the tree of a plain program (`Tree.exists_program`).  `Tree.Means` says for each
kind of node what its tree is the tree of; a node means what its label says if
its children do (`Tree.Derives.meant`).

The rule of a node is followed from left to right: `Rule.Builds` is a row that
a rule generates and whose nodes mean what their labels say, and each lemma
about it takes one part from the front of such a row.
-/

namespace Heptagon

open Grammar (rule separated)

/-- A leaf that is a name is spelled like no keyword, and the name of a state has no quote. -/
def Tree.Plain : Tree → Prop
  | leaf (.name n) => n.isPlain
  | leaf (.state s) => s.Normal
  | _ => True

/-- What the tree of a kind is the tree of. -/
def Tree.Means (t : Tree) : Kind → Prop
  | .sourceFile => ∃ p : Program, p.tree = t ∧ p.Plain
  | .comment => False
  | .identifier => ∃ n : Name, .name n = t ∧ n.isPlain
  | .enumIdentifier => ∃ u, .leaf (.variant u) = t
  | .stateIdentifier => ∃ s, .leaf (.state s) = t ∧ s.Normal
  | .lNumber => ∃ u, .leaf (.number u) = t
  | .litType => ∃ y : Ty, y.tree = t ∧ y.Plain
  | .primitiveType => ∃ y : Ty, y.tree = .node .litType [t] ∧ y.Plain
  | .arrayType => ∃ y : Ty, y.tree = .node .litType [t] ∧ y.Plain
  | .varDeclClock => ∃ c : Clock, c.tree = t ∧ ∀ s ∈ c.first :: c.others, s.Plain
  | .varDeclBase => ∃ g : VarGroup, g.tree = t ∧ g.Plain
  | .varDeclLast => ∃ d : Declaration, d.tree = .node .varDecl [t] ∧ d.Plain
  | .varDecl => ∃ d : Declaration, d.tree = t ∧ d.Plain
  | .paramVarDeclList => ∃ p : Params,
      p.tree = .node .parameterList [.sym .parenOpen, t, .sym .parenClose] ∧ p.Plain
  | .parameterList => ∃ p : Params, p.tree = t ∧ p.Plain
  | .localVarDeclList => ∃ l : Locals, l.tree = .node .localVars [.kw .var, t] ∧ l.Plain
  | .localVars => ∃ l : Locals, l.tree = t ∧ l.Plain
  | .literal => ∃ l : Literal, l.tree = t ∧ l.Plain
  | .lBool => ∃ l : Literal, l.tree = .node .literal [t] ∧ l.Plain
  | .lArray => ∃ l : Literal, l.tree = .node .literal [t] ∧ l.Plain
  | .unaryOperator => ∃ op : UnaryOp, .node .unaryOperator [.leaf op.leaf] = t
  | .binaryOperator => ∃ op : BinaryOp, .node .binaryOperator [.leaf op.leaf] = t
  | .expression => ∃ e : Expr, e.tree = t ∧ e.Plain
  | .ifthenelse => ∃ e : Expr, e.tree = .node .expression [t] ∧ e.Plain
  | .subExpression => ∃ e : Expr, e.tree = .node .expression [t] ∧ e.Plain
  | .tuple => ∃ e : Expr, e.tree = .operand [t] ∧ e.Plain
  | .functionCall => ∃ e : Expr, e.tree = .operand [t] ∧ e.Plain
  | .recordConstruction => ∃ e : Expr, e.tree = .operand [t] ∧ e.Plain
  | .equation => ∃ e : Equation, e.tree = t ∧ e.Plain
  | .equationList => ∃ s : Statement, s.tree = t ∧ s.Plain
  | .automaton => ∃ s : Statement, s.tree = t ∧ s.Plain
  | .switchStatement => ∃ s : Statement, s.tree = t ∧ s.Plain
  | .presentStatement => ∃ s : Statement, s.tree = t ∧ s.Plain
  | .resetStatement => ∃ s : Statement, s.tree = t ∧ s.Plain
  | .automatonState => ∃ name locals body trs,
      (States.cons name locals body trs .nil).trees = [t] ∧
        (States.cons name locals body trs .nil).Plain
  | .automatonTransition => ∃ tr : Transition, tr.tree = t ∧ tr.Plain
  | .block => ∃ ss : Statements, .node .block (.kw .let_ :: (ss.trees ++ [.kw .tel])) = t ∧ ss.Plain

/-- The tree means what its label says. -/
def Tree.Meant (t : Tree) : Prop := ∀ k, t.label = .named k → t.Means k

/-- The rule generates the row, and its nodes mean what their labels say. -/
structure Rule.Builds (r : Rule) (ts : List Tree) : Prop where
  generates : r.Generates Tree.label ts
  meant : ∀ t ∈ ts, t.Meant

/-! ## Keywords and symbols -/

theorem Keyword.spelling_inj {k k' : Keyword} (h : k.spelling = k'.spelling) : k = k' := by
  have htext : k.text = k'.text := congrArg Text.ofString h
  have hfound := ofText?_text k
  rw [htext, ofText?_text k'] at hfound
  exact (Option.some.inj hfound).symm

theorem Symbol.spelling_inj {s s' : Symbol} (h : s.spelling = s'.spelling) : s = s' := by
  have hall : ∀ a ∈ all, ∀ b ∈ all, a.spelling = b.spelling → a = b := by decide +kernel
  exact hall s s.mem_all s' s'.mem_all h

theorem Symbol.spelling_ne (s : Symbol) (k : Keyword) : s.spelling ≠ k.spelling := by
  have hall : ∀ a ∈ all, ∀ b ∈ Keyword.all, a.spelling ≠ b.spelling := by decide +kernel
  exact hall s s.mem_all k k.mem_all

theorem Tree.eq_kw {t : Tree} {k : Keyword} (h : t.label = .literal k.spelling) : t = .kw k := by
  cases t with
  | node k' ts => simp [label] at h
  | leaf l =>
      cases l with
      | keyword k' =>
          have hspelling : k'.spelling = k.spelling := by simpa [label, Leaf.label] using h
          rw [Keyword.spelling_inj hspelling]
      | symbol s => exact absurd (by simpa [label, Leaf.label] using h) (s.spelling_ne k)
      | _ => simp [label, Leaf.label] at h

theorem Tree.eq_sym {t : Tree} {s : Symbol} (h : t.label = .literal s.spelling) : t = .sym s := by
  cases t with
  | node k' ts => simp [label] at h
  | leaf l =>
      cases l with
      | keyword k => exact absurd (by simpa [label, Leaf.label] using h.symm) (s.spelling_ne k)
      | symbol s' =>
          have hspelling : s'.spelling = s.spelling := by simpa [label, Leaf.label] using h
          rw [Symbol.spelling_inj hspelling]
      | _ => simp [label, Leaf.label] at h

/-- The rule of an operator. -/
def Rule.ofOperator : Leaf → Rule
  | .keyword k => .keyword k
  | .symbol s => .symbol s
  | _ => .blank

/-- The children of a binary operator are one token. -/
theorem Rule.Generates.exists_binaryOp {ts : List Tree}
    (h : (rule (.node .binaryOperator)).Generates Tree.label ts) :
    ∃ op : BinaryOp, ts = [.leaf op.leaf] := by
  have hrule : rule (.node .binaryOperator) = Rule.choice
      ([BinaryOp.arrow, .fby, .plusDot, .minusDot, .starDot, .slashDot, .plus, .minus, .star,
        .slash, .unequal, .atMostDot, .equalDot, .lessDot, .greaterDot, .atMost, .atLeast, .equal,
        .less, .greater, .and, .or, .percent, .caret].map fun op => ofOperator op.leaf) := rfl
  rw [hrule] at h
  obtain ⟨r, hr, h⟩ := h.choice (by simp)
  obtain ⟨op, -, rfl⟩ := List.mem_map.mp hr
  refine ⟨op, ?_⟩
  cases op <;> first
    | obtain ⟨t, rfl, ht⟩ := Generates.symbol_iff.mp h; rw [Tree.eq_sym ht]; rfl
    | obtain ⟨t, rfl, ht⟩ := Generates.keyword_iff.mp h; rw [Tree.eq_kw ht]; rfl

/-! ## Rows -/

namespace Rule.Builds

variable {a b r : Rule} {ts : List Tree}

theorem kw {k : Keyword} (h : (Rule.keyword k).Builds ts) : ts = [.kw k] := by
  obtain ⟨t, rfl, ht⟩ := Generates.keyword_iff.mp h.generates
  rw [Tree.eq_kw ht]

theorem sym {s : Symbol} (h : (Rule.symbol s).Builds ts) : ts = [.sym s] := by
  obtain ⟨t, rfl, ht⟩ := Generates.symbol_iff.mp h.generates
  rw [Tree.eq_sym ht]

theorem node {k : Kind} (h : (Rule.of k).Builds ts) : ∃ t, ts = [t] ∧ t.Means k := by
  obtain ⟨t, rfl, ht⟩ := Generates.node_iff.mp h.generates
  exact ⟨t, rfl, h.meant t (by simp) k ht⟩

theorem seq (h : (Rule.seq a b).Builds ts) : ∃ us vs, ts = us ++ vs ∧ a.Builds us ∧ b.Builds vs := by
  obtain ⟨us, vs, rfl, ha, hb⟩ := Generates.seq_iff.mp h.generates
  obtain ⟨hus, hvs⟩ := List.forall_mem_append.mp h.meant
  exact ⟨us, vs, rfl, ⟨ha, hus⟩, ⟨hb, hvs⟩⟩

theorem kw_cons {k : Keyword} (h : (Rule.seq (.keyword k) r).Builds ts) :
    ∃ us, ts = .kw k :: us ∧ r.Builds us := by
  obtain ⟨_, us, rfl, hk, hr⟩ := h.seq
  rw [hk.kw]
  exact ⟨us, rfl, hr⟩

theorem sym_cons {s : Symbol} (h : (Rule.seq (.symbol s) r).Builds ts) :
    ∃ us, ts = .sym s :: us ∧ r.Builds us := by
  obtain ⟨_, us, rfl, hs, hr⟩ := h.seq
  rw [hs.sym]
  exact ⟨us, rfl, hr⟩

theorem node_cons {k : Kind} (h : (Rule.seq (.of k) r).Builds ts) :
    ∃ t us, ts = t :: us ∧ t.Means k ∧ r.Builds us := by
  obtain ⟨_, us, rfl, hk, hr⟩ := h.seq
  obtain ⟨t, rfl, ht⟩ := hk.node
  exact ⟨t, us, rfl, ht, hr⟩

theorem either (h : (Rule.either a b).Builds ts) : a.Builds ts ∨ b.Builds ts :=
  (Generates.either_iff.mp h.generates).imp (⟨·, h.meant⟩) (⟨·, h.meant⟩)

theorem optional (h : (Rule.optional r).Builds ts) : r.Builds ts ∨ ts = [] :=
  (Generates.optional_iff.mp h.generates).imp_left (⟨·, h.meant⟩)

theorem hidden {c : Construct} (h : (Rule.ref c).Builds ts) (hc : Grammar.labelOf? c = none) :
    (rule c).Builds ts :=
  ⟨(Generates.hidden_iff hc).mp h.generates, h.meant⟩

@[elab_as_elim]
theorem many {motive : List Tree → Prop} (h : (Rule.many r).Builds ts) (nil : motive [])
    (cons : ∀ us vs, r.Builds us → motive vs → motive (us ++ vs)) : motive ts := by
  obtain ⟨uss, rfl, huss⟩ := Generates.many_iff.mp h.generates
  have hmeant := h.meant
  clear h
  induction uss with
  | nil => exact nil
  | cons us uss ih =>
      obtain ⟨hus, huss⟩ := List.forall_mem_cons.mp huss
      rw [List.flatten_cons] at hmeant ⊢
      obtain ⟨hm, hms⟩ := List.forall_mem_append.mp hmeant
      exact cons us _ ⟨hus, hm⟩ (ih huss hms)

/-- At least one row is one row and any number of others. -/
theorem some (h : (Rule.some r).Builds ts) :
    ∃ us vs, ts = us ++ vs ∧ r.Builds us ∧ (Rule.many r).Builds vs := by
  obtain ⟨us, vss, rfl, hall⟩ := Generates.some_iff.mp h.generates
  obtain ⟨hus, hvss⟩ := List.forall_mem_cons.mp hall
  obtain ⟨hm, hms⟩ := List.forall_mem_append.mp h.meant
  exact ⟨us, _, rfl, ⟨hus, hm⟩, ⟨Generates.many_iff.mpr ⟨vss, rfl, hvss⟩, hms⟩⟩

theorem choice {rs : List Rule} (h : (Rule.choice rs).Builds ts) (hrs : rs ≠ []) :
    ∃ r ∈ rs, r.Builds ts := by
  obtain ⟨r, hr, hgenerates⟩ := h.generates.choice hrs
  exact ⟨r, hr, hgenerates, h.meant⟩

/-! ## Operators -/

theorem unaryOperator (h : (rule (.node .unaryOperator)).Builds ts) :
    (Tree.node .unaryOperator ts).Means .unaryOperator := by
  have hrule : rule (.node .unaryOperator) = Rule.choice
      ([UnaryOp.minusDot, .minus, .pre, .not, .last].map fun op => ofOperator op.leaf) := rfl
  rw [hrule] at h
  obtain ⟨r, hr, h⟩ := h.choice (by simp)
  obtain ⟨op, -, rfl⟩ := List.mem_map.mp hr
  refine ⟨op, ?_⟩
  cases op <;> first | rw [h.sym]; rfl | rw [h.kw]; rfl

theorem binaryOperator (h : (rule (.node .binaryOperator)).Builds ts) :
    (Tree.node .binaryOperator ts).Means .binaryOperator := by
  obtain ⟨op, rfl⟩ := h.generates.exists_binaryOp
  exact ⟨op, rfl⟩

/-! ## Expressions -/

theorem more_exprs (h : (Rule.many (.seq (.symbol .comma) (.of .expression))).Builds ts) :
    ∃ es : Exprs, es.more = ts ∧ es.Plain := by
  refine many h ⟨.nil, rfl, trivial⟩ ?_
  rintro us vs hus ⟨es, rfl, hes⟩
  obtain ⟨us, rfl, hus₁⟩ := hus.sym_cons
  obtain ⟨_, rfl, e, rfl, he⟩ := hus₁.node
  exact ⟨.cons e es, rfl, he, hes⟩

theorem exprs (h : (separated (.of .expression) (.symbol .comma)).Builds ts) :
    ∃ (e : Expr) (es : Exprs), e.tree :: es.more = ts ∧ e.Plain ∧ es.Plain := by
  obtain ⟨_, us, rfl, ⟨e, rfl, he⟩, hus⟩ := h.node_cons
  obtain ⟨es, rfl, hes⟩ := hus.more_exprs
  exact ⟨e, es, rfl, he, hes⟩

theorem args (h : (Rule.many (separated (.of .expression) (.symbol .comma))).Builds ts) :
    ∃ args : Args, args.trees = ts ∧ args.Plain := by
  refine many h ⟨.nil, rfl, trivial⟩ ?_
  rintro us vs hus ⟨args, rfl, hargs⟩
  obtain ⟨e, es, rfl, he, hes⟩ := hus.exprs
  exact ⟨.group e es args, rfl, he, hes, hargs⟩

theorem more_fields (h : (Rule.many (.seq (.symbol .semicolon) (.seq (.of .identifier)
    (.seq (.symbol .equal) (.of .expression))))).Builds ts) :
    ∃ fs : Fields, fs.more = ts ∧ fs.Plain := by
  refine many h ⟨.nil, rfl, trivial⟩ ?_
  rintro us vs hus ⟨fs, rfl, hfs⟩
  obtain ⟨us, rfl, hus₁⟩ := hus.sym_cons
  obtain ⟨_, us, rfl, ⟨n, rfl, hn⟩, hus₂⟩ := hus₁.node_cons
  obtain ⟨us, rfl, hus₃⟩ := hus₂.sym_cons
  obtain ⟨_, rfl, e, rfl, he⟩ := hus₃.node
  exact ⟨.cons n e fs, rfl, hn, he, hfs⟩

theorem lBool (h : (rule (.node .lBool)).Builds ts) : (Tree.node .lBool ts).Means .lBool := by
  rcases h.either with h | h
  · exact ⟨.bool true, by rw [h.kw]; rfl, trivial⟩
  · exact ⟨.bool false, by rw [h.kw]; rfl, trivial⟩

theorem lArray (h : (rule (.node .lArray)).Builds ts) : (Tree.node .lArray ts).Means .lArray := by
  obtain ⟨us, rfl, h₁⟩ := h.sym_cons
  obtain ⟨us, vs, rfl, hus, hvs⟩ := h₁.seq
  rw [hvs.sym]
  rcases hus.optional with hus | rfl
  · obtain ⟨e, es, rfl, he, hes⟩ := hus.exprs
    exact ⟨.array (.cons e es), rfl, he, hes⟩
  · exact ⟨.array .nil, rfl, trivial⟩

theorem literal (h : (rule (.node .literal)).Builds ts) :
    (Tree.node .literal ts).Means .literal := by
  rcases h.either with h | h
  · obtain ⟨_, rfl, u, rfl⟩ := h.node
    exact ⟨.number u, rfl, trivial⟩
  rcases h.either with h | h
  · obtain ⟨_, rfl, l, hl, hplain⟩ := h.node
    exact ⟨l, hl, hplain⟩
  · obtain ⟨_, rfl, l, hl, hplain⟩ := h.node
    exact ⟨l, hl, hplain⟩

theorem tuple (h : (rule (.node .tuple)).Builds ts) : (Tree.node .tuple ts).Means .tuple := by
  obtain ⟨us, rfl, h₁⟩ := h.sym_cons
  obtain ⟨_, us, rfl, ⟨e, rfl, he⟩, h₂⟩ := h₁.node_cons
  obtain ⟨us, vs, rfl, hus, hvs⟩ := h₂.seq
  rw [hvs.sym]
  obtain ⟨us, ws, rfl, hus, hws⟩ := hus.some
  obtain ⟨us, rfl, hus₁⟩ := hus.sym_cons
  obtain ⟨_, rfl, f, rfl, hf⟩ := hus₁.node
  obtain ⟨es, rfl, hes⟩ := hws.more_exprs
  exact ⟨.tuple .plain e f es, rfl, rfl, he, hf, hes⟩

theorem functionCall (h : (rule (.node .functionCall)).Builds ts) :
    (Tree.node .functionCall ts).Means .functionCall := by
  obtain ⟨_, us, rfl, ⟨f, rfl, hf⟩, h₁⟩ := h.node_cons
  obtain ⟨us, rfl, h₂⟩ := h₁.sym_cons
  obtain ⟨us, vs, rfl, hus, hvs⟩ := h₂.seq
  rw [hvs.sym]
  obtain ⟨args, rfl, hargs⟩ := hus.args
  exact ⟨.call f args, rfl, hf, hargs⟩

theorem recordConstruction (h : (rule (.node .recordConstruction)).Builds ts) :
    (Tree.node .recordConstruction ts).Means .recordConstruction := by
  obtain ⟨us, rfl, h₁⟩ := h.sym_cons
  obtain ⟨us, vs, rfl, hus, hvs⟩ := h₁.seq
  rw [hvs.sym]
  obtain ⟨us, ws, rfl, hus, hws⟩ := hus.seq
  obtain ⟨_, us, rfl, ⟨n, rfl, hn⟩, hus₁⟩ := hus.node_cons
  obtain ⟨us, rfl, hus₂⟩ := hus₁.sym_cons
  obtain ⟨_, rfl, e, rfl, he⟩ := hus₂.node
  obtain ⟨fs, rfl, hfs⟩ := hws.more_fields
  exact ⟨.record n e fs, rfl, hn, he, hfs⟩

theorem ifthenelse (h : (rule (.node .ifthenelse)).Builds ts) :
    (Tree.node .ifthenelse ts).Means .ifthenelse := by
  obtain ⟨us, rfl, h₁⟩ := h.kw_cons
  obtain ⟨_, us, rfl, ⟨c, rfl, hc⟩, h₂⟩ := h₁.node_cons
  obtain ⟨us, rfl, h₃⟩ := h₂.kw_cons
  obtain ⟨_, us, rfl, ⟨y, rfl, hy⟩, h₄⟩ := h₃.node_cons
  obtain ⟨us, rfl, h₅⟩ := h₄.kw_cons
  obtain ⟨_, rfl, n, rfl, hn⟩ := h₅.node
  exact ⟨.cond c y n, rfl, hc, hy, hn⟩

theorem subExpression (h : (rule (.node .subExpression)).Builds ts) :
    (Tree.node .subExpression ts).Means .subExpression := by
  rcases h.either with h | h
  · obtain ⟨_, rfl, l, rfl, hl⟩ := h.node
    exact ⟨.literal l, rfl, hl⟩
  rcases h.either with h | h
  · obtain ⟨_, rfl, n, rfl, hn⟩ := h.node
    exact ⟨.name n, rfl, hn⟩
  rcases h.either with h | h
  · obtain ⟨us, rfl, h₁⟩ := h.sym_cons
    obtain ⟨_, us, rfl, ⟨e, rfl, he⟩, h₂⟩ := h₁.node_cons
    rw [h₂.sym]
    exact ⟨.paren .plain e, rfl, rfl, he⟩
  rcases h.either with h | h
  · obtain ⟨_, us, rfl, ⟨op, rfl⟩, h₁⟩ := h.node_cons
    obtain ⟨_, rfl, e, rfl, he⟩ := h₁.node
    exact ⟨.unary op e, rfl, he⟩
  rcases h.either with h | h
  · obtain ⟨_, us, rfl, ⟨l, rfl, hl⟩, h₁⟩ := h.node_cons
    obtain ⟨_, us, rfl, ⟨op, rfl⟩, h₂⟩ := h₁.node_cons
    obtain ⟨_, rfl, r, rfl, hr⟩ := h₂.node
    exact ⟨.binary l op r, rfl, hl, hr⟩
  rcases h.either with h | h
  · obtain ⟨_, rfl, e, he, hplain⟩ := h.node
    exact ⟨e, he, hplain⟩
  rcases h.either with h | h
  · obtain ⟨_, rfl, e, he, hplain⟩ := h.node
    exact ⟨e, he, hplain⟩
  · obtain ⟨_, rfl, e, he, hplain⟩ := h.node
    exact ⟨e, he, hplain⟩

theorem expression (h : (rule (.node .expression)).Builds ts) :
    (Tree.node .expression ts).Means .expression := by
  rcases h.either with h | h
  · obtain ⟨_, rfl, e, he, hplain⟩ := h.node
    exact ⟨e, he, hplain⟩
  · obtain ⟨_, rfl, e, he, hplain⟩ := h.node
    exact ⟨e, he, hplain⟩

/-! ## Types and declarations -/

theorem more_names (h : (Rule.many (.seq (.symbol .comma) (.of .identifier))).Builds ts) :
    ∃ ns : List Name, Name.more ns = ts ∧ ∀ n ∈ ns, n.isPlain := by
  refine many h ⟨[], rfl, by simp⟩ ?_
  rintro us vs hus ⟨ns, rfl, hns⟩
  obtain ⟨us, rfl, hus₁⟩ := hus.sym_cons
  obtain ⟨_, rfl, n, rfl, hn⟩ := hus₁.node
  exact ⟨n :: ns, rfl, List.forall_mem_cons.mpr ⟨hn, hns⟩⟩

theorem names (h : Grammar.names.Builds ts) :
    ∃ n ns, .name n :: Name.more ns = ts ∧ ∀ m ∈ n :: ns, m.isPlain := by
  obtain ⟨_, us, rfl, ⟨n, rfl, hn⟩, hus⟩ := h.node_cons
  obtain ⟨ns, rfl, hns⟩ := hus.more_names
  exact ⟨n, ns, rfl, List.forall_mem_cons.mpr ⟨hn, hns⟩⟩

theorem primitiveType (h : (rule (.node .primitiveType)).Builds ts) :
    (Tree.node .primitiveType ts).Means .primitiveType := by
  rcases h.either with h | h
  · exact ⟨.base .bool, by rw [h.kw]; rfl, trivial⟩
  rcases h.either with h | h
  · exact ⟨.base .int, by rw [h.kw]; rfl, trivial⟩
  · exact ⟨.base .float, by rw [h.kw]; rfl, trivial⟩

theorem arrayType (h : (rule (.node .arrayType)).Builds ts) :
    (Tree.node .arrayType ts).Means .arrayType := by
  obtain ⟨_, us, rfl, ⟨y, rfl, hy⟩, h₁⟩ := h.node_cons
  obtain ⟨us, rfl, h₂⟩ := h₁.sym_cons
  rcases h₂.either with h₃ | h₃
  · obtain ⟨_, rfl, n, rfl, hn⟩ := h₃.node
    exact ⟨.array y (.name n), rfl, hy, hn⟩
  · obtain ⟨_, rfl, u, rfl⟩ := h₃.node
    exact ⟨.array y (.number u), rfl, hy, trivial⟩

theorem litType (h : (rule (.node .litType)).Builds ts) : (Tree.node .litType ts).Means .litType := by
  rcases h.either with h | h
  · obtain ⟨_, rfl, y, hy, hplain⟩ := h.node
    exact ⟨y, hy, hplain⟩
  rcases h.either with h | h
  · obtain ⟨_, rfl, y, hy, hplain⟩ := h.node
    exact ⟨y, hy, hplain⟩
  · obtain ⟨_, rfl, n, rfl, hn⟩ := h.node
    exact ⟨.named n, rfl, hn⟩

theorem sampling (h : (Rule.seqs [.keyword .on_, .of .stateIdentifier, .symbol .parenOpen,
    .of .identifier, .symbol .parenClose]).Builds ts) :
    ∃ s : Sampling, s.trees = ts ∧ s.Plain := by
  obtain ⟨us, rfl, h₁⟩ := h.kw_cons
  obtain ⟨_, us, rfl, ⟨s, rfl, hs⟩, h₂⟩ := h₁.node_cons
  obtain ⟨us, rfl, h₃⟩ := h₂.sym_cons
  obtain ⟨_, us, rfl, ⟨n, rfl, hn⟩, h₄⟩ := h₃.node_cons
  rw [h₄.sym]
  exact ⟨⟨s, .plain, n⟩, rfl, hs, rfl, hn⟩

theorem varDeclClock (h : (rule (.node .varDeclClock)).Builds ts) :
    (Tree.node .varDeclClock ts).Means .varDeclClock := by
  obtain ⟨us, rfl, h₁⟩ := h.sym_cons
  obtain ⟨us, rfl, h₂⟩ := h₁.sym_cons
  obtain ⟨us, vs, rfl, hus, hvs⟩ := h₂.some
  obtain ⟨s, rfl, hs⟩ := hus.sampling
  have hothers : ∃ ss : List Sampling, ss.flatMap Sampling.trees = vs ∧ ∀ s ∈ ss, s.Plain := by
    refine many hvs ⟨[], rfl, by simp⟩ ?_
    rintro us vs hus ⟨ss, rfl, hss⟩
    obtain ⟨s, rfl, hs⟩ := hus.sampling
    exact ⟨s :: ss, rfl, List.forall_mem_cons.mpr ⟨hs, hss⟩⟩
  obtain ⟨ss, rfl, hss⟩ := hothers
  exact ⟨⟨s, ss⟩, rfl, List.forall_mem_cons.mpr ⟨hs, hss⟩⟩

theorem varDeclBase (h : (rule (.node .varDeclBase)).Builds ts) :
    (Tree.node .varDeclBase ts).Means .varDeclBase := by
  obtain ⟨us, vs, rfl, hus, hvs⟩ := h.seq
  obtain ⟨n, ns, rfl, hnames⟩ := hus.names
  obtain ⟨vs, rfl, h₁⟩ := hvs.sym_cons
  obtain ⟨_, vs, rfl, ⟨y, rfl, hy⟩, h₂⟩ := h₁.node_cons
  rcases h₂.optional with h₃ | rfl
  · obtain ⟨_, rfl, c, rfl, hc⟩ := h₃.node
    refine ⟨⟨n, ns, y, Option.some c⟩, rfl, hnames, hy, fun c' hc' => ?_⟩
    obtain rfl := Option.mem_some_iff.mp hc'
    exact hc
  · exact ⟨⟨n, ns, y, none⟩, rfl, hnames, hy, by simp⟩

theorem varDeclLast (h : (rule (.node .varDeclLast)).Builds ts) :
    (Tree.node .varDeclLast ts).Means .varDeclLast := by
  obtain ⟨us, rfl, h₁⟩ := h.kw_cons
  obtain ⟨_, us, rfl, ⟨g, rfl, hg⟩, h₂⟩ := h₁.node_cons
  obtain ⟨us, rfl, h₃⟩ := h₂.sym_cons
  rcases h₃.either with h₄ | h₄
  · obtain ⟨_, rfl, n, rfl, hn⟩ := h₄.node
    exact ⟨.last g (.name n), rfl, hg, hn⟩
  · obtain ⟨_, rfl, l, rfl, hl⟩ := h₄.node
    exact ⟨.last g (.literal l), rfl, hg, hl⟩

theorem varDecl (h : (rule (.node .varDecl)).Builds ts) : (Tree.node .varDecl ts).Means .varDecl := by
  rcases h.either with h | h
  · obtain ⟨_, rfl, g, rfl, hg⟩ := h.node
    exact ⟨.plain g, rfl, hg⟩
  · obtain ⟨_, rfl, d, hd, hplain⟩ := h.node
    exact ⟨d, hd, hplain⟩

theorem declarations (h : (separated (.of .varDecl) (.symbol .semicolon)).Builds ts) :
    ∃ (d : Declaration) (ds : List Declaration), d.tree :: Declaration.more ds = ts ∧
      ∀ d' ∈ d :: ds, d'.Plain := by
  obtain ⟨_, us, rfl, ⟨d, rfl, hd⟩, hus⟩ := h.node_cons
  have hothers : ∃ ds, Declaration.more ds = us ∧ ∀ d ∈ ds, d.Plain := by
    refine many hus ⟨[], rfl, by simp⟩ ?_
    rintro us vs hus ⟨ds, rfl, hds⟩
    obtain ⟨us, rfl, hus₁⟩ := hus.sym_cons
    obtain ⟨_, rfl, d, rfl, hd⟩ := hus₁.node
    exact ⟨d :: ds, rfl, List.forall_mem_cons.mpr ⟨hd, hds⟩⟩
  obtain ⟨ds, rfl, hds⟩ := hothers
  exact ⟨d, ds, rfl, List.forall_mem_cons.mpr ⟨hd, hds⟩⟩

theorem semicolonIf (h : (Rule.optional (.symbol .semicolon)).Builds ts) :
    ∃ b, Tree.semicolonIf b = ts := by
  rcases h.optional with h | rfl
  · exact ⟨true, h.sym.symm⟩
  · exact ⟨false, rfl⟩

theorem paramVarDeclList (h : (rule (.node .paramVarDeclList)).Builds ts) :
    (Tree.node .paramVarDeclList ts).Means .paramVarDeclList := by
  obtain ⟨us, vs, rfl, hus, hvs⟩ := h.seq
  obtain ⟨d, ds, rfl, hds⟩ := hus.declarations
  obtain ⟨semicolon, rfl⟩ := hvs.semicolonIf
  exact ⟨.list .plain d ds semicolon, rfl, rfl, hds⟩

theorem parameterList (h : (rule (.node .parameterList)).Builds ts) :
    (Tree.node .parameterList ts).Means .parameterList := by
  obtain ⟨us, rfl, h₁⟩ := h.sym_cons
  obtain ⟨us, vs, rfl, hus, hvs⟩ := h₁.seq
  rw [hvs.sym]
  rcases hus.optional with hus | rfl
  · obtain ⟨_, rfl, p, hp, hplain⟩ := hus.node
    exact ⟨p, hp, hplain⟩
  · exact ⟨.empty .plain, rfl, rfl⟩

theorem localVarDeclList (h : (rule (.node .localVarDeclList)).Builds ts) :
    (Tree.node .localVarDeclList ts).Means .localVarDeclList := by
  obtain ⟨us, vs, rfl, hus, hvs⟩ := h.seq
  obtain ⟨d, ds, rfl, hds⟩ := hus.declarations
  rw [hvs.sym]
  exact ⟨⟨d, ds⟩, rfl, hds⟩

theorem localVars (h : (rule (.node .localVars)).Builds ts) :
    (Tree.node .localVars ts).Means .localVars := by
  obtain ⟨us, rfl, h₁⟩ := h.kw_cons
  obtain ⟨_, rfl, l, hl, hplain⟩ := h₁.node
  exact ⟨l, hl, hplain⟩

theorem locals (h : (Rule.optional (.of .localVars)).Builds ts) :
    ∃ l : Option Locals, Locals.trees l = ts ∧ ∀ l' ∈ l, l'.Plain := by
  rcases h.optional with h | rfl
  · obtain ⟨_, rfl, l, rfl, hl⟩ := h.node
    refine ⟨Option.some l, rfl, fun l' hl' => ?_⟩
    obtain rfl := Option.mem_some_iff.mp hl'
    exact hl
  · exact ⟨none, rfl, by simp⟩

/-! ## Statements -/

theorem equation (h : (rule (.node .equation)).Builds ts) :
    (Tree.node .equation ts).Means .equation := by
  obtain ⟨us, vs, rfl, hus, hvs⟩ := h.seq
  obtain ⟨vs, rfl, hvs₁⟩ := hvs.sym_cons
  obtain ⟨_, rfl, e, rfl, he⟩ := hvs₁.node
  rcases hus.either with h | h
  · obtain ⟨_, rfl, n, rfl, hn⟩ := h.node
    exact ⟨⟨.single n, e⟩, rfl, hn, he⟩
  · obtain ⟨us, rfl, h₁⟩ := h.sym_cons
    obtain ⟨us, vs, rfl, hus, hclose⟩ := h₁.seq
    rw [hclose.sym]
    obtain ⟨n, ns, rfl, hnames⟩ := hus.names
    exact ⟨⟨.several .plain n ns, e⟩, rfl, ⟨rfl, hnames⟩, he⟩

theorem equationList (h : (rule (.node .equationList)).Builds ts) :
    (Tree.node .equationList ts).Means .equationList := by
  obtain ⟨us, vs, rfl, hus, hvs⟩ := h.seq
  obtain ⟨_, us, rfl, ⟨e, rfl, he⟩, hus₁⟩ := hus.node_cons
  obtain ⟨semicolon, rfl⟩ := hvs.semicolonIf
  have hothers : ∃ es : List Equation,
      es.flatMap (fun e => [.sym .semicolon, e.tree]) = us ∧ ∀ e ∈ es, e.Plain := by
    refine many hus₁ ⟨[], rfl, by simp⟩ ?_
    rintro us vs hus ⟨es, rfl, hes⟩
    obtain ⟨us, rfl, hus₁⟩ := hus.sym_cons
    obtain ⟨_, rfl, e, rfl, he⟩ := hus₁.node
    exact ⟨e :: es, rfl, List.forall_mem_cons.mpr ⟨he, hes⟩⟩
  obtain ⟨es, rfl, hes⟩ := hothers
  exact ⟨.equations ⟨e, es, semicolon⟩, rfl, List.forall_mem_cons.mpr ⟨he, hes⟩⟩

theorem statement (h : (Rule.ref .statement).Builds ts) :
    ∃ s : Statement, ts = [s.tree] ∧ s.Plain := by
  have hchoice := h.hidden rfl
  rcases hchoice.either with h | h
  · obtain ⟨_, rfl, s, rfl, hs⟩ := h.node
    exact ⟨s, rfl, hs⟩
  rcases h.either with h | h
  · obtain ⟨_, rfl, s, rfl, hs⟩ := h.node
    exact ⟨s, rfl, hs⟩
  rcases h.either with h | h
  · obtain ⟨_, rfl, s, rfl, hs⟩ := h.node
    exact ⟨s, rfl, hs⟩
  rcases h.either with h | h
  · obtain ⟨_, rfl, s, rfl, hs⟩ := h.node
    exact ⟨s, rfl, hs⟩
  · obtain ⟨_, rfl, s, rfl, hs⟩ := h.node
    exact ⟨s, rfl, hs⟩

theorem statements (h : (Rule.many (.ref .statement)).Builds ts) :
    ∃ ss : Statements, ss.trees = ts ∧ ss.Plain := by
  refine many h ⟨.nil, rfl, trivial⟩ ?_
  rintro us vs hus ⟨ss, rfl, hss⟩
  obtain ⟨s, rfl, hs⟩ := hus.statement
  exact ⟨.cons s ss, rfl, hs, hss⟩

theorem switchStatement (h : (rule (.node .switchStatement)).Builds ts) :
    (Tree.node .switchStatement ts).Means .switchStatement := by
  obtain ⟨us, rfl, h₁⟩ := h.kw_cons
  obtain ⟨_, us, rfl, ⟨n, rfl, hn⟩, h₂⟩ := h₁.node_cons
  obtain ⟨us, vs, rfl, hus, hvs⟩ := h₂.seq
  rw [hvs.kw]
  have hcases : ∃ cases : Cases, cases.trees = us ∧ cases.Plain := by
    refine many hus ⟨.nil, rfl, trivial⟩ ?_
    rintro us vs hus ⟨tail, rfl, htail⟩
    obtain ⟨us, rfl, hus₁⟩ := hus.sym_cons
    obtain ⟨_, us, rfl, ⟨u, rfl⟩, hus₂⟩ := hus₁.node_cons
    obtain ⟨us, rfl, hus₃⟩ := hus₂.kw_cons
    obtain ⟨us, ws, rfl, hus, hws⟩ := hus₃.some
    obtain ⟨s, rfl, hs⟩ := hus.statement
    obtain ⟨ss, rfl, hss⟩ := hws.statements
    exact ⟨.cons u s ss tail, by simp [Cases.trees], hs, hss, htail⟩
  obtain ⟨cases, rfl, hcases⟩ := hcases
  exact ⟨.switch n cases, rfl, hn, hcases⟩

theorem presentStatement (h : (rule (.node .presentStatement)).Builds ts) :
    (Tree.node .presentStatement ts).Means .presentStatement := by
  obtain ⟨us, rfl, h₁⟩ := h.kw_cons
  obtain ⟨us, vs, rfl, hus, h₂⟩ := h₁.seq
  obtain ⟨vs, ws, rfl, hvs, hws⟩ := h₂.seq
  rw [hws.kw]
  have hdefault : ∃ branches : Branches, branches.trees = vs ∧ branches.Plain := by
    rcases hvs.optional with hvs | rfl
    · obtain ⟨vs, rfl, hvs₁⟩ := hvs.kw_cons
      obtain ⟨vs, rfl, hvs₂⟩ := hvs₁.kw_cons
      obtain ⟨s, rfl, hs⟩ := hvs₂.statement
      exact ⟨.otherwise s, rfl, hs⟩
    · exact ⟨.nil, rfl, trivial⟩
  have hbranches : ∃ branches : Branches, branches.trees = us ++ vs ∧ branches.Plain := by
    refine many hus hdefault ?_
    rintro us ws hus ⟨tail, htrees, htail⟩
    obtain ⟨us, rfl, hus₁⟩ := hus.sym_cons
    obtain ⟨_, us, rfl, ⟨e, rfl, he⟩, hus₂⟩ := hus₁.node_cons
    obtain ⟨us, rfl, hus₃⟩ := hus₂.kw_cons
    obtain ⟨s, rfl, hs⟩ := hus₃.statement
    exact ⟨.cons e s tail, by simp [Branches.trees, htrees], he, hs, htail⟩
  obtain ⟨branches, htrees, hbranches⟩ := hbranches
  exact ⟨.present branches, by simp [Statement.tree, htrees], hbranches⟩

theorem resetStatement (h : (rule (.node .resetStatement)).Builds ts) :
    (Tree.node .resetStatement ts).Means .resetStatement := by
  obtain ⟨us, rfl, h₁⟩ := h.kw_cons
  obtain ⟨us, vs, rfl, hus, hvs⟩ := h₁.seq
  obtain ⟨vs, rfl, hvs₁⟩ := hvs.kw_cons
  obtain ⟨_, rfl, e, rfl, he⟩ := hvs₁.node
  obtain ⟨ss, rfl, hss⟩ := hus.statements
  exact ⟨.reset ss e, rfl, hss, he⟩

theorem automatonTransition (h : (rule (.node .automatonTransition)).Builds ts) :
    (Tree.node .automatonTransition ts).Means .automatonTransition := by
  obtain ⟨us, vs, rfl, hus, hvs⟩ := h.seq
  obtain ⟨_, vs, rfl, ⟨e, rfl, he⟩, hvs₁⟩ := hvs.node_cons
  obtain ⟨vs, rfl, hvs₂⟩ := hvs₁.kw_cons
  obtain ⟨_, rfl, s, rfl, hs⟩ := hvs₂.node
  rcases hus.either with h | h
  · rw [h.kw]
    exact ⟨⟨true, e, s⟩, rfl, he, hs⟩
  · rw [h.kw]
    exact ⟨⟨false, e, s⟩, rfl, he, hs⟩

theorem transitions (h : (Rule.many (.of .automatonTransition)).Builds ts) :
    ∃ trs : List Transition, trs.map Transition.tree = ts ∧ ∀ tr ∈ trs, tr.Plain := by
  refine many h ⟨[], rfl, by simp⟩ ?_
  rintro us vs hus ⟨trs, rfl, htrs⟩
  obtain ⟨_, rfl, tr, rfl, htr⟩ := hus.node
  exact ⟨tr :: trs, rfl, List.forall_mem_cons.mpr ⟨htr, htrs⟩⟩

theorem automatonState (h : (rule (.node .automatonState)).Builds ts) :
    (Tree.node .automatonState ts).Means .automatonState := by
  obtain ⟨us, rfl, h₁⟩ := h.kw_cons
  obtain ⟨_, us, rfl, ⟨s, rfl, hs⟩, h₂⟩ := h₁.node_cons
  obtain ⟨us, vs, rfl, hus, h₃⟩ := h₂.seq
  obtain ⟨l, rfl, hl⟩ := hus.locals
  obtain ⟨vs, rfl, h₄⟩ := h₃.kw_cons
  obtain ⟨vs, ws, rfl, hvs, hws⟩ := h₄.seq
  obtain ⟨ss, rfl, hss⟩ := hvs.statements
  obtain ⟨trs, rfl, htrs⟩ := hws.transitions
  exact ⟨s, l, ss, trs, rfl, hs, hl, hss, htrs, trivial⟩

theorem automaton (h : (rule (.node .automaton)).Builds ts) :
    (Tree.node .automaton ts).Means .automaton := by
  obtain ⟨us, rfl, h₁⟩ := h.kw_cons
  obtain ⟨us, vs, rfl, hus, h₂⟩ := h₁.seq
  obtain ⟨l, rfl, hl⟩ := hus.locals
  obtain ⟨vs, ws, rfl, hvs, hws⟩ := h₂.seq
  rw [hws.kw]
  have hstates : ∃ states : States, states.trees = vs ∧ states.Plain := by
    refine many hvs ⟨.nil, rfl, trivial⟩ ?_
    rintro us vs hus ⟨tail, rfl, htail⟩
    obtain ⟨t, rfl, name, locals, body, trs, htrees, hname, hlocals, hbody, htrs, -⟩ := hus.node
    refine ⟨.cons name locals body trs tail, ?_, hname, hlocals, hbody, htrs, htail⟩
    rw [← htrees]
    rfl
  obtain ⟨states, rfl, hstates⟩ := hstates
  exact ⟨.automaton l states, by simp [Statement.tree], hl, hstates⟩

theorem block (h : (rule (.node .block)).Builds ts) : (Tree.node .block ts).Means .block := by
  obtain ⟨us, rfl, h₁⟩ := h.kw_cons
  obtain ⟨us, vs, rfl, hus, hvs⟩ := h₁.seq
  rw [hvs.kw]
  obtain ⟨ss, rfl, hss⟩ := hus.statements
  exact ⟨ss, rfl, hss⟩

/-! ## Definitions -/

theorem generic (h : (Rule.optional (.seqs [.symbol .angleOpen, .of .identifier, .symbol .colon,
    .of .litType, .symbol .angleClose])).Builds ts) :
    ∃ g : Option Generic, (g.map Generic.trees).getD [] = ts ∧
      ∀ g' ∈ g, g'.name.isPlain ∧ g'.type.Plain := by
  rcases h.optional with h | rfl
  · obtain ⟨us, rfl, h₁⟩ := h.sym_cons
    obtain ⟨_, us, rfl, ⟨n, rfl, hn⟩, h₂⟩ := h₁.node_cons
    obtain ⟨us, rfl, h₃⟩ := h₂.sym_cons
    obtain ⟨_, us, rfl, ⟨y, rfl, hy⟩, h₄⟩ := h₃.node_cons
    rw [h₄.sym]
    refine ⟨Option.some ⟨n, y⟩, rfl, fun g hg => ?_⟩
    obtain rfl := Option.mem_some_iff.mp hg
    exact ⟨hn, hy⟩
  · exact ⟨none, rfl, by simp⟩

theorem functionDef (h : (rule .functionDef).Builds ts) :
    ∃ d : Definition, d.trees = ts ∧ d.Plain := by
  obtain ⟨us, vs, rfl, hus, hvs⟩ := h.seq
  obtain ⟨_, vs, rfl, ⟨n, rfl, hn⟩, h₁⟩ := hvs.node_cons
  obtain ⟨gs, vs, rfl, hgs, h₂⟩ := h₁.seq
  obtain ⟨g, rfl, hg⟩ := hgs.generic
  obtain ⟨_, vs, rfl, ⟨inputs, rfl, hinputs⟩, h₃⟩ := h₂.node_cons
  obtain ⟨vs, rfl, h₄⟩ := h₃.kw_cons
  obtain ⟨_, vs, rfl, ⟨outputs, rfl, houtputs⟩, h₅⟩ := h₄.node_cons
  obtain ⟨ls, vs, rfl, hls, h₆⟩ := h₅.seq
  obtain ⟨l, rfl, hl⟩ := hls.locals
  obtain ⟨_, rfl, ss, rfl, hss⟩ := h₆.node
  rcases hus.either with h | h
  · rw [h.kw]
    exact ⟨.component ⟨false, n, g, inputs, outputs, l, ss⟩, rfl, hn, hg, hinputs, houtputs, hl, hss⟩
  · rw [h.kw]
    exact ⟨.component ⟨true, n, g, inputs, outputs, l, ss⟩, rfl, hn, hg, hinputs, houtputs, hl, hss⟩

theorem fieldType (h : (Rule.seqs [.of .identifier, .symbol .colon, .of .litType]).Builds ts) :
    ∃ f : FieldType, f.trees = ts ∧ f.Plain := by
  obtain ⟨_, us, rfl, ⟨n, rfl, hn⟩, h₁⟩ := h.node_cons
  obtain ⟨us, rfl, h₂⟩ := h₁.sym_cons
  obtain ⟨_, rfl, y, rfl, hy⟩ := h₂.node
  exact ⟨⟨n, y⟩, rfl, hn, hy⟩

theorem variants (h : (Rule.many (.seq (.symbol .bar) (.of .enumIdentifier))).Builds ts) :
    ∃ us : List Text, us.flatMap (fun u => [.sym .bar, .leaf (.variant u)]) = ts := by
  refine many h ⟨[], rfl⟩ ?_
  rintro us vs hus ⟨ws, rfl⟩
  obtain ⟨us, rfl, hus₁⟩ := hus.sym_cons
  obtain ⟨_, rfl, u, rfl⟩ := hus₁.node
  exact ⟨u :: ws, rfl⟩

theorem typeDef (h : (rule .typeDef).Builds ts) : ∃ d : Definition, d.trees = ts ∧ d.Plain := by
  obtain ⟨us, rfl, h₁⟩ := h.kw_cons
  obtain ⟨_, us, rfl, ⟨n, rfl, hn⟩, h₂⟩ := h₁.node_cons
  obtain ⟨us, rfl, h₃⟩ := h₂.sym_cons
  rcases h₃.either with h | h
  · obtain ⟨us, rfl, h₄⟩ := (h.hidden rfl).sym_cons
    obtain ⟨us, vs, rfl, hus, hvs⟩ := h₄.seq
    rw [hvs.sym]
    obtain ⟨us, ws, rfl, hus, hws⟩ := hus.seq
    obtain ⟨f, rfl, hf⟩ := hus.fieldType
    have hfields : ∃ fs : List FieldType,
        fs.flatMap (fun f => .sym .semicolon :: f.trees) = ws ∧ ∀ f ∈ fs, f.Plain := by
      refine many hws ⟨[], rfl, by simp⟩ ?_
      rintro us vs hus ⟨fs, rfl, hfs⟩
      obtain ⟨us, rfl, hus₁⟩ := hus.sym_cons
      obtain ⟨f, rfl, hf⟩ := hus₁.fieldType
      exact ⟨f :: fs, rfl, List.forall_mem_cons.mpr ⟨hf, hfs⟩⟩
    obtain ⟨fs, rfl, hfs⟩ := hfields
    exact ⟨.record n f fs, rfl, hn, List.forall_mem_cons.mpr ⟨hf, hfs⟩⟩
  · obtain ⟨us, vs, rfl, hus, hvs⟩ := (h.hidden rfl).seq
    obtain ⟨_, vs, rfl, ⟨u, rfl⟩, h₄⟩ := hvs.node_cons
    obtain ⟨ws, rfl⟩ := h₄.variants
    rcases hus.optional with h | rfl
    · rw [h.sym]
      exact ⟨.enumeration n true u ws, rfl, hn⟩
    · exact ⟨.enumeration n false u ws, rfl, hn⟩

theorem definition (h : (Rule.ref .definition).Builds ts) :
    ∃ d : Definition, d.trees = ts ∧ d.Plain := by
  rcases (h.hidden rfl).either with h | h
  · obtain ⟨_, _, ⟨⟩⟩ := h.node
  rcases h.either with h | h
  · exact (h.hidden rfl).functionDef
  · exact (h.hidden rfl).typeDef

theorem sourceFile (h : (rule (.node .sourceFile)).Builds ts) :
    (Tree.node .sourceFile ts).Means .sourceFile := by
  have hprogram : ∃ p : Program, p.flatMap Definition.trees = ts ∧ p.Plain := by
    refine many h ⟨[], rfl, by simp [Program.Plain]⟩ ?_
    rintro us vs hus ⟨p, rfl, hp⟩
    obtain ⟨d, rfl, hd⟩ := hus.definition
    exact ⟨d :: p, rfl, List.forall_mem_cons.mpr ⟨hd, hp⟩⟩
  obtain ⟨p, rfl, hp⟩ := hprogram
  exact ⟨p, rfl, hp⟩

/-- A node means what its label says if its children do. -/
theorem means {k : Kind} (h : (rule (.node k)).Builds ts) (hk : .node k ∈ Grammar.constructs) :
    (Tree.node k ts).Means k := by
  cases k with
  | sourceFile => exact h.sourceFile
  | parameterList => exact h.parameterList
  | litType => exact h.litType
  | primitiveType => exact h.primitiveType
  | arrayType => exact h.arrayType
  | localVars => exact h.localVars
  | paramVarDeclList => exact h.paramVarDeclList
  | localVarDeclList => exact h.localVarDeclList
  | varDecl => exact h.varDecl
  | varDeclBase => exact h.varDeclBase
  | varDeclClock => exact h.varDeclClock
  | varDeclLast => exact h.varDeclLast
  | block => exact h.block
  | equationList => exact h.equationList
  | equation => exact h.equation
  | expression => exact h.expression
  | subExpression => exact h.subExpression
  | tuple => exact h.tuple
  | functionCall => exact h.functionCall
  | recordConstruction => exact h.recordConstruction
  | ifthenelse => exact h.ifthenelse
  | switchStatement => exact h.switchStatement
  | presentStatement => exact h.presentStatement
  | resetStatement => exact h.resetStatement
  | automaton => exact h.automaton
  | automatonState => exact h.automatonState
  | automatonTransition => exact h.automatonTransition
  | literal => exact h.literal
  | lBool => exact h.lBool
  | lArray => exact h.lArray
  | unaryOperator => exact h.unaryOperator
  | binaryOperator => exact h.binaryOperator
  | comment | lNumber | identifier | enumIdentifier | stateIdentifier =>
      simp [Grammar.constructs] at hk

end Rule.Builds

/-! ## Derivations -/

/-- A leaf means what its label says. -/
theorem Leaf.meant {l : Leaf} (h : (Tree.leaf l).Plain) : (Tree.leaf l).Meant := by
  intro k hk
  cases l with
  | name n =>
      obtain rfl : Kind.identifier = k := by simpa [Tree.label, label] using hk
      exact ⟨n, rfl, h⟩
  | variant u =>
      obtain rfl : Kind.enumIdentifier = k := by simpa [Tree.label, label] using hk
      exact ⟨u, rfl⟩
  | state s =>
      obtain rfl : Kind.stateIdentifier = k := by simpa [Tree.label, label] using hk
      exact ⟨s, rfl, h⟩
  | number u =>
      obtain rfl : Kind.lNumber = k := by simpa [Tree.label, label] using hk
      exact ⟨u, rfl⟩
  | keyword k' => simp [Tree.label, label] at hk
  | symbol s => simp [Tree.label, label] at hk

theorem Tree.Derives.meant {t : Tree} (h : t.Derives Tree.Plain) : t.Meant := by
  induction h with
  | leaf h => exact Leaf.meant h
  | @node k children hk _ hrule _ ih =>
      intro k' hk'
      obtain rfl : k = k' := by simpa [Tree.label] using hk'
      exact Rule.Builds.means ⟨hrule, ih⟩ hk

/-- Every derivation of the whole grammar with plain names is the tree of a plain program. -/
theorem Tree.exists_program {t : Tree} (h : t.Derives Tree.Plain)
    (hroot : t.label = .named .sourceFile) : ∃ p : Program, p.tree = t ∧ p.Plain :=
  h.meant .sourceFile hroot

end Heptagon
