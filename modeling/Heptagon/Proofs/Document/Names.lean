import Heptagon.Proofs.Document.Calls
import Heptagon.Proofs.Document.Operators

/-!
# Words that are no names

A word spelled like a keyword is a name wherever the keyword may not stand, so a program may call a
variable `end`.  `Document.not_startsWith` says where it may not, because the reader would miss
where a construct starts or ends.

* A name that is an operand, or that is called, is none of the words that start another operand.
* The name that a list of equations starts with is none of the words that start another statement.
* No equation starts with a word that closes the construct around its list, whatever is nested in
  between and whether or not a semicolon is before it.  The one place where `end` and `default` may
  be names is right behind `do`, where a branch or a case cannot be over yet.

The reader decides each of it by the first lexeme of a statement (`Body.closes`), which is the one
that the equation starts with (`Statement.head_of_names`).  Which statements stand directly behind
`do` is then read off the row of children (`Tree.Guarded`).
-/

namespace Heptagon

/-- The words at which an operand starts that is no name. -/
def Keyword.operands : List Keyword := [.if_, .not, .pre, .last, .true_, .false_]

/-- The words at which a statement starts that is no equation. -/
def Keyword.statements : List Keyword := [.automaton, .switch, .present, .reset]

/-- The words that close the equations directly in a construct. -/
def Kind.closing : Kind → List Keyword
  | .block => [.tel]
  | .resetStatement => [.every]
  | .automatonState => [.state, .until_, .unless_, .end_]
  | .switchStatement => [.end_]
  | .presentStatement => [.default, .end_]
  | _ => []

theorem Kind.closing_of_isPlain {k : Kind} (h : k.isPlain = true) : k.closing = [] := by
  cases k <;> first | rfl | cases h

theorem Keyword.mem_operands_iff {c : Keyword} : c ∈ operands ↔ c.startsOperand = true := by
  cases c <;> decide

/-! ## Trees that start with a name -/

namespace Tree

variable {c : Keyword}

/-- The first child of the tree is a name that is spelled like the keyword. -/
def StartsWith (c : Keyword) : Tree → Prop
  | leaf _ => False
  | node _ ts => ts.head? = some (.name (.keyword c))

/-- An equation of the list starts with a name that is spelled like the keyword. -/
def Names (c : Keyword) : Tree → Prop
  | node .equationList ts => ∃ e ∈ ts, e.StartsWith c
  | _ => False

theorem not_names_of_label {t : Tree} (h : t.label ≠ .named .equationList) : ¬ t.Names c := by
  cases t with
  | leaf l => exact id
  | node k ts => cases k <;> first | exact id | exact absurd rfl h

/-- In a row, equations start with the name only where their list is directly behind `do`. -/
def Guarded (c : Keyword) (ts : List Tree) : Prop :=
  ∀ pre t post, ts = pre ++ t :: post → t.Names c → pre.getLast?.map label = some (.literal "do")

theorem guarded_of_not_names {ts : List Tree} (h : ∀ t ∈ ts, ¬ t.Names c) : Guarded c ts :=
  fun _ t _ hts hc => absurd hc (h t (by simp [hts]))

theorem guarded_do (t : Tree) : Guarded c [kw .do_, t] := by
  intro pre u post hts hc
  cases pre with
  | nil =>
      obtain ⟨rfl, -⟩ := List.cons.inj hts
      exact hc.elim
  | cons x pre =>
      obtain ⟨rfl, hts⟩ := List.cons.inj hts
      obtain rfl : pre = [] := by
        have hlength := congrArg List.length hts
        simp only [List.length_cons, List.length_nil, List.length_append] at hlength
        exact List.length_eq_zero_iff.mp (by omega)
      rfl

/-- Two rows in which the name is guarded stay so next to each other: the second one does not start
with it. -/
theorem Guarded.append {ts us : List Tree} (hts : Guarded c ts) (hus : Guarded c us) :
    Guarded c (ts ++ us) := by
  intro pre t post h hc
  rcases List.append_eq_append_iff.mp h with ⟨mid, rfl, hmid⟩ | ⟨mid, hmid, hpost⟩
  · have hlast := hus mid t post hmid hc
    obtain ⟨x, hx, hlabel⟩ := Option.map_eq_some_iff.mp hlast
    simp [List.getLast?_append, hx, hlabel]
  · cases mid with
    | nil => simpa using hus [] t post hpost.symm hc
    | cons u mid =>
        obtain ⟨rfl, -⟩ := List.cons.inj hpost
        exact hts pre t mid hmid hc

end Tree

/-! ## Equations -/

variable {c : Keyword}

theorem Equation.target_of_startsWith {e : Equation} (h : e.tree.StartsWith c) :
    e.target = .single (.keyword c) := by
  obtain ⟨target, value⟩ := e
  cases target with
  | single n =>
      obtain rfl : n = .keyword c := by
        simpa [tree, Tree.StartsWith, Target.trees] using h
      rfl
  | several o n ns => simp [tree, Tree.StartsWith, Target.trees] at h

/-- What starts with a name behind the first equation is another one. -/
theorem Equations.exists_of_startsWith {es : Equations} {t : Tree}
    (ht : t ∈ es.others.flatMap (fun e => [.sym .semicolon, e.tree]) ++
      Tree.semicolonIf es.semicolon) (hc : t.StartsWith c) :
    ∃ e ∈ es.others, e.target = .single (.keyword c) := by
  rcases List.mem_append.mp ht with ht | ht
  · obtain ⟨e, he, ht⟩ := List.mem_flatMap.mp ht
    simp only [List.mem_cons, List.not_mem_nil, or_false] at ht
    rcases ht with rfl | rfl
    · exact hc.elim
    · exact ⟨e, he, Equation.target_of_startsWith hc⟩
  · cases hsemicolon : es.semicolon with
    | false => simp [hsemicolon, Tree.semicolonIf] at ht
    | true =>
        obtain rfl : t = .sym .semicolon := by simpa [hsemicolon, Tree.semicolonIf] using ht
        exact hc.elim

/-- Behind a semicolon the words that end a branch are no names. -/
theorem Equations.Fits.eq_nil_of_startsWith {es : Equations} {alone : Bool} {ts : List Lexeme}
    (h : es.Fits alone ts) {front back : List Tree} {t : Tree}
    (htree : es.tree = .node .equationList (front ++ t :: back)) (hc : t.StartsWith c)
    (hcloses : c = .default ∨ c = .end_) : front = [] := by
  cases front with
  | nil => rfl
  | cons x front =>
      have hrow := (List.cons.inj (Tree.node.inj htree).2).2
      obtain ⟨e, he, htarget⟩ := Equations.exists_of_startsWith (t := t)
        (by rw [hrow]; simp) hc
      have hamong := (h.others e he).2
      rw [htarget] at hamong
      rcases hcloses with rfl | rfl <;> cases hamong

/-- Where other statements may follow, equations start as their list does. -/
theorem Statement.head_of_names {s : Statement} {ts : List Lexeme} (h : s.Fits false ts)
    (hc : s.tree.Names c) : s.units.flatten.head? = some (.kw c) := by
  cases s with
  | equations es =>
      obtain ⟨t, ht, hstarts⟩ := hc
      have hfirst : es.first.target = .single (.keyword c) := by
        rcases List.mem_cons.mp ht with rfl | ht
        · exact Equation.target_of_startsWith hstarts
        · obtain ⟨e, he, -⟩ := Equations.exists_of_startsWith ht hstarts
          simp [h.single rfl] at he
      simp [units, Equations.lexemes, Equation.lexemes, hfirst, Target.lexemes]
  | _ => exact hc.elim

/-! ## Statements -/

/-- No statement of a list starts with a word that closes the list. -/
theorem Statements.not_names (ss : Statements) {b : Body} {ts : List Lexeme} (h : ss.Fits b ts)
    (hcloses : b.closes (.kw c) = true) : ∀ t ∈ ss.trees, ¬ t.Names c := by
  cases ss with
  | nil => simp [trees]
  | cons s ss =>
      obtain ⟨hopen, hs, hss⟩ := h
      refine List.forall_mem_cons.mpr ⟨fun hc => ?_, Statements.not_names ss hss hcloses⟩
      have := hopen _ (Statement.head_of_names hs hc)
      rw [hcloses] at this
      cases this

theorem Cases.guarded (cs : Cases) {ts : List Lexeme} (h : cs.Fits ts) :
    Tree.Guarded .end_ cs.trees := by
  cases cs with
  | nil => exact Tree.guarded_of_not_names (by simp [trees])
  | cons v s ss tail =>
      obtain ⟨-, hss, htail⟩ := h
      have hhead : Tree.Guarded .end_ [.sym .bar, .leaf (.variant v)] :=
        Tree.guarded_of_not_names (by simp [Tree.Names])
      have hothers := Tree.guarded_of_not_names (ss.not_names hss (c := .end_) rfl)
      exact hhead.append ((Tree.guarded_do s.tree).append (hothers.append (tail.guarded htail)))

theorem Branches.guarded (bs : Branches) : Tree.Guarded c bs.trees := by
  cases bs with
  | nil => exact Tree.guarded_of_not_names (by simp [trees])
  | otherwise s =>
      have hhead : Tree.Guarded c [.kw .default] :=
        Tree.guarded_of_not_names (by simp [Tree.Names])
      exact hhead.append (Tree.guarded_do s.tree)
  | cons e s tail =>
      have hguard : ¬ e.tree.Names c := Tree.not_names_of_label (by simp [e.label_tree])
      have hhead : Tree.Guarded c [.sym .bar, e.tree] :=
        Tree.guarded_of_not_names
          (List.forall_mem_cons.mpr ⟨id, List.forall_mem_singleton.mpr hguard⟩)
      exact hhead.append ((Tree.guarded_do s.tree).append tail.guarded)

/-! ## Nodes of pieces -/

namespace Tree.Made

variable {k : Kind} {ts : List Tree}

/-- A name that is an operand or is called is none of the words that start another operand. -/
theorem not_mem_operands (h : (node k ts).Made)
    (hk : k = .subExpression ∨ k = .functionCall) (hc : (node k ts).StartsWith c) :
    c ∉ Keyword.operands := by
  intro hmem
  have hoperand : (Word.keyword c).isOperand = true := by
    cases h with
    | operand _ hname => exact hname _ hc
    | call hname =>
        obtain rfl := Leaf.name.inj (Tree.leaf.inj (Option.some.inj hc))
        exact hname
    | plain hplain => rcases hk with rfl | rfl <;> cases hplain
    | _ => rcases hk with hk | hk <;> cases hk
  simp [Word.isOperand, Keyword.mem_operands_iff.mp hmem] at hoperand

/-- A list of equations starts with no word that starts another statement. -/
theorem not_mem_statements (h : (node .equationList ts).Made) {t : Tree}
    (ht : t ∈ ts.head?) (hc : t.StartsWith c) : c ∉ Keyword.statements := by
  intro hmem
  cases h with
  | @equations es alone _ h =>
      obtain rfl : es.first.tree = t := Option.some.inj ht
      have hstarts := h.starts
      rw [Equation.target_of_startsWith hc] at hstarts
      exact absurd hmem (by simpa [Target.isAmong, Keyword.statements] using hstarts)
  | plain hplain => cases hplain

/-- Behind a semicolon the words that end a branch are no names. -/
theorem eq_nil_of_startsWith {front back : List Tree} {t : Tree}
    (h : (node .equationList (front ++ t :: back)).Made) (hc : t.StartsWith c)
    (hcloses : c = .default ∨ c = .end_) : front = [] := by
  generalize hlist : node .equationList (front ++ t :: back) = u at h
  cases h with
  | equations h => exact h.eq_nil_of_startsWith hlist.symm hc hcloses
  | plain hplain =>
      obtain ⟨rfl, -⟩ := Tree.node.inj hlist
      cases hplain
  | _ => cases hlist

/-- A word that closes a construct starts no equation directly in it, except behind a `do` of a
`switch` or a `present`. -/
theorem not_names_or_guarded (h : (node k ts).Made) (hc : c ∈ k.closing) :
    (∀ t ∈ ts, ¬ t.Names c) ∨
      ((k = .switchStatement ∨ k = .presentStatement) ∧ Guarded c ts) := by
  cases h with
  | @block ss _ h =>
      left
      obtain rfl : c = .tel := by simpa [Kind.closing] using hc
      have hbody := ss.not_names h (c := .tel) rfl
      simp only [List.forall_mem_cons, List.forall_mem_append]
      exact ⟨id, hbody, id, List.forall_mem_nil _⟩
  | @switch x cs _ h =>
      right
      obtain rfl : c = .end_ := by simpa [Kind.closing] using hc
      -- each body is behind a `do` here
      have hhead : Guarded .end_ [.kw .switch, .name x] :=
        guarded_of_not_names (by simp [Names])
      have hlast : Guarded .end_ [.kw .end_] := guarded_of_not_names (by simp [Names])
      exact ⟨.inl rfl, hhead.append ((cs.guarded h).append hlast)⟩
  | @present bs _ _ =>
      right
      have hhead : Guarded c [.kw .present] := guarded_of_not_names (by simp [Names])
      have hlast : Guarded c [.kw .end_] := guarded_of_not_names (by simp [Names])
      exact ⟨.inr rfl, hhead.append (bs.guarded.append hlast)⟩
  | @reset body e _ h =>
      left
      obtain rfl : c = .every := by simpa [Kind.closing] using hc
      have hsignal : ¬ e.tree.Names .every := not_names_of_label (by simp [e.label_tree])
      have hbody := body.not_names h (c := .every) rfl
      simp only [List.forall_mem_cons, List.forall_mem_append]
      exact ⟨id, hbody, id, hsignal, List.forall_mem_nil _⟩
  | @state name locals body trs _ h =>
      left
      have hcloses : Body.closes .state (.kw c) = true := by
        simp only [Kind.closing, List.mem_cons, List.not_mem_nil, or_false] at hc
        rcases hc with rfl | rfl | rfl | rfl <;> rfl
      simp only [List.forall_mem_cons, List.forall_mem_append, List.forall_mem_map]
      refine ⟨id, id, fun t ht => ?_, id, body.not_names h hcloses, fun _ _ => id⟩
      obtain ⟨l, -, rfl⟩ := by simpa [Locals.trees] using ht
      exact id
  | plain hplain => simp [Kind.closing_of_isPlain hplain] at hc
  | operand | call | equations => simp [Kind.closing] at hc

end Tree.Made

/-! ## Nodes -/

namespace Node

variable {source : Text} {n : Node}

/-- The first part of the node is an identifier, and it is spelled like the keyword. -/
def StartsWith (source : Text) (c : Keyword) (n : Node) : Prop :=
  ∃ w s, n.parts.head? = some (.token (.name w) s) ∧ source.slice s = c.text

/-- What a node starts with is seen in its tree. -/
theorem StartsWith.tree (h : n.StartsWith source c) (hn : n.Stands source) :
    ∃ t, n.trees = [t] ∧ t.label = n.label ∧ t.StartsWith c := by
  obtain ⟨w, s, hhead, hslice⟩ := h
  obtain ⟨ms, hparts⟩ := List.head?_eq_some_iff.mp hhead
  have hmem : .token (.name w) s ∈ n.parts := by simp [hparts]
  obtain ⟨-, htext, htokens⟩ := (contains_of_mem_parts hmem).stands hn
  have hword : w = .ofText w.text := (htokens (.word w) (by simp [Leaf.lexemes])).1
  have hkeyword : w = .keyword c := by
    rw [hword, show w.text = c.text from htext.symm.trans hslice, Word.ofText, c.ofText?_text]
  cases n with
  | branch k ns =>
      refine ⟨_, exists_trees_eq_node rfl (by simp [hparts]), rfl, ?_⟩
      rw [hparts, hkeyword]
      rfl
  | _ => simp [parts] at hparts

/-- Parts of a node have one tree each. -/
theorem map_label_treesAll (ns : List Node) (h : ∀ m ∈ ns, m.isExtra = false) :
    (treesAll ns).map Tree.label = ns.map label := by
  rw [← map_label_filter, List.filter_eq_self.mpr (by simpa using h)]

/-- Where an equation starts with a word that closes the construct around its list, it is the first
one behind a `do`. -/
theorem behind_do_of_startsWith (hn : n.Stands source)
    (hderives : ∀ t ∈ n.trees, t.Derives Tree.Made) {k : Kind} (hlabel : n.label = .named k)
    {pre post : List Node} {m : Node} (hparts : n.parts = pre ++ m :: post)
    (hlist : m.label = .named .equationList) {front back : List Node} {e : Node}
    (hequations : m.parts = front ++ e :: back) {c : Keyword} (hc : c ∈ k.closing)
    (hstarts : e.StartsWith source c) :
    (k = .switchStatement ∨ k = .presentStatement) ∧ front = [] ∧
      pre.getLast?.map label = some (.literal "do") := by
  have hm : m ∈ n.parts := by simp [hparts]
  have he : e ∈ m.parts := by simp [hequations]
  obtain ⟨t, ht, -, htree⟩ := hstarts.tree
    ((contains_of_mem_parts he).stands ((contains_of_mem_parts hm).stands hn))
  -- the trees of the list and of the construct around it
  obtain ⟨list, hlisteq⟩ : ∃ l,
      l = Tree.node .equationList (treesAll front ++ t :: treesAll back) := ⟨_, rfl⟩
  have hmtrees : m.trees = [list] := by
    rw [exists_trees_eq_node hlist (by simp [hequations]), hequations, hlisteq]
    simp [treesAll, ht]
  have hntrees : n.trees = [.node k (treesAll pre ++ list :: treesAll post)] := by
    rw [exists_trees_eq_node hlabel (by simp [hparts]), hparts]
    simp [treesAll, hmtrees]
  have hnames : list.Names c := hlisteq ▸ ⟨t, by simp, htree⟩
  cases hderives _ (hntrees ▸ List.mem_singleton.mpr rfl) with
  | node _ hmade _ hchildren =>
      rcases hmade.not_names_or_guarded hc with hnone | ⟨hk, hguarded⟩
      · exact absurd hnames (hnone list (by simp))
      · refine ⟨hk, ?_, ?_⟩
        · have hfront := (hlisteq ▸ (hchildren list (by simp)).self).eq_nil_of_startsWith htree
            (by rcases hk with rfl | rfl <;> simp_all [Kind.closing])
          have hlabels := map_label_treesAll front fun x hx =>
            isExtra_of_mem_parts (n := m) (by simp [hequations, hx])
          rw [hfront] at hlabels
          exact List.map_eq_nil_iff.mp hlabels.symm
        · have hlabels := map_label_treesAll pre fun x hx =>
            isExtra_of_mem_parts (n := n) (by simp [hparts, hx])
          have hdo := hguarded _ list _ rfl hnames
          rwa [← List.getLast?_map, hlabels, List.getLast?_map] at hdo

end Node

/-! ## Documents -/

namespace Document

variable {source : Text} {d : Document}

/-- An operand or a function, the first equation of a list, and an equation at all start with no
name that would be another operand, another statement or the end of the construct around the list.
The one exception is the name right behind a `do`. -/
theorem not_startsWith (h : ofSource? source = some d) :
    (∀ n, d.root.Contains n →
      n.label = .named .subExpression ∨ n.label = .named .functionCall →
        ∀ c ∈ Keyword.operands, ¬ n.StartsWith source c) ∧
    (∀ n, d.root.Contains n → n.label = .named .equationList →
      ∀ e ∈ n.parts.head?, ∀ c ∈ Keyword.statements, ¬ e.StartsWith source c) ∧
    ∀ n k, d.root.Contains n → n.label = .named k →
      ∀ pre m post, n.parts = pre ++ m :: post → m.label = .named .equationList →
        ∀ front e back, m.parts = front ++ e :: back →
          ∀ c ∈ k.closing, e.StartsWith source c →
            (k = .switchStatement ∨ k = .presentStatement) ∧ front = [] ∧
              pre.getLast?.map Node.label = some (.literal "do") := by
  obtain ⟨p, hshows⟩ := exists_program h
  refine ⟨?_, ?_, ?_⟩
  · -- operands and functions
    intro n hn hlabel c hc hstarts
    obtain ⟨hstands, hderives⟩ := hshows.part hn (by rcases hlabel with h | h <;> simp [h])
      (by rcases hlabel with h | h <;> simp [h])
    obtain ⟨t, ht, htlabel, htree⟩ := hstarts.tree hstands
    have hmade := (hderives t (by simp [ht])).self
    cases t with
    | leaf l => exact htree
    | node k ts =>
        refine hmade.not_mem_operands ?_ htree hc
        rw [← htlabel] at hlabel
        exact hlabel.imp Label.named.inj Label.named.inj
  · -- the first equation of a list
    intro n hn hlabel e he c hc hstarts
    obtain ⟨hstands, hderives⟩ := hshows.part hn (by simp [hlabel]) (by simp [hlabel])
    obtain ⟨back, hparts⟩ := List.head?_eq_some_iff.mp he
    have hmem : e ∈ n.parts := by simp [hparts]
    obtain ⟨t, ht, -, htree⟩ := hstarts.tree ((Node.contains_of_mem_parts hmem).stands hstands)
    have htrees := Node.exists_trees_eq_node hlabel (by simp [hparts])
    have hmade := (hderives _ (htrees ▸ List.mem_singleton.mpr rfl)).self
    exact hmade.not_mem_statements (t := t) (by simp [hparts, Node.treesAll, ht]) htree hc
  · -- an equation in a construct with a closing word
    intro n k hn hlabel pre m post hparts hlist front e back hequations c hc hstarts
    have hk : ∀ k', n.label = .named k' → c ∈ k'.closing := by
      rintro k' hk'
      rwa [← Label.named.inj (hlabel.symm.trans hk')]
    obtain ⟨hstands, hderives⟩ := hshows.part hn
      (fun hroot => by simpa [Kind.closing] using hk _ hroot)
      (fun hcomment => by simpa [Kind.closing] using hk _ hcomment)
    exact Node.behind_do_of_startsWith hstands hderives hlabel hparts hlist hequations hc hstarts

/-- The first equation of a case defines `end`, and so it is directly behind the `do`. -/
theorem not_startsWith_of_switch : ∃ d n pre m post e,
    ofSource? (Text.ofString "fun f()returns()let switch x | A do end = 1 end tel") = some d ∧
      d.root.Contains n ∧ n.label = .named .switchStatement ∧ n.parts = pre ++ m :: post ∧
      m.parts = [e] ∧
      e.StartsWith (Text.ofString "fun f()returns()let switch x | A do end = 1 end tel") .end_ ∧
      pre.getLast?.map Node.label = some (.literal "do") := by
  have hswitch : (ofSource? (Text.ofString
      "fun f()returns()let switch x | A do end = 1 end tel")).bind (·.root.at? [5, 1]) = some
        (.branch .switchStatement [
          .token (.keyword .switch) ⟨20, 26⟩,
          .token (.name (.plain [120])) ⟨27, 28⟩,
          .token (.symbol .bar) ⟨29, 30⟩,
          .token (.variant [65]) ⟨31, 32⟩,
          .token (.keyword .do_) ⟨33, 35⟩,
          .branch .equationList [.branch .equation [
            .token (.name (.keyword .end_)) ⟨36, 39⟩,
            .token (.symbol .equal) ⟨40, 41⟩,
            .branch .expression [.branch .subExpression [
              .branch .literal [.token (.number [49]) ⟨42, 43⟩]]]]],
          .token (.keyword .end_) ⟨44, 47⟩]) := by
    decide +kernel
  obtain ⟨d, hd, hat⟩ := Option.bind_eq_some_iff.mp hswitch
  obtain ⟨w, s, hhead, hslice⟩ : ∃ w s,
      some (Node.token (.name (.keyword .end_)) ⟨36, 39⟩) = some (.token (.name w) s) ∧
        (Text.ofString "fun f()returns()let switch x | A do end = 1 end tel").slice s =
          Keyword.end_.text := ⟨_, _, rfl, by decide +kernel⟩
  obtain ⟨-, -, hdo⟩ := (not_startsWith hd).2.2 _ .switchStatement (.of_at? hat) rfl
    [_, _, _, _, _] _ [_] rfl rfl [] _ [] rfl .end_ (by decide) ⟨w, s, hhead, hslice⟩
  exact ⟨d, _, [_, _, _, _, _], _, [_], _, hd, .of_at? hat, rfl, rfl, rfl,
    ⟨w, s, hhead, hslice⟩, hdo⟩

end Document

end Heptagon
