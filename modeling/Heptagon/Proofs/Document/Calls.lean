import Heptagon.Proofs.Document.Parts
import Heptagon.Proofs.Document.Rereading

/-!
# A name before a parenthesis is called

Where two arguments of a call follow each other without a comma, or two
statements follow each other, and the first one ends in a name and the second
one starts with a parenthesis, the name could have been called.
`Document.called_or_setApart` says when it is not: the parenthesis is one of
those that are set apart after the readings have been compared, or it cannot
hold arguments, or the name ends the signal of a `reset` and the equation after
it has a semicolon.

In the text of the reading that stays, such a parenthesis stands apart
(`Program.joinsAll_trees`); and it was set apart either before the first reading
or after it (`Layout.apart_cases`).
-/

namespace Heptagon

/-! ## Parentheses that stand apart -/

namespace Lexeme

variable {ts us pre : List Lexeme}

/-- A parenthesis is set apart before a text is read if it holds a word that needs an operand. -/
theorem holdsOperators_of_separateTargets (hshown : ts.map shown = ts)
    (h : separateTargets ts = pre ++ .apart :: us) : holdsOperators false us = true := by
  fun_induction separateTargets ts generalizing pre with
  | case1 => simp at h
  | case2 ts ih =>
      obtain ⟨-, hshown⟩ := List.cons.inj hshown
      cases pre with
      | nil =>
          obtain ⟨hhead, rfl⟩ := List.cons.inj h
          rw [holdsOperators_congr (map_shown_separateTargets ts)]
          by_contra hnot
          simp [hnot] at hhead
      | cons x pre => exact ih hshown (List.cons.inj h).2
  | case3 t ts _ ih =>
      obtain ⟨ht, hshown⟩ := List.cons.inj hshown
      cases pre with
      | nil =>
          obtain ⟨rfl, -⟩ := List.cons.inj h
          simp [shown] at ht
      | cons x pre => exact ih hshown (List.cons.inj h).2

/-- A parenthesis that stands apart was set apart at one of the places or stood apart before. -/
theorem mem_of_separateAt {places : List Nat} {i : Nat}
    (h : separateAt places i ts = pre ++ .apart :: us) :
    i + pre.length ∈ places ∨
      ∃ pre' us', ts = pre' ++ .apart :: us' ∧ us'.map shown = us.map shown := by
  induction ts generalizing i pre with
  | nil => simp [separateAt] at h
  | cons t ts ih =>
      rw [separateAt] at h
      cases pre with
      | nil =>
          obtain ⟨hhead, rfl⟩ := List.cons.inj h
          split at hhead
          · next hplace =>
              obtain ⟨-, hplace⟩ : _ ∧ i ∈ places := by simpa using hplace
              exact .inl hplace
          · exact .inr ⟨[], ts, by rw [hhead]; rfl, (map_shown_separateAt places (i + 1) ts).symm⟩
      | cons x pre =>
          rcases ih (List.cons.inj h).2 with hplace | ⟨pre', us', rfl, hus⟩
          · exact .inl (by simpa [Nat.add_right_comm, Nat.add_assoc] using hplace)
          · exact .inr ⟨t :: pre', us', rfl, hus⟩

end Lexeme

/-- A parenthesis stands apart in a reading if it is one that is set apart after the readings have
been compared, or if it cannot hold arguments. -/
theorem Layout.apart_cases {l : Layout} {ts pre us : List Lexeme}
    (hshown : l.lexemes.map Lexeme.shown = l.lexemes) (hts : ts = l.joined ∨ ts = l.settled)
    (h : ts = pre ++ .apart :: us) :
    pre.length ∈ l.setApart ∨ Lexeme.holdsOperators false us = true := by
  rcases hts with rfl | rfl
  · exact .inr (Lexeme.holdsOperators_of_separateTargets hshown h)
  · rcases Lexeme.mem_of_separateAt h with hplace | ⟨pre', us', heq, hus⟩
    · exact .inl (by simpa using hplace)
    · rw [← Lexeme.holdsOperators_congr hus]
      exact .inr (Lexeme.holdsOperators_of_separateTargets hshown heq)

/-- The nodes of a layout are those of one of its two readings. -/
theorem Program.exists_reading {l : Layout} {nodes : List Node} (h : placed? l = some nodes) :
    ∃ p : Program, p.Fits ∧ (p.units.flatten = l.joined ∨ p.units.flatten = l.settled) ∧
      p.place l.slots = some nodes := by
  obtain ⟨p, first, hp, hfirst, rfl⟩ := placed?_eq_some_iff.mp h
  cases hlast : (Program.ofLexemes? l.settled).bind (·.place l.slots) with
  | none =>
      obtain ⟨hjoined, hfits⟩ := ofLexemes?_eq_some_iff.mp hp
      exact ⟨p, hfits, .inl hjoined.symm, hfirst⟩
  | some last =>
      obtain ⟨q, hq, hplace⟩ := Option.bind_eq_some_iff.mp hlast
      obtain ⟨hsettled, hfits⟩ := ofLexemes?_eq_some_iff.mp hq
      exact ⟨q, hfits, .inr hsettled.symm, hplace⟩

/-! ## Nodes -/

namespace Node

/-- The node that some indices lead to, each among the children of the node before. -/
def at? : List Nat → Node → Option Node
  | [], n => some n
  | i :: path, branch _ children => children[i]?.bind (at? path)
  | _ :: _, _ => none

theorem Contains.of_at? {path : List Nat} {n m : Node} (h : n.at? path = some m) :
    n.Contains m := by
  induction path generalizing n with
  | nil =>
      obtain rfl := Option.some.inj h
      exact .refl n
  | cons i path ih =>
      cases n with
      | branch k children =>
          obtain ⟨c, hc, hm⟩ := Option.bind_eq_some_iff.mp h
          exact .child (List.mem_of_getElem? hc) (ih hm)
      | _ => simp [at?] at h

end Node

/-! ## Documents -/

/-- Whether a node or token is a statement. -/
def Label.isStatement : Label → Bool
  | named k => k.isStatement
  | literal _ => false

theorem Tree.isStatement_label (t : Tree) : t.label.isStatement = t.isStatement := by
  cases t with
  | node k ts => rfl
  | leaf l => cases l <;> rfl

namespace Document

/-- Where the parentheses of a source start that directly follow a word and are set apart from it
after the readings have been compared. -/
def apartStarts (source : Text) : List Nat :=
  match scan source with
  | some items => (setApart source).filterMap fun i => (Layout.ofItems items).slots[i]?.map (·.span.start)
  | none => []

variable {source : Text} {d : Document}

/-- A parenthesis that is set apart starts where its slot does. -/
theorem mem_apartStarts {items : List (Placed Item)} (h : scan source = some items) {i : Nat}
    {slot : Slot} (hi : i ∈ (Layout.ofItems items).setApart)
    (hslot : (Layout.ofItems items).slots[i]? = some slot) : slot.span.start ∈ apartStarts source := by
  rw [apartStarts, h]
  exact List.mem_filterMap.mpr ⟨i, setApart_eq h ▸ hi, by rw [hslot]; rfl⟩

/-- A part of a definition of a document is none of its comments, nor is it the root. -/
theorem exists_mem_of_parts (h : ofSource? source = some d) {n x : Node} (hn : d.root.Contains n)
    (hx : x ∈ n.parts) (hjoint : x.label = .named .expression ∨ x.label.isStatement = true) :
    ∃ c ∈ d.children, (∀ inside s, c ≠ .comment inside s) ∧ c.Contains n := by
  obtain ⟨p, hshows⟩ := exists_program h
  cases hn with
  | refl =>
      have hextra := Node.isExtra_of_mem_parts hx
      rcases hshows.children.mem x (List.mem_filter.mp hx).1 with ⟨c, rfl⟩ | ⟨d', -, htrees⟩
      · simp [Node.label, Label.isStatement, Kind.isStatement] at hjoint
      · obtain ⟨t, ht, hlabel⟩ := Node.exists_trees_eq hextra
        have hquiet := d'.isJoint_trees t (htrees (by simp [ht]))
        rw [← hlabel, Tree.isStatement_label] at hjoint
        simp [Tree.isJoint] at hquiet
        simp [hquiet] at hjoint
  | @child _ _ c _ hc hcn =>
      refine ⟨c, hc, ?_, hcn⟩
      rintro inside s rfl
      cases hcn
      simp [Node.parts] at hx

/-- A parenthesis that stands apart in a reading starts at one that was set apart, or it cannot
hold arguments. -/
theorem start_mem_apartStarts {l : Layout} {ts us : List Lexeme} {i : Nat} {v : Tree} {y : Node}
    {rest : List Slot} {x : Leaf} {s : Span} (hshown : l.lexemes.map Lexeme.shown = l.lexemes)
    (hts : ts = l.joined ∨ ts = l.settled)
    (hstarts : ∀ i ∈ l.setApart, ∀ slot ∈ l.slots[i]?, slot.span.start ∈ apartStarts source)
    (hy : v.place (l.slots.drop i) = some (y, rest)) (hhead : y.tokens.head? = some (x, s))
    (hdrop : ts.drop i = .apart :: us) :
    s.start ∈ apartStarts source ∨ Lexeme.holdsOperators false us = true := by
  have hlt : i < ts.length := by
    by_contra hle
    simp [List.drop_eq_nil_of_le (Nat.le_of_not_lt hle)] at hdrop
  have heq : ts = ts.take i ++ .apart :: us := by rw [← hdrop, List.take_append_drop]
  refine (Layout.apart_cases hshown hts heq).imp_left fun hi => ?_
  obtain ⟨slot, hslot, hstart⟩ := Tree.start_of_place v hy hhead
  rw [hstart]
  rw [List.length_take_of_le hlt.le] at hi
  exact hstarts i hi slot (by simpa using hslot)

/-- Two parts of a document that meet where a name is followed by a parenthesis, seen in the trees of
a reading; `ts` is its text from the parenthesis on. -/
theorem exists_parted (h : ofSource? source = some d) {n x y : Node} {pre post : List Node}
    (hn : d.root.Contains n) (hparts : n.parts = pre ++ x :: y :: post) {name : Word} {s t : Span}
    (hname : x.tokens.getLast? = some (.name name, t))
    (hparen : y.tokens.head? = some (.symbol .parenOpen, s))
    (hmeets : x.label = .named .expression ∧ y.label = .named .expression ∨
      x.label.isStatement = true ∧ y.label.isStatement = true) :
    ∃ (u v : Tree) (ts : List Lexeme), u.label = x.label ∧ v.leaves = y.tokens.map Prod.fst ∧
      u.Parted v ts ∧
      ∀ us, ts = .apart :: us →
        s.start ∈ apartStarts source ∨ Lexeme.holdsOperators false us = true := by
  obtain ⟨items, hscan, hnodes, -⟩ := ofSource?_eq_some_iff.mp h
  obtain ⟨-, inner, hinner, hchildren⟩ := nodes?_eq_some_iff.mp hnodes
  obtain ⟨p, hfits, hreading, hplace⟩ := Program.exists_reading hinner
  obtain ⟨c, hc, hcomment, hcn⟩ :=
    exists_mem_of_parts h hn (x := x) (by simp [hparts]) (hmeets.imp And.left And.left)
  -- only a comment of the source is not one of the nodes of the program
  have hmem : c ∈ inner := by
    rw [hchildren] at hc
    rcases List.mem_append.mp hc with hc | hc
    · exact hc
    · obtain ⟨span, -, rfl⟩ := List.mem_map.mp hc
      exact absurd rfl (hcomment false span)
  -- the two parts come from two trees of the reading that stand next to each other
  obtain ⟨i, t, rest, ht, hjoins⟩ :=
    Program.exists_place_of_mem hplace (Program.joinsAll_trees hfits) hmem hcomment
  obtain ⟨j, u, v, rest', hu, hv, hy, hparted⟩ := hcn.exists_parted hparts ht hjoins
  rw [List.drop_drop] at hy hparted
  have hextra : ∀ m ∈ n.parts, m.isExtra = false := fun m => Node.isExtra_of_mem_parts
  obtain ⟨hulabel, huleaves⟩ := Node.of_trees_eq (hextra x (by simp [hparts])) hu
  obtain ⟨hvlabel, hvleaves⟩ := Node.of_trees_eq (hextra y (by simp [hparts])) hv
  refine ⟨u, v, _, hulabel, hvleaves, hparted ?_ ?_ ?_, fun us => start_mem_apartStarts
    (Layout.map_shown_lexemes hscan) hreading (fun i hi slot hslot => mem_apartStarts hscan hi hslot)
    hy hparen⟩
  · simpa [Tree.meets, ← Tree.isStatement_label, hulabel, hvlabel] using hmeets
  · exact ⟨name, by simp [huleaves, hname]⟩
  · simp [Tree.StartsInParen, hvleaves, hparen]

/-- Where a name is followed by a parenthesis, it calls what is in the parenthesis.  It does not only
if the parenthesis is set apart after the readings have been compared; if it holds targets one of
which cannot be an argument; or if the name ends the signal of a `reset` and a semicolon ends the
equation that follows. -/
theorem called_or_setApart (h : ofSource? source = some d) {n x y : Node} {pre post : List Node}
    (hn : d.root.Contains n) (hparts : n.parts = pre ++ x :: y :: post) {name : Word} {s t : Span}
    (hname : x.tokens.getLast? = some (.name name, t))
    (hparen : y.tokens.head? = some (.symbol .parenOpen, s)) :
    (x.label = .named .expression → y.label = .named .expression →
      s.start ∈ apartStarts source) ∧
    (x.label.isStatement = true → y.label.isStatement = true →
      s.start ∈ apartStarts source ∨ Leaf.HoldOperator (y.tokens.map Prod.fst) ∨
        x.label = .named .resetStatement ∧
          (y.tokens.map Prod.fst).getLast? = some (.symbol .semicolon)) := by
  constructor
  · intro hx hy
    obtain ⟨u, v, ts, hu, -, hparted, happ⟩ :=
      exists_parted h hn hparts hname hparen (.inl ⟨hx, hy⟩)
    obtain ⟨us, hts, hholds⟩ := hparted.expressions (hu.trans hx)
    exact (happ us hts).resolve_right (by simp [hholds])
  · intro hx hy
    obtain ⟨u, v, ts, hu, hv, hparted, happ⟩ :=
      exists_parted h hn hparts hname hparen (.inr ⟨hx, hy⟩)
    rw [← hu, Tree.isStatement_label] at hx
    rw [← hu, ← hv]
    rcases hparted.statements hx with ⟨us, hts, hholds⟩ | hreset
    · exact (happ us hts).imp_right fun h => .inl (hholds h)
    · exact .inr (.inr hreset)

/-- A name before a parenthesis that holds a word which cannot be an argument. -/
theorem called_or_setApart_of_not : ∃ (d : Document) (x y : Node) (s : Nat),
    ofSource? (Text.ofString "fun f()returns()let x=a (not)=c tel") = some d ∧
      x.label.isStatement = true ∧ y.label.isStatement = true ∧
      (s ∈ apartStarts (Text.ofString "fun f()returns()let x=a (not)=c tel") ∨
        Leaf.HoldOperator (y.tokens.map Prod.fst) ∨
        x.label = .named .resetStatement ∧
          (y.tokens.map Prod.fst).getLast? = some (.symbol .semicolon)) := by
  have hblock : (ofSource? (Text.ofString "fun f()returns()let x=a (not)=c tel")).bind
      (·.root.at? [5]) = some (.branch .block [
        .token (.keyword .let_) ⟨16, 19⟩,
        .branch .equationList [.branch .equation [
          .token (.name (.plain [120])) ⟨20, 21⟩,
          .token (.symbol .equal) ⟨21, 22⟩,
          .branch .expression [.branch .subExpression [.token (.name (.plain [97])) ⟨22, 23⟩]]]],
        .branch .equationList [.branch .equation [
          .token (.symbol .parenOpen) ⟨24, 25⟩,
          .token (.name (.keyword .not)) ⟨25, 28⟩,
          .token (.symbol .parenClose) ⟨28, 29⟩,
          .token (.symbol .equal) ⟨29, 30⟩,
          .branch .expression [.branch .subExpression [.token (.name (.plain [99])) ⟨30, 31⟩]]]],
        .token (.keyword .tel) ⟨32, 35⟩]) := by
    decide +kernel
  obtain ⟨d, hd, hat⟩ := Option.bind_eq_some_iff.mp hblock
  have := (called_or_setApart hd (Node.Contains.of_at? hat) (rfl : _ = [_] ++ _ :: _ :: [_])
    rfl rfl).2 rfl rfl
  exact ⟨d, _, _, _, hd, rfl, rfl, this⟩

/-- Two names that are not called though they are followed by parentheses: an argument, and the
signal of a `reset`. -/
theorem exists_not_called :
    (∃ (d : Document) (n x y : Node) (pre post : List Node) (name : Word) (s t : Span),
      ofSource? (Text.ofString "fun f()returns()let x=f(e,c(y),d(z))tel") = some d ∧
        d.root.Contains n ∧ n.label = .named .functionCall ∧ n.parts = pre ++ x :: y :: post ∧
        x.label = .named .expression ∧ y.label = .named .expression ∧
        x.tokens.getLast? = some (.name name, t) ∧
        y.tokens.head? = some (.symbol .parenOpen, s)) ∧
    ∃ (d : Document) (n x y : Node) (pre post : List Node) (name : Word) (s t : Span),
      ofSource? (Text.ofString "fun f()returns()let reset every a (b)=c;tel") = some d ∧
        d.root.Contains n ∧ n.parts = pre ++ x :: y :: post ∧
        x.label.isStatement = true ∧ y.label.isStatement = true ∧
        x.tokens.getLast? = some (.name name, t) ∧
        y.tokens.head? = some (.symbol .parenOpen, s) ∧
        ¬ Leaf.HoldOperator (y.tokens.map Prod.fst) := by
  constructor
  · -- the argument `y` is called, but `d` is not
    have hcall : (ofSource? (Text.ofString "fun f()returns()let x=f(e,c(y),d(z))tel")).bind
        (·.root.at? [5, 1, 0, 2, 0, 0]) = some (.branch .functionCall [
          .token (.name (.plain [102])) ⟨22, 23⟩,
          .token (.symbol .parenOpen) ⟨23, 24⟩,
          .branch .expression [.branch .subExpression [.token (.name (.plain [101])) ⟨24, 25⟩]],
          .token (.symbol .comma) ⟨25, 26⟩,
          .branch .expression [.branch .subExpression [.branch .functionCall [
            .token (.name (.plain [99])) ⟨26, 27⟩,
            .token (.symbol .parenOpen) ⟨27, 28⟩,
            .branch .expression [.branch .subExpression [.token (.name (.plain [121])) ⟨28, 29⟩]],
            .token (.symbol .parenClose) ⟨29, 30⟩]]],
          .token (.symbol .comma) ⟨30, 31⟩,
          .branch .expression [.branch .subExpression [.token (.name (.plain [100])) ⟨31, 32⟩]],
          .branch .expression [.branch .subExpression [
            .token (.symbol .parenOpen) ⟨32, 33⟩,
            .branch .expression [.branch .subExpression [.token (.name (.plain [122])) ⟨33, 34⟩]],
            .token (.symbol .parenClose) ⟨34, 35⟩]],
          .token (.symbol .parenClose) ⟨35, 36⟩]) := by
      decide +kernel
    obtain ⟨d, hd, hat⟩ := Option.bind_eq_some_iff.mp hcall
    exact ⟨d, _, _, _, [_, _, _, _, _, _], [_], _, _, _, hd, .of_at? hat, rfl, rfl, rfl, rfl, rfl, rfl⟩
  · -- the signal of the `reset` stands before a tuple of targets
    have hblock : (ofSource? (Text.ofString "fun f()returns()let reset every a (b)=c;tel")).bind
        (·.root.at? [5]) = some (.branch .block [
          .token (.keyword .let_) ⟨16, 19⟩,
          .branch .resetStatement [
            .token (.keyword .reset) ⟨20, 25⟩,
            .token (.keyword .every) ⟨26, 31⟩,
            .branch .expression [.branch .subExpression [.token (.name (.plain [97])) ⟨32, 33⟩]]],
          .branch .equationList [
            .branch .equation [
              .token (.symbol .parenOpen) ⟨34, 35⟩,
              .token (.name (.plain [98])) ⟨35, 36⟩,
              .token (.symbol .parenClose) ⟨36, 37⟩,
              .token (.symbol .equal) ⟨37, 38⟩,
              .branch .expression [
                .branch .subExpression [.token (.name (.plain [99])) ⟨38, 39⟩]]],
            .token (.symbol .semicolon) ⟨39, 40⟩],
          .token (.keyword .tel) ⟨40, 43⟩]) := by
      decide +kernel
    obtain ⟨d, hd, hat⟩ := Option.bind_eq_some_iff.mp hblock
    exact ⟨d, _, _, _, [_], [_], _, _, _, hd, .of_at? hat, rfl, rfl, rfl, rfl, rfl,
      by simp [Leaf.HoldOperator, Node.tokens, Node.tokensAll]⟩

end Document

end Heptagon
