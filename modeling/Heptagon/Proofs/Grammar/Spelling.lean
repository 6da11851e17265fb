import Heptagon.Proofs.Grammar.Meaning
import Heptagon.Proofs.Grammar.Tokens

/-!
# Leaves that are spelled as their labels say

A leaf keeps how it is written with lexemes, and one text may be cut into
lexemes in several ways.  A tree whose leaves are only known to be spelled as
their labels say has the labels and texts of one whose leaves are tokens
(`Tree.exists_written`): words are keywords or not as their spelling tells, and the
name of a state is cut where its first capital letter stands.
-/

namespace Heptagon

open TokenClass

/-- A leaf is spelled as its label says, and a name like no keyword. -/
def Tree.Spelled : Tree → Prop
  | leaf l => l.label.Spells l.text ∧
      (l.label = .named .identifier → Keyword.ofText? l.text = none)
  | _ => True

/-- A leaf is a token, and a name is spelled like no keyword. -/
def Tree.Written : Tree → Prop
  | leaf l => l.IsToken ∧ (leaf l).Plain
  | _ => True

theorem Label.spells_named_iff {c : TokenClass} {t : Text} :
    (Label.named c.kind).Spells t ↔ t ∈ c.pattern := by
  constructor
  · rintro ⟨c', hkind, ht⟩
    obtain rfl : c' = c := by cases c <;> cases c' <;> first | rfl | cases hkind
    exact ht
  · exact fun ht => ⟨c, rfl, ht⟩

/-! ## Words -/

/-- A byte of a first class, and bytes of another one after it. -/
def Text.isWord (first others : UInt8 → Bool) : Text → Bool
  | [] => false
  | b :: t => first b && t.all others

theorem Text.exists_of_isWord {p q : UInt8 → Bool} {t : Text} (h : t.isWord p q = true) :
    ∃ b u, t = b :: u ∧ p b = true ∧ ∀ c ∈ u, q c = true := by
  cases t with
  | nil => simp [isWord] at h
  | cons b u =>
      simp only [isWord, Bool.and_eq_true, List.all_eq_true] at h
      exact ⟨b, u, rfl, h.1, h.2⟩

theorem Word.isToken_ofText {b : UInt8} {t : Text} (hb : isSmall b = true)
    (ht : ∀ c ∈ t, isSmallBody c = true) : (Lexeme.word (ofText (b :: t))).IsToken := by
  refine ⟨by rw [text_ofText], ?_⟩
  rw [text_ofText]
  exact mem_identifier_iff.mpr ⟨b, t, [], by simp, hb, ht, by simp⟩

theorem Word.quoted_ofText {b : UInt8} {t : Text} (hb : isSmall b = true)
    (ht : ∀ c ∈ t, isSmallBody c = true) : (ofText (b :: t)).quoted = false := by
  have hquote : ∀ c ∈ b :: t, ¬isQuote c = true := by
    intro c hc hquote
    have hbody : isSmallBody c = true := by
      rcases List.mem_cons.mp hc with rfl | hc
      · simp [isSmallBody, hb]
      · exact ht c hc
    obtain rfl : c = 39 := by simpa [isQuote] using hquote
    exact absurd hbody (by decide)
  simpa [quoted] using hquote

theorem Keyword.isToken (k : Keyword) : (Lexeme.kw k).IsToken := by
  have hword : Word.ofText k.text = .keyword k := by rw [Word.ofText, ofText?_text]
  have hall : ∀ k ∈ all, k.text.isWord isSmall isSmallBody = true := by decide +kernel
  obtain ⟨b, t, htext, hb, ht⟩ := Text.exists_of_isWord (hall k k.mem_all)
  have htoken := Word.isToken_ofText hb ht
  rwa [← htext, hword] at htoken

/-! ## Names of states -/

theorem isSmallBody_of_isCapital {b : UInt8} (h : isCapital b = true) : isSmallBody b = false := by
  have hb : 65 ≤ b.toNat ∧ b.toNat ≤ 90 := by simpa [isCapital, UInt8.le_iff_toNat_le] using h
  have hsmall : isSmall b = false := by
    simp [isSmall, UInt8.le_iff_toNat_le]
    omega
  have hdigit : isDigit b = false := by
    simp [isDigit, UInt8.le_iff_toNat_le]
    omega
  have hunderscore : isUnderscore b = false := by
    simp [isUnderscore, ← UInt8.toNat_inj]
    omega
  simp [isSmallBody, hsmall, hdigit, hunderscore]

/-- The name of a state as it is scanned: it is cut where its first capital letter stands. -/
def StateName.ofText (t : Text) : StateName :=
  match t.takeWhile isSmallBody, t.dropWhile isSmallBody with
  | [], _ => .capital t
  | front, [] => .small (.ofText front)
  | front, rest => .mixed (.ofText front) rest

@[simp] theorem StateName.text_ofText (t : Text) : (ofText t).text = t := by
  have hsplit : t.takeWhile isSmallBody ++ t.dropWhile isSmallBody = t :=
    List.takeWhile_append_dropWhile
  unfold ofText
  split
  · rfl
  · next hrest _ =>
      rw [hrest, List.append_nil] at hsplit
      exact (Word.text_ofText _).trans hsplit
  · rw [text, Word.text_ofText, hsplit]

theorem StateName.isToken_ofText {t : Text} (h : t ∈ stateIdentifier.pattern) :
    (ofText t).Normal ∧ ∀ x ∈ (ofText t).lexemes, x.IsToken := by
  obtain ⟨b, u, rfl, hb, hu⟩ := mem_stateIdentifier_iff.mp h
  by_cases hcapital : isCapital b = true
  · have hbody : isSmallBody b = false := isSmallBody_of_isCapital hcapital
    have heq : ofText (b :: u) = .capital (b :: u) := by simp [ofText, hbody]
    rw [heq]
    exact ⟨trivial,
      List.forall_mem_singleton.mpr (mem_enumIdentifier_iff.mpr ⟨b, u, rfl, hcapital, hu⟩)⟩
  · have hsmall : isSmall b = true := by simpa [hcapital] using hb
    have hbody : isSmallBody b = true := by simp [isSmallBody, hsmall]
    have hfront : ∀ c ∈ u.takeWhile isSmallBody, isSmallBody c = true := fun c hc =>
      List.mem_takeWhile_imp hc
    have htoken := Word.isToken_ofText hsmall hfront
    have hquoted := Word.quoted_ofText hsmall hfront
    cases hrest : u.dropWhile isSmallBody with
    | nil =>
        have heq : ofText (b :: u) = .small (.ofText (b :: u.takeWhile isSmallBody)) := by
          simp [ofText, hbody, hrest]
        rw [heq]
        exact ⟨hquoted, List.forall_mem_singleton.mpr htoken⟩
    | cons c v =>
        have heq : ofText (b :: u) =
            .mixed (.ofText (b :: u.takeWhile isSmallBody)) (c :: v) := by
          simp [ofText, hbody, hrest]
        -- the first byte that is no small one is a capital letter
        have hc : isSmallBody c = false := by
          have hnot := List.head?_dropWhile_not isSmallBody u
          simpa [hrest] using hnot
        rw [← List.takeWhile_append_dropWhile (p := isSmallBody) (l := u), hrest] at hu
        obtain ⟨hword, hv⟩ := List.forall_mem_cons.mp (List.forall_mem_append.mp hu).2
        have hcapital : isCapital c = true := by simpa [isWordBody, hc] using hword
        rw [heq]
        refine ⟨hquoted, ?_⟩
        simp only [lexemes, List.forall_mem_cons, List.not_mem_nil, false_implies, implies_true,
          and_true]
        exact ⟨htoken, mem_enumIdentifier_iff.mpr ⟨c, v, rfl, hcapital, hv⟩⟩

/-! ## Leaves and trees -/

/-- The token with the label and the text of a leaf. -/
def Leaf.token : Leaf → Leaf
  | .name n => .name (.ofText n.text)
  | .state s => .state (.ofText s.text)
  | l => l

namespace Leaf

@[simp] theorem label_token (l : Leaf) : l.token.label = l.label := by cases l <;> rfl

@[simp] theorem text_token (l : Leaf) : l.token.text = l.text := by
  cases l with
  | name n => exact Word.text_ofText n.text
  | state s => exact StateName.text_ofText s.text
  | _ => rfl

/-- A leaf that is spelled as its label says has the label and the text of a token. -/
theorem written_token {l : Leaf} (h : (Tree.leaf l).Spelled) : (Tree.leaf l.token).Written := by
  obtain ⟨hspells, hname⟩ := h
  have hspells' : l.token.label.Spells l.token.text := by rwa [label_token, text_token]
  cases l with
  | name n =>
      have hpattern : n.text ∈ identifier.pattern := Label.spells_named_iff.mp hspells
      have hnone : Keyword.ofText? n.text = none := hname rfl
      have hword : Word.ofText n.text = .plain n.text := by rw [Word.ofText, hnone]
      rw [token, hword] at hspells' ⊢
      exact ⟨⟨List.forall_mem_singleton.mpr ⟨hword.symm, hpattern⟩, hspells'⟩, rfl⟩
  | variant t =>
      have hpattern : t ∈ enumIdentifier.pattern := Label.spells_named_iff.mp hspells
      exact ⟨⟨List.forall_mem_singleton.mpr hpattern, hspells⟩, trivial⟩
  | number t =>
      have hpattern : t ∈ lNumber.pattern := Label.spells_named_iff.mp hspells
      exact ⟨⟨List.forall_mem_singleton.mpr hpattern, hspells⟩, trivial⟩
  | state s =>
      have hpattern : s.text ∈ stateIdentifier.pattern := Label.spells_named_iff.mp hspells
      obtain ⟨hnormal, hlexemes⟩ := StateName.isToken_ofText hpattern
      exact ⟨⟨hlexemes, hspells'⟩, hnormal⟩
  | keyword k => exact ⟨⟨List.forall_mem_singleton.mpr k.isToken, hspells⟩, trivial⟩
  | symbol s => exact ⟨⟨List.forall_mem_singleton.mpr trivial, hspells⟩, trivial⟩

end Leaf

namespace Tree

mutual

/-- The tree with tokens for its leaves. -/
def tokenized : Tree → Tree
  | leaf l => leaf l.token
  | node k ts => node k (tokenizedAll ts)

def tokenizedAll : List Tree → List Tree
  | [] => []
  | t :: ts => t.tokenized :: tokenizedAll ts

end

theorem tokenizedAll_eq_map (ts : List Tree) : tokenizedAll ts = ts.map tokenized := by
  induction ts with
  | nil => rfl
  | cons t ts ih => rw [tokenizedAll, ih, List.map_cons]

@[simp] theorem label_tokenized (t : Tree) : t.tokenized.label = t.label := by
  cases t with
  | leaf l => exact l.label_token
  | node k ts => rfl

mutual

@[simp] theorem leaves_tokenized : (t : Tree) → t.tokenized.leaves = t.leaves.map Leaf.token
  | leaf _ => rfl
  | node _ ts => leavesAll_tokenizedAll ts

@[simp] theorem leavesAll_tokenizedAll : (ts : List Tree) →
    leavesAll (tokenizedAll ts) = (leavesAll ts).map Leaf.token
  | [] => rfl
  | t :: ts => by
      rw [tokenizedAll, leavesAll, leavesAll, leaves_tokenized t, leavesAll_tokenizedAll ts,
        List.map_append]

end

/-- The texts of the leaves stay. -/
theorem map_text_leaves_tokenized (t : Tree) :
    t.tokenized.leaves.map Leaf.text = t.leaves.map Leaf.text := by
  simp

/-- A derivation that is spelled as its labels say is one with tokens for its leaves. -/
theorem Derives.tokenized {P Q : Tree → Prop} {t : Tree} (h : t.Derives P)
    (hPQ : ∀ u, P u → Q u.tokenized) : t.tokenized.Derives Q := by
  induction h with
  | leaf h => exact .leaf (hPQ _ h)
  | @node k children hk h hrule _ ih =>
      refine .node hk (hPQ _ h) (hrule.of_map_eq ?_) ?_
      · simp [tokenizedAll_eq_map]
      · simpa [tokenizedAll_eq_map] using ih

theorem Spelled.written {t : Tree} (h : t.Spelled) : t.tokenized.Written := by
  cases t with
  | leaf l => exact Leaf.written_token h
  | node k ts => trivial

/-- A derivation that is spelled as its labels say has the labels and texts of one with tokens. -/
theorem exists_written {t : Tree} (h : t.Derives Spelled) :
    ∃ t' : Tree, t'.Derives Written ∧ t'.label = t.label ∧
      t'.leaves.map Leaf.text = t.leaves.map Leaf.text :=
  ⟨t.tokenized, h.tokenized fun _ => Spelled.written, t.label_tokenized,
    t.map_text_leaves_tokenized⟩

end Tree

/-- What is said of all subtrees may be weakened. -/
theorem Tree.Derives.mono {P Q : Tree → Prop} {t : Tree} (h : t.Derives P)
    (hPQ : ∀ u, P u → Q u) : t.Derives Q := by
  induction h with
  | leaf h => exact .leaf (hPQ _ h)
  | node hk h hrule _ ih => exact .node hk (hPQ _ h) hrule ih

theorem Tree.Written.plain {t : Tree} (h : t.Written) : t.Plain := by
  cases t with
  | leaf l => exact h.2
  | node k ts => trivial

/-- What is said of all subtrees is said of the leaves. -/
theorem Tree.Derives.of_mem_leaves {P : Tree → Prop} {t : Tree} (h : t.Derives P) :
    ∀ l ∈ t.leaves, P (.leaf l) := by
  induction h with
  | leaf h => simpa [leaves] using h
  | @node k children _ _ _ _ ih =>
      rw [leaves]
      clear * - ih
      induction children with
      | nil => simp [leavesAll]
      | cons t ts ihs =>
          obtain ⟨ht, hts⟩ := List.forall_mem_cons.mp ih
          rw [leavesAll]
          exact List.forall_mem_append.mpr ⟨ht, ihs hts⟩

theorem Tree.Derives.leaves_isToken {t : Tree} (h : t.Derives Tree.Written) :
    ∀ l ∈ t.leaves, l.IsToken := fun l hl => (h.of_mem_leaves l hl).1

end Heptagon
