import Heptagon.Proofs.Grammar.Spelling

/-!
# Checking derivations

Whether a tree is a derivation can be computed: `Rule.rests` matches a rule
against the labels of a row in all ways, and `Tree.checks` does so at every
node.  The check is sound (`Tree.derives_of_checks`); it is complete only up to
its depth, which is more than rows of the size of an example need.
-/

namespace Heptagon

namespace Rule

/-- The labels after a given one. -/
def drop (l : Label) : List Label → List (List Label)
  | [] => []
  | l' :: ls => if l' = l then [ls] else []

/-- What may be left of a row of labels after a row that the rule generates. -/
def rests : (depth : Nat) → Rule → List Label → List (List Label)
  | 0, _, _ => []
  | _ + 1, blank, ls => [ls]
  | _ + 1, keyword k, ls => drop (.literal k.spelling) ls
  | _ + 1, symbol s, ls => drop (.literal s.spelling) ls
  | _ + 1, ref (.node k), ls => drop (.named k) ls
  | n + 1, ref c, ls => rests n (Grammar.rule c) ls
  | n + 1, seq a b, ls => (rests n a ls).flatMap (rests n b)
  | n + 1, either a b, ls => rests n a ls ++ rests n b ls
  | n + 1, some r, ls => (rests n r ls).flatMap fun vs => vs :: rests n (some r) vs

theorem eq_of_mem_drop {l : Label} {ls vs : List Label} (h : vs ∈ drop l ls) : ls = l :: vs := by
  cases ls with
  | nil => simp [drop] at h
  | cons l' ls =>
      by_cases hl : l' = l
      · subst hl
        obtain rfl : vs = ls := by simpa [drop] using h
        rfl
      · simp [drop, hl] at h

/-- What is left of a row comes after a row that the rule generates. -/
theorem exists_of_mem_rests {n : Nat} {r : Rule} {ls vs : List Label} (h : vs ∈ rests n r ls) :
    ∃ us, ls = us ++ vs ∧ r.Generates id us := by
  induction n generalizing r ls vs with
  | zero => simp [rests] at h
  | succ n ih =>
      cases r with
      | blank => exact ⟨[], (List.mem_singleton.mp h).symm, .blank⟩
      | keyword k => exact ⟨[_], eq_of_mem_drop h, .keyword rfl⟩
      | symbol s => exact ⟨[_], eq_of_mem_drop h, .symbol rfl⟩
      | ref c =>
          cases c with
          | node k => exact ⟨[_], eq_of_mem_drop h, .node rfl⟩
          | _ =>
              obtain ⟨us, hus, hgenerates⟩ := ih h
              exact ⟨us, hus, .hidden rfl hgenerates⟩
      | seq a b =>
          obtain ⟨ws, hws, hvs⟩ := List.mem_flatMap.mp h
          obtain ⟨us, rfl, ha⟩ := ih hws
          obtain ⟨us', rfl, hb⟩ := ih hvs
          exact ⟨us ++ us', (List.append_assoc ..).symm, .seq ha hb⟩
      | either a b =>
          rcases List.mem_append.mp h with h | h
          · obtain ⟨us, hus, ha⟩ := ih h
            exact ⟨us, hus, .left ha⟩
          · obtain ⟨us, hus, hb⟩ := ih h
            exact ⟨us, hus, .right hb⟩
      | some r =>
          obtain ⟨ws, hws, hvs⟩ := List.mem_flatMap.mp h
          obtain ⟨us, rfl, hr⟩ := ih hws
          rcases List.mem_cons.mp hvs with rfl | hvs
          · exact ⟨us, rfl, .one hr⟩
          · obtain ⟨us', rfl, hs⟩ := ih hvs
            exact ⟨us ++ us', (List.append_assoc ..).symm, .more hr hs⟩

end Rule

namespace Tree

mutual

/-- Whether the tree is a derivation all of whose subtrees pass a check. -/
def checks (p : Tree → Bool) : Tree → Bool
  | leaf l => p (leaf l)
  | node k ts => p (node k ts) && Grammar.constructs.contains (.node k) &&
      (Rule.rests 32 (Grammar.rule (.node k)) (ts.map label)).contains [] && checksAll p ts

def checksAll (p : Tree → Bool) : List Tree → Bool
  | [] => true
  | t :: ts => t.checks p && checksAll p ts

end

mutual

theorem derives_of_checks {P : Tree → Prop} {p : Tree → Bool} (hp : ∀ t, p t = true → P t) :
    (t : Tree) → t.checks p = true → t.Derives P
  | leaf l, h => .leaf (hp _ h)
  | node k ts, h => by
      simp only [checks, Bool.and_eq_true, List.contains_iff_mem] at h
      obtain ⟨⟨⟨hself, hk⟩, hrests⟩, hall⟩ := h
      obtain ⟨us, hus, hgenerates⟩ := Rule.exists_of_mem_rests hrests
      rw [List.append_nil] at hus
      refine .node hk (hp _ hself) (hgenerates.of_map_eq ?_) (derives_of_checksAll hp ts hall)
      rw [← hus, List.map_id]

theorem derives_of_checksAll {P : Tree → Prop} {p : Tree → Bool} (hp : ∀ t, p t = true → P t) :
    (ts : List Tree) → checksAll p ts = true → ∀ t ∈ ts, t.Derives P
  | [], _ => by simp
  | t :: ts, h => by
      simp only [checksAll, Bool.and_eq_true] at h
      exact List.forall_mem_cons.mpr
        ⟨derives_of_checks hp t h.1, derives_of_checksAll hp ts h.2⟩

end

end Tree

/-! ## Spellings -/

/-- Whether a leaf is spelled as its label says, for names without quotes and numbers without
fractions, and a name is spelled like no keyword. -/
def Tree.isSpelled : Tree → Bool
  | leaf (.name n) => n.text.isWord isSmall isSmallBody && (Keyword.ofText? n.text).isNone
  | leaf (.variant t) => t.isWord isCapital isWordBody
  | leaf (.state s) => s.text.isWord (fun b => isSmall b || isCapital b) isWordBody
  | leaf (.number t) => t.isWord isDigit isDigit
  | _ => true

theorem Tree.spelled_of_isSpelled (t : Tree) (h : t.isSpelled = true) : t.Spelled := by
  cases t with
  | node k ts => trivial
  | leaf l =>
      cases l with
      | name n =>
          simp only [isSpelled, Bool.and_eq_true, Option.isNone_iff_eq_none] at h
          obtain ⟨hword, hkeyword⟩ := h
          obtain ⟨b, u, htext, hb, hu⟩ := Text.exists_of_isWord hword
          have htoken := Word.isToken_ofText hb hu
          refine ⟨⟨.identifier, rfl, ?_⟩, fun _ => hkeyword⟩
          have := htoken.2
          rwa [Word.text_ofText, ← htext] at this
      | variant t =>
          exact ⟨⟨.enumIdentifier, rfl, mem_enumIdentifier_iff.mpr (Text.exists_of_isWord h)⟩,
            nofun⟩
      | state s =>
          exact ⟨⟨.stateIdentifier, rfl, mem_stateIdentifier_iff.mpr (Text.exists_of_isWord h)⟩,
            nofun⟩
      | number t =>
          obtain ⟨b, u, rfl, hb, hu⟩ := Text.exists_of_isWord h
          exact ⟨⟨.lNumber, rfl, (Language.mem_add _ _ _).mpr
            (.inr (Pattern.cons_mem_someBytes hb hu))⟩, nofun⟩
      | keyword k => exact ⟨rfl, nofun⟩
      | symbol s => exact ⟨rfl, nofun⟩

end Heptagon
