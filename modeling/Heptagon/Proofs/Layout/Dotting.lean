import Heptagon.Proofs.Layout.Respelling

/-!
# Scanning a text with a point behind an operator

An operator with a point is the longest symbol wherever it stands
(`Item.first?_of_dotted?`), and a symbol before it does not see the point: the
byte behind a symbol decides whether it is over (`Symbol.first?_congr_of_head?`).
So if a point is put behind an operator, the other items stay (`scan_dotted`).
-/

namespace Heptagon

namespace Symbol

/-- The operator with a point behind it, if the language has this one. -/
def dotted? : Symbol → Option Symbol
  | plus => some plusDot | minus => some minusDot | star => some starDot | slash => some slashDot
  | equal => some equalDot | less => some lessDot | greater => some greaterDot
  | atMost => some atMostDot
  | _ => none

variable {s s' q : Symbol} {t rest rest' : Text}

theorem text_of_dotted? (h : s.dotted? = some s') : s'.text = s.text ++ [46] := by
  cases s <;> simp [dotted?] at h <;> (subst h; decide)

theorem text_inj (h : s.text = q.text) : s = q := by
  have hinj : ∀ s ∈ all, ∀ q ∈ all, s.text = q.text → s = q := by decide +kernel
  exact hinj s s.mem_all q q.mem_all h

/-- The symbol at the front of a text is the longest one that fits. -/
theorem first?_eq_some_iff : first? t = some s ↔
    s.text <+: t ∧ ∀ q : Symbol, q.text <+: t → q.text.length ≤ s.text.length := by
  have hordered : all.Pairwise fun a b => a.text.isPrefixOf b.text = false := by decide +kernel
  have hlongest : ∀ {s}, first? t = some s →
      ∀ q : Symbol, q.text <+: t → q.text.length ≤ s.text.length := by
    intro s h q hq
    have hs := List.isPrefixOf_iff_prefix.mp (isPrefixOf_of_first? h)
    obtain ⟨-, before, after, hall, hbefore⟩ := List.find?_eq_some_iff_append.mp h
    have hmem := q.mem_all
    rw [hall] at hmem hordered
    rcases List.mem_append.mp hmem with hmem | hmem
    · have hnot := hbefore q hmem
      simp [List.isPrefixOf_iff_prefix.mpr hq] at hnot
    · rcases List.mem_cons.mp hmem with rfl | hmem
      · exact le_rfl
      · -- a later symbol does not go on with this one
        have hnot := (List.pairwise_cons.mp (List.pairwise_append.mp hordered).2.1).1 q hmem
        rcases List.prefix_or_prefix_of_prefix hq hs with hle | hle
        · exact hle.length_le
        · simp [List.isPrefixOf_iff_prefix.mpr hle] at hnot
  refine ⟨fun h => ⟨List.isPrefixOf_iff_prefix.mp (isPrefixOf_of_first? h), hlongest h⟩, ?_⟩
  rintro ⟨hs, hmax⟩
  obtain ⟨q, hq⟩ : ∃ q, first? t = some q := by
    rw [← Option.isSome_iff_exists, first?, List.find?_isSome]
    exact ⟨s, s.mem_all, List.isPrefixOf_iff_prefix.mpr hs⟩
  have hqt := List.isPrefixOf_iff_prefix.mp (isPrefixOf_of_first? hq)
  have hlength := le_antisymm (hlongest hq s hs) (hmax q hqt)
  have hpre := List.prefix_of_prefix_length_le hs hqt hlength.le
  rw [hq, text_inj (hpre.eq_of_length hlength)]

/-- Whether a symbol goes on is decided by the byte behind it. -/
theorem first?_congr_of_head? (h : first? (s.text ++ rest) = some s)
    (hhead : rest'.head? = rest.head?) : first? (s.text ++ rest') = some s := by
  have hgrow : ∀ s ∈ all, ∀ q ∈ all, s.text.isPrefixOf q.text = true →
      s.text.length < q.text.length →
      ∃ p ∈ all, p.text = q.text.take (s.text.length + 1) := by decide +kernel
  refine first?_eq_some_iff.mpr ⟨List.prefix_append _ _, fun q hq => ?_⟩
  by_contra hlt
  have hlt : s.text.length < q.text.length := Nat.lt_of_not_le hlt
  have hprefix : s.text <+: q.text :=
    List.prefix_of_prefix_length_le (List.prefix_append _ _) hq hlt.le
  obtain ⟨p, -, hp⟩ := hgrow s s.mem_all q q.mem_all (List.isPrefixOf_iff_prefix.mpr hprefix) hlt
  -- the symbol that is one byte longer fits in the one text as in the other
  obtain ⟨u, hu⟩ := hprefix
  obtain ⟨b, u, rfl⟩ : ∃ b v, u = b :: v := by
    refine List.exists_cons_of_ne_nil ?_
    rintro rfl
    simp [← hu] at hlt
  have hb : rest'.head? = some b := by
    rw [← hu, List.prefix_append_right_inj] at hq
    obtain ⟨v, rfl⟩ := hq
    rfl
  obtain ⟨r, rfl⟩ := List.head?_eq_some_iff.mp (hhead.symm.trans hb)
  have hp : p.text = s.text ++ [b] := by
    rw [hp, ← hu, List.take_length_add_append]
    rfl
  have hle := (first?_eq_some_iff.mp h).2 p (by rw [hp]; exact ⟨r, by simp⟩)
  rw [hp, List.length_append, List.length_singleton] at hle
  omega

end Symbol

section

variable {s s' : Symbol}

theorem Item.first?_of_dotted? (h : s.dotted? = some s') (rest : Text) :
    first? (s'.text ++ rest) = some (.lexeme (.symbol s'), s'.text, rest) := by
  cases s <;> simp only [Symbol.dotted?, Option.some.injEq, reduceCtorEq] at h <;> (subst h; rfl)

/-- What ends before an operator ends before the operator with a point. -/
theorem Text.ends_of_dotted? (h : s.dotted? = some s') (u rest : Text) :
    Text.EndsWords (u ++ (s.text ++ rest)) (u ++ (s'.text ++ rest)) ∧
      Text.EndsSymbols (u ++ (s.text ++ rest)) (u ++ (s'.text ++ rest)) := by
  obtain ⟨b, t, htext, hpoint⟩ : ∃ b t, s.text = b :: t ∧ b ≠ 46 := by
    cases s <;> simp only [Symbol.dotted?, reduceCtorEq] at h <;> exact ⟨_, _, rfl, by decide⟩
  rw [Symbol.text_of_dotted? h, htext]
  have hhead : (u ++ (b :: t ++ [46] ++ rest)).head? = (u ++ (b :: t ++ rest)).head? := by
    cases u <;> rfl
  refine ⟨⟨fun p _ hp c hc => hp c (hhead ▸ hc), fun hfraction d hd => hfraction d ?_⟩,
    fun q hq => Symbol.first?_congr_of_head? hq hhead, fun hstar => hhead ▸ hstar⟩
  -- the two bytes of a fraction are the same in both texts
  cases u with
  | nil => exact absurd (List.cons_prefix_cons.mp hd).1.symm hpoint
  | cons c u =>
      cases u with
      | nil => simpa using hd
      | cons e u => simpa using hd

/-- If a point is put behind an operator, the items before it stay and those behind it move. -/
theorem scan_dotted {source : Text} {before after : List (Placed Item)} {span : Span}
    (h : scan source = some (before ++ (Lexeme.items span.start (Leaf.symbol s).lexemes ++ after)))
    (hstop : span.stop = span.start + s.text.length) (hdot : s.dotted? = some s') :
    scan (source.replace span s'.text) = some (before ++
      (Lexeme.items span.start (Leaf.symbol s').lexemes ++
        after.map (Placed.carry (Text.moved span s'.text) (Text.moved span s'.text)))) := by
  have hsymbol := Item.first?_of_dotted? hdot (source.drop span.stop)
  refine scan_exchanged h hstop (fun v taken u x _ hfirst => ?_) fun hitems =>
    .lexeme_of_first? (x := .symbol s') hsymbol hitems
  obtain ⟨hwords, hsymbols⟩ := Text.ends_of_dotted? hdot u (source.drop span.stop)
  exact Item.first?_lexeme_of_ends hfirst (fun _ => hwords) hsymbols

end

end Heptagon
