import Heptagon.Proofs.Division.Reaching
import Heptagon.Proofs.Document.Reading
import Heptagon.Proofs.Grammar.Spelling
import Heptagon.Proofs.Respelling.Following

/-!
# Definition by definition

Which parentheses of a program open no call is found definition by definition.

* A program is still read when these parentheses are set apart, because each of
  its definitions is (`Program.exists_separateAt_parensIn`).
* Those of two programs, one behind the other, are those of the first and those
  of the second (`Program.parensIn_append`), and the comments before the first
  definition make no difference (`Program.parensIn_cons`).
-/

namespace Heptagon

/-! ## Places in two texts -/

namespace Lexeme

theorem separateAt_congr {places places' : List Nat} {i i' : Nat} {ts : List Lexeme}
    (h : ∀ j < ts.length, i + j ∈ places ↔ i' + j ∈ places') :
    separateAt places i ts = separateAt places' i' ts := by
  induction ts generalizing i i' with
  | nil => rfl
  | cons t ts ih =>
      have hhead : places.contains i = places'.contains i' := by
        rw [Bool.eq_iff_iff, List.contains_iff_mem, List.contains_iff_mem]
        exact h 0 (Nat.succ_pos _)
      have hmore : ∀ j < ts.length, i + 1 + j ∈ places ↔ i' + 1 + j ∈ places' := fun j hj => by
        simpa only [Nat.add_assoc, Nat.add_comm 1 j] using h (j + 1) (Nat.succ_lt_succ hj)
      rw [separateAt, separateAt, hhead, ih hmore]

/-- The parentheses of two texts are set apart in each of them. -/
theorem separateAt_append_map {places places' : List Nat} {ts : List Lexeme}
    (h : ∀ i ∈ places, i < ts.length) (us : List Lexeme) :
    separateAt (places ++ places'.map (ts.length + ·)) 0 (ts ++ us) =
      separateAt places 0 ts ++ separateAt places' 0 us := by
  rw [separateAt_append]
  refine congrArg₂ _ (separateAt_congr fun j hj => ?_) (separateAt_congr fun j _ => ?_)
  · have hnot : j ∉ places'.map (ts.length + ·) := by
      rw [List.mem_map]
      rintro ⟨k, -, rfl⟩
      omega
    simp [hnot]
  · have hnot : ts.length + j ∉ places := fun hmem => by
      have := h _ hmem
      omega
    simp [hnot]

end Lexeme

namespace Units

theorem separateAt_congr {places places' : List Nat} {i i' : Nat} {us : Units}
    (h : ∀ j < us.length, i + j ∈ places ↔ i' + j ∈ places') :
    us.separateAt places i = us.separateAt places' i' := by
  induction us generalizing i i' with
  | nil => rfl
  | cons u us ih =>
      have hhead : i ∈ places ↔ i' ∈ places' := h 0 (Nat.succ_pos _)
      have hmore : ∀ j < us.length, i + 1 + j ∈ places ↔ i' + 1 + j ∈ places' := fun j hj => by
        simpa only [Nat.add_assoc, Nat.add_comm 1 j] using h (j + 1) (Nat.succ_lt_succ hj)
      rw [separateAt, separateAt, ih hmore]
      simp only [hhead]

/-- The units of two texts that are set apart, as units of both together. -/
theorem separateAt_append (places places' : List Nat) (us vs : Units) :
    Units.separateAt (places.filter (· < us.length) ++ places'.map (us.length + ·)) 0 (us ++ vs) =
      us.separateAt places 0 ++ vs.separateAt places' 0 := by
  have hsplit : ∀ (ps : List Nat) (i : Nat) (us vs : Units),
      Units.separateAt ps i (us ++ vs) = us.separateAt ps i ++ vs.separateAt ps (i + us.length) := by
    intro ps i us vs
    induction us generalizing i with
    | nil => rfl
    | cons u us ih =>
        rw [List.cons_append, separateAt, ih, separateAt, List.length_cons, List.cons_append,
          Nat.add_right_comm, Nat.add_assoc]
  rw [hsplit]
  refine congrArg₂ _ (separateAt_congr fun j hj => ?_) (separateAt_congr fun j _ => ?_)
  · have hnot : j ∉ places'.map (us.length + ·) := by
      rw [List.mem_map]
      rintro ⟨k, -, rfl⟩
      omega
    simp [hnot, hj]
  · simp

end Units

theorem tokenStart_append (ws vs : List Nat) (i : Nat) :
    tokenStart (ws ++ vs) (ws.length + i) = tokenStart ws ws.length + tokenStart vs i := by
  induction ws with
  | nil => simp
  | cons w ws ih =>
      rw [List.cons_append, List.length_cons, Nat.add_right_comm, tokenStart, tokenStart, ih,
        Nat.add_assoc]

theorem tokenStart_append_of_le {ws : List Nat} (vs : List Nat) {i : Nat} (h : i ≤ ws.length) :
    tokenStart (ws ++ vs) i = tokenStart ws i := by
  induction ws generalizing i with
  | nil =>
      obtain rfl : i = 0 := Nat.le_zero.mp h
      simp
  | cons w ws ih =>
      cases i with
      | zero => rfl
      | succ i => rw [List.cons_append, tokenStart, tokenStart, ih (Nat.le_of_succ_le_succ h)]

/-- Behind the last token of a text is its end. -/
theorem Units.tokenStart_length (us : Units) :
    tokenStart (us.map List.length) us.length = us.flatten.length := by
  induction us with
  | nil => rfl
  | cons u us ih =>
      rw [List.map_cons, List.length_cons, tokenStart, ih, List.flatten_cons, List.length_append]

/-- What is said of the lexemes that tokens start with, in the first part of a text. -/
theorem getD_take_tokenStart (counts : List Nat) {ws : List Nat} (h : ∀ w ∈ ws, 0 < w)
    (vs : List Nat) (i : Nat) : (counts.take (tokenStart ws ws.length)).getD (tokenStart ws i) 0 =
      if i < ws.length then counts.getD (tokenStart (ws ++ vs) i) 0 else 0 := by
  have hmono := strictMono_tokenStart h
  split
  · next hi =>
      rw [tokenStart_append_of_le vs hi.le, List.getD_eq_getElem?_getD, List.getElem?_take_of_lt
        (hmono hi), ← List.getD_eq_getElem?_getD]
  · next hi =>
      rw [List.getD_eq_getElem?_getD, List.getElem?_take_eq_none
        (hmono.monotone (Nat.le_of_not_lt hi))]
      rfl

/-- What is said of them in the rest of the text. -/
theorem getD_drop_tokenStart (counts ws vs : List Nat) (i : Nat) :
    (counts.drop (tokenStart ws ws.length)).getD (tokenStart vs i) 0 =
      counts.getD (tokenStart (ws ++ vs) (ws.length + i)) 0 := by
  rw [tokenStart_append, List.getD_eq_getElem?_getD, List.getD_eq_getElem?_getD, List.getElem?_drop]

/-! ## Definitions -/

namespace Definition

variable {d d' : Definition} {us : List Lexeme} {counts counts' : List Nat}

theorem widthAll_trees (d : Definition) : Tree.widthAll d.trees = d.units.flatten.length := by
  rw [Tree.widthAll_eq_length, d.unitsAll_trees, Units.flatten_shown, List.length_map]

theorem wide_trees (h : d.Fits us) : ∀ t ∈ d.trees, t.Wide := fun t ht =>
  (d.derives_trees h t ht).wide (d.full_trees h t ht)

/-- The parentheses of a definition are among its lexemes. -/
theorem lt_of_mem_parens (h : d.Fits us) {lexemes : List Lexeme} {i : Nat}
    (hi : i ∈ d.parens counts lexemes) : i < d.units.flatten.length := by
  simp only [parens] at hi
  split at hi
  · rw [← d.widthAll_trees]
    exact Tree.lt_widthAll_of_mem_parens (wide_trees h) hi
  · simp at hi

theorem fits_nil (h : d.Fits us) : d.Fits [] := h.congr fun _ => Program.flatten_units_ne []

/-- A definition is still read when its parentheses that open no call are set apart. -/
theorem exists_separateAt_parens (h : d.Fits us) (counts : List Nat) :
    ∃ d' : Definition, d'.Fits [] ∧
      Lexeme.separateAt (d.parens counts d.units.flatten) 0 d.units.flatten = d'.units.flatten := by
  simp only [parens]
  split
  · next htext =>
      obtain ⟨d', hd', hfits⟩ := isText_iff.mp htext
      exact ⟨d', hfits, hd'⟩
  · exact ⟨d, fits_nil h, Lexeme.separateAt_nil _ _⟩

theorem exists_trees_eq_kw (d : Definition) : ∃ k ts, d.trees = .kw k :: ts := by
  cases d <;> exact ⟨_, _, rfl⟩

/-- The comments before a definition make no difference. -/
theorem parens_cons (c c' : Nat) (cs : List Nat) (lexemes : List Lexeme) (d : Definition) :
    d.parens (c :: cs) lexemes = d.parens (c' :: cs) lexemes := by
  obtain ⟨k, ts, htrees⟩ := d.exists_trees_eq_kw
  simp only [parens, htrees]
  rw [Tree.parens_congr _ k ts fun i hi => ?_]
  obtain ⟨i, rfl⟩ : ∃ j, i = j + 1 := ⟨i - 1, by omega⟩
  simp [Array.getD_eq_getD_getElem?]

end Definition

/-! ## Programs -/

namespace Program

variable {p q : Program} {counts counts' : List Nat} {lexemes lexemes' : List Lexeme}

theorem units_cons (d : Definition) (p : Program) : units (d :: p) = d.units ++ p.units :=
  List.flatMap_cons

/-- In a text of two parts, the parentheses of the first definition are those in the first part. -/
theorem parensIn_cons_of_eq {d : Definition} (hlexemes : lexemes = d.units.flatten ++ lexemes') :
    parensIn counts lexemes (d :: p) = d.parens (counts.take d.units.flatten.length) d.units.flatten ++
      (parensIn (counts.drop d.units.flatten.length) lexemes' p).map
        (d.units.flatten.length + ·) := by
  rw [parensIn, d.widthAll_trees, hlexemes, List.take_left, List.drop_left]

/-- The parentheses of a program are among its lexemes. -/
theorem lt_of_mem_parensIn (h : p.Fits) {i : Nat} (hi : i ∈ p.parensIn counts p.units.flatten) :
    i < p.units.flatten.length := by
  induction p generalizing counts i with
  | nil => simp [parensIn] at hi
  | cons d p ih =>
      rw [units_cons, List.flatten_append] at hi ⊢
      rw [parensIn_cons_of_eq rfl] at hi
      rw [List.length_append]
      rcases List.mem_append.mp hi with hi | hi
      · exact (Definition.lt_of_mem_parens h.1 hi).trans_le (Nat.le_add_right _ _)
      · obtain ⟨j, hj, rfl⟩ := List.mem_map.mp hi
        exact Nat.add_lt_add_left (ih h.2 hj) _

/-- The parentheses of two programs, one behind the other, are those of each of them. -/
theorem parensIn_append (hcounts : counts.length = p.units.flatten.length) :
    parensIn (counts ++ counts') (p.units.flatten ++ lexemes) (p ++ q) =
      parensIn counts p.units.flatten p ++
        (parensIn counts' lexemes q).map (p.units.flatten.length + ·) := by
  induction p generalizing counts with
  | nil =>
      obtain rfl := List.length_eq_zero_iff.mp hcounts
      simp [parensIn, units]
  | cons d p ih =>
      rw [units_cons, List.flatten_append] at hcounts ⊢
      rw [List.length_append] at hcounts
      have hle : d.units.flatten.length ≤ counts.length := by omega
      rw [List.append_assoc, List.cons_append, parensIn_cons_of_eq rfl, parensIn_cons_of_eq rfl,
        List.take_append_of_le_length hle, List.drop_append_of_le_length hle,
        ih (by rw [List.length_drop]; omega), List.map_append, List.map_map, List.append_assoc,
        List.length_append]
      simp only [Function.comp_def, Nat.add_assoc]

/-- The comments before a program make no difference. -/
theorem parensIn_cons (c c' : Nat) (cs : List Nat) (lexemes : List Lexeme) (p : Program) :
    parensIn (c :: cs) lexemes p = parensIn (c' :: cs) lexemes p := by
  cases p with
  | nil => rfl
  | cons d p =>
      have hpos : d.units.flatten.length ≠ 0 := Nat.pos_iff_ne_zero.mp d.one_le_length_units
      obtain ⟨n, hn⟩ := Nat.exists_eq_succ_of_ne_zero hpos
      rw [parensIn, parensIn, d.widthAll_trees, hn, List.take_succ_cons, List.take_succ_cons,
        Definition.parens_cons c c', List.drop_succ_cons, List.drop_succ_cons]

/-- A program is still read when its parentheses that open no call are set apart, each of its
definitions as a definition in as many lexemes. -/
theorem exists_separateAt_parensIn (h : p.Fits) (counts : List Nat) :
    ∃ r : Program, r.Fits ∧ Lexeme.separateAt (p.parensIn counts p.units.flatten) 0 p.units.flatten =
        r.units.flatten ∧
      List.Forall₂ (fun d d' : Definition => d'.units.flatten.length = d.units.flatten.length) p r := by
  induction p generalizing counts with
  | nil => exact ⟨[], trivial, rfl, .nil⟩
  | cons d p ih =>
      obtain ⟨d', hfits, hd'⟩ :=
        Definition.exists_separateAt_parens h.1 (counts.take d.units.flatten.length)
      obtain ⟨r, hr, hsettled, hlengths⟩ := ih h.2 (counts.drop d.units.flatten.length)
      refine ⟨d' :: r, fits_append.mpr ⟨fits_singleton.mpr hfits, hr⟩, ?_, .cons ?_ hlengths⟩
      · rw [units_cons, units_cons, List.flatten_append, List.flatten_append, parensIn_cons_of_eq rfl,
          Lexeme.separateAt_append_map fun i => Definition.lt_of_mem_parens h.1, hd', hsettled]
      · rw [← hd', Lexeme.length_separateAt]

end Program

end Heptagon
