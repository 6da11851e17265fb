import Heptagon.Proofs.Document.Carrying
import Heptagon.Proofs.Document.Parts
import Heptagon.Proofs.Document.Staying
import Heptagon.Proofs.Grammar.Spelling
import Heptagon.Proofs.Respelling.Dividing

/-!
# The reading that stays in another spelling

A layout in another spelling is read as a program that is like the one that it
is read as (`Layout.exists_reading?`).

1. A definition can be read with some of its parentheses set apart if one that is
   like it can be read with those of the same tokens, and the other way round
   (`Definition.isText_separateAt`).  So the parentheses that open no call are the same
   tokens in either spelling, definition by definition (`Program.exists_places`).
2. Both layouts are first read as programs that are alike, and the parentheses that
   are set apart afterwards are those of the same tokens (`Layout.exists_settled`).
   So the second readings are alike as well (`Program.exists_apart`); there is
   always a second reading (`Layout.isSome_settled`).
-/

namespace Heptagon

/-! ## Tokens -/

namespace Leaf

variable {l m m' : Leaf} {ls ms ms' : List Leaf}

theorem Alike.symm (h : l.Alike m) (hl : (Tree.leaf l).Normal) : m.Alike l := by
  cases h with
  | name h => exact .name h.symm
  | variant t t' => exact .variant t' t
  | state _ => exact .state fun _ => hl
  | number t t' => exact .number t' t
  | keyword k => exact .keyword k
  | symbol h => exact .symbol h.symm

theorem forall₂_alike_symm (h : List.Forall₂ Alike ls ms)
    (hls : ∀ l ∈ ls, (Tree.leaf l).Normal) : List.Forall₂ Alike ms ls := by
  induction h with
  | nil => exact .nil
  | cons hl _ ih =>
      obtain ⟨hnormal, hls⟩ := List.forall_mem_cons.mp hls
      exact .cons (hl.symm hnormal) (ih hls)

/-- A token that is written like another one can be respelled as that one is. -/
theorem WrittenAs.exists_alike (h : l.WrittenAs m) (hm : m.Alike m') :
    ∃ l', l.Alike l' ∧ l'.lexemes = m'.lexemes := by
  obtain ⟨hlexemes, hmarks⟩ := h
  cases hm with
  | name hn =>
      cases l with
      | name n =>
          obtain rfl : n = _ := by simpa using hlexemes
          exact ⟨_, .name hn, rfl⟩
      | keyword k =>
          obtain rfl : Word.keyword k = _ := by simpa using hlexemes
          cases hn
          exact ⟨_, .keyword k, rfl⟩
      | state s => cases s <;> simp [StateName.marks] at hmarks
      | _ => simp at hlexemes
  | variant t t' =>
      cases l with
      | variant u => exact ⟨_, .variant u t', rfl⟩
      | state s => cases s <;> simp [StateName.marks] at hmarks
      | _ => simp at hlexemes
  | @state s s' hnormal =>
      cases l with
      | state u =>
          obtain rfl : u = s := by
            cases u <;> cases s <;> simp_all [StateName.lexemes]
          exact ⟨_, .state hnormal, rfl⟩
      | _ => cases s <;> simp [StateName.marks] at hmarks
  | number t t' =>
      cases l with
      | number u => exact ⟨_, .number u t', rfl⟩
      | state s => cases s <;> simp [StateName.marks] at hmarks
      | _ => simp at hlexemes
  | @symbol s s' hs =>
      cases l with
      | symbol u =>
          obtain rfl : u = s := by simpa using hlexemes
          exact ⟨_, .symbol hs, rfl⟩
      | state t => cases t <;> simp [StateName.marks] at hmarks
      | _ => simp at hlexemes
  | _ => exact ⟨l, .refl l, hlexemes⟩

theorem exists_forall₂_alike (h : List.Forall₂ WrittenAs ls ms) (hms : List.Forall₂ Alike ms ms') :
    ∃ ls', List.Forall₂ Alike ls ls' ∧ ls'.map lexemes = ms'.map lexemes := by
  induction h generalizing ms' with
  | nil =>
      obtain rfl := List.forall₂_nil_left_iff.mp hms
      exact ⟨[], .nil, rfl⟩
  | cons hl _ ih =>
      cases hms with
      | cons hm hms =>
          obtain ⟨l', hl', hlexemes⟩ := hl.exists_alike hm
          obtain ⟨ls', hls', hrest⟩ := ih hms
          exact ⟨l' :: ls', .cons hl' hls', by rw [List.map_cons, List.map_cons, hlexemes, hrest]⟩

end Leaf

/-! ## Units -/

namespace Units

variable {us vs ws : Units}

theorem Alike.symm (h : us.Alike vs) : vs.Alike us := by
  induction h with
  | nil => exact .nil
  | one hl _ ih => exact .one hl.symm ih
  | state hfollows h ih => exact .state (h.followsState hfollows) ih

/-- A token starts with a symbol if that in the other spelling does. -/
theorem Alike.getElem?_tokenStart (h : us.Alike vs) {s : Symbol} (hs : s.isAlone = true)
    (i : Nat) :
    vs.flatten[tokenStart (vs.map List.length) i]? = some (.symbol s) ↔
      us.flatten[tokenStart (us.map List.length) i]? = some (.symbol s) := by
  induction h generalizing i with
  | nil => simp
  | one hl _ ih =>
      cases i with
      | zero => simpa [tokenStart] using hl.eq_symbol_iff hs
      | succ i => simpa [tokenStart, Nat.add_comm 1] using ih i
  | @state t t' us us' _ _ ih =>
      cases i with
      | zero => cases t <;> cases t' <;> simp [StateName.lexemes]
      | succ i =>
          rw [List.flatten_cons, List.flatten_cons, List.map_cons, List.map_cons, tokenStart,
            tokenStart, List.getElem?_append_right (Nat.le_add_right _ _),
            List.getElem?_append_right (Nat.le_add_right _ _), Nat.add_sub_cancel_left,
            Nat.add_sub_cancel_left]
          exact ih i

@[simp] theorem shown_separateAt (places : List Nat) (i : Nat) (us : Units) :
    (us.separateAt places i).shown = us.shown := by
  induction us generalizing i with
  | nil => rfl
  | cons u us ih =>
      rw [separateAt, shown_cons, shown_cons, ih]
      congr 1
      split
      · next h => rw [h.1]; rfl
      · rfl

theorem map_length_eq_of_shown (h : us.shown = vs.shown) :
    us.map List.length = vs.map List.length := by
  have hlength : ∀ ws : Units, ws.map List.length = ws.shown.map List.length := fun ws => by
    simp [shown]
  rw [hlength us, hlength vs, h]

end Units

/-! ## Programs -/

namespace Program

variable {p p' q : Program}

/-- The tokens of a program. -/
def leaves (p : Program) : List Leaf := Tree.leavesAll (p.flatMap Definition.trees)

theorem map_lexemes_leaves (p : Program) : p.leaves.map Leaf.lexemes = p.units.shown := by
  rw [← p.unitsAll_flatMap_trees]
  rfl

/-- The tokens of a program that is read are normal. -/
theorem Fits.normal_leaves (h : p.Fits) : ∀ l ∈ p.leaves, (Tree.leaf l).Normal := by
  have hleaves := ((Program.derives h).imp fun _ => Tree.Made.normal).of_mem_leaves
  rwa [tree, Tree.leaves] at hleaves

/-- If a program is also read with some parentheses set apart, so is one that is like it with those
of the same tokens. -/
theorem exists_apart (hp : p.Fits) (hq : q.Fits) (hunits : p.units.Alike p'.units)
    {places : List Nat} (hplaces : q.units.flatten = (p.units.separateAt places 0).flatten)
    {ls' : List Leaf} (halike : List.Forall₂ Leaf.Alike q.leaves ls')
    (hlexemes : ls'.map Leaf.lexemes = p'.units.shown) :
    ∃ q' : Program, q.Alike q' ∧ q'.leaves = ls' ∧ q'.Fits ∧
      (p'.units.separateAt places 0).flatten = q'.units.flatten := by
  obtain ⟨q', hq', rfl⟩ := exists_alike halike
  refine ⟨q', hq', rfl, hq'.fits hq, ?_⟩
  -- the units of the two readings are the same but for the parentheses
  have hshown : q.units.flatten.map Lexeme.shown = p.units.flatten.map Lexeme.shown := by
    rw [hplaces, ← Units.flatten_shown, Units.shown_separateAt, Units.flatten_shown]
  have hsame : q.units.shown = p.units.shown := by
    rw [← map_lexemes_leaves, ← map_lexemes_leaves, ← List.forall₂_eq_eq_eq,
      List.forall₂_map_left_iff, List.forall₂_map_right_iff]
    exact (forall₂_leaves hq hp hshown).imp fun _ _ hl => hl.1
  have hapart : q.units = p.units.separateAt places 0 := by
    refine List.eq_iff_flatten_eq.mpr ⟨hplaces, Units.map_length_eq_of_shown ?_⟩
    rw [Units.shown_separateAt, hsame]
  have halike' := hunits.separateAt places 0
  rw [← hapart] at halike'
  have hshown' : (p'.units.separateAt places 0).shown = q'.units.shown := by
    rw [Units.shown_separateAt, ← hlexemes, ← map_lexemes_leaves]
    rfl
  exact congrArg List.flatten (halike'.unique hq'.units hshown')

end Program

/-! ## Parentheses that open no call -/

namespace Definition

variable {d d' : Definition} {us : List Lexeme} {counts counts' : List Nat}

/-- The parentheses of a definition that open no call, as tokens of the definition. -/
def parenTokens (counts : List Nat) (d : Definition) : List Nat :=
  Tree.parens (fun i => counts.getD (tokenStart (d.units.map List.length) i) 0)
    (fun i => d.units.flatten[tokenStart (d.units.map List.length) i]? == some (.symbol .parenOpen))
    (Tree.eraseAll d.trees)

/-- The tokens that open no call do not depend on how they are spelled. -/
theorem Alike.parenTokens_eq (h : d.Alike d')
    (hcounts : ∀ i, counts'.getD (tokenStart (d'.units.map List.length) i) 0 =
      counts.getD (tokenStart (d.units.map List.length) i) 0) :
    d'.parenTokens counts' = d.parenTokens counts := by
  have hunits := h.units .nil
  rw [List.append_nil, List.append_nil] at hunits
  rw [parenTokens, parenTokens, Tree.Alike.eraseAll_eq _ h.trees]
  congr 1
  · exact funext hcounts
  · funext i
    rw [Bool.eq_iff_iff, beq_iff_eq, beq_iff_eq]
    exact hunits.getElem?_tokenStart rfl i

/-- The parentheses of a definition that open no call are set apart as its tokens, if it can be read
then. -/
theorem separateAt_parens (h : d.Fits us) (hproper : d.units.Proper) :
    Lexeme.separateAt (d.parens counts d.units.flatten) 0 d.units.flatten =
      if isText (d.units.separateAt (d.parenTokens counts) 0).flatten then
        (d.units.separateAt (d.parenTokens counts) 0).flatten
      else (d.units.separateAt [] 0).flatten := by
  -- `f` takes the number of a token to that of its first lexeme
  obtain ⟨f, hf⟩ : ∃ f, f = tokenStart (d.units.map List.length) := ⟨_, rfl⟩
  have hwidths : Tree.widths d.trees = d.units.map List.length := by
    have hleaves := congrArg (List.map List.length) d.unitsAll_trees
    rw [Tree.unitsAll, List.map_map] at hleaves
    exact hleaves.trans (by simp [Units.shown])
  have htracks : Tracks f 0 (d.units.map List.length) := hf ▸ tracks_tokenStart _
  have hmono : StrictMono f := hf ▸ strictMono_tokenStart hproper.length_pos
  have hzero : f 0 = 0 := by rw [hf, tokenStart_zero]
  have hset : ∀ places : List Nat, Lexeme.separateAt (places.map f) 0 d.units.flatten =
      (d.units.separateAt places 0).flatten := fun places => by
    have hflatten := Units.flatten_separateAt hmono.injective places hproper htracks
    rwa [hzero] at hflatten
  have hplaces : Tree.parens (counts.toArray.getD · 0)
      (d.units.flatten.toArray[·]? == some (.symbol .parenOpen)) d.trees =
        (d.parenTokens counts).map f := by
    rw [Tree.parens_eq hmono hzero (wide_trees h) (hwidths ▸ htracks), parenTokens, ← hf]
    congr 2
    · funext i
      simp [Array.getD_eq_getD_getElem?]
    · funext i
      simp
  simp only [parens, hplaces, hset]
  split
  · exact hset _
  · exact hset []

/-- If a definition is also read with the parentheses of some tokens set apart, so is one that is like
it. -/
theorem isText_separateAt (hd : d.Fits []) (hleaves : List.Forall₂ Leaf.Alike (Tree.leavesAll d.trees)
    (Tree.leavesAll d'.trees)) (hunits : d.units.Alike d'.units) {places : List Nat}
    (h : isText (d.units.separateAt places 0).flatten = true) :
    isText (d'.units.separateAt places 0).flatten = true := by
  obtain ⟨q, hflatten, hq⟩ := isText_iff.mp h
  have hshown : q.units.flatten.map Lexeme.shown = d.units.flatten.map Lexeme.shown := by
    rw [← hflatten, ← Units.flatten_shown, Units.shown_separateAt, Units.flatten_shown]
  rw [← Program.units_singleton q, ← Program.units_singleton d] at hshown hflatten
  have hleaves' : List.Forall₂ Leaf.Alike (Program.leaves [d]) (Program.leaves [d']) := by
    simpa [Program.leaves] using hleaves
  obtain ⟨ls', hls', hlexemes⟩ := Leaf.exists_forall₂_alike (Program.forall₂_leaves
    (Program.fits_singleton.mpr hq) (Program.fits_singleton.mpr hd) hshown) hleaves'
  rw [Program.map_lexemes_leaves] at hlexemes
  obtain ⟨qs, hqs, -, hfits', hflatten'⟩ := Program.exists_apart (Program.fits_singleton.mpr hd)
    (Program.fits_singleton.mpr hq) (by rwa [Program.units_singleton, Program.units_singleton])
    hflatten.symm hls' hlexemes
  obtain ⟨q', _, -, hnil, rfl⟩ := List.forall₂_cons_left_iff.mp hqs
  obtain rfl := List.forall₂_nil_left_iff.mp hnil
  rw [Program.units_singleton, Program.units_singleton] at hflatten'
  exact isText_iff.mpr ⟨q', hflatten', Program.fits_singleton.mp hfits'⟩

/-- The parentheses of the same tokens are set apart in another spelling of a definition. -/
theorem exists_places (h : d.Alike d') (hd : d.Fits us)
    (hcounts : ∀ i, counts'.getD (tokenStart (d'.units.map List.length) i) 0 =
      counts.getD (tokenStart (d.units.map List.length) i) 0) :
    ∃ places, Lexeme.separateAt (d.parens counts d.units.flatten) 0 d.units.flatten =
        (d.units.separateAt places 0).flatten ∧
      Lexeme.separateAt (d'.parens counts' d'.units.flatten) 0 d'.units.flatten =
        (d'.units.separateAt places 0).flatten := by
  have hunits := h.units .nil
  rw [List.append_nil, List.append_nil] at hunits
  have hfits := fits_nil hd
  have hfits' : d'.Fits [] := h.fits id hfits
  have hleaves := Tree.Rel.leavesAll _ h.trees
  have hback := Leaf.forall₂_alike_symm hleaves (by
    simpa [Program.leaves] using (Program.fits_singleton.mpr hfits).normal_leaves)
  have hread : isText (d.units.separateAt (d.parenTokens counts) 0).flatten = true ↔
      isText (d'.units.separateAt (d.parenTokens counts) 0).flatten = true :=
    ⟨isText_separateAt hfits hleaves hunits, isText_separateAt hfits' hback hunits.symm⟩
  rw [separateAt_parens hd hunits.proper.1, separateAt_parens hfits' hunits.proper.2,
    h.parenTokens_eq hcounts]
  split
  · next hsome => exact ⟨_, rfl, if_pos (hread.mp hsome)⟩
  · next hsome => exact ⟨_, rfl, if_neg (mt hread.mpr hsome)⟩

end Definition

/-- The parentheses of the same tokens are set apart in another spelling of a program. -/
theorem Program.exists_places {p p' : Program} (h : p.Alike p') (hp : p.Fits) {counts counts' : List Nat}
    (hcounts : ∀ i, counts'.getD (tokenStart (p'.units.map List.length) i) 0 =
      counts.getD (tokenStart (p.units.map List.length) i) 0) :
    ∃ places, Lexeme.separateAt (p.parensIn counts p.units.flatten) 0 p.units.flatten =
        (p.units.separateAt places 0).flatten ∧
      Lexeme.separateAt (p'.parensIn counts' p'.units.flatten) 0 p'.units.flatten =
        (p'.units.separateAt places 0).flatten := by
  have hp' := h.fits hp
  induction h generalizing counts counts' with
  | nil => exact ⟨[], rfl, rfl⟩
  | @cons d d' p p' hd h ih =>
      have hunits := hd.units .nil
      rw [List.append_nil, List.append_nil] at hunits
      simp only [units_cons, List.map_append] at hcounts
      -- the comments before the tokens of the definition, and before those behind it
      have hfirst : ∀ i, (counts'.take d'.units.flatten.length).getD
          (tokenStart (d'.units.map List.length) i) 0 =
            (counts.take d.units.flatten.length).getD (tokenStart (d.units.map List.length) i) 0 := by
        intro i
        have hforth := getD_take_tokenStart counts hunits.proper.1.length_pos
          ((units p).map List.length) i
        have hback := getD_take_tokenStart counts' hunits.proper.2.length_pos
          ((units p').map List.length) i
        simp only [List.length_map, Units.tokenStart_length] at hforth hback
        rw [hforth, hback, hcounts, hunits.length_eq]
      have hmore : ∀ i, (counts'.drop d'.units.flatten.length).getD
          (tokenStart ((units p').map List.length) i) 0 =
            (counts.drop d.units.flatten.length).getD (tokenStart ((units p).map List.length) i) 0 := by
        intro i
        have hforth := getD_drop_tokenStart counts (d.units.map List.length)
          ((units p).map List.length) i
        have hback := getD_drop_tokenStart counts' (d'.units.map List.length)
          ((units p').map List.length) i
        simp only [List.length_map, Units.tokenStart_length] at hforth hback
        rw [hforth, hback, hcounts, hunits.length_eq]
      obtain ⟨ps, hps, hps'⟩ := Definition.exists_places hd hp.1 hfirst
      obtain ⟨qs, hqs, hqs'⟩ := ih hp.2 hmore hp'.2
      refine ⟨ps.filter (· < d.units.length) ++ qs.map (d.units.length + ·), ?_, ?_⟩
      · rw [units_cons, Units.separateAt_append, List.flatten_append, List.flatten_append, ← hps,
          ← hqs, parensIn_cons_of_eq rfl,
          Lexeme.separateAt_append_map fun i => Definition.lt_of_mem_parens hp.1]
      · rw [units_cons, hunits.length_eq, Units.separateAt_append, List.flatten_append,
          List.flatten_append, ← hps', ← hqs', parensIn_cons_of_eq rfl,
          Lexeme.separateAt_append_map fun i => Definition.lt_of_mem_parens hp'.1]

/-! ## Layouts -/

namespace Slot.Carried

variable {label : Span → Label → Label} {start stop : Nat → Nat} {ls ls' : List Leaf}
  {slots slots' : List Slot}

/-- There are as many comments before a token as before that in the other text. -/
theorem length_before (h : Carried label start stop ls ls' slots slots') (i : Nat) :
    (before (slots'.drop (tokenStart (ls'.map (·.lexemes.length)) i))).length =
      (before (slots.drop (tokenStart (ls.map (·.lexemes.length)) i))).length := by
  induction h generalizing i with
  | nil => simp
  | cons hcomments hplace hplace' _ _ ih =>
      cases i with
      | zero => simp [hcomments]
      | succ i =>
          rw [List.map_cons, List.map_cons, tokenStart, tokenStart, ← List.drop_drop,
            ← List.drop_drop, ← Leaf.eq_drop_of_place hplace, ← Leaf.eq_drop_of_place hplace']
          exact ih i

end Slot.Carried

namespace Layout

variable {l l' : Layout} {p p' : Program}

theorem commentCounts_getD (l : Layout) (i : Nat) :
    l.commentCounts.toArray.getD i 0 = (Slot.before (l.slots.drop i)).length := by
  rw [commentCounts, Array.getD_eq_getD_getElem?, List.getElem?_toArray, List.getElem?_map,
    ← List.head?_drop]
  cases l.slots.drop i <;> rfl

/-- A layout that is read is read again once its parentheses that open no call are set apart. -/
theorem isSome_settled (hp : Program.ofLexemes? l.joined = some p) :
    (Program.ofLexemes? l.settled).isSome = true := by
  obtain ⟨hjoined, hfits⟩ := Program.ofLexemes?_eq_some_iff.mp hp
  obtain ⟨r, hr, hsettled, -⟩ := Program.exists_separateAt_parensIn hfits l.commentCounts
  rw [settled, setApart_eq hp, hjoined, hsettled, Program.ofLexemes?_eq_some_iff.mpr ⟨rfl, hr⟩]
  rfl

/-- A layout in another spelling is first read as a program that is alike, and in the end the
parentheses of the same tokens are set apart. -/
theorem exists_settled (hp : Program.ofLexemes? l.joined = some p) (hpp' : p.Alike p')
    (hshown : l.lexemes.map Lexeme.shown = l.lexemes)
    (hlexemes : l'.lexemes = p'.units.shown.flatten)
    (hcomments : ∀ i, l'.commentCounts.toArray.getD (tokenStart (p'.units.map List.length) i) 0 =
      l.commentCounts.toArray.getD (tokenStart (p.units.map List.length) i) 0) :
    Program.ofLexemes? l'.joined = some p' ∧ ∃ places,
      l.settled = (p.units.separateAt places 0).flatten ∧
        l'.settled = (p'.units.separateAt places 0).flatten := by
  obtain ⟨hjoined, hfits⟩ := Program.ofLexemes?_eq_some_iff.mp hp
  have hunits := hpp'.units
  have hjoined' : l'.joined = p'.units.flatten := by
    rw [joined, hlexemes, Units.flatten_shown]
    refine hunits.separateTargets_eq ?_
    rw [← hjoined, map_shown_joined, hshown]
    rfl
  have hp' : Program.ofLexemes? l'.joined = some p' :=
    Program.ofLexemes?_eq_some_iff.mpr ⟨hjoined', hpp'.fits hfits⟩
  refine ⟨hp', ?_⟩
  have hcounts : ∀ i, l'.commentCounts.getD (tokenStart (p'.units.map List.length) i) 0 =
      l.commentCounts.getD (tokenStart (p.units.map List.length) i) 0 := fun i => by
    simpa [Array.getD_eq_getD_getElem?] using hcomments i
  obtain ⟨places, hplaces, hplaces'⟩ := Program.exists_places hpp' hfits hcounts
  refine ⟨places, ?_, ?_⟩
  · rw [settled, setApart_eq hp, hjoined, hplaces]
  · rw [settled, setApart_eq hp', hjoined', hplaces']

section

variable {label : Span → Label → Label} {start stop : Nat → Nat} {r : Program} {ls' : List Leaf}

/-- What a layout is read as is respelled as the layout is. -/
theorem exists_reading? (hr : l.reading? = some r)
    (hshown : l.lexemes.map Lexeme.shown = l.lexemes)
    (halike : List.Forall₂ Leaf.Alike r.leaves ls') (hlexemes : l'.lexemes = ls'.flatMap Leaf.lexemes)
    (hslots : Slot.Carried label start stop r.leaves ls' l.slots l'.slots) :
    ∃ r' : Program, l'.reading? = some r' ∧ r.Alike r' ∧ r'.leaves = ls' := by
  have hreads := reads_of_reading? hr
  obtain ⟨p, hp, hchoice⟩ := Option.map_eq_some_iff.mp hr
  have hpreads := l.reads_of_joined hp
  have hwritten := Program.forall₂_leaves hpreads.1 hreads.1 (hpreads.2.trans hreads.2.symm)
  have hunits : p.units.shown = r.leaves.map Leaf.lexemes := by
    rw [← Program.map_lexemes_leaves, ← List.forall₂_eq_eq_eq, List.forall₂_map_left_iff,
      List.forall₂_map_right_iff]
    exact hwritten.imp fun _ _ hl => hl.1
  have hlengths : ∀ {us : Units} {ls : List Leaf}, us.shown = ls.map Leaf.lexemes →
      us.map List.length = ls.map (·.lexemes.length) := by
    intro us ls h
    simpa [Units.shown, Function.comp_def] using congrArg (List.map List.length) h
  -- the first reading `p` has the tokens of the last one, so it can be respelled, too
  obtain ⟨q, hq⟩ := Option.isSome_iff_exists.mp (isSome_settled hp)
  obtain rfl : q = r := by simpa [hq] using hchoice
  obtain ⟨ps', hps', hpslexemes⟩ := Leaf.exists_forall₂_alike hwritten halike
  obtain ⟨p', hpp', rfl⟩ := Program.exists_alike hps'
  have hunits' : p'.units.shown = ls'.map Leaf.lexemes :=
    p'.map_lexemes_leaves.symm.trans hpslexemes
  obtain ⟨hp', places, hsettled, hsettled'⟩ :=
    exists_settled hp hpp' hshown (by rw [hlexemes, hunits', List.flatMap_def]) fun i => by
      rw [commentCounts_getD, commentCounts_getD, hlengths hunits, hlengths hunits',
        hslots.length_before]
  -- with parentheses set apart, it is what the respelled layout is read as in the end
  obtain ⟨hflatten, hfits⟩ := Program.ofLexemes?_eq_some_iff.mp hq
  obtain ⟨q', hqq', hleaves, hfits', hflatten'⟩ := Program.exists_apart hpreads.1 hfits
    hpp'.units (hflatten ▸ hsettled) halike hunits'.symm
  have hq' := Program.ofLexemes?_eq_some_iff.mpr ⟨hsettled'.trans hflatten', hfits'⟩
  exact ⟨q', by simp [reading?, hp', hq'], hqq', hleaves⟩

theorem isChain_whole_cons {w : Lexeme × Slot} {ws : List (Lexeme × Slot)}
    (hbar : ∀ v ∈ ws.head?, v.1 ≠ .symbol .bar) (h : ws.IsChain Whole) : (w :: ws).IsChain Whole :=
  List.isChain_cons.mpr ⟨fun v hv _ _ hv' => absurd hv' (hbar v hv), h⟩

/-- A bar follows a lexeme in another spelling if it follows the lexeme itself, with as many comments
before it. -/
theorem whole_head {us us' : Units} (h : us.Alike us') {ls ls' : List Leaf} {rest rest' : List Slot}
    {x x' : Lexeme} {s s' : Slot} (hx : x.Alike x')
    (hrest : Slot.Carried label start stop ls ls' rest rest')
    (hwhole : ∀ v ∈ (us.flatten.zip rest).head?, Whole (x, s) v) :
    ∀ v ∈ (us'.flatten.zip rest').head?, Whole (x', s') v := by
  rintro ⟨y, t'⟩ hy u hxu hbar
  obtain rfl : y = .symbol .bar := hbar
  obtain rfl : x' = .capital u := hxu
  obtain ⟨vs, hvs⟩ := List.head?_eq_some_iff.mp hy
  obtain ⟨ys, ts', hys, rfl, -⟩ := List.zip_eq_cons_iff.mp hvs
  have hcomments : t'.comments = (Slot.before rest).map (.carry start stop) := hrest.before_eq
  rw [hcomments]
  cases rest with
  | nil => rfl
  | cons t rest =>
      obtain ⟨zs, hzs⟩ := List.head?_eq_some_iff.mp
        ((h.head?_eq_symbol_iff (s := .bar) rfl).mp (by rw [hys]; rfl))
      rw [hzs] at hwhole
      cases hx with
      | capital v => exact List.map_eq_nil_iff.mpr (hwhole (.symbol .bar, t) rfl v rfl rfl)

/-- No comment comes between a constructor and a bar in the other spelling, either.  A bar follows no
state. -/
theorem isChain_whole {us us' : Units} (h : us.Alike us') {ls ls' : List Leaf}
    {slots slots' : List Slot} (hls : ls.map Leaf.lexemes = us) (hls' : ls'.map Leaf.lexemes = us')
    (hslots : Slot.Carried label start stop ls ls' slots slots')
    (hwhole : (us.flatten.zip slots).IsChain Whole) : (us'.flatten.zip slots').IsChain Whole := by
  induction h generalizing ls ls' slots slots' with
  | nil => simp
  | @one x x' us us' hx h ih =>
      obtain ⟨l, ls, rfl, hl, rfl⟩ := List.map_eq_cons_iff.mp hls
      obtain ⟨l', ls', rfl, hl', rfl⟩ := List.map_eq_cons_iff.mp hls'
      cases hslots with
      | @cons _ _ _ _ _ _ rest rest' _ _ hplace hplace' _ hrest =>
          obtain ⟨_, s, -, rfl, -⟩ := (Leaf.place_cases hplace).resolve_right (by simp [hl])
          obtain ⟨_, s', -, rfl, -⟩ := (Leaf.place_cases hplace').resolve_right (by simp [hl'])
          rw [List.flatten_cons, List.singleton_append, List.zip_cons_cons] at hwhole ⊢
          obtain ⟨hfirst, hwhole⟩ := List.isChain_cons.mp hwhole
          exact List.isChain_cons.mpr ⟨whole_head h hx hrest hfirst, ih rfl rfl hrest hwhole⟩
  | @state s s' us us' hfollows h ih =>
      obtain ⟨l, ls, rfl, hl, rfl⟩ := List.map_eq_cons_iff.mp hls
      obtain ⟨l', ls', rfl, hl', rfl⟩ := List.map_eq_cons_iff.mp hls'
      cases hslots with
      | @cons _ _ _ _ _ _ rest rest' _ _ hplace hplace' _ hrest =>
          -- a state is one lexeme or two, and no bar is behind it
          have hmore : ((ls.map Leaf.lexemes).flatten.zip rest).IsChain Whole := by
            rcases Leaf.place_cases hplace with ⟨x, s, hx, rfl, -⟩ | ⟨x, y, s, t, hxy, rfl, -⟩
            · rw [← hl, hx] at hwhole
              exact (List.isChain_cons.mp hwhole).2
            · rw [← hl, hxy] at hwhole
              exact (List.isChain_cons.mp (List.isChain_cons.mp hwhole).2).2
          have hmore' := ih rfl rfl hrest hmore
          have hnobar : ∀ v ∈ ((ls'.map Leaf.lexemes).flatten.zip rest').head?,
              v.1 ≠ .symbol .bar := by
            rintro ⟨y, t'⟩ hy rfl
            obtain ⟨vs, hvs⟩ := List.head?_eq_some_iff.mp hy
            obtain ⟨ys, ts', hys, -, -⟩ := List.zip_eq_cons_iff.mp hvs
            have hbar := (h.head?_eq_symbol_iff (s := .bar) rfl).mp (by rw [hys]; rfl)
            exact absurd (hfollows _ hbar) (by decide)
          rcases Leaf.place_cases hplace' with ⟨x, s, hx, rfl, -⟩ | ⟨x, y, s, t, hxy, rfl, -⟩
          · rw [← hl', hx]
            exact isChain_whole_cons hnobar hmore'
          · rw [← hl', hxy]
            refine isChain_whole_cons ?_ (isChain_whole_cons hnobar hmore')
            rintro _ ⟨⟩ rfl
            rw [hl'] at hxy
            cases s' <;> simp [StateName.lexemes] at hxy

end

end Layout

end Heptagon
