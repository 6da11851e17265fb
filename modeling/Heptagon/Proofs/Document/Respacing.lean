import Heptagon.Proofs.Document.Carrying
import Heptagon.Proofs.Document.Staying
import Heptagon.Proofs.Layout.Respacing

/-!
# Documents with other blanks

What blanks there are between the tokens and comments of an accepted source
makes no difference, as long as what does not touch is kept apart
(`Document.rows_respaced`).

1. The pieces that the leaves cut the source into are made smaller until they
   are those of the items (`Span.Merge.exists_pieces`), so the new source has
   the same items (`scan_respaced`).
2. A layout is read without looking at its spans, but for the halves of state
   names, which must touch.  In the reading that stays they are halves of one
   leaf, and these are not taken apart; other readings have the same state
   names (`Program.placed?_eq_some_iff_reading?`).
3. So the reading that stays is laid over the new source, and its rows are
   carried there (`Node.CarriedTo.rowsAll`).
-/

namespace Heptagon

variable {source : Text}

/-! ## Pieces -/

/-- Pieces that are cut at the leaves of a source can be cut at its items, which makes no
difference to what is put together from them. -/
theorem Span.Merge.exists_pieces (source : Text) {ss ts : List Span} (h : Merge ss ts)
    {pieces : List (Span × Text)} (hpieces : pieces.map Prod.fst = ss)
    (hspaced : Text.Spaced pieces) :
    ∃ pieces' : List (Span × Text), pieces'.map Prod.fst = ts ∧ Text.Spaced pieces' ∧
      pieces'.head?.map (·.1.start) = pieces.head?.map (·.1.start) ∧
      source.respaced pieces' = source.respaced pieces ∧ ∀ offset,
        Text.startIn offset pieces' = Text.startIn offset pieces ∧
          Text.stopIn offset pieces' = Text.stopIn offset pieces := by
  induction h generalizing pieces with
  | nil =>
      obtain rfl : pieces = [] := by simpa using hpieces
      exact ⟨[], rfl, hspaced, rfl, rfl, fun _ => ⟨rfl, rfl⟩⟩
  | @one s ss ts h ih =>
      obtain ⟨⟨s', w⟩, pieces, rfl, rfl, hrest⟩ := List.map_eq_cons_iff.mp hpieces
      obtain ⟨pieces', hpieces', hspaced', hhead, hrespaced, hplaces⟩ := ih hrest hspaced.tail
      refine ⟨(s', w) :: pieces', by rw [List.map_cons, hpieces'], ?_, rfl, ?_, fun offset => ?_⟩
      · exact hspaced.cons_of_head hspaced' rfl hhead
      · rw [Text.respaced, Text.respaced, hrespaced]
      · exact Text.startIn_stopIn_cons hplaces s' w offset
  | @two s t ss ts hs ht htouch h ih =>
      obtain ⟨⟨s', w⟩, pieces, rfl, hs', hrest⟩ := List.map_eq_cons_iff.mp hpieces
      obtain rfl : s' = ⟨s.start, t.stop⟩ := hs'
      obtain ⟨pieces', hpieces', hspaced', hhead, hrespaced, hplaces⟩ := ih hrest hspaced.tail
      -- nothing is put between the two parts of the piece
      have hsecond : Text.Spaced ((t, w) :: pieces') :=
        hspaced.cons_of_head hspaced' rfl hhead
      refine ⟨(s, []) :: (t, w) :: pieces', by simp [hpieces'], ?_, rfl, ?_, fun offset => ?_⟩
      · exact ⟨List.forall_mem_cons.mpr ⟨by simp, hsecond.blank⟩,
          List.isChain_cons_cons.mpr ⟨fun _ => htouch, hsecond.apart⟩⟩
      · simp only [Text.respaced, hrespaced, List.nil_append]
        rw [Slot.Stand.slice_append hs ht htouch, List.append_assoc]
      · rw [Text.startIn_cut hs ht htouch, Text.stopIn_cut hs ht htouch]
        exact Text.startIn_stopIn_cons hplaces _ w offset

namespace Row.Stand

variable {offset stop : Nat} {rows rows' : List Row}

theorem of_append (h : Stand source offset (rows ++ rows') stop) :
    ∃ middle, Stand source offset rows middle ∧ Stand source middle rows' stop := by
  induction rows generalizing offset with
  | nil => exact ⟨offset, .nil, h⟩
  | cons r rows ih =>
      cases h with
      | cons hblank hspan hrest =>
          obtain ⟨middle, hrows, hrows'⟩ := ih hrest
          exact ⟨middle, .cons hblank hspan hrows, hrows'⟩

/-- A source is what stands in it with the blanks between. -/
theorem drop_eq (h : Stand source offset rows stop) (hend : source.Blank stop source.length) :
    source.drop offset = source.slice ⟨offset, ((rows.map (·.span)).head?.map (·.start)).getD
        source.length⟩ ++ source.respaced (source.spacing (rows.map (·.span))) ∧
      (∀ b ∈ source.slice ⟨offset, ((rows.map (·.span)).head?.map (·.start)).getD source.length⟩,
        isBlank b = true) ∧ Text.Spaced (source.spacing (rows.map (·.span))) := by
  induction h with
  | @nil offset =>
      refine ⟨?_, hend.2, ⟨by simp [Text.spacing], .nil⟩⟩
      have hslice := @Text.slice_append_drop source _ _ hend.1
      rw [List.drop_length, List.append_nil] at hslice
      simpa [Text.spacing, Text.respaced] using hslice.symm
  | @cons offset stop r rows hblank hspan hrest ih =>
      obtain ⟨hdrop, hgap, hspaced⟩ := ih hend
      refine ⟨?_, hblank.2, List.forall_mem_cons.mpr ⟨hgap, hspaced.blank⟩,
        List.isChain_cons.mpr ⟨fun q hq hempty => ?_, hspaced.apart⟩⟩
      · rw [← Text.slice_append_drop hblank.1, ← Text.slice_append_drop hspan.le, hdrop]
        rfl
      · cases rows with
        | nil => simp [Text.spacing] at hq
        | cons r' rows =>
            cases hrest with
            | cons hblank' hspan' hrest =>
                obtain rfl := Option.some.inj hq
                -- nothing is between the two rows, so they touch
                have hlength := congrArg List.length hempty
                have hle := (hrest.bounds.1.trans hend.1)
                have hstart := hblank'.1
                simp only [List.map_cons, List.head?_cons, Option.map_some, Option.getD_some,
                  Text.slice, List.length_take, List.length_drop, List.length_nil] at hlength
                show r.span.stop = r'.span.start
                omega

end Row.Stand

/-! ## Layouts -/

/-- The slots of tokens are slots of the same tokens in another text, if the halves of state names
are not taken apart; what follows them is as given. -/
theorem Slot.Write.carried_append {label : Span → Label → Label} {start stop : Nat → Nat}
    {tokens : List (Leaf × Span)} {ls : List Lexeme} {slots : List Slot} (h : Write tokens ls slots)
    (hslots : ∀ s ∈ slots, s.span.start < s.span.stop)
    (hinside : ∀ token ∈ tokens, ∀ i, token.2.start < i → i < token.2.stop → start i = stop i)
    (hlabel : ∀ token ∈ tokens, label token.2 token.1.label = token.1.label)
    {ms ms' : List Leaf} {rest rest' : List Slot}
    (hrest : Carried label start stop ms ms' rest rest') :
    Carried label start stop (tokens.map Prod.fst ++ ms) (tokens.map Prod.fst ++ ms') (slots ++ rest)
      (slots.map (fun s => ⟨s.comments.map (.carry start stop), s.span.carry start stop⟩) ++
        rest') := by
  induction h with
  | nil => exact hrest
  | @one l x s _ _ _ hl _ ih =>
      obtain ⟨-, hslots⟩ := List.forall_mem_cons.mp hslots
      obtain ⟨-, hinside⟩ := List.forall_mem_cons.mp hinside
      obtain ⟨hsame, hlabel⟩ := List.forall_mem_cons.mp hlabel
      refine .cons (s := s.span) rfl ?_ ?_ hsame.symm (ih hslots hinside hlabel) <;>
        simp [Leaf.place, hl]
  | @two l x y s t _ _ _ hl hcomments htouch _ ih =>
      obtain ⟨hs, ht, hslots⟩ := by simpa only [List.forall_mem_cons] using hslots
      obtain ⟨hinside, hmore⟩ := List.forall_mem_cons.mp hinside
      obtain ⟨hsame, hlabel⟩ := List.forall_mem_cons.mp hlabel
      -- the halves touch inside the token, where there is one place only
      have hmeet : stop s.span.stop = start t.span.start := by
        rw [← hinside s.span.stop hs (htouch ▸ ht), htouch]
      refine .cons (s := ⟨s.span.start, t.span.stop⟩) rfl ?_ ?_ hsame.symm
        (ih hslots hmore hlabel)
      · simp [Leaf.place, hl, hcomments, htouch]
      · simp [Leaf.place, hl, hcomments, Span.carry, hmeet]

theorem Slot.Write.carried {label : Span → Label → Label} {start stop : Nat → Nat}
    {tokens : List (Leaf × Span)} {ls : List Lexeme} {slots : List Slot} (h : Write tokens ls slots)
    (hslots : ∀ s ∈ slots, s.span.start < s.span.stop)
    (hinside : ∀ token ∈ tokens, ∀ i, token.2.start < i → i < token.2.stop → start i = stop i)
    (hlabel : ∀ token ∈ tokens, label token.2 token.1.label = token.1.label) :
    Carried label start stop (tokens.map Prod.fst) (tokens.map Prod.fst) slots
      (slots.map fun s => ⟨s.comments.map (.carry start stop), s.span.carry start stop⟩) := by
  simpa using h.carried_append hslots hinside hlabel .nil

namespace Layout

variable {f : Span → Span} {l : Layout}

@[simp] theorem lexemes_mapSpans : (l.mapSpans f).lexemes = l.lexemes := by
  simp [lexemes, mapSpans]

@[simp] theorem slots_mapSpans :
    (l.mapSpans f).slots = l.slots.map fun s => ⟨s.comments.map f, f s.span⟩ := by
  simp [slots, mapSpans]

@[simp] theorem commentCounts_mapSpans : (l.mapSpans f).commentCounts = l.commentCounts := by
  simp [commentCounts]

/-- Where the lexemes stand makes no difference to how they are read. -/
theorem reading?_mapSpans : (l.mapSpans f).reading? = l.reading? := by
  simp [reading?, settled, setApart, joined, Program.parens]

theorem enumerationsWhole_mapSpans :
    enumerationsWhole (l.mapSpans f).written = enumerationsWhole l.written := by
  rw [Bool.eq_iff_iff, enumerationsWhole_iff, enumerationsWhole_iff, mapSpans, List.isChain_map]
  exact List.IsChain.iff fun _ _ => whole_mapSpans

end Layout

mutual

theorem Node.mem_leafSpans_of_mem_tokens : (n : Node) → ∀ {token : Leaf × Span},
    token ∈ n.tokens → token.2 ∈ n.leafSpans
  | .token l s, _, h => by
      obtain rfl := List.mem_singleton.mp h
      exact List.mem_singleton_self _
  | .comment _ _, _, h => absurd h List.not_mem_nil
  | .branch _ ns, _, h => by
      rw [leafSpans_branch]
      exact Node.mem_leafSpansAll_of_mem_tokensAll ns h

/-- The tokens are leaves. -/
theorem Node.mem_leafSpansAll_of_mem_tokensAll : (ns : List Node) → ∀ {token : Leaf × Span},
    token ∈ tokensAll ns → token.2 ∈ leafSpansAll ns
  | [], _, h => absurd h List.not_mem_nil
  | n :: ns, _, h => by
      rw [leafSpansAll_cons]
      rcases List.mem_append.mp h with h | h
      · exact List.mem_append_left _ (Node.mem_leafSpans_of_mem_tokens n h)
      · exact List.mem_append_right _ (Node.mem_leafSpansAll_of_mem_tokensAll ns h)

end

/-! ## Documents -/

namespace Document

variable {d : Document}

/-- Another source is accepted, and its rows are the same nodes over the same tokens and comments
as those of this source. -/
def Carries (d : Document) (source source' : Text) : Prop :=
  ∃ (d' : Document) (start stop : Nat → Nat), ofSource? source' = some d' ∧
    d'.rows = ⟨0, .named .sourceFile, false, d'.span⟩ :: d.rows.tail.map (.carry start stop) ∧
    ∀ r ∈ d.leafRows, source'.slice (r.span.carry start stop) = source.slice r.span

/-- If the items of a source have other places in another one and no token is taken apart, the
nodes have those places, too. -/
theorem nodes?_mapSpans {source' : Text} {l : Layout} {offset offset' end_ end' : Nat}
    {start stop : Nat → Nat} {nodes : List Node}
    (hstand : Slot.Stand source end_ offset l.lexemes l.slots)
    (hstand' : Slot.Stand source' end' offset' (l.mapSpans (.carry start stop)).lexemes
      (l.mapSpans (.carry start stop)).slots)
    (hinside : ∀ token ∈ Node.tokensAll nodes, ∀ i, token.2.start < i → i < token.2.stop →
      start i = stop i)
    (h : nodes? l = some nodes) :
    ∃ nodes', nodes? (l.mapSpans (.carry start stop)) = some nodes' ∧
      List.Forall₂ (Node.CarriedTo (fun _ l => l) start stop) nodes nodes' := by
  obtain ⟨hwhole, inner, hinner, rfl⟩ := nodes?_eq_some_iff.mp h
  obtain ⟨r, hr, hplace⟩ := (Program.placed?_eq_some_iff_reading? hstand).mp hinner
  have hwrite := (Layout.reads_of_reading? hr).write hstand hplace
  have hcarried : Slot.Carried (fun _ l => l) start stop _ _ _ _ :=
    hwrite.carried hstand.start_lt_stop (fun token htoken => hinside token (by
      rw [Node.tokensAll_append]
      exact List.mem_append_left _ htoken)) fun _ _ => rfl
  -- the same reading is laid over the new places
  rw [Program.map_tokens_of_place hplace, ← Layout.slots_mapSpans] at hcarried
  obtain ⟨inner', hplace', hcarriedTo⟩ := Program.place_carried (.refl (S := Eq) r) hcarried hplace
  have hinner' : Program.placed? (l.mapSpans (.carry start stop)) = some inner' :=
    (Program.placed?_eq_some_iff_reading? hstand').mpr
      ⟨r, Layout.reading?_mapSpans.trans hr, hplace'⟩
  exact ⟨_, nodes?_eq_some_iff.mpr
      ⟨Layout.enumerationsWhole_mapSpans.trans hwhole, inner', hinner', rfl⟩,
    List.rel_append hcarriedTo (Slot.forall₂_comments _ _ _ _)⟩

/-- Pieces at the leaves of a source follow each other in it. -/
theorem bounds_pieces (h : ofSource? source = some d) {pieces : List (Span × Text)}
    (hpieces : pieces.map Prod.fst = d.leafRows.map (·.span)) :
    (pieces.Pairwise fun p q => p.1.stop ≤ q.1.start) ∧
      ∀ p ∈ pieces, p.1.start < p.1.stop ∧ p.1.stop ≤ source.length := by
  obtain ⟨hnonempty, hordered, -⟩ := cut_of_ofSource? h
  constructor
  · rw [← List.pairwise_map (f := Prod.fst) (R := fun s t : Span => s.stop ≤ t.start), hpieces]
    exact List.pairwise_map.mpr hordered
  · intro p hp
    obtain ⟨r, hr, hspan⟩ := List.mem_map.mp (hpieces ▸ List.mem_map_of_mem hp)
    rw [← hspan]
    exact hnonempty r hr

theorem carries_respaced (h : ofSource? source = some d) {pieces : List (Span × Text)}
    (hpieces : pieces.map Prod.fst = d.leafRows.map (·.span)) (hspaced : Text.Spaced pieces)
    {mark lead : Text} (hmark : mark = [] ∨ mark = Text.leadingMark)
    (hlead : ∀ b ∈ lead, isBlank b = true) :
    d.Carries source (mark ++ (lead ++ source.respaced pieces)) := by
  obtain ⟨hpairwise, hbounds⟩ := bounds_pieces h hpieces
  obtain ⟨items, hscan, hmerge⟩ := merge_leafRows h
  -- the items of the new source are those of the old one
  obtain ⟨pieces', hpieces', hspaced', -, hrespaced, hplaces⟩ :=
    hmerge.exists_pieces source hpieces hspaced
  obtain ⟨hstarts, hstops⟩ := hplaces (mark.length + lead.length)
  have hnew := scan_respaced hscan hpieces' hspaced' hmark hlead
  obtain ⟨start, hstart⟩ : ∃ f, f = Text.startIn (mark.length + lead.length) pieces := ⟨_, rfl⟩
  obtain ⟨stop, hstop⟩ : ∃ f, f = Text.stopIn (mark.length + lead.length) pieces := ⟨_, rfl⟩
  rw [hstarts, hstops, hrespaced, ← hstart, ← hstop] at hnew
  have hinside : ∀ token ∈ Node.tokensAll d.children, ∀ i, token.2.start < i → i < token.2.stop →
      start i = stop i := by
    intro token htoken i hi hi'
    have hmem := Node.mem_leafSpansAll_of_mem_tokensAll d.children htoken
    rw [← map_span_leafRows h, ← hpieces] at hmem
    obtain ⟨q, hq, hspan⟩ := List.mem_map.mp hmem
    rw [← hspan] at hi hi'
    rw [hstart, hstop]
    exact Text.startIn_eq_stopIn hpairwise hq hi hi' _
  -- the reading that stays is laid over the new source
  obtain ⟨items', hscan', hnodes, -⟩ := ofSource?_eq_some_iff.mp h
  obtain rfl : items = items' := by simpa [hscan] using hscan'
  obtain ⟨_, hstand, -, -⟩ := Layout.stand_ofItems (stand_of_scan hscan)
  obtain ⟨_, hstand', -, -⟩ := Layout.stand_ofItems (stand_of_scan hnew)
  have hlayout : Layout.ofItems (items.map (Placed.carry start stop)) =
      (Layout.ofItems items).mapSpans (.carry start stop) := Layout.ofItems_map _ items
  rw [hlayout] at hstand'
  obtain ⟨nodes', hnodes', hcarried⟩ := nodes?_mapSpans hstand hstand' hinside hnodes
  rw [← hlayout] at hnodes'
  refine ⟨⟨_, _⟩, start, stop, ofSource?_eq_some_iff.mpr ⟨_, hnew, hnodes', rfl⟩, ?_, ?_⟩
  · rw [rows_eq, rows_eq, List.tail_cons]
    exact congrArg (_ :: ·)
      (Node.CarriedTo.rowsAll_same d.children (tight_children h) hcarried 1)
  · intro row hrow
    obtain ⟨q, hq, hspan⟩ := List.mem_map.mp (hpieces.symm ▸ List.mem_map_of_mem hrow)
    have hslice := Text.slice_respaced hpairwise hbounds hq (mark ++ lead)
    rw [List.length_append, ← hstart, ← hstop, hspan, List.append_assoc] at hslice
    exact hslice

/-- A source cut at what is between two of its leaves. -/
theorem exists_gap (h : ofSource? source = some d) {front back : List Row} {r r' : Row}
    (hrows : d.leafRows = front ++ r :: r' :: back) :
    ∃ lead ps gap qs, (∀ b ∈ lead, isBlank b = true) ∧
      ((ps ++ (r.span, gap) :: qs).map Prod.fst = d.leafRows.map (·.span)) ∧
      Text.Spaced (ps ++ (r.span, gap) :: qs) ∧ gap.length = r'.span.start - r.span.stop ∧
      source.take r.span.stop = source.take source.origin ++
        (lead ++ (source.respaced ps ++ source.slice r.span)) ∧
      source.drop r.span.stop = gap ++ source.respaced qs := by
  obtain ⟨p, hshows⟩ := exists_program h
  have hstand := stand_leafRows hshows
  obtain ⟨hdrop, hlead, hspaced⟩ := hstand.drop_eq hshows.ends
  have hspans : d.leafRows.map (·.span) =
      front.map (·.span) ++ r.span :: r'.span :: back.map (·.span) := by simp [hrows]
  obtain ⟨ps, hps, hspacing⟩ := source.exists_spacing_append (front.map (·.span)) r.span
    (r'.span :: back.map (·.span))
  obtain ⟨gap, hgap⟩ : ∃ gap, gap = source.slice ⟨r.span.stop, r'.span.start⟩ := ⟨_, rfl⟩
  obtain ⟨qs, hqs⟩ : ∃ qs, qs = source.spacing (r'.span :: back.map (·.span)) := ⟨_, rfl⟩
  have hpieces : source.spacing (d.leafRows.map (·.span)) = ps ++ (r.span, gap) :: qs := by
    rw [hspans, hspacing, hgap, hqs]
    rfl
  have hbehind : source.drop r.span.stop = gap ++ source.respaced qs := by
    rw [hrows] at hstand
    obtain ⟨middle, -, hrest⟩ := hstand.of_append
    cases hrest with
    | cons _ _ hrest =>
        obtain ⟨hrest, -⟩ := hrest.drop_eq hshows.ends
        rw [hgap, hqs, hrest]
        rfl
  refine ⟨_, ps, gap, qs, hlead, hpieces ▸ source.map_fst_spacing _, hpieces ▸ hspaced, ?_, ?_,
    hbehind⟩
  · have hbounds := (cut_of_ofSource? h).nonempty r' (by simp [hrows])
    rw [hgap, Text.slice, List.length_take, List.length_drop]
    show min (r'.span.start - r.span.stop) (source.length - r.span.stop) = _
    omega
  · refine (List.append_left_inj (source.drop r.span.stop)).mp ?_
    rw [List.take_append_drop, hbehind]
    conv_lhs => rw [← List.take_append_drop source.origin source, hdrop, hpieces,
      Text.respaced_append, Text.respaced]
    simp only [List.append_assoc]

/-- Blanks that are put between two leaves of a source are among those between its leaves. -/
theorem carries_insert (h : ofSource? source = some d) {front back : List Row} {r r' : Row}
    (hrows : d.leafRows = front ++ r :: r' :: back) {i : Nat} (hr : r.span.stop ≤ i)
    (hr' : i ≤ r'.span.start) {w : Text} (hw : ∀ b ∈ w, isBlank b = true) :
    d.Carries source (source.take i ++ w ++ source.drop i) := by
  obtain ⟨lead, ps, gap, qs, hlead, hpieces, hspaced, hlength, hfront, hbehind⟩ :=
    exists_gap h hrows
  obtain ⟨j, rfl⟩ := Nat.exists_eq_add_of_le hr
  have hj : j ≤ gap.length := by omega
  have hnew : source.take (r.span.stop + j) ++ w ++ source.drop (r.span.stop + j) =
      source.take source.origin ++ (lead ++
        source.respaced (ps ++ (r.span, gap.take j ++ w ++ gap.drop j) :: qs)) := by
    rw [List.take_add, ← List.drop_drop, hfront, hbehind, List.take_append_of_le_length hj,
      List.drop_append_of_le_length hj, Text.respaced_append, Text.respaced]
    simp only [List.append_assoc]
  have hgap : ∀ b ∈ gap, isBlank b = true := hspaced.blank (r.span, gap) (by simp)
  have hblank : ∀ b ∈ gap.take j ++ w ++ gap.drop j, isBlank b = true := by
    intro b hb
    rcases List.mem_append.mp hb with hb | hb
    · exact (List.mem_append.mp hb).elim (fun hb => hgap b (List.mem_of_mem_take hb)) (hw b)
    · exact hgap b (List.mem_of_mem_drop hb)
  have hempty : gap.take j ++ w ++ gap.drop j = [] → gap = [] := by
    intro hnil
    obtain ⟨hfirst, hlast⟩ := List.append_eq_nil_iff.mp hnil
    rw [← List.take_append_drop j gap, (List.append_eq_nil_iff.mp hfirst).1, hlast]
    rfl
  rw [hnew]
  exact carries_respaced h (by simpa using hpieces) (hspaced.replace hblank hempty)
    source.take_origin hlead

/-- The blanks around the tokens and comments of an accepted source make no difference to its nodes,
if no two of them are moved together, nor does a mark in front.  So blanks may be put between any two
that follow each other, whether they touch or not. -/
theorem carries_blanks (h : ofSource? source = some d) :
    (∀ (pieces : List (Span × Text)) (mark lead : Text),
      pieces.map Prod.fst = d.leafRows.map (·.span) → Text.Spaced pieces →
      (mark = [] ∨ mark = Text.leadingMark) → (∀ b ∈ lead, isBlank b = true) →
      d.Carries source (mark ++ (lead ++ source.respaced pieces))) ∧
    ∀ (front back : List Row) (r r' : Row), d.leafRows = front ++ r :: r' :: back →
      ∀ (i : Nat) (w : Text), r.span.stop ≤ i → i ≤ r'.span.start →
      (∀ b ∈ w, isBlank b = true) → d.Carries source (source.take i ++ w ++ source.drop i) :=
  ⟨fun _ _ _ hpieces hspaced hmark hlead => carries_respaced h hpieces hspaced hmark hlead,
    fun _ _ _ _ hrows _ _ hr hr' hw => carries_insert h hrows hr hr' hw⟩

/-- An enumeration without blanks where none are needed. -/
theorem carries_blanks_of_type : ∃ d,
    ofSource? (Text.ofString "type t=A(*c*)") = some d ∧
    d.Carries (Text.ofString "type t=A(*c*)")
      (Text.leadingMark ++ Text.ofString " type  t = A (*c*)\n") ∧
    d.Carries (Text.ofString "type t=A(*c*)") (Text.ofString "type t =A(*c*)") := by
  have haccepts : accepts (Text.ofString "type t=A(*c*)") = true := by decide +kernel
  obtain ⟨d, hd⟩ := Option.isSome_iff_exists.mp haccepts
  have hrows : (ofSource? (Text.ofString "type t=A(*c*)")).map leafRows =
      some ([⟨1, .literal "type", false, ⟨0, 4⟩⟩] ++ ⟨1, .named .identifier, false, ⟨5, 6⟩⟩ ::
        ⟨1, .literal "=", false, ⟨6, 7⟩⟩ :: [⟨1, .named .enumIdentifier, false, ⟨7, 8⟩⟩,
          ⟨1, .named .comment, false, ⟨8, 13⟩⟩]) := by decide +kernel
  rw [hd, Option.map_some, Option.some.injEq] at hrows
  obtain ⟨hspaced, hinsert⟩ := carries_blanks hd
  have hmarked := hspaced [(⟨0, 4⟩, [32, 32]), (⟨5, 6⟩, [32]), (⟨6, 7⟩, [32]), (⟨7, 8⟩, [32]),
    (⟨8, 13⟩, [10])] Text.leadingMark [32] (by rw [hrows]; rfl)
    ⟨by simp [isBlank], by simp⟩ (.inr rfl) (by simp [isBlank])
  have hinserted := hinsert _ _ _ _ hrows 6 [32] (Nat.le_refl _) (Nat.le_refl _) (by simp [isBlank])
  have htext : [32] ++ (Text.ofString "type t=A(*c*)").respaced [(⟨0, 4⟩, [32, 32]),
      (⟨5, 6⟩, [32]), (⟨6, 7⟩, [32]), (⟨7, 8⟩, [32]), (⟨8, 13⟩, [10])] =
      Text.ofString " type  t = A (*c*)\n" := by decide +kernel
  have htext' : (Text.ofString "type t=A(*c*)").take 6 ++ [32] ++
      (Text.ofString "type t=A(*c*)").drop 6 = Text.ofString "type t =A(*c*)" := by decide +kernel
  rw [htext] at hmarked
  rw [htext'] at hinserted
  exact ⟨d, hd, hmarked, hinserted⟩

end Document

end Heptagon
