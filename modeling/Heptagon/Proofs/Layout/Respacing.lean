import Heptagon.Proofs.Layout.Rescanning
import Mathlib.Data.List.Chain

/-!
# Scanning a text with other blanks

A text is spaced anew by putting its stretches behind each other with other
blanks between them (`Text.respaced`).  If something stays between the items
that do not touch, the items of the new text are those of the old one
(`scan_respaced`): an item is followed by a blank, by nothing, or by the item
that it touched, and in none of these cases does it become longer.

`Text.startIn` and `Text.stopIn` say where something is in the new text.
-/

namespace Heptagon

namespace Text

/-- The stretches of a source at some spans, each with a text behind it. -/
def respaced (source : Text) : List (Span × Text) → Text
  | [] => []
  | (s, w) :: pieces => source.slice s ++ (w ++ source.respaced pieces)

/-- Where something starts in some stretches with texts behind them that stand at an offset, if it
starts at an index of the source. -/
def startIn : (offset : Nat) → List (Span × Text) → Nat → Nat
  | offset, [], _ => offset
  | offset, (s, w) :: pieces, i =>
    if i < s.stop then offset + (i - s.start)
    else startIn (offset + (s.stop - s.start) + w.length) pieces i

/-- Where something stops in some stretches with texts behind them that stand at an offset, if it
stops at an index of the source. -/
def stopIn : (offset : Nat) → List (Span × Text) → Nat → Nat
  | offset, [], _ => offset
  | offset, (s, w) :: pieces, i =>
    if i ≤ s.stop then offset + (i - s.start)
    else stopIn (offset + (s.stop - s.start) + w.length) pieces i

/-- What is put behind some stretches is blank, and there is something between two of them unless
they touch. -/
structure Spaced (pieces : List (Span × Text)) : Prop where
  blank : ∀ p ∈ pieces, ∀ b ∈ p.2, isBlank b = true
  apart : pieces.IsChain fun p q => p.2 = [] → p.1.stop = q.1.start

theorem Spaced.tail {p : Span × Text} {pieces : List (Span × Text)} (h : Spaced (p :: pieces)) :
    Spaced pieces :=
  ⟨fun q hq => h.blank q (List.mem_cons_of_mem _ hq), (List.isChain_cons.mp h.apart).2⟩

/-- Whether something stays between two stretches is up to where the second one starts. -/
theorem Spaced.cons_of_head {s t : Span} {w : Text} {pieces pieces' : List (Span × Text)}
    (h : Spaced ((s, w) :: pieces)) (h' : Spaced pieces') (hstop : s.stop = t.stop)
    (hhead : pieces'.head?.map (·.1.start) = pieces.head?.map (·.1.start)) :
    Spaced ((t, w) :: pieces') := by
  refine ⟨List.forall_mem_cons.mpr ⟨h.blank (s, w) (by simp), h'.blank⟩,
    List.isChain_cons.mpr ⟨fun q hq hw => ?_, h'.apart⟩⟩
  rw [Option.mem_def.mp hq, Option.map_some] at hhead
  obtain ⟨p, hp, hstart⟩ := Option.map_eq_some_iff.mp hhead.symm
  exact hstop.symm.trans (((List.isChain_cons.mp h.apart).1 p hp hw).trans hstart)

/-- More may be put behind a stretch. -/
theorem Spaced.replace {s : Span} {w v : Text} (hv : ∀ b ∈ v, isBlank b = true)
    (hempty : v = [] → w = []) {ps qs : List (Span × Text)} (h : Spaced (ps ++ (s, w) :: qs)) :
    Spaced (ps ++ (s, v) :: qs) := by
  induction ps with
  | nil =>
      refine ⟨List.forall_mem_cons.mpr ⟨hv, h.tail.blank⟩,
        List.isChain_cons.mpr ⟨fun q hq hnil => ?_, h.tail.apart⟩⟩
      exact (List.isChain_cons.mp h.apart).1 q hq (hempty hnil)
  | cons p ps ih => exact h.cons_of_head (ih h.tail) rfl (by cases ps <;> rfl)

/-- The stretches of a source at some spans, each with what is between it and the next one. -/
def spacing (source : Text) : List Span → List (Span × Text)
  | [] => []
  | s :: ss =>
    (s, source.slice ⟨s.stop, (ss.head?.map (·.start)).getD source.length⟩) :: source.spacing ss

theorem map_fst_spacing (source : Text) (ss : List Span) :
    (source.spacing ss).map Prod.fst = ss := by
  induction ss with
  | nil => rfl
  | cons s ss ih => rw [spacing, List.map_cons, ih]

/-- What is before a span is spaced on its own. -/
theorem exists_spacing_append (source : Text) (front : List Span) (s : Span) (ss : List Span) :
    ∃ ps, ps.map Prod.fst = front ∧
      source.spacing (front ++ s :: ss) = ps ++ source.spacing (s :: ss) := by
  induction front with
  | nil => exact ⟨[], rfl, rfl⟩
  | cons f front ih =>
      obtain ⟨ps, hps, hspacing⟩ := ih
      exact ⟨(f, _) :: ps, by rw [List.map_cons, hps], by rw [List.cons_append, spacing, hspacing]; rfl⟩

section

variable {s t : Span} (hs : s.start ≤ s.stop) (ht : t.start ≤ t.stop) (htouch : s.stop = t.start)

include hs ht htouch

/-- Two stretches that touch are one, as far as places are concerned. -/
theorem startIn_cut (offset : Nat) (w : Text) (pieces : List (Span × Text)) :
    startIn offset ((s, []) :: (t, w) :: pieces) =
      startIn offset ((⟨s.start, t.stop⟩, w) :: pieces) := by
  funext i
  have hoffset : offset + (s.stop - s.start) + 0 + (t.stop - t.start) + w.length =
      offset + (t.stop - s.start) + w.length := by omega
  simp only [startIn, List.length_nil, hoffset]
  rcases Nat.lt_or_ge i s.stop with hi | hi
  · rw [if_pos hi, if_pos (by omega)]
  · rw [if_neg (Nat.not_lt.mpr hi)]
    split
    · omega
    · rfl

theorem stopIn_cut (offset : Nat) (w : Text) (pieces : List (Span × Text)) :
    stopIn offset ((s, []) :: (t, w) :: pieces) =
      stopIn offset ((⟨s.start, t.stop⟩, w) :: pieces) := by
  funext i
  have hoffset : offset + (s.stop - s.start) + 0 + (t.stop - t.start) + w.length =
      offset + (t.stop - s.start) + w.length := by omega
  simp only [stopIn, List.length_nil, hoffset]
  rcases Nat.lt_or_ge s.stop i with hi | hi
  · rw [if_neg (Nat.not_le.mpr hi)]
    split
    · omega
    · rfl
  · rw [if_pos hi, if_pos (by omega)]

end

section

variable {source : Text} {pieces : List (Span × Text)}

/-- Behind the same piece, places that are the same stay the same. -/
theorem startIn_stopIn_cons {pieces' : List (Span × Text)}
    (h : ∀ offset, startIn offset pieces' = startIn offset pieces ∧
      stopIn offset pieces' = stopIn offset pieces) (s : Span) (w : Text) (offset : Nat) :
    startIn offset ((s, w) :: pieces') = startIn offset ((s, w) :: pieces) ∧
      stopIn offset ((s, w) :: pieces') = stopIn offset ((s, w) :: pieces) := by
  constructor
  · funext i
    rw [startIn, startIn, (h _).1]
  · funext i
    rw [stopIn, stopIn, (h _).2]

theorem respaced_append (source : Text) (ps qs : List (Span × Text)) :
    source.respaced (ps ++ qs) = source.respaced ps ++ source.respaced qs := by
  induction ps with
  | nil => rfl
  | cons p ps ih => simp [respaced, ih]

/-- Inside a stretch there is one place in the new text for each index. -/
theorem startIn_eq_stopIn (hpairwise : pieces.Pairwise fun p q => p.1.stop ≤ q.1.start)
    {p : Span × Text} (hp : p ∈ pieces) {i : Nat} (hstart : p.1.start < i) (hstop : i < p.1.stop)
    (offset : Nat) : startIn offset pieces i = stopIn offset pieces i := by
  induction pieces generalizing offset with
  | nil => simp at hp
  | cons q pieces ih =>
      obtain ⟨hq, hpairwise⟩ := List.pairwise_cons.mp hpairwise
      rcases List.mem_cons.mp hp with rfl | hp
      · rw [startIn, stopIn, if_pos hstop, if_pos hstop.le]
      · have hle := hq p hp
        rw [startIn, stopIn, if_neg (by omega), if_neg (by omega), ih hpairwise hp]

/-- A stretch of the new text is what it is in the source. -/
theorem slice_respaced (hpairwise : pieces.Pairwise fun p q => p.1.stop ≤ q.1.start)
    (hbounds : ∀ p ∈ pieces, p.1.start < p.1.stop ∧ p.1.stop ≤ source.length)
    {p : Span × Text} (hp : p ∈ pieces) (front : Text) :
    slice (front ++ source.respaced pieces)
      (p.1.carry (startIn front.length pieces) (stopIn front.length pieces)) =
        source.slice p.1 := by
  induction pieces generalizing front with
  | nil => simp at hp
  | cons q pieces ih =>
      obtain ⟨s, w⟩ := q
      obtain ⟨hq, hrest⟩ := List.pairwise_cons.mp hpairwise
      obtain ⟨⟨hlt, hle⟩, hbounds'⟩ := List.forall_mem_cons.mp hbounds
      have hlength : (source.slice s).length = s.stop - s.start := by
        simp only [slice, List.length_take, List.length_drop]
        simp only at hle
        omega
      rw [respaced]
      rcases List.mem_cons.mp hp with rfl | hp
      · have hstart : startIn front.length ((s, w) :: pieces) s.start = front.length := by
          simp only at hlt
          simp [startIn, hlt]
        have hstop : stopIn front.length ((s, w) :: pieces) s.stop =
            front.length + (source.slice s).length := by
          rw [stopIn, if_pos (Nat.le_refl _), hlength]
        rw [Span.carry, hstart, hstop]
        simp [slice]
      · have hle' := hq p hp
        have hlt' := (hbounds' p hp).1
        have ih := ih hrest hbounds' hp (front ++ (source.slice s ++ w))
        have hfront : (front ++ (source.slice s ++ w)).length =
            front.length + (s.stop - s.start) + w.length := by
          rw [List.length_append, List.length_append, hlength, Nat.add_assoc]
        have hspan : p.1.carry (startIn front.length ((s, w) :: pieces))
            (stopIn front.length ((s, w) :: pieces)) =
            p.1.carry (startIn (front ++ (source.slice s ++ w)).length pieces)
              (stopIn (front ++ (source.slice s ++ w)).length pieces) := by
          simp only at hle'
          rw [Span.carry, startIn, stopIn, if_neg (by omega), if_neg (by omega), hfront]
          rfl
        rw [hspan, ← ih]
        simp

end

end Text

/-- The item in another text. -/
def Placed.carry (start stop : Nat → Nat) (i : Placed Item) : Placed Item :=
  ⟨i.value, i.span.carry start stop⟩

namespace Placed

variable {s : Span} {w : Text} {pieces : List (Span × Text)} {offset : Nat}

/-- An item in the first stretch is put at the offset. -/
theorem carry_cons_self {item : Item} (hs : s.start < s.stop) :
    (⟨item, s⟩ : Placed Item).carry (Text.startIn offset ((s, w) :: pieces))
      (Text.stopIn offset ((s, w) :: pieces)) =
        ⟨item, ⟨offset, offset + (s.stop - s.start)⟩⟩ := by
  simp [carry, Span.carry, Text.startIn, Text.stopIn, hs]

/-- Items behind the first stretch are put behind what comes after it. -/
theorem map_carry_cons {items : List (Placed Item)}
    (h : ∀ i ∈ items, s.stop ≤ i.span.start ∧ i.span.start < i.span.stop) :
    items.map (carry (Text.startIn offset ((s, w) :: pieces))
        (Text.stopIn offset ((s, w) :: pieces))) =
      items.map (carry (Text.startIn (offset + (s.stop - s.start) + w.length) pieces)
        (Text.stopIn (offset + (s.stop - s.start) + w.length) pieces)) := by
  refine List.map_congr_left fun i hi => ?_
  obtain ⟨hstart, hstop⟩ := h i hi
  simp only [carry, Span.carry, Text.startIn, Text.stopIn, if_neg (Nat.not_lt.mpr hstart),
    if_neg (Nat.not_le.mpr (hstart.trans_lt hstop))]

end Placed

namespace Text.Scans

variable {offset stop : Nat} {t rest : Text} {items : List (Placed Item)}

theorem append_blank {w : Text} (hw : ∀ b ∈ w, isBlank b = true)
    (h : t.Scans (offset + w.length) items stop rest) :
    (w ++ t).Scans offset items stop rest := by
  induction w generalizing offset with
  | nil => exact h
  | cons b w ih =>
      obtain ⟨hb, hw⟩ := List.forall_mem_cons.mp hw
      refine .blank hb (ih hw ?_)
      rwa [List.length_cons, Nat.add_comm w.length, ← Nat.add_assoc] at h

/-- The items that are scanned from an offset on are scanned in the new text, too.  An item that
touches the text before it does so there. -/
theorem respaced {source : Text} (h : t.Scans offset items stop []) (hsource : source.drop offset = t)
    {pieces : List (Span × Text)} (hpieces : pieces.map Prod.fst = items.map (·.span))
    (hspaced : Spaced pieces) :
    (∀ offset', (source.respaced pieces).Scans offset'
      (items.map (Placed.carry (startIn offset' pieces) (stopIn offset' pieces)))
        (offset' + (source.respaced pieces).length) []) ∧
      ((∀ i ∈ items.head?, i.span.start = offset) → t.Interrupts (source.respaced pieces)) := by
  generalize hend : ([] : Text) = rest at h
  induction h generalizing pieces with
  | done =>
      subst hend
      obtain rfl : pieces = [] := by simpa using hpieces
      exact ⟨fun _ => .done, fun _ => .of_head (by simp [Text.respaced])⟩
  | @blank offset _ b t _ items hb hscans ih =>
      have hsource : source.drop (offset + 1) = t := by
        rw [← List.drop_drop, hsource]
        rfl
      obtain ⟨hnew, -⟩ := ih hsource hpieces hspaced hend
      refine ⟨hnew, fun hstart => ?_⟩
      cases items with
      | nil =>
          obtain rfl : pieces = [] := by simpa using hpieces
          exact .of_head (by simp [Text.respaced])
      | cons i items =>
          have hle := (hscans.bounds i (by simp)).1
          have heq := hstart i rfl
          omega
  | @item offset _ b t taken after _ item items hb hfirst hscans ih =>
      obtain ⟨⟨s, w⟩, pieces, rfl, hs, htail⟩ := List.map_eq_cons_iff.mp hpieces
      obtain rfl : s = ⟨offset, offset + taken.length⟩ := hs
      obtain ⟨happend, hne, -⟩ := Item.takes_of_first? hfirst
      have hslice : source.slice ⟨offset, offset + taken.length⟩ = taken := by
        simp [slice, hsource, happend]
      have hafter : source.drop (offset + taken.length) = after := by
        rw [← List.drop_drop, hsource, happend, List.drop_left]
      obtain ⟨hnew, hinterrupts⟩ := ih hafter htail hspaced.tail hend
      have hw := hspaced.blank _ (List.mem_cons_self ..)
      -- what comes after the item goes on with no lexeme that did not go on before
      have hcut : after.Interrupts (w ++ source.respaced pieces) :=
        .append_blanks hw fun hnil => hinterrupts fun i hi => by
          obtain ⟨items, rfl⟩ := List.head?_eq_some_iff.mp hi
          obtain ⟨q, pieces, rfl, hq, -⟩ := List.map_eq_cons_iff.mp htail
          refine (congrArg Span.start hq).symm.trans ?_
          exact ((List.isChain_cons_cons.mp hspaced.apart).1 hnil).symm
      have hfirst' := Item.first?_congr hfirst hcut
      obtain ⟨c, taken, rfl⟩ := List.exists_cons_of_ne_nil hne
      obtain ⟨rfl, rfl⟩ := List.cons.inj happend
      rw [Text.respaced, hslice]
      refine ⟨fun offset' => ?_, fun _ => ?_⟩
      · have hlength : offset' + (b :: taken ++ (w ++ source.respaced pieces)).length =
            offset' + (b :: taken).length + w.length + (source.respaced pieces).length := by
          simp only [List.length_append]
          omega
        rw [List.map_cons, Placed.carry_cons_self (by simp), Placed.map_carry_cons hscans.bounds,
          Nat.add_sub_cancel_left, hlength]
        exact .item hb hfirst' (append_blank hw (hnew _))
      · rw [happend]
        exact hcut.append_left _

end Text.Scans

/-- A source that is spaced anew, with the mark in front of it or without, has the same items. -/
theorem scan_respaced {source : Text} {items : List (Placed Item)} (h : scan source = some items)
    {pieces : List (Span × Text)} (hpieces : pieces.map Prod.fst = items.map (·.span))
    (hspaced : Text.Spaced pieces) {mark lead : Text} (hmark : mark = [] ∨ mark = Text.leadingMark)
    (hlead : ∀ b ∈ lead, isBlank b = true) :
    scan (mark ++ (lead ++ source.respaced pieces)) =
      some (items.map (Placed.carry (Text.startIn (mark.length + lead.length) pieces)
        (Text.stopIn (mark.length + lead.length) pieces))) := by
  obtain ⟨mark', text, rfl, -, hscans⟩ := scan_eq_some_iff.mp h
  obtain ⟨hnew, -⟩ := hscans.respaced (List.drop_left ..) hpieces hspaced
  refine scan_eq_some_iff.mpr ⟨mark, _, rfl, hmark, ?_⟩
  have hlength : (mark ++ (lead ++ Text.respaced (mark' ++ text) pieces)).length =
      mark.length + lead.length + (Text.respaced (mark' ++ text) pieces).length := by
    simp only [List.length_append]
    omega
  rw [hlength]
  exact .append_blank hlead (hnew _)

end Heptagon
