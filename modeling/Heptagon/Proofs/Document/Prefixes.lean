import Heptagon.Proofs.Document.Acceptance
import Heptagon.Proofs.Document.CommentPlaces
import Heptagon.Proofs.Document.Composition
import Heptagon.Proofs.Document.Replacing
import Heptagon.Proofs.Program.Prefixes

/-!
# Which beginnings of a source are accepted

A source that is accepted may be cut anywhere but in a token, a comment or the
mark in front of it.  What is before the cut is accepted if the cut is not inside
a definition, or is inside an enumeration and directly behind one of its
constructors (`Document.accepts_take_iff`).

1. The items before the cut are scanned as before, since no item depends on what
   follows it (`scan_take`).
2. The tokens of the source are those before the cut and those behind it, and the
   lexemes before the cut write the former (`Slot.Write.exists_cut`).
3. These lexemes are read as a program if this is the beginning of the one that
   the source shows (`Program.ofLexemes?_separateTargets_iff`), so if the tokens
   before the cut are those of such a beginning; and where these end is what the
   claim says (`Program.exists_begins_iff`).
-/

namespace Heptagon

/-! ## Cuts -/

/-- A place lies between the ends of a span and is none of them. -/
def Span.Surrounds (s : Span) (place : Nat) : Prop := s.start < place ∧ place < s.stop

instance (s : Span) (place : Nat) : Decidable (s.Surrounds place) :=
  inferInstanceAs (Decidable (_ ∧ _))

/-! ## Scanning the beginning of a source -/

section

variable {source t rest : Text} {items before after : List (Placed Item)} {offset stop place : Nat}

theorem Text.Scans.lt_stop (h : t.Scans offset items stop rest) :
    ∀ i ∈ items, offset < i.span.stop :=
  fun i hi => (h.bounds i hi).1.trans_lt (h.bounds i hi).2

/-- Nothing is scanned before the first byte. -/
theorem Text.Scans.zero (h : t.Scans offset items stop rest) (hitems : before ++ after = items)
    (hbefore : ∀ i ∈ before, i.span.stop ≤ offset) :
    Text.Scans offset (t.take 0) before (offset + 0) [] := by
  obtain rfl : before = [] := List.eq_nil_iff_forall_not_mem.mpr fun i hi =>
    absurd (h.lt_stop i (hitems ▸ List.mem_append_left _ hi)) (Nat.not_lt.mpr (hbefore i hi))
  exact .done

/-- The first bytes are scanned as before if no item is cut behind them. -/
theorem Text.Scans.take {n : Nat} (h : t.Scans offset (before ++ after) stop rest)
    (hbefore : ∀ i ∈ before, i.span.stop ≤ offset + n)
    (hafter : ∀ i ∈ after, offset + n ≤ i.span.start) (hstop : offset + n ≤ stop) :
    Text.Scans offset (t.take n) before (offset + n) [] := by
  generalize hitems : before ++ after = items at h
  induction h generalizing before n with
  | @done offset rest =>
      obtain rfl : n = 0 := by omega
      exact Text.Scans.zero (.done : Text.Scans offset rest [] offset rest) hitems hbefore
  | @blank offset _ b t rest items hb hscans ih =>
      cases n with
      | zero => exact Text.Scans.zero (.blank hb hscans) hitems hbefore
      | succ n =>
          have hoffset : offset + (n + 1) = offset + 1 + n := by omega
          rw [hoffset] at hbefore hafter hstop ⊢
          exact .blank hb (ih hbefore hafter hstop hitems)
  | @item offset _ b t taken u rest item items hb hfirst hscans ih =>
      cases before with
      | nil =>
          -- the item is behind the place, so the place is here
          obtain rfl : after = _ := hitems
          obtain rfl : n = 0 := by
            have hle := hafter _ List.mem_cons_self
            simp only at hle
            omega
          exact Text.Scans.zero (.item hb hfirst hscans) rfl hbefore
      | cons i before =>
          obtain ⟨rfl, hmore⟩ := List.cons.inj hitems
          obtain ⟨hi, hbefore⟩ := List.forall_mem_cons.mp hbefore
          obtain ⟨m, rfl⟩ := Nat.exists_eq_add_of_le (Nat.le_of_add_le_add_left hi)
          obtain ⟨happend, hne, -⟩ := Item.takes_of_first? hfirst
          obtain ⟨c, taken, rfl⟩ := List.exists_cons_of_ne_nil hne
          obtain ⟨rfl, rfl⟩ := List.cons.inj happend
          -- what follows the item is cut, and so it goes on with nothing more
          have hinterrupts : u.Interrupts (u.take m) := fun v _ hv => hv.trans (List.take_prefix m u)
          have hfirst' := Item.first?_congr hfirst hinterrupts
          rw [← Nat.add_assoc] at hbefore hafter hstop ⊢
          rw [show b :: taken.append u = b :: taken ++ u from rfl, List.take_length_add_append]
          exact .item hb hfirst' (ih hbefore hafter hstop hmore)

/-- The beginning of a source is scanned as before if no item is cut there. -/
theorem scan_take (h : scan source = some (before ++ after))
    (hbefore : ∀ i ∈ before, i.span.stop ≤ place) (hafter : ∀ i ∈ after, place ≤ i.span.start)
    (hplace : place ≤ source.length) (hmark : Text.leadingMark.isPrefixOf source = true →
      ¬ Span.Surrounds ⟨0, Text.leadingMark.length⟩ place) :
    scan (source.take place) = some before := by
  obtain ⟨mark, text, rfl, hmarks, hscans⟩ := scan_eq_some_iff.mp h
  by_cases hle : mark.length ≤ place
  · refine scan_eq_some_iff.mpr ⟨mark, text.take (place - mark.length), ?_, hmarks, ?_⟩
    · rw [List.take_append, List.take_of_length_le hle]
    · rw [List.length_take, Nat.min_eq_left hplace]
      obtain ⟨n, rfl⟩ := Nat.exists_eq_add_of_le hle
      rw [Nat.add_sub_cancel_left]
      exact hscans.take hbefore hafter hplace
  · -- the place is before the mark
    obtain rfl : place = 0 := by
      rcases hmarks with rfl | rfl
      · simp at hle
      · by_contra hne
        exact hmark (by simp) ⟨Nat.pos_of_ne_zero hne, Nat.lt_of_not_le hle⟩
    obtain rfl : before = [] := List.eq_nil_iff_forall_not_mem.mpr fun i hi => by
      have hlt := hscans.lt_stop i (List.mem_append_left _ hi)
      have hle := hbefore i hi
      omega
    rfl

/-- Items that stand in a source are those before a place and those behind it, if no item is cut
there. -/
theorem Item.Stand.exists_append (h : Stand source offset items)
    (hplace : ∀ i ∈ items, ¬ i.span.Surrounds place) : ∃ before after, items = before ++ after ∧
      (∀ i ∈ before, i.span.stop ≤ place) ∧ ∀ i ∈ after, place ≤ i.span.start := by
  obtain ⟨-, hpairwise⟩ := h.pairwise
  clear h
  induction items with
  | nil => exact ⟨[], [], rfl, by simp, by simp⟩
  | cons i items ih =>
      obtain ⟨hi, hplace⟩ := List.forall_mem_cons.mp hplace
      obtain ⟨hfirst, hpairwise⟩ := List.pairwise_cons.mp hpairwise
      by_cases hle : i.span.stop ≤ place
      · obtain ⟨before, after, rfl, hbefore, hafter⟩ := ih hplace hpairwise
        exact ⟨i :: before, after, rfl, List.forall_mem_cons.mpr ⟨hle, hbefore⟩, hafter⟩
      · rw [Span.Surrounds] at hi
        refine ⟨[], i :: items, rfl, by simp, List.forall_mem_cons.mpr ⟨by omega, fun j hj => ?_⟩⟩
        have hle := hfirst j hj
        omega

end

/-! ## Tokens before a place and behind it -/

/-- The lexemes of a source are in its layout. -/
theorem Layout.exists_slot {items : List (Placed Item)} {x : Lexeme} {s : Span}
    (h : ⟨.lexeme x, s⟩ ∈ items) : ∃ slot ∈ (ofItems items).slots, slot.span = s := by
  induction items with
  | nil => simp at h
  | cons i items ih =>
      obtain ⟨item, span⟩ := i
      cases item with
      | lexeme y =>
          rcases List.mem_cons.mp h with heq | h
          · exact ⟨⟨[], span⟩, List.mem_cons_self, (Placed.mk.inj heq).2.symm⟩
          · obtain ⟨slot, hslot, hspan⟩ := ih h
            exact ⟨slot, List.mem_cons_of_mem _ hslot, hspan⟩
      | comment =>
          obtain ⟨slot, hslot, hspan⟩ := ih (by simpa using h)
          obtain ⟨w, hw, rfl⟩ := List.mem_map.mp hslot
          have hspans := (ofItems items).spans_addComment span
          have hmem : (w.1, w.2.span) ∈ ((ofItems items).addComment span).spans :=
            hspans ▸ List.mem_map.mpr ⟨w, hw, rfl⟩
          obtain ⟨v, hv, heq⟩ := List.mem_map.mp hmem
          exact ⟨v.2, List.mem_map.mpr ⟨v, hv, rfl⟩, (Prod.mk.inj heq).2.trans hspan⟩

/-- The layout of some items goes on with that of the items behind them, but that a comment between
two lexemes is at the second one. -/
theorem Layout.exists_ofItems_append (before after : List (Placed Item)) :
    ∃ m : Layout, ofItems (before ++ after) = ⟨(ofItems before).written ++ m.written, m.trailing⟩ ∧
      m.spans = (ofItems after).spans := by
  refine ⟨_, ofItems_append before after, ?_⟩
  generalize (ofItems before).trailing = cs
  induction cs with
  | nil => rfl
  | cons c cs ih => rw [List.foldr_cons, spans_addComment, ih]

/-- A slot of a layout has the span of an item. -/
theorem Layout.exists_item {items : List (Placed Item)} {slot : Slot}
    (h : slot ∈ (ofItems items).slots) : ∃ i ∈ items, i.span = slot.span := by
  obtain ⟨w, hw, rfl⟩ := List.mem_map.mp h
  exact ⟨_, mem_of_mem_spans (List.mem_map.mpr ⟨w, hw, rfl⟩), rfl⟩

namespace Slot.Write

variable {tokens : List (Leaf × Span)} {ls ms : List Lexeme} {slots more : List Slot} {place : Nat}

/-- Every slot is in a token. -/
theorem exists_token (h : Write tokens ls slots) (hpos : ∀ s ∈ slots, s.span.start < s.span.stop)
    {s : Slot} (hs : s ∈ slots) :
    ∃ t ∈ tokens, t.2.start ≤ s.span.start ∧ s.span.stop ≤ t.2.stop := by
  induction h with
  | nil => simp at hs
  | one hl _ ih =>
      rcases List.mem_cons.mp hs with rfl | hs
      · exact ⟨_, List.mem_cons_self, le_rfl, le_rfl⟩
      · obtain ⟨t, ht, hspan⟩ := ih (List.forall_mem_cons.mp hpos).2 hs
        exact ⟨t, List.mem_cons_of_mem _ ht, hspan⟩
  | @two l x y s' t' tokens ls slots hl hcomments htouch _ ih =>
      obtain ⟨hfirst, hpos⟩ := List.forall_mem_cons.mp hpos
      obtain ⟨hsecond, hpos⟩ := List.forall_mem_cons.mp hpos
      rcases List.mem_cons.mp hs with rfl | hs
      · exact ⟨_, List.mem_cons_self, le_rfl, by simp only; omega⟩
      · rcases List.mem_cons.mp hs with rfl | hs
        · exact ⟨_, List.mem_cons_self, by simp only; omega, le_rfl⟩
        · obtain ⟨t, ht, hspan⟩ := ih hpos hs
          exact ⟨t, List.mem_cons_of_mem _ ht, hspan⟩

/-- A token starts where a slot does and stops where a slot does. -/
theorem exists_slots (h : Write tokens ls slots) (hpos : ∀ s ∈ slots, s.span.start < s.span.stop)
    {t : Leaf × Span} (ht : t ∈ tokens) : t.2.start < t.2.stop ∧
      ∃ s ∈ slots, ∃ s' ∈ slots, t.2.start = s.span.start ∧ t.2.stop = s'.span.stop := by
  induction h with
  | nil => simp at ht
  | @one l x s tokens ls slots hl _ ih =>
      obtain ⟨hfirst, hpos⟩ := List.forall_mem_cons.mp hpos
      rcases List.mem_cons.mp ht with rfl | ht
      · exact ⟨hfirst, s, List.mem_cons_self, s, List.mem_cons_self, rfl, rfl⟩
      · obtain ⟨hlt, s, hs, s', hs', hspan⟩ := ih hpos ht
        exact ⟨hlt, s, List.mem_cons_of_mem _ hs, s', List.mem_cons_of_mem _ hs', hspan⟩
  | @two l x y s u tokens ls slots hl hcomments htouch _ ih =>
      obtain ⟨hfirst, hpos⟩ := List.forall_mem_cons.mp hpos
      obtain ⟨hsecond, hpos⟩ := List.forall_mem_cons.mp hpos
      rcases List.mem_cons.mp ht with rfl | ht
      · exact ⟨by simp only; omega, s, List.mem_cons_self, u,
          List.mem_cons_of_mem _ List.mem_cons_self, rfl, rfl⟩
      · obtain ⟨hlt, s, hs, s', hs', hspan⟩ := ih hpos ht
        exact ⟨hlt, s, List.mem_cons_of_mem _ (List.mem_cons_of_mem _ hs), s',
          List.mem_cons_of_mem _ (List.mem_cons_of_mem _ hs'), hspan⟩

/-- Tokens are those before a place and those behind it if none is cut there. -/
theorem exists_cut (h : Write tokens (ls ++ ms) (slots ++ more))
    (hlength : ls.length = slots.length) (hpos : ∀ s ∈ slots ++ more, s.span.start < s.span.stop)
    (hplace : ∀ t ∈ tokens, ¬ t.2.Surrounds place)
    (hslots : ∀ s ∈ slots, s.span.stop ≤ place) (hmore : ∀ s ∈ more, place ≤ s.span.start) :
    ∃ front back, tokens = front ++ back ∧ Write front ls slots ∧ Write back ms more := by
  generalize hls : ls ++ ms = whole at h
  generalize hwhole : slots ++ more = all at h
  induction h generalizing ls slots with
  | nil =>
      obtain ⟨rfl, rfl⟩ := List.append_eq_nil_iff.mp hls
      obtain ⟨rfl, rfl⟩ := List.append_eq_nil_iff.mp hwhole
      exact ⟨[], [], rfl, .nil, .nil⟩
  | @one l x s tokens ls' slots' hl h ih =>
      obtain _ | ⟨s', slots⟩ := slots
      · obtain rfl := List.length_eq_zero_iff.mp hlength
        obtain rfl : ms = _ := hls
        obtain rfl : more = _ := hwhole
        exact ⟨[], _, rfl, .nil, .one hl h⟩
      · obtain ⟨x', ls, rfl⟩ := List.exists_cons_of_length_eq_add_one hlength
        obtain ⟨rfl, rfl⟩ := List.cons.inj hls
        obtain ⟨rfl, rfl⟩ := List.cons.inj hwhole
        obtain ⟨front, back, rfl, hfront, hback⟩ := ih (by simpa using hlength)
          (List.forall_mem_cons.mp hpos).2 (List.forall_mem_cons.mp hplace).2
          (List.forall_mem_cons.mp hslots).2 rfl rfl
        exact ⟨_, back, rfl, .one hl hfront, hback⟩
  | @two l x y s t tokens ls' slots' hl hcomments htouch h ih =>
      obtain _ | ⟨s', _ | ⟨t', slots⟩⟩ := slots
      · obtain rfl := List.length_eq_zero_iff.mp hlength
        obtain rfl : ms = _ := hls
        obtain rfl : more = _ := hwhole
        exact ⟨[], _, rfl, .nil, .two hl hcomments htouch h⟩
      · -- the place would be between the two halves of the token
        obtain ⟨rfl, rfl⟩ := List.cons.inj hwhole
        have hstart := hpos s' (by simp)
        have hstop := hpos t (by simp)
        have hle := hslots s' (by simp)
        have hle' := hmore t (by simp)
        exact absurd ⟨by simp only; omega, by simp only; omega⟩ (hplace _ List.mem_cons_self)
      · obtain ⟨x', ls, rfl⟩ := List.exists_cons_of_length_eq_add_one hlength
        obtain ⟨y', ls, rfl⟩ := List.exists_cons_of_length_eq_add_one (by simpa using hlength)
        simp only [List.cons_append, List.cons.injEq] at hls hwhole
        obtain ⟨rfl, rfl, rfl⟩ := hls
        obtain ⟨rfl, rfl, rfl⟩ := hwhole
        obtain ⟨front, back, rfl, hfront, hback⟩ := ih (by simpa using hlength)
          (fun u hu => hpos u (List.mem_cons_of_mem _ (List.mem_cons_of_mem _ hu)))
          (List.forall_mem_cons.mp hplace).2
          (fun u hu => hslots u (List.mem_cons_of_mem _ (List.mem_cons_of_mem _ hu))) rfl rfl
        exact ⟨_, back, rfl, .two hl hcomments htouch hfront, hback⟩

end Slot.Write

/-! ## Definitions at a place -/

/-- The tokens are those of an enumeration: of a type without a brace behind its equality sign. -/
def Leaf.Enumerate : List Leaf → Prop
  | .keyword .type :: _ :: _ :: l :: _ => l ≠ .symbol .braceOpen
  | _ => False

namespace Node

/-- The place is inside a definition with some tokens: behind the start of the first one and before
the end of the last one. -/
def Within (place : Nat) (tokens : List (Leaf × Span)) : Prop :=
  ∃ first ∈ tokens.head?, ∃ last ∈ tokens.getLast?,
    Span.Surrounds ⟨first.2.start, last.2.stop⟩ place

/-- The last of the tokens before a place is a constructor. -/
def BehindVariant (place : Nat) (tokens : List (Leaf × Span)) : Prop :=
  ∃ t s, (tokens.filter (·.2.stop ≤ place)).getLast? = some (.variant t, s)

variable {tokens front back : List (Leaf × Span)} {place : Nat}

theorem not_within_of_front (h : ∀ t ∈ tokens, t.2.start < t.2.stop ∧ t.2.stop ≤ place) :
    ¬ Within place tokens := by
  rintro ⟨first, -, last, hlast, -, hlt⟩
  have hle := (h last (List.mem_of_mem_getLast? hlast)).2
  simp only at hlt
  omega

theorem not_within_of_back (h : ∀ t ∈ tokens, t.2.start < t.2.stop ∧ place ≤ t.2.start) :
    ¬ Within place tokens := by
  rintro ⟨first, hfirst, last, -, hlt, -⟩
  have hle := (h first (List.mem_of_mem_head? hfirst)).2
  simp only at hlt
  omega

section

variable (hfront : ∀ t ∈ front, t.2.start < t.2.stop ∧ t.2.stop ≤ place)
  (hback : ∀ t ∈ back, t.2.start < t.2.stop ∧ place ≤ t.2.start)

include hfront hback

theorem within_append (hne : front ≠ []) (hne' : back ≠ []) : Within place (front ++ back) := by
  obtain ⟨first, rest, rfl⟩ := List.exists_cons_of_ne_nil hne
  have hlast := List.getLast?_eq_some_getLast hne'
  have hlt := hfront first List.mem_cons_self
  have hlt' := hback _ (List.mem_of_mem_getLast? hlast)
  refine ⟨first, rfl, _, by rw [List.getLast?_append, hlast]; rfl, ?_, ?_⟩ <;> simp only <;> omega

theorem filter_append : (front ++ back).filter (·.2.stop ≤ place) = front := by
  rw [List.filter_append, List.filter_eq_self.mpr fun t ht => by simpa using (hfront t ht).2,
    List.filter_eq_nil_iff.mpr fun t ht => ?_, List.append_nil]
  have hlt := hback t ht
  simp only [decide_eq_true_eq]
  omega

end

end Node

namespace Definition

theorem leaves_concat_variant (n : Name) (bar : Bool) (t : Text) (ts : List Text) (u : Text) :
    Tree.leavesAll (enumeration n bar t (ts ++ [u])).trees =
      Tree.leavesAll (enumeration n bar t ts).trees ++ [.symbol .bar, .variant u] := by
  simp [trees, Tree.leavesAll, Tree.leaves]

theorem getLast?_leaves_enumeration (n : Name) (bar : Bool) (t : Text) (ts : List Text) :
    ∃ u, (Tree.leavesAll (enumeration n bar t ts).trees).getLast? = some (.variant u) := by
  rcases List.eq_nil_or_concat' ts with rfl | ⟨ts, u, rfl⟩
  · exact ⟨t, by cases bar <;> rfl⟩
  · exact ⟨u, by rw [leaves_concat_variant, List.getLast?_append]; rfl⟩

/-- The beginning of an enumeration up to one of its constructors is an enumeration. -/
theorem exists_variants_eq {n : Name} {bar : Bool} {t u : Text} {ts : List Text} {ls ms : List Leaf}
    (h : Tree.leavesAll (enumeration n bar t ts).trees = ls ++ ms)
    (hlast : ls.getLast? = some (.variant u)) : ∃ us more, ts = us ++ more ∧
      ls = Tree.leavesAll (enumeration n bar t us).trees := by
  induction ts using List.reverseRecOn generalizing ms with
  | nil =>
      rcases List.eq_nil_or_concat' ms with rfl | ⟨ms, x, rfl⟩
      · exact ⟨[], [], rfl, by simpa using h.symm⟩
      · -- no constructor is before the first one
        have hmem := List.mem_of_mem_getLast? hlast
        have hcut : Tree.leavesAll (enumeration n bar t []).trees =
            [.keyword .type, .name n, .symbol .equal] ++ Tree.leavesAll (Tree.barIf bar) ++
              [.variant t] := by
          cases bar <;> rfl
        rw [hcut, ← List.append_assoc] at h
        have hinit := List.append_inj_left' h rfl
        have hvariant := List.mem_append_left ms hmem
        rw [← hinit] at hvariant
        cases bar <;> simp [Tree.barIf, Tree.leavesAll, Tree.leaves] at hvariant
  | append_singleton ts v ih =>
      rcases List.eq_nil_or_concat' ms with rfl | ⟨ms, x, rfl⟩
      · exact ⟨ts ++ [v], [], by simp, by simpa using h.symm⟩
      · rw [leaves_concat_variant, List.append_cons, ← List.append_assoc] at h
        have hinit := List.append_inj_left' h rfl
        rcases List.eq_nil_or_concat' ms with rfl | ⟨ms, y, rfl⟩
        · -- a bar is no constructor
          rw [List.append_nil] at hinit
          rw [← hinit, List.getLast?_append] at hlast
          simp at hlast
        · rw [← List.append_assoc] at hinit
          obtain ⟨us, more, rfl, hls⟩ := ih (List.append_inj_left' hinit rfl)
          exact ⟨us, more ++ [v], by simp, hls⟩

/-- Whether a definition is an enumeration can be seen from its tokens. -/
theorem enumerate_leaves_iff (d : Definition) :
    Leaf.Enumerate (Tree.leavesAll d.trees) ↔ ∃ n bar t ts, d = .enumeration n bar t ts := by
  cases d with
  | component c =>
      refine iff_of_false ?_ (by simp)
      show ¬ Leaf.Enumerate (.keyword (if c.hasMemory then .node else .fun_) :: _)
      cases c.hasMemory <;> exact id
  | record n f fs => exact iff_of_false (fun h => h rfl) (by simp)
  | enumeration n bar t ts =>
      refine iff_of_true ?_ ⟨n, bar, t, ts, rfl⟩
      cases bar
      · exact fun h => Leaf.noConfusion h
      · exact fun h => Symbol.noConfusion (Leaf.symbol.inj h)

end Definition

namespace Program

open Node (Within BehindVariant)
open Leaf (Enumerate)

variable {q r : Program} {ds : List (List (Leaf × Span))} {front back : List (Leaf × Span)}
  {place : Nat}

theorem leaves_cons (d : Definition) (p : Program) :
    leaves (d :: p) = Tree.leavesAll d.trees ++ p.leaves := by
  simp [leaves]

theorem flatMap_lexemes_leaves (p : Program) :
    p.leaves.flatMap Leaf.lexemes = p.units.flatten.map Lexeme.shown := by
  rw [List.flatMap_def, map_lexemes_leaves, Units.flatten_shown]

theorem leaves_eq_flatten
    (hds : ds.map (List.map Prod.fst) = r.map fun d => Tree.leavesAll d.trees) :
    r.leaves = ds.flatten.map Prod.fst := by
  rw [List.map_flatten, hds]
  clear hds
  induction r with
  | nil => rfl
  | cons d r ih => rw [leaves_cons, ih, List.map_cons, List.flatten_cons]

/-- A place is behind a constructor if the tokens before it are those of an enumeration. -/
theorem behindVariant_of_enumeration {n : Name} {bar : Bool} {t : Text} {ts : List Text}
    (hleaves : front.map Prod.fst = Tree.leavesAll (Definition.trees (.enumeration n bar t ts)))
    (hfront : ∀ t ∈ front, t.2.start < t.2.stop ∧ t.2.stop ≤ place)
    (hback : ∀ t ∈ back, t.2.start < t.2.stop ∧ place ≤ t.2.start) (hne : back ≠ []) :
    Within place (front ++ back) ∧ BehindVariant place (front ++ back) := by
  obtain ⟨u, hu⟩ := Definition.getLast?_leaves_enumeration n bar t ts
  rw [← hleaves, List.getLast?_map] at hu
  obtain ⟨⟨l, s⟩, hl, rfl⟩ := Option.map_eq_some_iff.mp hu
  refine ⟨Node.within_append hfront hback ?_ hne, u, s, ?_⟩
  · rintro rfl
    simp at hl
  · rw [Node.filter_append hfront hback, hl]

/-- If the tokens before a place are those of a beginning of the program, the place is inside no
definition, or inside an enumeration and behind a constructor. -/
theorem Begins.within (h : q.Begins r)
    (hds : ds.map (List.map Prod.fst) = r.map fun d => Tree.leavesAll d.trees)
    (htokens : ds.flatten = front ++ back)
    (hfront : ∀ t ∈ front, t.2.start < t.2.stop ∧ t.2.stop ≤ place)
    (hback : ∀ t ∈ back, t.2.start < t.2.stop ∧ place ≤ t.2.start)
    (hleaves : q.leaves = front.map Prod.fst) :
    (¬ ∃ tokens ∈ ds, Within place tokens) ∨
      ∃ tokens ∈ ds, Within place tokens ∧ Enumerate (tokens.map Prod.fst) ∧
        BehindVariant place tokens := by
  have hnone : ∀ {ds : List (List (Leaf × Span))}, (∀ t ∈ ds.flatten, t ∈ back) →
      ∀ tokens ∈ ds, ¬ Within place tokens := fun hsub tokens hmem =>
    Node.not_within_of_back fun t ht => hback t (hsub t (List.mem_flatten_of_mem hmem ht))
  induction h generalizing ds front with
  | nil p =>
      obtain rfl : front = [] := List.map_eq_nil_iff.mp hleaves.symm
      refine .inl fun ⟨tokens, hmem, hwithin⟩ => hnone (fun t ht => ?_) tokens hmem hwithin
      rwa [htokens] at ht
  | cons d h ih =>
      obtain ⟨tokens, ds, rfl, htrees, hds⟩ := List.map_eq_cons_iff.mp hds
      rw [leaves_cons] at hleaves
      obtain ⟨tokens', front, rfl, htokens', hrestleaves⟩ := List.map_eq_append_iff.mp hleaves.symm
      rw [List.flatten_cons, List.append_assoc] at htokens
      obtain ⟨rfl, hrest⟩ := List.append_inj htokens
        (by simpa using congrArg List.length (htrees.trans htokens'.symm))
      obtain ⟨hfirst, hmore⟩ := List.forall_mem_append.mp hfront
      rw [List.exists_mem_cons_iff, List.exists_mem_cons_iff]
      have hnot := Node.not_within_of_front hfirst
      rcases ih hds hrest hmore hrestleaves.symm with hno | hsome
      · exact .inl (not_or_intro hnot hno)
      · exact .inr (.inr hsome)
  | variants n bar t ts more p =>
      obtain ⟨tokens, ds, rfl, htrees, hds⟩ := List.map_eq_cons_iff.mp hds
      have hprefix : Tree.leavesAll (Definition.trees (.enumeration n bar t (ts ++ more))) =
          front.map Prod.fst ++
            Tree.leavesAll (more.flatMap fun t => [.sym .bar, .leaf (.variant t)]) := by
        rw [← hleaves]
        simp [leaves, Definition.trees, Tree.leavesAll, Tree.leaves]
      obtain ⟨tokens', middle, rfl, htokens', -⟩ :=
        List.map_eq_append_iff.mp (htrees.trans hprefix)
      rw [List.flatten_cons, List.append_assoc] at htokens
      obtain ⟨rfl, hrest⟩ := List.append_inj htokens (by simpa using congrArg List.length htokens')
      rw [List.exists_mem_cons_iff, List.exists_mem_cons_iff]
      have hmiddle : ∀ t ∈ middle, t.2.start < t.2.stop ∧ place ≤ t.2.start := fun t ht =>
        hback t (hrest ▸ List.mem_append_left _ ht)
      have hothers : ¬ ∃ tokens ∈ ds, Within place tokens := fun ⟨tokens, hmem, hwithin⟩ =>
        hnone (fun t ht => hrest ▸ List.mem_append_right _ ht) tokens hmem hwithin
      by_cases hne : middle = []
      · subst hne
        refine .inl (not_or_intro ?_ hothers)
        rw [List.append_nil]
        exact Node.not_within_of_front hfront
      · have hwritten : tokens'.map Prod.fst =
            Tree.leavesAll (Definition.trees (.enumeration n bar t ts)) := by
          rw [← hleaves]
          simp [leaves]
        obtain ⟨hwithin, hbehind⟩ := behindVariant_of_enumeration hwritten hfront hmiddle hne
        have henumerate := (Definition.enumerate_leaves_iff _).mpr ⟨n, bar, t, ts ++ more, rfl⟩
        exact .inr (.inl ⟨hwithin, htrees ▸ henumerate, hbehind⟩)

/-- If a place is inside no definition, or inside an enumeration and behind a constructor, the tokens
before it are those of a beginning of the program. -/
theorem exists_begins
    (hds : ds.map (List.map Prod.fst) = r.map fun d => Tree.leavesAll d.trees)
    (htokens : ds.flatten = front ++ back)
    (hfront : ∀ t ∈ front, t.2.start < t.2.stop ∧ t.2.stop ≤ place)
    (hback : ∀ t ∈ back, t.2.start < t.2.stop ∧ place ≤ t.2.start)
    (h : (¬ ∃ tokens ∈ ds, Within place tokens) ∨
      ∃ tokens ∈ ds, Within place tokens ∧ Enumerate (tokens.map Prod.fst) ∧
        BehindVariant place tokens) :
    ∃ q : Program, q.Begins r ∧ q.leaves = front.map Prod.fst := by
  induction ds generalizing r front with
  | nil =>
      obtain ⟨rfl, -⟩ := List.append_eq_nil_iff.mp htokens.symm
      exact ⟨[], .nil r, rfl⟩
  | cons tokens ds ih =>
      obtain ⟨d, r, rfl, htrees, hds⟩ := List.map_eq_cons_iff.mp hds.symm
      rw [List.exists_mem_cons_iff, List.exists_mem_cons_iff] at h
      rcases List.append_eq_append_iff.mp htokens with ⟨rest, rfl, hrest⟩ | ⟨middle, rfl, rfl⟩
      · -- the first definition is before the place
        obtain ⟨hfirst, hmore⟩ := List.forall_mem_append.mp hfront
        have hnot := Node.not_within_of_front hfirst
        obtain ⟨q, hq, hleaves⟩ := ih hds.symm hrest hmore
          (h.imp (fun hno => fun hsome => hno (.inr hsome))
            fun hsome => hsome.resolve_left fun hwithin => hnot hwithin.1)
        exact ⟨d :: q, .cons d hq, by rw [leaves_cons, hleaves, htrees, List.map_append]⟩
      · obtain ⟨hmiddle, hothers⟩ := List.forall_mem_append.mp hback
        by_cases hnone : front = []
        · exact ⟨[], .nil _, by rw [hnone]; rfl⟩
        by_cases hall : middle = []
        · subst hall
          exact ⟨[d], .cons d (.nil r), by simpa [leaves_cons, leaves] using htrees⟩
        have hwithin := Node.within_append hfront hmiddle hnone hall
        -- the place is inside the first definition, so in no other one
        have hnone : ¬ ∃ tokens ∈ ds, Within place tokens ∧ Enumerate (tokens.map Prod.fst) ∧
            BehindVariant place tokens := by
          rintro ⟨tokens, hmem, hother, -⟩
          exact Node.not_within_of_back
            (fun t ht => hothers t (List.mem_flatten_of_mem hmem ht)) hother
        obtain ⟨-, henumerate, t, s, hlast⟩ :=
          (h.resolve_left fun hno => hno (.inl hwithin)).resolve_right hnone
        rw [← htrees] at henumerate
        obtain ⟨n, bar, u, ts, rfl⟩ := d.enumerate_leaves_iff.mp henumerate
        rw [Node.filter_append hfront hmiddle] at hlast
        rw [List.map_append] at htrees
        obtain ⟨us, more, rfl, hleaves⟩ := Definition.exists_variants_eq htrees
          (u := t) (by rw [List.getLast?_map, hlast]; rfl)
        exact ⟨_, .variants n bar u us more r, by simpa [leaves_cons, leaves] using hleaves.symm⟩

end Program

/-! ## Layouts -/

namespace Layout

variable {l m : Layout} {p q r : Program}

/-- What the two readings of a layout show is the same, definition by definition. -/
theorem texts_readings {l : Layout} (hp : Program.ofLexemes? l.joined = some p)
    (hr : l.reading? = some r) : r.texts = p.texts := by
  have hlengths := forall₂_readings hp hr
  have hshown : r.units.flatten.map Lexeme.shown = p.units.flatten.map Lexeme.shown :=
    (reads_of_reading? hr).2.trans (l.reads_of_joined hp).2.symm
  clear hp hr
  induction hlengths with
  | nil => rfl
  | cons hd _ ih =>
      rw [Program.units_cons, Program.units_cons, List.flatten_append, List.flatten_append,
        List.map_append, List.map_append] at hshown
      obtain ⟨hfirst, hrest⟩ := List.append_inj hshown (by rw [List.length_map, List.length_map, hd])
      exact congrArg₂ List.cons hfirst (ih hrest)

end Layout

/-- Two beginnings of some tokens are the same if they are written with as many lexemes. -/
theorem Leaf.append_inj_left {ls ms xs ys : List Leaf} (h : ls ++ xs = ms ++ ys)
    (hlength : (ls.flatMap lexemes).length = (ms.flatMap lexemes).length) : ls = ms := by
  have hnil : ∀ {vs zs : List Leaf}, ((vs ++ zs).flatMap lexemes).length =
      (vs.flatMap lexemes).length → vs ++ zs = vs := by
    rintro vs (_ | ⟨l, zs⟩) hzero
    · exact vs.append_nil
    · simp [l.lexemes_ne_nil] at hzero
  rcases List.append_eq_append_iff.mp h with ⟨zs, rfl, -⟩ | ⟨zs, rfl, -⟩
  · exact (hnil hlength.symm).symm
  · exact hnil hlength

/-! ## Documents -/

namespace Document

variable {source : Text} {d : Document} {place : Nat}

/-- A source may be cut at a place: not in a token, a comment or the mark in front of it. -/
structure Cut (source : Text) (d : Document) (place : Nat) : Prop where
  le : place ≤ source.length
  tokens : ∀ t ∈ d.tokens, ¬ t.2.Surrounds place
  comments : ∀ c ∈ d.comments, ¬ c.Surrounds place
  mark : Text.leadingMark.isPrefixOf source = true →
    ¬ Span.Surrounds ⟨0, Text.leadingMark.length⟩ place

/-- A document is read as a program in the end, and its definitions are written with the tokens of
those. -/
theorem exists_reading? {items : List (Placed Item)} (hscan : scan source = some items)
    (hnodes : nodes? (.ofItems items) = some d.children) :
    ∃ r, (Layout.ofItems items).reading? = some r ∧
      d.definitions.map (List.map Prod.fst) = r.map fun d => Tree.leavesAll d.trees := by
  obtain ⟨-, inner, hinner, hchildren⟩ := nodes?_eq_some_iff.mp hnodes
  obtain ⟨stop, hstand, -, -⟩ := Layout.stand_ofItems (stand_of_scan hscan)
  obtain ⟨r, hr, hplace⟩ := (Program.placed?_eq_some_iff_reading? hstand).mp hinner
  obtain ⟨ds, hds, htrees⟩ := Program.exists_splits (Layout.reads_of_reading? hr).1 hplace
  refine ⟨r, hr, ?_⟩
  rw [definitions, hchildren, (hds.append_comments _).definitions_eq]
  have hleaves := congrArg (List.map Tree.leavesAll) htrees
  simp only [List.map_map] at hleaves ⊢
  rw [← Function.comp_def, ← hleaves]
  exact List.map_congr_left fun ms _ => Node.map_tokensAll ms

/-- No item is cut where no token and no comment is. -/
theorem Cut.not_surrounds (hcut : d.Cut source place) {items : List (Placed Item)}
    (hwrite : Slot.Write d.tokens (Layout.ofItems items).lexemes (Layout.ofItems items).slots)
    (hcomments : d.comments = Placed.comments items)
    (hpos : ∀ s ∈ (Layout.ofItems items).slots, s.span.start < s.span.stop) :
    ∀ i ∈ items, ¬ i.span.Surrounds place := by
  rintro ⟨item, s⟩ hi hsurrounds
  cases item with
  | lexeme x =>
      obtain ⟨slot, hslot, rfl⟩ := Layout.exists_slot hi
      obtain ⟨t, ht, hstart, hstop⟩ := hwrite.exists_token hpos hslot
      exact hcut.tokens t ht ⟨Nat.lt_of_le_of_lt hstart hsurrounds.1,
        Nat.lt_of_lt_of_le hsurrounds.2 hstop⟩
  | comment =>
      have hmem : s ∈ Placed.comments items :=
        List.mem_map.mpr ⟨_, List.mem_filter.mpr ⟨hi, by simp⟩, rfl⟩
      exact hcut.comments s (hcomments ▸ hmem) hsurrounds

/-- The items of a document are those before a place and those behind it, and so are its tokens. -/
theorem Cut.exists_append (hcut : d.Cut source place) (h : ofSource? source = some d) :
    ∃ before after front back, scan source = some (before ++ after) ∧
      scan (source.take place) = some before ∧ d.tokens = front ++ back ∧
      Slot.Write front (Layout.ofItems before).lexemes (Layout.ofItems before).slots ∧
      (∀ t ∈ front, t.2.start < t.2.stop ∧ t.2.stop ≤ place) ∧
      ∀ t ∈ back, t.2.start < t.2.stop ∧ place ≤ t.2.start := by
  obtain ⟨items, hscan, hwrite, hcomments⟩ := write_of_ofSource? h
  have hitems := stand_of_scan hscan
  have hpos : ∀ s ∈ (Layout.ofItems items).slots, s.span.start < s.span.stop := fun s hs => by
    obtain ⟨i, hi, hspan⟩ := Layout.exists_item hs
    exact hspan ▸ (hitems.pairwise.1 i hi).2
  obtain ⟨before, after, rfl, hbefore, hafter⟩ :=
    hitems.exists_append (hcut.not_surrounds hwrite hcomments hpos)
  -- the slots of the layout are those before the place and those behind it
  obtain ⟨m, hm, hspans⟩ := Layout.exists_ofItems_append before after
  rw [hm] at hwrite hpos
  simp only [Layout.lexemes, Layout.slots, List.map_append] at hwrite hpos
  have hslots : ∀ s ∈ (Layout.ofItems before).written.map (·.2), s.span.stop ≤ place :=
    fun s hs => by
      obtain ⟨i, hi, hspan⟩ := Layout.exists_item hs
      exact hspan ▸ hbefore i hi
  have hmore : ∀ s ∈ m.written.map (·.2), place ≤ s.span.start := fun s hs => by
    obtain ⟨w, hw, rfl⟩ := List.mem_map.mp hs
    have hmem : (w.1, w.2.span) ∈ (Layout.ofItems after).spans :=
      hspans ▸ List.mem_map.mpr ⟨w, hw, rfl⟩
    exact hafter _ (Layout.mem_of_mem_spans hmem)
  obtain ⟨front, back, htokens, hfront, hback⟩ :=
    hwrite.exists_cut (by simp) hpos hcut.tokens hslots hmore
  obtain ⟨hfirst, hsecond⟩ := List.forall_mem_append.mp hpos
  refine ⟨before, after, front, back, hscan, scan_take hscan hbefore hafter hcut.le hcut.mark,
    htokens, hfront, fun t ht => ?_, fun t ht => ?_⟩
  · obtain ⟨hlt, -, -, s, hs, -, hstop⟩ := hfront.exists_slots hfirst ht
    exact ⟨hlt, hstop ▸ hslots s hs⟩
  · obtain ⟨hlt, s, hs, -, -, hstart, -⟩ := hback.exists_slots hsecond ht
    exact ⟨hlt, hstart ▸ hmore s hs⟩

/-- What is before the place is accepted if its lexemes are read as a program that can be laid over
its slots. -/
theorem accepts_of_layout {items : List (Placed Item)} {q r : Program} {tokens : List (Leaf × Span)}
    (hscan : scan source = some items)
    (hwhole : Layout.enumerationsWhole (Layout.ofItems items).written = true)
    (hread : Program.ofLexemes? (Layout.ofItems items).joined = some q)
    (hwrite : Slot.Write tokens (Layout.ofItems items).lexemes (Layout.ofItems items).slots)
    (hr : (Layout.ofItems items).Reads r) (hleaves : r.leaves = tokens.map Prod.fst) :
    accepts source = true := by
  obtain ⟨stop, hstand, -, -⟩ := Layout.stand_ofItems (stand_of_scan hscan)
  have hadmit : Slot.Admit (Tree.unitsAll (r.flatMap Definition.trees))
      (Layout.ofItems items).slots := by
    have hunits : Tree.unitsAll (r.flatMap Definition.trees) = tokens.map (·.1.lexemes) := by
      rw [Tree.unitsAll, show Tree.leavesAll _ = tokens.map Prod.fst from hleaves, List.map_map]
      rfl
    exact hunits ▸ hwrite.admits
  obtain ⟨nodes, hplace⟩ := Program.exists_place hadmit
  obtain ⟨inner, hinner⟩ := Option.isSome_iff_exists.mp (Program.isSome_placed? hread
    (hr.exists_place hstand (Layout.reads_of_joined hread) hplace))
  have hnodes := nodes?_eq_some_iff.mpr ⟨hwhole, inner, hinner, rfl⟩
  exact Option.isSome_iff_exists.mpr ⟨⟨_, _⟩, ofSource?_eq_some_iff.mpr ⟨items, hscan, hnodes, rfl⟩⟩

/-- The beginning of an accepted source up to a place where no token and no comment is cut is
accepted exactly if the place is inside no definition, or inside an enumeration with a constructor
as the last token before the place. -/
theorem accepts_take_iff (h : ofSource? source = some d) (hcut : d.Cut source place) :
    accepts (source.take place) = true ↔
      (¬ ∃ tokens ∈ d.definitions, Node.Within place tokens) ∨
        ∃ tokens ∈ d.definitions, Node.Within place tokens ∧
          Leaf.Enumerate (tokens.map Prod.fst) ∧ Node.BehindVariant place tokens := by
  obtain ⟨before, after, front, back, hscan, hscan', htokens, hwrite, hfront, hback⟩ :=
    hcut.exists_append h
  rw [← flatten_definitions h] at htokens
  obtain ⟨items, hitems, hnodes, -⟩ := ofSource?_eq_some_iff.mp h
  obtain rfl : items = before ++ after := Option.some.inj (hitems.symm.trans hscan)
  obtain ⟨p, hp⟩ := exists_ofLexemes? hnodes
  obtain ⟨r, hr, hdefinitions⟩ := exists_reading? hscan hnodes
  have htexts := Layout.texts_readings hp hr
  -- what is before the place is read as the beginnings of the program that are long enough
  have hread : ∀ q, Program.ofLexemes? (Layout.ofItems before).joined = some q ↔
      q.Begins p ∧ q.units.flatten.length = (Layout.ofItems before).lexemes.length := fun q => by
    have hlexemes := Layout.map_shown_lexemes hscan
    rw [Layout.ofItems_append, Layout.lexemes_append] at hlexemes
    rw [Layout.ofItems_append, Layout.joined, Layout.lexemes_append] at hp
    exact Program.ofLexemes?_separateTargets_iff hlexemes hp
  constructor
  · -- the beginning that is read has the tokens before the place
    intro haccepts
    obtain ⟨d', hd'⟩ := Option.isSome_iff_exists.mp haccepts
    obtain ⟨items, hitems, hnodes', -⟩ := ofSource?_eq_some_iff.mp hd'
    obtain rfl : items = before := Option.some.inj (hitems.symm.trans hscan')
    obtain ⟨q, hq⟩ := exists_ofLexemes? hnodes'
    obtain ⟨hbegins, hlength⟩ := (hread q).mp hq
    obtain ⟨q', hbegins', htexts'⟩ := hbegins.exists_of_texts htexts
    refine hbegins'.within hdefinitions htokens hfront hback ?_
    obtain ⟨ts, hts⟩ := hbegins'.exists_trees
    have hleaves : q'.leaves ++ Tree.leavesAll ts = front.map Prod.fst ++ back.map Prod.fst := by
      rw [← List.map_append, ← htokens, ← Program.leaves_eq_flatten hdefinitions, Program.leaves,
        Program.leaves, hts, Tree.leavesAll_append]
    refine Leaf.append_inj_left hleaves ?_
    rw [q'.flatMap_lexemes_leaves, ← q'.flatten_texts, htexts', q.flatten_texts, List.length_map,
      hlength, hwrite.lexemes_eq, List.flatMap_map]
  · -- the beginning with the tokens before the place is read
    intro hplace
    obtain ⟨q', hbegins', hleaves⟩ :=
      Program.exists_begins hdefinitions htokens hfront hback hplace
    obtain ⟨q, hbegins, htexts'⟩ := hbegins'.exists_of_texts htexts.symm
    have hlexemes : q'.units.flatten.map Lexeme.shown = (Layout.ofItems before).lexemes := by
      rw [← q'.flatMap_lexemes_leaves, hleaves, List.flatMap_map, hwrite.lexemes_eq]
    have hlength : q.units.flatten.length = (Layout.ofItems before).lexemes.length := by
      rw [← hlexemes, ← q'.flatten_texts, ← htexts', q.flatten_texts, List.length_map]
    have hwhole := (nodes?_eq_some_iff.mp hnodes).1
    rw [Layout.ofItems_append, Layout.enumerationsWhole_iff, Layout.append,
      List.isChain_append] at hwhole
    exact accepts_of_layout hscan' (Layout.enumerationsWhole_iff.mpr hwhole.1)
      ((hread q).mpr ⟨hbegins, hlength⟩) hwrite
      ⟨hbegins'.fits (Layout.reads_of_reading? hr).1,
        by rw [hlexemes, Layout.map_shown_lexemes hscan']⟩ hleaves

/-- An enumeration that may stop behind its first constructor, and not behind the bar. -/
theorem accepts_take_of_type : ∃ d,
    ofSource? (Text.ofString "type t = A | B") = some d ∧
      d.Cut (Text.ofString "type t = A | B") 10 ∧ d.Cut (Text.ofString "type t = A | B") 12 ∧
      accepts ((Text.ofString "type t = A | B").take 10) = true ∧
      accepts ((Text.ofString "type t = A | B").take 12) = false := by
  have hparts : (ofSource? (Text.ofString "type t = A | B")).map
      (fun d => (d.tokens, d.comments, d.definitions)) =
      some ([(.keyword .type, ⟨0, 4⟩), (.name (.plain (Text.ofString "t")), ⟨5, 6⟩),
        (.symbol .equal, ⟨7, 8⟩), (.variant (Text.ofString "A"), ⟨9, 10⟩),
        (.symbol .bar, ⟨11, 12⟩), (.variant (Text.ofString "B"), ⟨13, 14⟩)], [],
        [[(.keyword .type, ⟨0, 4⟩), (.name (.plain (Text.ofString "t")), ⟨5, 6⟩),
          (.symbol .equal, ⟨7, 8⟩), (.variant (Text.ofString "A"), ⟨9, 10⟩),
          (.symbol .bar, ⟨11, 12⟩), (.variant (Text.ofString "B"), ⟨13, 14⟩)]]) := by
    decide +kernel
  obtain ⟨d, hd, hparts⟩ := Option.map_eq_some_iff.mp hparts
  obtain ⟨htokens, hcomments, hdefinitions⟩ := by simpa only [Prod.mk.injEq] using hparts
  have hcut : ∀ place ∈ [10, 12], d.Cut (Text.ofString "type t = A | B") place := fun place hplace =>
    { le := by revert place; decide
      tokens := by rw [htokens]; revert place; decide
      comments := by simp [hcomments]
      mark := fun h => absurd h (by decide) }
  have hfirst := hcut 10 (by decide)
  have hsecond := hcut 12 (by decide)
  refine ⟨d, hd, hfirst, hsecond, (accepts_take_iff hd hfirst).mpr (.inr ?_),
    Bool.eq_false_iff.mpr fun haccepts => ?_⟩
  · exact ⟨_, hdefinitions ▸ List.mem_singleton_self _, ⟨_, rfl, _, rfl, by decide, by decide⟩,
      Leaf.noConfusion, Text.ofString "A", ⟨9, 10⟩, by decide⟩
  · have hwithin := (accepts_take_iff hd hsecond).mp haccepts
    rw [hdefinitions] at hwithin
    rcases hwithin with hno | ⟨tokens, hmem, -, -, t, s, hlast⟩
    · exact hno ⟨_, List.mem_singleton_self _, _, rfl, _, rfl, by decide, by decide⟩
    · obtain rfl := List.mem_singleton.mp hmem
      simp at hlast

end Document

end Heptagon
