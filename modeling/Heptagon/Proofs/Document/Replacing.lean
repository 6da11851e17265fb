import Heptagon.Proofs.Document.Respacing
import Heptagon.Proofs.Layout.Respelling
import Heptagon.Proofs.Node.Between
import Heptagon.Proofs.Respelling.Settling

/-!
# A token replaced in a layout

The items of a source among which those of one token are replaced by those of
another one make a layout that differs in this token alone: the slots before it
stay, and those behind it are carried (`Layout.carried_respelled`).  A token has
one item or two that touch, and both are cut out of the items at once
(`Layout.exists_token_items`).

So a token of an accepted source can be exchanged for another one if the items
around it stay (`Document.exists_exchange`).  The rows are then the old ones, at
the places where they are in the new source, if this is read as a program with
the same nodes (`Document.Exchange.rows`), and in particular if the two tokens
are alike (`Document.Exchange.rows_of_alike`).
-/

namespace Heptagon

/-! ## Layouts of items -/

/-- The lexemes of a token at their slots, the first of which has the comments before the token. -/
def Lexeme.placed : (comments : List Span) → (offset : Nat) → List Lexeme → List (Lexeme × Slot)
  | _, _, [] => []
  | comments, offset, x :: xs =>
    (x, ⟨comments, ⟨offset, offset + x.text.length⟩⟩) :: placed [] (offset + x.text.length) xs

namespace Layout

theorem ofItems_append_lexeme (before : List (Placed Item)) (x : Lexeme) (s : Span)
    (after : List (Placed Item)) : ofItems (before ++ ⟨.lexeme x, s⟩ :: after) =
      ⟨(ofItems before).written ++ (x, ⟨(ofItems before).trailing, s⟩) :: (ofItems after).written,
        (ofItems after).trailing⟩ := by
  induction before with
  | nil => rfl
  | cons i before ih =>
      obtain ⟨item, span⟩ := i
      cases item with
      | lexeme y => rw [List.cons_append, ofItems, ih]; rfl
      | comment =>
          rw [List.cons_append, ofItems, ih, ofItems]
          obtain ⟨written, trailing⟩ := ofItems before
          cases written <;> rfl

theorem ofItems_items (offset : Nat) (xs : List Lexeme) (after : List (Placed Item)) :
    ofItems (Lexeme.items offset xs ++ after) =
      ⟨Lexeme.placed [] offset xs ++ (ofItems after).written, (ofItems after).trailing⟩ := by
  induction xs generalizing offset with
  | nil => rfl
  | cons x xs ih => rw [Lexeme.items, List.cons_append, ofItems, ih]; rfl

/-- The layout of items among which are those of a token. -/
theorem ofItems_append_items (before : List (Placed Item)) (offset : Nat) {xs : List Lexeme}
    (hxs : xs ≠ []) (after : List (Placed Item)) :
    ofItems (before ++ (Lexeme.items offset xs ++ after)) =
      ⟨(ofItems before).written ++ (Lexeme.placed (ofItems before).trailing offset xs ++
        (ofItems after).written), (ofItems after).trailing⟩ := by
  obtain ⟨x, xs, rfl⟩ := List.exists_cons_of_ne_nil hxs
  rw [Lexeme.items, List.cons_append, ofItems_append_lexeme, ofItems_items]
  rfl

theorem ofItems_eq_nil {items : List (Placed Item)} (h : ofItems items = ⟨[], []⟩) : items = [] := by
  have hspans := allSpans_ofItems items
  rw [h] at hspans
  exact List.map_eq_nil_iff.mp hspans.symm

end Layout

/-! ## Tokens over slots -/

namespace Slot.Write

variable {tokens front back : List (Leaf × Span)} {ls : List Lexeme} {slots : List Slot}

theorem length_eq (h : Write tokens ls slots) : ls.length = slots.length := by
  induction h with
  | nil => rfl
  | one _ _ ih => simp [ih]
  | two _ _ _ _ ih => simp [ih]

theorem lexemes_eq (h : Write tokens ls slots) : ls = tokens.flatMap (·.1.lexemes) := by
  induction h with
  | nil => rfl
  | one hl _ ih => simp [hl, ← ih]
  | two hl _ _ _ ih => simp [hl, ← ih]

theorem exists_append (h : Write (front ++ back) ls slots) :
    ∃ ls₁ ls₂ slots₁ slots₂, ls = ls₁ ++ ls₂ ∧ slots = slots₁ ++ slots₂ ∧
      Write front ls₁ slots₁ ∧ Write back ls₂ slots₂ := by
  induction front generalizing ls slots with
  | nil => exact ⟨[], ls, [], slots, rfl, rfl, .nil, h⟩
  | cons token front ih =>
      cases h with
      | @one l x s tokens ls slots hl h =>
          obtain ⟨ls₁, ls₂, slots₁, slots₂, rfl, rfl, h₁, h₂⟩ := ih h
          exact ⟨x :: ls₁, ls₂, s :: slots₁, slots₂, rfl, rfl, .one hl h₁, h₂⟩
      | @two l x y s t tokens ls slots hl hcomments htouch h =>
          obtain ⟨ls₁, ls₂, slots₁, slots₂, rfl, rfl, h₁, h₂⟩ := ih h
          exact ⟨x :: y :: ls₁, ls₂, s :: t :: slots₁, slots₂, rfl, rfl,
            .two hl hcomments htouch h₁, h₂⟩

end Slot.Write

/-- A token is laid over slots of its own. -/
theorem Leaf.place_placed (l : Leaf) (comments : List Span) (offset : Nat) (rest : List Slot) :
    l.place ((Lexeme.placed comments offset l.lexemes).map Prod.snd ++ rest) =
      some (⟨offset, offset + l.text.length⟩, rest) := by
  rcases l.lexemes_cases with ⟨x, hx, htext⟩ | ⟨x, y, hxy, htext⟩
  · simp [place, hx, htext, Lexeme.placed]
  · simp [place, hxy, htext, Lexeme.placed, Nat.add_assoc]

theorem Lexeme.map_fst_placed (comments : List Span) (offset : Nat) (xs : List Lexeme) :
    (placed comments offset xs).map Prod.fst = xs := by
  induction xs generalizing comments offset with
  | nil => rfl
  | cons x xs ih => rw [placed, List.map_cons, ih]

theorem Slot.before_placed (comments : List Span) (offset : Nat) {xs : List Lexeme} (hxs : xs ≠ [])
    (rest : List Slot) :
    before ((Lexeme.placed comments offset xs).map Prod.snd ++ rest) = comments := by
  obtain ⟨x, xs, rfl⟩ := List.exists_cons_of_ne_nil hxs
  rfl

/-- A lexeme is as long as its text. -/
theorem stop_eq_of_scan {source : Text} {items : List (Placed Item)} (h : scan source = some items)
    {x : Lexeme} {s : Span} (hmem : ⟨.lexeme x, s⟩ ∈ items) : s.stop = s.start + x.text.length := by
  obtain ⟨before, after, rfl⟩ := List.append_of_mem hmem
  obtain ⟨b, taken, -, -, hfirst, hstop, -⟩ := scan_cut h
  obtain ⟨-, -, hl, -⟩ := Item.takes_of_first? hfirst
  rw [hl]
  exact hstop

/-- A token of a layout can be cut out of its items. -/
theorem Layout.exists_token_items {source : Text} {items : List (Placed Item)}
    (hscan : scan source = some items) {front back : List (Leaf × Span)} {l : Leaf} {span : Span}
    (h : Slot.Write (front ++ (l, span) :: back) (ofItems items).lexemes (ofItems items).slots) :
    ∃ before after, items = before ++ (Lexeme.items span.start l.lexemes ++ after) ∧
      span.stop = span.start + l.text.length ∧
      Slot.Write front (ofItems before).lexemes (ofItems before).slots ∧
      Slot.Write back (ofItems after).lexemes (ofItems after).slots := by
  obtain ⟨ls₁, ls₂, slots₁, slots₂, hlexemes, hslots, hfront, hback⟩ := h.exists_append
  have hzip : ∀ {ls : List Lexeme} {slots : List Slot} {tokens : List (Leaf × Span)} {l : Layout},
      Slot.Write tokens ls slots → l.written = ls.zip slots → Slot.Write tokens l.lexemes l.slots := by
    intro ls slots tokens l hwrite hwritten
    rw [lexemes, Layout.slots, hwritten, List.map_fst_zip hwrite.length_eq.le,
      List.map_snd_zip hwrite.length_eq.ge]
    exact hwrite
  have hwritten : (ofItems items).written = ls₁.zip slots₁ ++ ls₂.zip slots₂ := by
    rw [written_eq_zip, hlexemes, hslots, List.zip_append hfront.length_eq]
  cases hback with
  | @one l x s _ ls₃ slots₃ hl hback =>
      obtain ⟨before, after, rfl, hbefore, hafter⟩ := exists_items hwritten
      have hstop := stop_eq_of_scan hscan (x := x) (s := s.span) (by simp)
      have htext := l.flatMap_text_lexemes
      rw [hl, List.flatMap_singleton] at htext
      refine ⟨before, after, ?_, htext ▸ hstop, hzip hfront (by rw [hbefore]), hzip hback hafter⟩
      rw [hl, Lexeme.items, ← hstop]
      rfl
  | @two l x y s t _ ls₃ slots₃ hl hcomments htouch hback =>
      obtain ⟨before, rest, rfl, hbefore, hrest⟩ := exists_items hwritten
      rw [List.zipWith_cons_cons, ← List.nil_append (_ :: _)] at hrest
      -- no comment is between the halves of the token, so no item is
      obtain ⟨middle, after, rfl, hmiddle, hafter⟩ := exists_items hrest
      obtain rfl := ofItems_eq_nil (hcomments ▸ hmiddle)
      have hx := stop_eq_of_scan hscan (x := x) (s := s.span) (by simp)
      have hy := stop_eq_of_scan hscan (x := y) (s := t.span) (by simp)
      have htext := l.flatMap_text_lexemes
      rw [hl, List.flatMap_cons, List.flatMap_singleton] at htext
      refine ⟨before, after, ?_, ?_, hzip hfront (by rw [hbefore]), hzip hback hafter⟩
      · have hspan : (⟨s.span.stop, s.span.stop + y.text.length⟩ : Span) = t.span := by
          rw [htouch, ← hy]
        rw [hl, Lexeme.items, Lexeme.items, ← hx, hspan]
        rfl
      · simp only [← htext, List.length_append]
        omega

section

variable {before after : List (Placed Item)} {front back : List (Leaf × Span)} (l l' : Leaf)
  (start : Nat) (f : Nat → Nat) {label : Span → Label → Label}

/-- The layout of items among which those of one token are replaced by those of another one. -/
theorem Layout.ofItems_respelled : ofItems (before ++ (Lexeme.items start l'.lexemes ++
      after.map (Placed.carry f f))) =
    ⟨(ofItems before).written ++ (Lexeme.placed (ofItems before).trailing start l'.lexemes ++
      ((ofItems after).mapSpans (.carry f f)).written),
      (ofItems after).trailing.map (.carry f f)⟩ := by
  have hafter : ofItems (after.map (Placed.carry f f)) = (ofItems after).mapSpans (.carry f f) :=
    ofItems_map _ after
  rw [ofItems_append_items before start l'.lexemes_ne_nil, hafter]
  rfl

theorem Layout.trailing_respelled :
    (ofItems (before ++ (Lexeme.items start l'.lexemes ++ after.map (Placed.carry f f)))).trailing =
      (ofItems (before ++ (Lexeme.items start l.lexemes ++ after))).trailing.map (.carry f f) := by
  rw [ofItems_respelled, ofItems_append_items before start l.lexemes_ne_nil]

theorem Layout.lexemes_respelled
    (hfront : Slot.Write front (ofItems before).lexemes (ofItems before).slots)
    (hback : Slot.Write back (ofItems after).lexemes (ofItems after).slots) :
    (ofItems (before ++ (Lexeme.items start l'.lexemes ++ after.map (Placed.carry f f)))).lexemes =
      (front.map Prod.fst ++ l' :: back.map Prod.fst).flatMap Leaf.lexemes := by
  rw [ofItems_respelled, lexemes]
  simp only [List.map_append, Lexeme.map_fst_placed]
  have hafter : ((ofItems after).mapSpans (.carry f f)).written.map Prod.fst =
      (ofItems after).lexemes := lexemes_mapSpans
  rw [hafter, ← lexemes, hfront.lexemes_eq, hback.lexemes_eq]
  simp [List.flatMap_map]

theorem Layout.mapSpans_before {f : Nat → Nat} (hbefore : before.map (Placed.carry f f) = before) :
    (ofItems before).mapSpans (.carry f f) = ofItems before := by
  rw [← ofItems_map]
  exact congrArg ofItems hbefore

/-- The slots of the tokens are those of the new tokens in a text in which what is before the token
stays where it is. -/
theorem Layout.carried_respelled
    (hfront : Slot.Write front (ofItems before).lexemes (ofItems before).slots)
    (hback : Slot.Write back (ofItems after).lexemes (ofItems after).slots)
    (hslots : ∀ s ∈ (ofItems (before ++ (Lexeme.items start l.lexemes ++ after))).slots,
      s.span.start < s.span.stop)
    (hbefore : before.map (Placed.carry f f) = before) (hstart : f start = start)
    (hstop : f (start + l.text.length) = start + l'.text.length)
    (hlabel : l'.label = label ⟨start, start + l.text.length⟩ l.label)
    (hlabels : ∀ token ∈ front ++ back, label token.2 token.1.label = token.1.label) :
    Slot.Carried label f f (front.map Prod.fst ++ l :: back.map Prod.fst)
      (front.map Prod.fst ++ l' :: back.map Prod.fst)
      (ofItems (before ++ (Lexeme.items start l.lexemes ++ after))).slots
      (ofItems (before ++ (Lexeme.items start l'.lexemes ++ after.map (Placed.carry f f)))).slots := by
  rw [ofItems_append_items before start l.lexemes_ne_nil, Layout.slots] at hslots ⊢
  rw [ofItems_respelled, Layout.slots]
  simp only [List.map_append] at hslots ⊢
  obtain ⟨hslots₁, hslots₂⟩ := List.forall_mem_append.mp hslots
  -- the slots before the token, behind it and at it
  have hsame := mapSpans_before hbefore
  have hcomments : (ofItems before).trailing.map (.carry f f) = (ofItems before).trailing :=
    congrArg Layout.trailing hsame
  have hfirst : (ofItems before).slots.map (fun s => ⟨s.comments.map (.carry f f), s.span.carry f f⟩) =
      (ofItems before).slots := by
    rw [← slots_mapSpans, hsame]
  have hlast : Slot.Carried label f f (back.map Prod.fst) (back.map Prod.fst) (ofItems after).slots
      ((ofItems after).mapSpans (.carry f f)).slots := by
    rw [slots_mapSpans]
    exact hback.carried (List.forall_mem_append.mp hslots₂).2 (fun _ _ _ _ _ => rfl)
      (List.forall_mem_append.mp hlabels).2
  have htoken : Slot.Carried label f f (l :: back.map Prod.fst) (l' :: back.map Prod.fst)
      ((Lexeme.placed (ofItems before).trailing start l.lexemes).map Prod.snd ++ (ofItems after).slots)
      ((Lexeme.placed (ofItems before).trailing start l'.lexemes).map Prod.snd ++
        ((ofItems after).mapSpans (.carry f f)).slots) := by
    refine .cons ?_ (l.place_placed _ _ _) ?_ hlabel hlast
    · rw [Slot.before_placed _ _ l.lexemes_ne_nil, Slot.before_placed _ _ l'.lexemes_ne_nil, hcomments]
    · rw [Leaf.place_placed, Span.carry, hstart, hstop]
  have hcarried := hfront.carried_append hslots₁ (fun _ _ _ _ _ => rfl)
    (List.forall_mem_append.mp hlabels).1 htoken
  rw [hfirst] at hcarried
  exact hcarried

end

section

variable {source : Text} {before after after' : List (Placed Item)} {l l' : Leaf} {start : Nat}
  {f : Nat → Nat}

/-- The items before a token stay where they are if nothing before it moves. -/
theorem Placed.map_carry_before
    (h : scan source = some (before ++ (Lexeme.items start l.lexemes ++ after)))
    (hf : ∀ i ≤ start, f i = i) : before.map (Placed.carry f f) = before := by
  obtain ⟨hspans, hpairwise⟩ := (stand_of_scan h).pairwise
  obtain ⟨x, xs, hx⟩ := List.exists_cons_of_ne_nil l.lexemes_ne_nil
  rw [hx, Lexeme.items, List.cons_append] at hpairwise
  refine (List.map_congr_left (g := id) fun i hi => ?_).trans (List.map_id _)
  have hle : i.span.stop ≤ start :=
    (List.pairwise_append.mp hpairwise).2.2 i hi _ List.mem_cons_self
  have hlt := (hspans i (List.mem_append_left _ hi)).2
  rw [Placed.carry, Span.carry, hf _ (hlt.le.trans hle), hf _ hle]
  rfl

/-- The first item starts where it did, or the token is the first item. -/
theorem Placed.start_respelled (hbefore : before.map (Placed.carry f f) = before)
    (hstart : f start = start) (m n : Nat) :
    ((before ++ (Lexeme.items start l'.lexemes ++ after')).head?.map (·.span.start)).getD m =
      f (((before ++ (Lexeme.items start l.lexemes ++ after)).head?.map (·.span.start)).getD n) := by
  cases before with
  | nil =>
      obtain ⟨x, xs, hx⟩ := List.exists_cons_of_ne_nil l.lexemes_ne_nil
      obtain ⟨y, ys, hy⟩ := List.exists_cons_of_ne_nil l'.lexemes_ne_nil
      rw [hx, hy]
      exact hstart.symm
  | cons i before => exact (congrArg (·.span.start) (List.cons.inj hbefore).1).symm

end

namespace Document

/-! ## Documents -/

/-- A token of an accepted source that can be exchanged for another one: with that one in its place,
the source has the same items but for those of the token. -/
structure Exchange (source : Text) (d : Document) (front back : List (Leaf × Span)) (span : Span)
    (l l' : Leaf) where
  /-- the items before the token -/
  before : List (Placed Item)
  /-- the items behind the token -/
  after : List (Placed Item)
  /-- the layout of the source -/
  layout : Layout
  /-- what the source is read as -/
  program : Program
  /-- the nodes of the program -/
  inner : List Node
  layout_eq : layout = .ofItems (before ++ (Lexeme.items span.start l.lexemes ++ after))
  scan_old : scan source = some (before ++ (Lexeme.items span.start l.lexemes ++ after))
  scan_new : scan (source.replace span l'.text) = some (before ++
    (Lexeme.items span.start l'.lexemes ++
      after.map (.carry (Text.moved span l'.text) (Text.moved span l'.text))))
  lt : span.start < span.stop
  stop_eq : span.stop = span.start + l.text.length
  stop_le : span.stop ≤ source.length
  write_front : Slot.Write front (Layout.ofItems before).lexemes (Layout.ofItems before).slots
  write_back : Slot.Write back (Layout.ofItems after).lexemes (Layout.ofItems after).slots
  tokens : d.tokens = front ++ (l, span) :: back
  whole : Layout.enumerationsWhole layout.written = true
  reading : layout.reading? = some program
  place : program.place layout.slots = some inner
  children : d.children = inner ++ layout.trailing.map (.comment false)

variable {source : Text} {d : Document} {front back : List (Leaf × Span)} {span : Span}
  {l l' : Leaf} {label : Span → Label → Label}

/-- No two tokens of a source have the same span. -/
theorem span_ne_of_tokens (h : ofSource? source = some d) {l : Leaf}
    (htokens : d.tokens = front ++ (l, span) :: back) : ∀ token ∈ front ++ back, token.2 ≠ span := by
  obtain ⟨hlt, hfront, hback⟩ := bounds_of_tokens h htokens
  refine List.forall_mem_append.mpr ⟨fun token htoken heq => ?_, fun token htoken heq => ?_⟩
  · have hle := hfront token htoken
    rw [heq] at hle
    omega
  · have hle := hback token htoken
    rw [heq] at hle
    omega

/-- A token can be exchanged if the items around it stay in the new source. -/
theorem exists_exchange (h : ofSource? source = some d)
    (htokens : d.tokens = front ++ (l, span) :: back)
    (hnew : ∀ {before after}, span.stop = span.start + l.text.length →
      scan source = some (before ++ (Lexeme.items span.start l.lexemes ++ after)) →
      scan (source.replace span l'.text) = some (before ++ (Lexeme.items span.start l'.lexemes ++
        after.map (.carry (Text.moved span l'.text) (Text.moved span l'.text))))) :
    Nonempty (Exchange source d front back span l l') := by
  obtain ⟨hlt, hslice, -⟩ := stands_of_mem_tokens h (l := l) (s := span) (by simp [htokens])
  obtain ⟨items, hscan, hnodes, -⟩ := ofSource?_eq_some_iff.mp h
  obtain ⟨hwhole, inner, hinner, hchildren⟩ := nodes?_eq_some_iff.mp hnodes
  obtain ⟨_, hstand, -, -⟩ := Layout.stand_ofItems (stand_of_scan hscan)
  obtain ⟨p, hp, hplace⟩ := (Program.placed?_eq_some_iff_reading? hstand).mp hinner
  -- the token is cut out of the items
  have hinner : Node.tokensAll inner = d.tokens := by
    rw [tokens, hchildren, Node.tokensAll_append, Node.tokensAll_map_comment, List.append_nil]
  have hwrite := (Layout.reads_of_reading? hp).write hstand hplace
  rw [Layout.map_shown_lexemes hscan, hinner, htokens] at hwrite
  obtain ⟨before, after, rfl, hstop, hfront, hback⟩ := Layout.exists_token_items hscan hwrite
  have hle : span.stop ≤ source.length := by
    have hlength := congrArg List.length hslice
    simp only [Text.slice, List.length_take, List.length_drop] at hlength
    omega
  exact ⟨⟨before, after, _, p, inner, rfl, hscan, hnew hstop hscan, hlt, hstop, hle, hfront, hback,
    htokens, hwhole, hp, hplace, hchildren⟩⟩

namespace Exchange

/-- The layout of the new source. -/
def new (x : Exchange source d front back span l l') : Layout :=
  .ofItems (x.before ++ (Lexeme.items span.start l'.lexemes ++
    x.after.map (.carry (Text.moved span l'.text) (Text.moved span l'.text))))

variable (x : Exchange source d front back span l l')

theorem tokensAll_inner : Node.tokensAll x.inner = front ++ (l, span) :: back := by
  rw [← x.tokens, Document.tokens, x.children, Node.tokensAll_append, Node.tokensAll_map_comment,
    List.append_nil]

theorem leaves : x.program.leaves = front.map Prod.fst ++ l :: back.map Prod.fst := by
  rw [Program.leaves, ← Program.map_tokens_of_place x.place, x.tokensAll_inner, List.map_append,
    List.map_cons]

theorem map_before : x.before.map (.carry (Text.moved span l'.text) (Text.moved span l'.text)) =
    x.before :=
  Placed.map_carry_before x.scan_old fun _ hi => Text.moved_of_lt (hi.trans_lt x.lt)

theorem lexemes_new :
    x.new.lexemes = (front.map Prod.fst ++ l' :: back.map Prod.fst).flatMap Leaf.lexemes :=
  Layout.lexemes_respelled l' span.start _ x.write_front x.write_back

theorem trailing_new : x.new.trailing =
    x.layout.trailing.map (.carry (Text.moved span l'.text) (Text.moved span l'.text)) := by
  rw [x.layout_eq, ← Layout.trailing_respelled l l', new]

/-- The slots of the new source are those of the old one in the new text. -/
theorem carried (hlabel : l'.label = label span l.label)
    (hlabels : ∀ token ∈ front ++ back, label token.2 token.1.label = token.1.label) :
    Slot.Carried label (Text.moved span l'.text) (Text.moved span l'.text) x.program.leaves
      (front.map Prod.fst ++ l' :: back.map Prod.fst) x.layout.slots x.new.slots := by
  obtain ⟨_, hstand, -, -⟩ := Layout.stand_ofItems (stand_of_scan x.scan_old)
  have hspan : (⟨span.start, span.start + l.text.length⟩ : Span) = span := by rw [← x.stop_eq]
  rw [x.leaves, x.layout_eq]
  exact Layout.carried_respelled l l' span.start _ x.write_front x.write_back hstand.start_lt_stop
    x.map_before (Text.moved_of_lt x.lt) (by rw [← x.stop_eq]; exact Text.moved_add 0)
    (by rwa [hspan]) hlabels

/-- If the new source is read as a program with the same nodes, it has the rows of the old one, at
the places where they are then. -/
theorem rows {S : Leaf → Leaf → Prop} (label : Span → Label → Label)
    (h : ofSource? source = some d) {p' : Program} (hp' : x.new.reading? = some p')
    (hrel : x.program.TreesRel S p')
    (hleaves : p'.leaves = front.map Prod.fst ++ l' :: back.map Prod.fst)
    (hwhole : Layout.enumerationsWhole x.new.written = true)
    (hlabel : l'.label = label span l.label)
    (hlabels : ∀ token ∈ front ++ back, label token.2 token.1.label = token.1.label)
    (hnamed : ∀ s k, label s (.named k) = .named k) :
    ∃ d', ofSource? (source.replace span l'.text) = some d' ∧ d'.rows = d.rows.map fun r =>
      (r.relabel label).carry (Text.moved span l'.text) (Text.moved span l'.text) := by
  have hcarried := x.carried hlabel hlabels
  rw [← hleaves] at hcarried
  obtain ⟨inner, hplace, hinner⟩ := Program.place_carried hrel hcarried x.place
  obtain ⟨_, hstand, -, -⟩ := Layout.stand_ofItems (stand_of_scan x.scan_new)
  have hplaced := (Program.placed?_eq_some_iff_reading? hstand).mpr ⟨p', hp', hplace⟩
  have hnodes := nodes?_eq_some_iff.mpr ⟨hwhole, inner, hplaced, rfl⟩
  have hto : List.Forall₂ (Node.CarriedTo label (Text.moved span l'.text) (Text.moved span l'.text))
      d.children (inner ++ x.new.trailing.map (.comment false)) := by
    rw [x.children, x.trailing_new]
    exact List.rel_append hinner (Slot.forall₂_comments _ _ _ _)
  obtain ⟨items, hscan, -, hspan⟩ := ofSource?_eq_some_iff.mp h
  obtain rfl := Option.some.inj (hscan.symm.trans x.scan_old)
  refine ⟨⟨d.span.carry (Text.moved span l'.text) (Text.moved span l'.text), _⟩,
    ofSource?_eq_some_iff.mpr ⟨_, x.scan_new, hnodes, ?_⟩, ?_⟩
  · rw [hspan, Span.carry, Text.length_replace x.lt.le x.stop_le]
    exact congrArg (Span.mk · _)
      (Placed.start_respelled x.map_before (Text.moved_of_lt x.lt) _ _).symm
  · rw [rows_eq, rows_eq, List.map_cons,
      Node.CarriedTo.rowsAll hnamed d.children (tight_children h) hto]
    simp only [Row.carry, Row.relabel, hnamed]

/-- A token that is alike leaves the document as it is, but for its label and the places behind
it. -/
theorem rows_of_alike (x : Exchange source d front back span l l')
    (label : Span → Label → Label) (h : ofSource? source = some d) (halike : l.Alike l')
    (hlabel : l'.label = label span l.label)
    (hlabels : ∀ token ∈ front ++ back, label token.2 token.1.label = token.1.label)
    (hnamed : ∀ s k, label s (.named k) = .named k) :
    ∃ d', ofSource? (source.replace span l'.text) = some d' ∧ d'.rows = d.rows.map fun r =>
      (r.relabel label).carry (Text.moved span l'.text) (Text.moved span l'.text) := by
  have hleaves : List.Forall₂ Leaf.Alike x.program.leaves
      (front.map Prod.fst ++ l' :: back.map Prod.fst) := by
    rw [x.leaves]
    exact List.rel_append (List.forall₂_same.mpr fun _ _ => .refl _)
      (.cons halike (List.forall₂_same.mpr fun _ _ => .refl _))
  -- the new tokens are read as a program that is alike
  have hcarried := x.carried hlabel hlabels
  have hshown : x.layout.lexemes.map Lexeme.shown = x.layout.lexemes := by
    rw [x.layout_eq, Layout.map_shown_lexemes x.scan_old]
  obtain ⟨p', hp', hpp', hleaves'⟩ :=
    Layout.exists_reading? x.reading hshown hleaves x.lexemes_new hcarried
  refine x.rows label h hp' (hpp'.imp fun _ _ hd => hd.trees) hleaves' ?_ hlabel hlabels hnamed
  -- enumerations stay whole, for they are where they were
  have hreads := Layout.reads_of_reading? x.reading
  have hwhole := x.whole
  rw [Layout.enumerationsWhole_iff, Layout.written_eq_zip] at hwhole ⊢
  rw [x.lexemes_new, ← hleaves', List.flatMap_def, p'.map_lexemes_leaves]
  refine Layout.isChain_whole hpp'.units.shown x.program.map_lexemes_leaves p'.map_lexemes_leaves
    (hleaves' ▸ hcarried) ?_
  rw [Units.flatten_shown, hreads.2, hshown]
  exact hwhole

end Exchange

end Document

end Heptagon
