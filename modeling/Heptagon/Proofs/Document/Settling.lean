import Heptagon.Proofs.Document.Calls
import Heptagon.Proofs.Document.Concatenation

/-!
# Setting parentheses apart by where they start

Which parentheses are set apart in the end can be said by where they start
(`Document.settled_eq`).  So what a source is read as in the end can be compared
with what another source is read as, where the same parentheses start elsewhere.
-/

namespace Heptagon

/-- Sets apart those opening parentheses that start at the given places. -/
def Lexeme.separateFrom (starts : List Nat) (ts : List Lexeme) (slots : List Slot) : List Lexeme :=
  List.zipWith (fun t s =>
    if t == .symbol .parenOpen && starts.contains s.span.start then .apart else t) ts slots

namespace Lexeme

variable {starts starts' : List Nat} {ts us : List Lexeme} {slots slots' more : List Slot}

theorem separateFrom_append (h : ts.length = slots.length) :
    separateFrom starts (ts ++ us) (slots ++ more) =
      separateFrom starts ts slots ++ separateFrom starts us more :=
  List.zipWith_append h

theorem separateFrom_cons (t : Lexeme) (s : Slot) : separateFrom starts (t :: ts) (s :: slots) =
    (if t == .symbol .parenOpen && starts.contains s.span.start then .apart else t) ::
      separateFrom starts ts slots := rfl

theorem length_separateFrom (h : ts.length = slots.length) :
    (separateFrom starts ts slots).length = ts.length := by
  simp [separateFrom, h]

/-- What starts elsewhere is set apart as before if the same places are given for it. -/
theorem separateFrom_congr
    (h : List.Forall₂ (fun s s' => s'.span.start ∈ starts' ↔ s.span.start ∈ starts) slots slots') :
    separateFrom starts' ts slots' = separateFrom starts ts slots := by
  induction h generalizing ts with
  | nil => cases ts <;> rfl
  | @cons s s' slots slots' hs _ ih =>
      cases ts with
      | nil => rfl
      | cons t ts =>
          rw [separateFrom, separateFrom, List.zipWith_cons_cons, List.zipWith_cons_cons]
          have hcontains : starts'.contains s'.span.start = starts.contains s.span.start := by
            rw [Bool.eq_iff_iff, List.contains_iff_mem, List.contains_iff_mem, hs]
          rw [hcontains]
          exact congrArg _ ih

theorem separateAt_eq_separateFrom {places : List Nat} {i : Nat}
    (hlength : ts.length = slots.length)
    (h : ∀ j s, slots[j]? = some s → (i + j ∈ places ↔ s.span.start ∈ starts)) :
    separateAt places i ts = separateFrom starts ts slots := by
  induction ts generalizing i slots with
  | nil => rfl
  | cons t ts ih =>
      cases slots with
      | nil => simp at hlength
      | cons s slots =>
          have hcontains : places.contains i = starts.contains s.span.start := by
            rw [Bool.eq_iff_iff, List.contains_iff_mem, List.contains_iff_mem]
            exact h 0 s rfl
          rw [separateAt, hcontains, ih (by simpa using hlength) fun j s' hs' => ?_]
          · rfl
          · rw [← h (j + 1) s' (by simpa using hs'), Nat.add_right_comm, Nat.add_assoc]

end Lexeme

/-- The slots of a source follow each other. -/
theorem Slot.Stand.pairwise {source : Text} {offset stop : Nat} {ls : List Lexeme}
    {slots : List Slot} (h : Stand source stop offset ls slots) :
    slots.Pairwise fun s t => s.span.stop ≤ t.span.start := by
  have hchain : slots.IsChain fun s t => s.span.stop ≤ t.span.start ∧ t.span.start < t.span.stop :=
    h.isChain.imp_of_mem_imp fun s t _ ht hst => ⟨hst.1, h.start_lt_stop t ht⟩
  have : IsTrans Slot fun s t => s.span.stop ≤ t.span.start ∧ t.span.start < t.span.stop :=
    ⟨fun _ _ _ hst htu => ⟨hst.1.trans (hst.2.le.trans htu.1), htu.2⟩⟩
  exact (List.isChain_iff_pairwise.mp hchain).imp And.left

namespace Document

variable {source : Text} {items : List (Placed Item)}

/-- The parentheses that are set apart are those that start where some do. -/
theorem settled_eq (h : scan source = some items) : (Layout.ofItems items).settled =
    Lexeme.separateFrom (apartStarts source) (Layout.ofItems items).joined
      (Layout.ofItems items).slots := by
  obtain ⟨stop, hstand, -, -⟩ := Layout.stand_ofItems (stand_of_scan h)
  -- a slot is known by where it starts
  have hnodup : ((Layout.ofItems items).slots.map (·.span.start)).Nodup := by
    refine List.pairwise_map.mpr (hstand.pairwise.imp_of_mem fun {s t} hs _ hle heq => ?_)
    have := hstand.start_lt_stop s hs
    omega
  have hlength : (Layout.ofItems items).joined.length = (Layout.ofItems items).slots.length := by
    have := congrArg List.length (Layout.ofItems items).map_shown_joined
    simpa [Layout.lexemes, Layout.slots] using this
  refine Lexeme.separateAt_eq_separateFrom hlength fun j s hs => ?_
  rw [Nat.zero_add]
  constructor
  · exact fun hj => mem_apartStarts h hj hs
  · intro hstart
    rw [apartStarts, h] at hstart
    obtain ⟨i, hi, hslot⟩ := List.mem_filterMap.mp hstart
    rw [setApart_eq h] at hi
    have hij : ((Layout.ofItems items).slots.map (·.span.start))[i]? =
        ((Layout.ofItems items).slots.map (·.span.start))[j]? := by
      rw [List.getElem?_map, List.getElem?_map, hs, hslot]
      rfl
    have hi' : i < ((Layout.ofItems items).slots.map (·.span.start)).length := by
      rw [List.length_map]
      by_contra hge
      simp [List.getElem?_eq_none (Nat.le_of_not_lt hge)] at hslot
    rwa [← (List.getElem?_inj hi' hnodup).mp hij]

end Document

namespace Layout

variable {l : Layout} {r : Program}

theorem joined_eq {ts : List Lexeme} (h : l.lexemes = ts.map Lexeme.shown) :
    l.joined = Lexeme.joined ts := by
  rw [joined, h, Lexeme.joined]

/-- What a layout is read as in the end is first read as it is. -/
theorem settled_and_joined_of_reading? (hr : l.reading? = some r)
    (hshown : l.lexemes.map Lexeme.shown = l.lexemes) :
    l.settled = r.units.flatten ∧ l.joined = Lexeme.joined r.units.flatten := by
  obtain ⟨p, hp, -⟩ := Option.map_eq_some_iff.mp hr
  exact ⟨(Program.ofLexemes?_eq_some_iff.mp ((reading?_eq_some_iff hp).mp hr)).1,
    joined_eq (hshown.symm.trans (reads_of_reading? hr).2.symm)⟩

/-- A layout is read as the program whose text it has once its parentheses are set apart. -/
theorem reading?_of_settled (hsettled : l.settled = r.units.flatten) (hfits : r.Fits) :
    l.reading? = some r := by
  have hr : Program.ofLexemes? l.settled = some r :=
    Program.ofLexemes?_eq_some_iff.mpr ⟨hsettled, hfits⟩
  cases hp : Program.ofLexemes? l.joined with
  | some p => exact (reading?_eq_some_iff hp).mpr hr
  | none =>
      -- what cannot be read sets nothing apart
      have hnone : l.settled = l.joined := by
        rw [settled, setApart, hp]
        exact Lexeme.separateAt_nil _ _
      rw [hnone, hp] at hr
      simp at hr

end Layout

end Heptagon
