import Heptagon.Proofs.Document.Rereading
import Heptagon.Proofs.StateNames.Alignment

/-!
# The reading that stays

A layout is read twice, and the second reading stays if there is one.  The two
have the same tokens, so they can be laid over the same slots, and the nodes of
a layout are those of the reading that stays
(`Program.placed?_eq_some_iff_reading?`).
-/

namespace Heptagon

/-- The program that a layout is read as in the end. -/
def Layout.reading? (l : Layout) : Option Program :=
  (Program.ofLexemes? l.joined).map fun p => (Program.ofLexemes? l.settled).getD p

theorem Layout.reads_of_reading? {l : Layout} {p : Program} (h : l.reading? = some p) :
    l.Reads p := by
  obtain ⟨q, hq, rfl⟩ := Option.map_eq_some_iff.mp h
  cases hsettled : Program.ofLexemes? l.settled with
  | none => exact l.reads_of_joined hq
  | some r => exact l.reads_of_settled hsettled

/-- There are slots for tokens that are written at them. -/
theorem Slot.Write.admits {tokens : List (Leaf × Span)} {ls : List Lexeme} {slots : List Slot}
    (h : Write tokens ls slots) : Admit (tokens.map (·.1.lexemes)) slots := by
  induction h with
  | nil => exact .nil
  | one hl _ ih =>
      rw [List.map_cons, hl]
      exact .one ih
  | two hl hcomments htouch _ ih =>
      rw [List.map_cons, hl]
      exact .two hcomments htouch ih

/-- Where tokens stand depends on nothing but which slots each of them takes. -/
theorem Slot.Write.map_snd_eq {tokens tokens' : List (Leaf × Span)} {ls : List Lexeme}
    {slots : List Slot} (h : Write tokens ls slots) (h' : Write tokens' ls slots)
    (hsame : List.Forall₂ (fun u v => u.1.lexemes = v.1.lexemes) tokens tokens') :
    tokens'.map Prod.snd = tokens.map Prod.snd := by
  induction h generalizing tokens' with
  | nil =>
      cases hsame
      rfl
  | one hl _ ih =>
      cases hsame with
      | cons hlexemes hrest =>
          cases h' with
          | one _ h' => exact congrArg (_ :: ·) (ih h' hrest)
          | two hl' => simp [hl, hl'] at hlexemes
  | two hl _ _ _ ih =>
      cases hsame with
      | cons hlexemes hrest =>
          cases h' with
          | one hl' => simp [hl, hl'] at hlexemes
          | two _ _ _ h' => exact congrArg (_ :: ·) (ih h' hrest)

section

variable {source : Text} {offset stop : Nat} {l : Layout} {p q : Program}
  {nodes nodes' : List Node}

/-- The tokens of a reading are written with the lexemes of the layout. -/
theorem Layout.Reads.write (hstand : Slot.Stand source stop offset l.lexemes l.slots)
    (hp : l.Reads p) (h : p.place l.slots = some nodes) :
    Slot.Write (Node.tokensAll nodes) (l.lexemes.map Lexeme.shown) l.slots := by
  obtain ⟨hwrite, -⟩ := Program.write_of_place hp.1 h (hstand.congr hp.2.symm)
  rwa [Units.flatten_shown, hp.2] at hwrite

/-- The tokens of the nodes of a program are its own. -/
theorem Program.map_tokens_of_place {slots : List Slot} (h : p.place slots = some nodes) :
    (Node.tokensAll nodes).map Prod.fst = Tree.leavesAll (p.flatMap Definition.trees) := by
  induction p generalizing slots nodes with
  | nil =>
      obtain rfl := by simpa [place] using h
      rfl
  | cons d p ih =>
      obtain ⟨first, rest, more, hfirst, hmore, rfl⟩ := place_cons_iff.mp h
      obtain ⟨ns, hns, rfl⟩ := Definition.place_iff.mp hfirst
      have htokens := Node.map_tokensAll ns
      rw [Tree.trees_of_placeAll d.trees hns] at htokens
      rw [Node.tokensAll_append, Node.tokensAll_append, Slot.tokensAll_commentsBetween,
        List.nil_append, List.map_append, htokens, ih hmore, List.flatMap_cons,
        Tree.leavesAll_append]

/-- Where one reading of a layout can be laid over it, every other one can, too. -/
theorem Layout.Reads.exists_place (hstand : Slot.Stand source stop offset l.lexemes l.slots)
    (hp : l.Reads p) (hq : l.Reads q) (h : p.place l.slots = some nodes) :
    ∃ nodes', q.place l.slots = some nodes' := by
  refine Program.exists_place ?_
  have hadmit := (hp.write hstand h).admits
  have hleaves := Program.forall₂_leaves hp.1 hq.1 (hp.2.trans hq.2.symm)
  have hunits : (Tree.leavesAll (p.flatMap Definition.trees)).map Leaf.lexemes =
      Tree.unitsAll (q.flatMap Definition.trees) := by
    rw [Tree.unitsAll, ← List.forall₂_eq_eq_eq, List.forall₂_map_left_iff,
      List.forall₂_map_right_iff]
    exact hleaves.imp fun _ _ hl => hl.1
  rwa [← hunits, ← Program.map_tokens_of_place h, List.map_map]

/-- All readings of a layout have their tokens at the same places. -/
theorem Layout.Reads.map_spans_eq (hstand : Slot.Stand source stop offset l.lexemes l.slots)
    (hp : l.Reads p) (hq : l.Reads q) (h : p.place l.slots = some nodes)
    (h' : q.place l.slots = some nodes') :
    (Node.tokensAll nodes').map Prod.snd = (Node.tokensAll nodes).map Prod.snd := by
  refine (hp.write hstand h).map_snd_eq (hq.write hstand h') ?_
  have hleaves := Program.forall₂_leaves hp.1 hq.1 (hp.2.trans hq.2.symm)
  rw [← Program.map_tokens_of_place h, ← Program.map_tokens_of_place h',
    List.forall₂_map_left_iff, List.forall₂_map_right_iff] at hleaves
  exact hleaves.imp fun _ _ hl => hl.1

/-- The nodes of a layout are those of the reading that stays. -/
theorem Program.placed?_eq_some_iff_reading?
    (hstand : Slot.Stand source stop offset l.lexemes l.slots) :
    placed? l = some nodes ↔ ∃ r, l.reading? = some r ∧ r.place l.slots = some nodes := by
  rw [placed?_eq_some_iff]
  constructor
  · rintro ⟨p, first, hp, hfirst, rfl⟩
    cases hq : ofLexemes? l.settled with
    | none => exact ⟨p, by simp [Layout.reading?, hp, hq], hfirst⟩
    | some q =>
        obtain ⟨last, hlast⟩ := (l.reads_of_joined hp).exists_place hstand
          (l.reads_of_settled hq) hfirst
        exact ⟨q, by simp [Layout.reading?, hp, hq], by simp [hlast]⟩
  · rintro ⟨r, hr, hnodes⟩
    obtain ⟨p, hp, rfl⟩ := Option.map_eq_some_iff.mp hr
    obtain ⟨first, hfirst⟩ := (Layout.reads_of_reading? hr).exists_place hstand
      (l.reads_of_joined hp) hnodes
    refine ⟨p, first, hp, hfirst, ?_⟩
    cases hq : ofLexemes? l.settled with
    | none => simpa [hq, hfirst] using hnodes.symm
    | some q =>
        rw [hq, Option.getD_some] at hnodes
        simp [hnodes]

end

end Heptagon
