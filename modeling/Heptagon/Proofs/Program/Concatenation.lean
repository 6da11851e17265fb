import Heptagon.Proofs.Division
import Heptagon.Proofs.Node.Moving
import Heptagon.Proofs.Respelling.Dividing

/-!
# Programs one behind the other

A program ends with a word, a brace or a constructor and starts with a keyword,
so no list of targets goes on from one program into the next: the parentheses
that hold targets only are those of each of the two programs
(`Program.separateTargets_append`).  Their nodes follow each other, too
(`Program.place_append`).
-/

namespace Heptagon

/-! ## Targets -/

namespace Lexeme

variable {ts us : List Lexeme}

/-- Whether a text may stop behind a lexeme without going on with targets. -/
def EndsTargets (l : Lexeme) : Prop := l ≠ .symbol .comma ∧ l ≠ .symbol .parenOpen

/-- Whether targets that stop behind a name may go on with a lexeme. -/
def ResumesTargets (l : Lexeme) : Prop :=
  l = .symbol .comma ∨ l = .symbol .parenClose ∨ l = .symbol .equal

/-- Targets do not go on into a text that starts with no lexeme of them. -/
theorem holdsOperators_append (found : Bool) (hne : ts ≠ []) (hlast : ∀ l ∈ ts.getLast?, l.EndsTargets)
    (hhead : ∀ l ∈ us.head?, ¬ l.ResumesTargets) :
    holdsOperators found (ts ++ us) = holdsOperators found ts := by
  have hword : ∀ {l : Lexeme} {vs : List Lexeme}, l.ResumesTargets → us ≠ l :: vs := by
    rintro l vs hl rfl
    exact hhead l rfl hl
  fun_induction holdsOperators found ts with
  | case1 found w ts ih =>
      have hts : ts ≠ [] := by
        rintro rfl
        exact (hlast _ rfl).1 rfl
      rw [List.cons_append, List.cons_append, holdsOperators]
      exact ih hts fun l hl => hlast l (by simp [List.getLast?_cons, Option.mem_def.mp hl])
  | case2 found w ts => rfl
  | case3 ts found hcomma hclose =>
      refine holdsOperators.eq_3 found _ (fun w vs heq => ?_) fun w vs heq => ?_
      · rcases ts with _ | ⟨x, _ | ⟨y, ts⟩⟩
        · exact hne rfl
        · exact hword (.inl rfl) (List.cons.inj heq).2
        · obtain ⟨rfl, hrest⟩ := List.cons.inj heq
          obtain ⟨rfl, -⟩ := List.cons.inj hrest
          exact hcomma _ ts rfl
      · rcases ts with _ | ⟨x, _ | ⟨y, _ | ⟨z, ts⟩⟩⟩
        · exact hne rfl
        · exact hword (.inr (.inl rfl)) (List.cons.inj heq).2
        · exact hword (.inr (.inr rfl)) (List.cons.inj (List.cons.inj heq).2).2
        · obtain ⟨rfl, hrest⟩ := List.cons.inj heq
          obtain ⟨rfl, hmore⟩ := List.cons.inj hrest
          obtain ⟨rfl, -⟩ := List.cons.inj hmore
          exact hclose _ ts rfl

theorem separateTargets_append (hlast : ∀ l ∈ ts.getLast?, l.EndsTargets)
    (hhead : ∀ l ∈ us.head?, ¬ l.ResumesTargets) :
    separateTargets (ts ++ us) = separateTargets ts ++ separateTargets us := by
  have htail : ∀ {l : Lexeme} {vs : List Lexeme}, (∀ x ∈ (l :: vs).getLast?, x.EndsTargets) →
      ∀ x ∈ vs.getLast?, x.EndsTargets := fun h x hx =>
    h x (by simp [List.getLast?_cons, Option.mem_def.mp hx])
  fun_induction separateTargets ts with
  | case1 => rfl
  | case2 ts ih =>
      have hne : ts ≠ [] := by
        rintro rfl
        exact (hlast _ rfl).2 rfl
      rw [List.cons_append, separateTargets, ih (htail hlast),
        holdsOperators_append false hne (htail hlast) hhead]
      rfl
  | case3 t ts hnot ih =>
      rw [List.cons_append, separateTargets_cons hnot, ih (htail hlast)]
      rfl

end Lexeme

/-! ## Ends of programs -/

theorem Definition.endsTargets_units (d : Definition) :
    ∃ l, (d.units.flatten.map Lexeme.shown).getLast? = some l ∧ l.EndsTargets := by
  cases d with
  | component c =>
      exact ⟨.kw .tel, by simp [units, Component.units, List.getLast?_cons, List.getLast?_append],
        by simp, by simp⟩
  | record n f fs =>
      exact ⟨.symbol .braceClose, by simp [units, List.getLast?_cons, List.getLast?_append],
        by simp, by simp⟩
  | enumeration n bar t variants =>
      have hlast : ∀ (t : Text), ∃ u, (([Lexeme.capital t] :: variantUnits variants).flatten.map
          Lexeme.shown).getLast? = some (.capital u) := by
        induction variants with
        | nil => exact fun t => ⟨t, rfl⟩
        | cons u variants ih => exact fun t => by simpa [variantUnits, List.getLast?_cons] using ih u
      obtain ⟨u, hu⟩ := hlast t
      refine ⟨.capital u, ?_, by simp, by simp⟩
      simp at hu
      simp [units, List.getLast?_cons, List.getLast?_append, hu]

namespace Program

theorem endsTargets_units (p : Program) :
    ∀ l ∈ (p.units.flatten.map Lexeme.shown).getLast?, l.EndsTargets := by
  induction p with
  | nil => simp [units]
  | cons d p ih =>
      obtain ⟨l, hl, hends⟩ := d.endsTargets_units
      rw [units_cons, List.flatten_append, List.map_append, List.getLast?_append, hl]
      cases hlast : ((units p).flatten.map Lexeme.shown).getLast? with
      | none => simpa using hends
      | some x => simpa using ih x hlast

/-- A program starts with a keyword. -/
theorem exists_head?_units (p : Program) :
    ∀ l ∈ (p.units.flatten.map Lexeme.shown).head?, ∃ k, l = .kw k := by
  cases p with
  | nil => simp [units]
  | cons d p => cases d <;> simp [units, Definition.units]

/-- The parentheses that hold targets only are those of each of two programs. -/
theorem separateTargets_append (p q : Program) :
    Lexeme.separateTargets (p.units.flatten.map Lexeme.shown ++ q.units.flatten.map Lexeme.shown) =
      Lexeme.separateTargets (p.units.flatten.map Lexeme.shown) ++
        Lexeme.separateTargets (q.units.flatten.map Lexeme.shown) :=
  Lexeme.separateTargets_append p.endsTargets_units fun l hl => by
    obtain ⟨k, rfl⟩ := q.exists_head?_units l hl
    simp [Lexeme.ResumesTargets]

end Program

/-! ## Nodes -/

section

variable {d : Definition} {p q : Program} {us : List Lexeme} {slots more : List Slot}

theorem Definition.place_append (hd : d.Fits us) (h : d.units.flatten.length ≤ slots.length) :
    d.place (slots ++ more) = (d.place slots).map fun r => (r.1, r.2 ++ more) := by
  have hpos := d.one_le_length_units
  have hcomments : Slot.commentsBetween (slots ++ more) = Slot.commentsBetween slots := by
    cases slots with
    | nil => exact absurd (hpos.trans h) (by simp)
    | cons s slots => rfl
  rw [place, place, hcomments, Tree.placeAll_append _ (wide_trees hd) (d.widthAll_trees.trans_le h)]
  cases Tree.placeAll d.trees slots <;> rfl

/-- The slots behind those of a definition are left. -/
theorem Definition.length_of_place {rest : List Slot} {nodes : List Node}
    (h : d.place slots = some (nodes, rest)) :
    rest.length = slots.length - d.units.flatten.length := by
  obtain ⟨ns, hns, -⟩ := place_iff.mp h
  rw [Tree.eq_drop_of_placeAll _ hns, List.length_drop, d.widthAll_trees]

/-- The nodes of two programs follow each other. -/
theorem Program.place_append (hp : p.Fits) (h : slots.length = p.units.flatten.length) :
    (p ++ q).place (slots ++ more) =
      (p.place slots).bind fun ns => (q.place more).map (ns ++ ·) := by
  induction p generalizing slots with
  | nil =>
      obtain rfl := List.length_eq_zero_iff.mp h
      cases hq : q.place more <;> simp [place, hq]
  | cons d p ih =>
      rw [units_cons, List.flatten_append, List.length_append] at h
      rw [List.cons_append, place, place, Definition.place_append hp.1 (by omega)]
      cases hfirst : d.place slots with
      | none => rfl
      | some r =>
          obtain ⟨first, rest⟩ := r
          have hrest := Definition.length_of_place hfirst
          simp only [Option.map_some, Option.bind_eq_bind, Option.bind_some,
            ih hp.2 (show rest.length = _ by omega)]
          cases place p rest with
          | none => rfl
          | some ns => cases q.place more <;> simp

theorem Slot.commentsBetween_moveBy (n : Nat) (slots : List Slot) :
    commentsBetween (slots.map (.moveBy n)) = (commentsBetween slots).map (.moveBy n) := by
  cases slots with
  | nil => rfl
  | cons s slots => simp [commentsBetween, moveBy, Node.moveBy]

/-- Over slots further on in a text, a program is further on. -/
theorem Program.place_moveBy (n : Nat) (p : Program) (slots : List Slot) :
    p.place (slots.map (.moveBy n)) = (p.place slots).map (·.map (.moveBy n)) := by
  induction p generalizing slots with
  | nil => rfl
  | cons d p ih =>
      rw [place, place, Definition.place, Definition.place, Tree.placeAll_moveBy,
        Slot.commentsBetween_moveBy]
      cases Tree.placeAll d.trees slots with
      | none => rfl
      | some r =>
          simp only [Option.map_some, Option.bind_eq_bind, Option.bind_some, Option.pure_def, ih]
          cases place p r.2 <;> simp

/-- A comment in front of a program is a node in front. -/
theorem Program.place_cons_comment (c : Span) (cs : List Span) (s : Span) (hp : p ≠ []) :
    p.place (⟨c :: cs, s⟩ :: slots) =
      (p.place (⟨cs, s⟩ :: slots)).map (.comment false c :: ·) := by
  obtain ⟨d, p, rfl⟩ := List.exists_cons_of_ne_nil hp
  obtain ⟨k, ts, htrees⟩ := d.exists_trees_eq_kw
  have hleaf : ∀ cs, (Leaf.keyword k).place (⟨cs, s⟩ :: slots) = some (s, slots) := fun _ => rfl
  rw [place, place, Definition.place, Definition.place, htrees]
  simp only [Tree.placeAll, Tree.place, hleaf, Option.bind_eq_bind, Option.bind_some, Option.pure_def]
  cases Tree.placeMore ts slots with
  | none => rfl
  | some r =>
      simp only [Option.bind_some]
      cases place p r.2 <;> rfl

end

end Heptagon
