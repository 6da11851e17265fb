import Heptagon.Proofs.Respelling.Joining
import Heptagon.Proofs.Respelling.Program

/-!
# What follows a definition

How a definition is read does not depend on what follows it, as long as this is
no further constructor of an enumeration (`Definition.Fits.congr`).  So the
definitions of a program are those of its parts, one part after the other
(`Program.fits_append`).

A reader may look at what follows, and whether it does is said for each
construct where it is compared with others that are alike; a definition that is
read is like itself, which is all that is needed here.
-/

namespace Heptagon

namespace Units

variable {us vs ws : Units}

/-- Which units are a parenthesis that stands apart. -/
def parted (us : Units) : List Bool := us.map fun u => decide (u = [.apart])

theorem Alike.parted_eq (h : us.Alike vs) : vs.parted = us.parted := by
  induction h with
  | nil => rfl
  | one hl _ ih =>
      rw [parted, parted, List.map_cons, List.map_cons, ← parted, ← parted, ih]
      simp [hl.eq_apart_iff]
  | @state s s' _ _ _ _ ih =>
      rw [parted, parted, List.map_cons, List.map_cons, ← parted, ← parted, ih]
      congr 1
      cases s <;> cases s' <;> rfl

theorem Alike.length_eq (h : us.Alike vs) : us.length = vs.length := by
  simpa [parted] using (congrArg List.length h.parted_eq).symm

/-- What tokens show, and whether parentheses stand apart, is all about a unit. -/
theorem Proper.ext (hus : us.Proper) (hvs : vs.Proper) (hshown : us.shown = vs.shown)
    (hparted : us.parted = vs.parted) : us = vs := by
  have hlexeme : ∀ {l l' : Lexeme}, l.shown = l'.shown → (l = .apart ↔ l' = .apart) → l = l' := by
    intro l l' hl hl'
    cases l <;> cases l' <;> simp_all [Lexeme.shown]
  have hstate : ∀ {l : Lexeme} {s : StateName}, [l.shown] = s.lexemes → [l] = s.lexemes := by
    intro l s hl
    cases l <;> cases s <;> simp_all [Lexeme.shown, StateName.lexemes]
  induction us generalizing vs with
  | nil =>
      cases vs with
      | nil => rfl
      | cons v vs => simp at hshown
  | cons u us ih =>
      cases vs with
      | nil => simp at hshown
      | cons v vs =>
          obtain ⟨hu, hus⟩ := List.forall_mem_cons.mp hus
          obtain ⟨hv, hvs⟩ := List.forall_mem_cons.mp hvs
          obtain ⟨hfirst, hshown⟩ := List.cons.inj hshown
          obtain ⟨hapart, hparted⟩ := List.cons.inj hparted
          refine congrArg₂ List.cons ?_ (ih hus hvs hshown hparted)
          rcases hu with ⟨l, rfl⟩ | ⟨s, rfl⟩ <;> rcases hv with ⟨l', rfl⟩ | ⟨s', rfl⟩
          · obtain rfl := hlexeme (by simpa using hfirst) (by simpa using hapart)
            rfl
          · exact hstate (by simpa using hfirst)
          · exact (hstate (by simpa using hfirst.symm)).symm
          · simpa using hfirst

/-- There is one way to respell the units of a text. -/
theorem Alike.unique (hvs : us.Alike vs) (hws : us.Alike ws) (h : vs.shown = ws.shown) : vs = ws :=
  hvs.proper.2.ext hws.proper.2 h (hvs.parted_eq.trans hws.parted_eq.symm)

end Units

variable {ts ts' : List Lexeme}

namespace Definition

variable {d d' : Definition}

/-- A definition that is read is like itself: the one that is like it and has the same tokens has
the same text. -/
theorem Fits.alike_self (h : d.Fits ts) : d.Alike d := by
  obtain ⟨d', halike, hleaves⟩ := d.exists_alike (List.forall₂_same.mpr fun l _ => Leaf.Alike.refl l)
  have hunits := halike.units .nil
  rw [List.append_nil, List.append_nil] at hunits
  have hshown : d'.units.shown = d.units.shown := by
    rw [← d.unitsAll_trees, ← d'.unitsAll_trees, Tree.unitsAll, Tree.unitsAll, hleaves]
  have hsame : d'.units = d.units := hunits.proper.2.ext hunits.proper.1 hshown hunits.parted_eq
  have htake := take?_eq_some_iff.mpr ⟨rfl, h⟩
  rw [← hsame, take?_eq_some_iff.mpr ⟨rfl, halike.fits id h⟩] at htake
  obtain rfl : d' = d := congrArg Prod.fst (Option.some.inj htake)
  exact halike

/-- A definition is what is read in front of other lexemes, too, if no constructor follows there. -/
theorem Fits.congr (h : d.Fits ts) (hts : (∀ t us, ts ≠ .symbol .bar :: .capital t :: us) →
    ∀ t us, ts' ≠ .symbol .bar :: .capital t :: us) : d.Fits ts' :=
  h.alike_self.fits hts h

theorem isText_iff : isText ts = true ↔ ∃ d : Definition, ts = d.units.flatten ∧ d.Fits [] := by
  have htake : isText ts = true ↔ ∃ d, take? ts = some (d, []) := by
    unfold isText
    cases take? ts with
    | none => simp
    | some result => obtain ⟨d, rest⟩ := result; simp
  simp only [htake, take?_eq_some_iff, List.append_nil]

end Definition

namespace Program

variable {p q : Program}

theorem units_singleton (d : Definition) : units [d] = d.units := List.flatMap_singleton _ _

theorem fits_singleton {d : Definition} : Fits [d] ↔ d.Fits [] := and_iff_left trivial

theorem units_append (p q : Program) : (p ++ q).units = p.units ++ q.units := List.flatMap_append

theorem fits_append : (p ++ q).Fits ↔ p.Fits ∧ q.Fits := by
  induction p with
  | nil => simp [Fits]
  | cons d p ih =>
      rw [List.cons_append, Fits, Fits, ih, and_assoc]
      refine and_congr_left fun _ => ⟨fun h => h.congr fun _ => flatten_units_ne p,
        fun h => h.congr fun _ => flatten_units_ne (p ++ q)⟩

/-- Texts that are read one by one are read one after the other. -/
theorem ofLexemes?_append (hp : ofLexemes? ts = some p) (hq : ofLexemes? ts' = some q) :
    ofLexemes? (ts ++ ts') = some (p ++ q) := by
  obtain ⟨rfl, hpfits⟩ := ofLexemes?_eq_some_iff.mp hp
  obtain ⟨rfl, hqfits⟩ := ofLexemes?_eq_some_iff.mp hq
  exact ofLexemes?_eq_some_iff.mpr
    ⟨by rw [units_append, List.flatten_append], fits_append.mpr ⟨hpfits, hqfits⟩⟩

end Program

end Heptagon
