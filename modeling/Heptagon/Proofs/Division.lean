import Heptagon.Division
import Heptagon.Proofs.Units
import Mathlib.Data.List.Chain

/-!
# Setting parentheses apart

Setting a parenthesis apart changes no token.  Before a text is read, only
parentheses are set apart that hold targets one of which cannot stand alone as
an argument; there are none where no such word stands before a comma or a
closing parenthesis (`Lexeme.separateTargets_eq`).
-/

namespace Heptagon

namespace Lexeme

/-- Setting parentheses apart shows the same tokens. -/
theorem map_shown_separateTargets (ts : List Lexeme) :
    (separateTargets ts).map shown = ts.map shown := by
  fun_induction separateTargets ts with
  | case1 => rfl
  | case2 ts ih =>
      rw [List.map_cons, ih]
      split <;> rfl
  | case3 t ts _ ih => rw [List.map_cons, ih, List.map_cons]

theorem map_shown_separateAt (places : List Nat) (i : Nat) (ts : List Lexeme) :
    (separateAt places i ts).map shown = ts.map shown := by
  induction ts generalizing i with
  | nil => rfl
  | cons t ts ih =>
      rw [separateAt, List.map_cons, ih, List.map_cons]
      split
      · next h =>
          obtain ⟨h, -⟩ : t = .symbol .parenOpen ∧ _ := by simpa using h
          rw [h]
          rfl
      · rfl

@[simp] theorem length_separateAt (places : List Nat) (i : Nat) (ts : List Lexeme) :
    (separateAt places i ts).length = ts.length := by
  simpa using congrArg List.length (map_shown_separateAt places i ts)

theorem separateAt_nil (i : Nat) (ts : List Lexeme) : separateAt [] i ts = ts := by
  induction ts generalizing i with
  | nil => rfl
  | cons t ts ih => simp [separateAt, ih]

/-! ## Targets that cannot be arguments -/

/-- Whether a lexeme ends an argument or a list. -/
def closes : Lexeme → Bool
  | symbol .comma => true
  | symbol .parenClose => true
  | _ => false

/-- Whether a lexeme is a word that cannot stand alone as an argument. -/
def pends : Lexeme → Bool
  | word w => holdsOperators.needsOperand w
  | _ => false

/-- A word that cannot stand alone as an argument does not end one. -/
def Precedes (x y : Lexeme) : Prop := x.pends = true → y.closes = false

theorem found_of_holdsOperators {ts : List Lexeme} {found : Bool}
    (hts : ts.IsChain Precedes) (h : holdsOperators found ts = true) : found = true := by
  fun_induction holdsOperators found ts with
  | case1 found w ts ih =>
      obtain ⟨hw, hts⟩ := List.isChain_cons.mp hts
      have hfound := ih (List.isChain_cons.mp hts).2 h
      by_contra hnot
      have hpends : holdsOperators.needsOperand w = true := by simpa [hnot] using hfound
      simpa [closes] using hw (.symbol .comma) (by simp) hpends
  | case2 found w ts =>
      obtain ⟨hw, -⟩ := List.isChain_cons.mp hts
      by_contra hnot
      have hpends : holdsOperators.needsOperand w = true := by simpa [hnot] using h
      simpa [closes] using hw (.symbol .parenClose) (by simp) hpends
  | case3 => simp at h

theorem separateTargets_eq {ts : List Lexeme} (h : ts.IsChain Precedes) :
    separateTargets ts = ts := by
  fun_induction separateTargets ts with
  | case1 => rfl
  | case2 ts ih =>
      obtain ⟨-, hts⟩ := List.isChain_cons.mp h
      rw [ih hts]
      split
      · next hholds => simpa using found_of_holdsOperators hts hholds
      · rfl
  | case3 t ts _ ih => rw [ih (List.isChain_cons.mp h).2]

/-! ## Texts in which every call is joined -/

section

variable {ts us : List Lexeme} {l : Lexeme}

theorem eq_of_shown {x y : Lexeme} (h : x.shown = y) (hy : y ≠ .symbol .parenOpen) : x = y := by
  cases x with
  | apart => exact absurd h.symm hy
  | _ => exact h

/-- Whether targets hold a word that needs an operand does not depend on what stands apart. -/
theorem holdsOperators_map_shown (found : Bool) (ts : List Lexeme) :
    holdsOperators found (ts.map shown) = holdsOperators found ts := by
  fun_induction holdsOperators found ts with
  | case1 found w ts ih => simpa [holdsOperators] using ih
  | case2 found w ts => simp [holdsOperators]
  | case3 ts found hcomma hclose =>
      refine holdsOperators.eq_3 found _ (fun w us heq => ?_) fun w us heq => ?_
      · obtain ⟨x, xs, rfl, hx, hxs⟩ := List.map_eq_cons_iff.mp heq
        obtain ⟨y, ys, rfl, hy, -⟩ := List.map_eq_cons_iff.mp hxs
        exact hcomma w ys (by rw [eq_of_shown hx (by simp), eq_of_shown hy (by simp)])
      · obtain ⟨x, xs, rfl, hx, hxs⟩ := List.map_eq_cons_iff.mp heq
        obtain ⟨y, ys, rfl, hy, hys⟩ := List.map_eq_cons_iff.mp hxs
        obtain ⟨z, zs, rfl, hz, -⟩ := List.map_eq_cons_iff.mp hys
        exact hclose w zs (by
          rw [eq_of_shown hx (by simp), eq_of_shown hy (by simp), eq_of_shown hz (by simp)])

theorem holdsOperators_congr {found : Bool} (h : ts.map shown = us.map shown) :
    holdsOperators found ts = holdsOperators found us := by
  rw [← holdsOperators_map_shown, h, holdsOperators_map_shown]

/-- The text as it is read first: a parenthesis stands apart exactly if it cannot hold arguments. -/
def joined (ts : List Lexeme) : List Lexeme := separateTargets (ts.map shown)

@[simp] theorem joined_nil : joined [] = [] := rfl

theorem joined_cons (hopen : l ≠ .symbol .parenOpen) (hapart : l ≠ .apart) (ts : List Lexeme) :
    joined (l :: ts) = l :: joined ts := by
  have hshown : l.shown = l := by
    cases l with
    | apart => exact absurd rfl hapart
    | _ => rfl
  rw [joined, List.map_cons, hshown]
  exact separateTargets.eq_3 l _ hopen

theorem joined_opening (o : Opening) (ts : List Lexeme) : joined (o.lexeme :: ts) =
    (if holdsOperators false ts then .apart else .symbol .parenOpen) :: joined ts := by
  rw [joined, List.map_cons, Opening.shown_lexeme, separateTargets, holdsOperators_map_shown, joined]

end

end Lexeme

end Heptagon
