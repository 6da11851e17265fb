import Heptagon.Proofs.Division
import Heptagon.Proofs.Respelling.Token
import Mathlib.Order.Monotone.Basic

/-!
# Parentheses in another spelling

Which parentheses are set apart before a text is read depends on its words only
as far as they are keywords (`Units.Alike.separateTargets_eq`).  The name of a
state may be any words, but it is no argument, because neither a comma nor a
closing parenthesis follows it.

The parentheses that are set apart later are given by the places of their
lexemes.  These are the places of their units (`Units.separateAt`) moved to
where the units start (`Units.flatten_separateAt`).
-/

namespace Heptagon

namespace Lexeme

/-- No operand is pending in the name of a state. -/
theorem holdsOperators_state (found : Bool) (s : StateName) {ts : List Lexeme}
    (h : ∀ l ∈ ts.head?, l.followsState) : holdsOperators found (s.lexemes ++ ts) = false := by
  cases s with
  | capital t => rfl
  | mixed w t => rfl
  | small w =>
      cases ts with
      | nil => rfl
      | cons l ts =>
          have hl := h l rfl
          cases l with
          | symbol s => cases s <;> first | rfl | exact absurd hl (by decide)
          | _ => rfl

theorem separateTargets_cons {l : Lexeme} (h : l ≠ .symbol .parenOpen) (ts : List Lexeme) :
    separateTargets (l :: ts) = l :: separateTargets ts :=
  separateTargets.eq_3 l ts fun hl => h hl

theorem separateTargets_state (s : StateName) (ts : List Lexeme) :
    separateTargets (s.lexemes ++ ts) = s.lexemes ++ separateTargets ts := by
  cases s <;> rfl

theorem needsOperand_eq {w w' : Word} (h : w.Alike w') :
    holdsOperators.needsOperand w' = holdsOperators.needsOperand w := by
  cases h <;> rfl

end Lexeme

namespace Units.Alike

variable {us us' : Units}

theorem shown (h : us.Alike us') : us.shown.Alike us'.shown := by
  induction h with
  | nil => exact .nil
  | one hl _ ih => exact .one hl.shown ih
  | @state s s' us us' hfollows _ ih =>
      rw [Units.shown_cons, Units.shown_cons, StateName.map_shown_lexemes,
        StateName.map_shown_lexemes]
      refine .state (fun l hl => ?_) ih
      rw [flatten_shown, List.head?_map] at hl
      obtain ⟨x, hx, rfl⟩ := Option.map_eq_some_iff.mp hl
      have := hfollows x hx
      cases x <;> first | rfl | exact this

theorem head?_eq_symbol_iff (h : us.Alike us') {s : Symbol} (hs : s.isAlone = true) :
    us'.flatten.head? = some (.symbol s) ↔ us.flatten.head? = some (.symbol s) := by
  cases h with
  | nil => rfl
  | one hl _ => simpa using hl.eq_symbol_iff hs
  | @state s s' _ _ _ _ => cases s <;> cases s' <;> simp [StateName.lexemes]

/-- The other text may follow a state, too. -/
theorem followsState (h : us.Alike us') (hfollows : ∀ l ∈ us.flatten.head?, l.followsState) :
    ∀ l ∈ us'.flatten.head?, l.followsState := by
  intro l hl
  cases l with
  | symbol t =>
      cases t <;> first | rfl | exact hfollows _ ((h.head?_eq_symbol_iff rfl).mp hl)
  | _ => rfl

/-- An operand is pending in both of two texts that are alike, and also after words that are. -/
theorem holdsOperators_eq (h : us.Alike us') :
    (∀ found, Lexeme.holdsOperators found us'.flatten = Lexeme.holdsOperators found us.flatten) ∧
      ∀ found w w', w.Alike w' → Lexeme.holdsOperators found (.word w' :: us'.flatten) =
        Lexeme.holdsOperators found (.word w :: us.flatten) := by
  induction h with
  | nil => exact ⟨fun _ => rfl, fun _ _ _ _ => rfl⟩
  | @one l l' us us' hl h ih =>
      obtain ⟨ih, ihword⟩ := ih
      refine ⟨fun found => ?_, fun found w w' hw => ?_⟩
      · cases hl with
        | word hw => exact ihword found _ _ hw
        | _ => simp [Lexeme.holdsOperators]
      · simp only [List.flatten_cons, List.cons_append, List.nil_append]
        by_cases hcomma : l = .symbol .comma
        · rw [hcomma, (hl.eq_symbol_iff rfl).mpr hcomma, Lexeme.holdsOperators,
            Lexeme.holdsOperators, Lexeme.needsOperand_eq hw]
          exact ih _
        -- only the sign of an equation behind the parenthesis makes a list of targets of it
        have hhead := h.head?_eq_symbol_iff (s := .equal) rfl
        by_cases hequal : l = .symbol .parenClose ∧ us.flatten.head? = some (.symbol .equal)
        · obtain ⟨hclose, hequal⟩ := hequal
          obtain ⟨ts, hts⟩ := List.head?_eq_some_iff.mp hequal
          obtain ⟨ts', hts'⟩ := List.head?_eq_some_iff.mp (hhead.mpr hequal)
          rw [hclose, (hl.eq_symbol_iff rfl).mpr hclose, hts, hts', Lexeme.holdsOperators,
            Lexeme.holdsOperators, Lexeme.needsOperand_eq hw]
        · have hnot : ∀ {v : Word} {x : Lexeme} {ts : List Lexeme}, x ≠ .symbol .comma →
              ¬ (x = .symbol .parenClose ∧ ts.head? = some (.symbol .equal)) →
              Lexeme.holdsOperators found (.word v :: x :: ts) = false := by
            intro v x ts hcomma hclose
            refine Lexeme.holdsOperators.eq_3 found _ ?_ ?_
            · rintro w ts ⟨⟩
              exact hcomma rfl
            · rintro w ts ⟨⟩
              exact hclose ⟨rfl, rfl⟩
          rw [hnot hcomma hequal, hnot (mt (hl.eq_symbol_iff rfl).mp hcomma)]
          rwa [hl.eq_symbol_iff rfl, hhead]
  | @state s s' us us' hfollows h ih =>
      have hfollows' := h.followsState hfollows
      simp only [List.flatten_cons]
      refine ⟨fun found => ?_, fun found w w' _ => ?_⟩
      · rw [Lexeme.holdsOperators_state found s hfollows,
          Lexeme.holdsOperators_state found s' hfollows']
      · cases s <;> cases s' <;> simp [StateName.lexemes, Lexeme.holdsOperators]

/-- If exactly the parentheses are set apart in the one text that hold operators, so they are in the
other one. -/
theorem separateTargets_eq (h : us.Alike us')
    (hus : Lexeme.separateTargets (us.flatten.map Lexeme.shown) = us.flatten) :
    Lexeme.separateTargets (us'.flatten.map Lexeme.shown) = us'.flatten := by
  induction h with
  | nil => rfl
  | @one l l' us us' hl h ih =>
      have hopen := h.shown.holdsOperators_eq.1 false
      rw [flatten_shown, flatten_shown] at hopen
      simp only [List.flatten_cons, List.cons_append, List.nil_append, List.map_cons] at hus ⊢
      -- only a parenthesis can be set apart, and what follows it decides that
      by_cases hshown : l.shown = .symbol .parenOpen
      · have hshown' := (hl.shown.eq_symbol_iff rfl).mpr hshown
        rw [hshown, Lexeme.separateTargets] at hus
        rw [hshown', Lexeme.separateTargets, hopen]
        obtain ⟨hhead, hmore⟩ := List.cons.inj hus
        rw [ih hmore, hhead]
        cases hl with
        | @symbol t t' _ =>
            have hsame : Lexeme.symbol t = .symbol t' := Eq.trans hshown hshown'.symm
            rw [hsame]
        | apart => rfl
        | _ => simp at hshown
      · have hshown' := mt (hl.shown.eq_symbol_iff rfl).mp hshown
        have hself : ∀ {x : Lexeme}, x.shown ≠ .symbol .parenOpen → x.shown = x := by
          intro x hx
          cases x with
          | apart => exact absurd rfl hx
          | _ => rfl
        rw [Lexeme.separateTargets_cons hshown] at hus
        rw [Lexeme.separateTargets_cons hshown', ih (List.cons.inj hus).2, hself hshown']
  | @state s s' us us' hfollows h ih =>
      simp only [List.flatten_cons, List.map_append, StateName.map_shown_lexemes,
        Lexeme.separateTargets_state] at hus ⊢
      rw [ih (List.append_cancel_left hus)]

end Units.Alike

/-! ## Places of tokens -/

/-- A map says at which lexeme each token starts, from the `i`-th on, if the tokens have so many
lexemes each. -/
def Tracks (f : Nat → Nat) : (i : Nat) → (widths : List Nat) → Prop
  | _, [] => True
  | i, w :: ws => f (i + 1) = f i + w ∧ Tracks f (i + 1) ws

theorem tracks_append {f : Nat → Nat} {ws vs : List Nat} {i : Nat} :
    Tracks f i (ws ++ vs) ↔ Tracks f i ws ∧ Tracks f (i + ws.length) vs := by
  induction ws generalizing i with
  | nil => simp [Tracks]
  | cons w ws ih =>
      simp only [List.cons_append, Tracks, ih, List.length_cons, and_assoc,
        Nat.add_right_comm i 1 ws.length, Nat.add_assoc]

/-- At which lexeme the `i`-th of some tokens starts, which have so many lexemes each. -/
def tokenStart : (widths : List Nat) → (i : Nat) → Nat
  | [], i => i
  | _ :: _, 0 => 0
  | w :: ws, i + 1 => w + tokenStart ws i

@[simp] theorem tokenStart_zero (ws : List Nat) : tokenStart ws 0 = 0 := by
  cases ws <;> rfl

theorem strictMono_tokenStart {ws : List Nat} (h : ∀ w ∈ ws, 0 < w) : StrictMono (tokenStart ws) := by
  induction ws with
  | nil => exact strictMono_id
  | cons w ws ih =>
      obtain ⟨hw, hws⟩ := List.forall_mem_cons.mp h
      refine strictMono_nat_of_lt_succ fun i => ?_
      cases i with
      | zero =>
          rw [tokenStart, tokenStart]
          exact Nat.add_pos_left hw _
      | succ i =>
          rw [tokenStart, tokenStart]
          exact Nat.add_lt_add_left (ih hws (Nat.lt_succ_self i)) w

theorem Tracks.shift {f g : Nat → Nat} {ws : List Nat} {w i : Nat} (h : Tracks f i ws)
    (hg : ∀ j, g (j + 1) = w + f j) : Tracks g (i + 1) ws := by
  induction ws generalizing i with
  | nil => trivial
  | cons v ws ih =>
      obtain ⟨hv, hws⟩ := h
      exact ⟨by rw [hg, hg, hv, Nat.add_assoc], ih hws⟩

theorem tracks_tokenStart (ws : List Nat) : Tracks (tokenStart ws) 0 ws := by
  induction ws with
  | nil => trivial
  | cons w ws ih => exact ⟨by simp [tokenStart], ih.shift fun _ => rfl⟩

/-! ## Setting tokens apart -/

namespace Lexeme

theorem separateAt_append (places : List Nat) (i : Nat) (ts us : List Lexeme) :
    separateAt places i (ts ++ us) = separateAt places i ts ++ separateAt places (i + ts.length) us := by
  induction ts generalizing i with
  | nil => rfl
  | cons t ts ih =>
      simp only [List.cons_append, separateAt, ih, List.length_cons, Nat.add_right_comm i 1,
        Nat.add_assoc]

theorem separateAt_state (places : List Nat) (i : Nat) (s : StateName) :
    separateAt places i s.lexemes = s.lexemes := by
  cases s <;> rfl

end Lexeme

namespace Units

/-- Sets apart the opening parentheses at the given places; `i` is the place of the first unit. -/
def separateAt (places : List Nat) (i : Nat) : Units → Units
  | [] => []
  | u :: us =>
    (if u = [.symbol .parenOpen] ∧ i ∈ places then [.apart] else u) :: separateAt places (i + 1) us

theorem separateAt_state_cons (places : List Nat) (i : Nat) (s : StateName) (us : Units) :
    separateAt places i (s.lexemes :: us) = s.lexemes :: separateAt places (i + 1) us := by
  rw [separateAt, if_neg]
  rintro ⟨h, -⟩
  cases s <;> simp [StateName.lexemes] at h

/-- Each unit is one lexeme or the name of a state. -/
def Proper (us : Units) : Prop := ∀ u ∈ us, (∃ l, u = [l]) ∨ ∃ s : StateName, u = s.lexemes

theorem Alike.proper {us us' : Units} (h : us.Alike us') : us.Proper ∧ us'.Proper := by
  induction h with
  | nil => simp [Proper]
  | one _ _ ih =>
      exact ⟨List.forall_mem_cons.mpr ⟨.inl ⟨_, rfl⟩, ih.1⟩,
        List.forall_mem_cons.mpr ⟨.inl ⟨_, rfl⟩, ih.2⟩⟩
  | state _ _ ih =>
      exact ⟨List.forall_mem_cons.mpr ⟨.inr ⟨_, rfl⟩, ih.1⟩,
        List.forall_mem_cons.mpr ⟨.inr ⟨_, rfl⟩, ih.2⟩⟩

theorem Proper.length_pos {us : Units} (h : us.Proper) : ∀ w ∈ us.map List.length, 0 < w := by
  intro w hw
  obtain ⟨u, hu, rfl⟩ := List.mem_map.mp hw
  rcases h u hu with ⟨l, rfl⟩ | ⟨s, rfl⟩
  · simp
  · cases s <;> simp [StateName.lexemes]

/-- To set units apart is to set apart the lexemes that they start with. -/
theorem flatten_separateAt {f : Nat → Nat} (hf : Function.Injective f) (places : List Nat)
    {us : Units} (hus : us.Proper) {i : Nat} (h : Tracks f i (us.map List.length)) :
    Lexeme.separateAt (places.map f) (f i) us.flatten = (us.separateAt places i).flatten := by
  induction us generalizing i with
  | nil => rfl
  | cons u us ih =>
      obtain ⟨hu, hus⟩ := List.forall_mem_cons.mp hus
      obtain ⟨hnext, hmore⟩ := h
      rw [List.flatten_cons, Lexeme.separateAt_append, ← hnext, ih hus hmore]
      rcases hu with ⟨l, rfl⟩ | ⟨s, rfl⟩
      · have hplaces : (places.map f).contains (f i) = places.contains i := by
          rw [Bool.eq_iff_iff, List.contains_iff_mem, List.contains_iff_mem,
            List.mem_map_of_injective hf]
        rw [separateAt, Lexeme.separateAt, hplaces]
        by_cases hl : l = .symbol .parenOpen ∧ i ∈ places
        · simp [hl, Lexeme.separateAt]
        · simp [hl, Lexeme.separateAt]
      · rw [separateAt_state_cons, Lexeme.separateAt_state, List.flatten_cons]

theorem Alike.separateAt {us us' : Units} (h : us.Alike us') (places : List Nat) (i : Nat) :
    (us.separateAt places i).Alike (us'.separateAt places i) := by
  induction h generalizing i with
  | nil => exact .nil
  | @one l l' us us' hl h ih =>
      have hopen : [l'] = [.symbol .parenOpen] ↔ [l] = [.symbol .parenOpen] := by
        simpa using hl.eq_symbol_iff rfl
      rw [Units.separateAt, Units.separateAt]
      by_cases hset : [l] = [.symbol .parenOpen] ∧ i ∈ places
      · rw [if_pos hset, if_pos ⟨hopen.mpr hset.1, hset.2⟩]
        exact .one .apart (ih _)
      · rw [if_neg hset, if_neg fun h => hset ⟨hopen.mp h.1, h.2⟩]
        exact .one hl (ih _)
  | @state s s' us us' hfollows h ih =>
      rw [separateAt_state_cons, separateAt_state_cons]
      refine .state ?_ (ih _)
      cases h with
      | nil => exact hfollows
      | one _ _ =>
          rw [Units.separateAt]
          -- a parenthesis that is set apart can follow a state name no less
          split
          · rintro _ ⟨⟩
            rfl
          · exact hfollows
      | @state s _ _ _ _ _ =>
          intro l hl
          rw [separateAt_state_cons] at hl
          cases s <;> exact hfollows l hl

end Units

end Heptagon
