import Heptagon.Proofs.Layout.Rescanning

/-!
# Comments of a plain scan

A plain scan finds the comments of a text without knowing its lexemes: outside a
comment it looks for the next `(*`, inside for the next `*)` behind that, and it
fails if there is none.  The scanner finds the same comments
(`comments_of_scan`), because no lexeme but an opening parenthesis has a
parenthesis in it, and that one is not read before a star.
-/

namespace Heptagon

/-- The comments of a text that starts at an offset, found by looking for their first and last two
bytes alone; `opened` is where the comment around the text starts, if there is one. -/
def Comment.plainScan : (opened : Option Nat) → (offset : Nat) → Text → Option (List Span)
  | none, _, [] => some []
  | some _, _, [] => none
  | none, offset, 40 :: 42 :: t => plainScan (some offset) (offset + 2) t
  | some start, offset, 42 :: 41 :: t =>
    (plainScan none (offset + 2) t).map (⟨start, offset + 2⟩ :: ·)
  | opened, offset, _ :: t => plainScan opened (offset + 1) t

/-- The spans of the comments among some items. -/
def Placed.comments (items : List (Placed Item)) : List Span :=
  (items.filter (·.value == .comment)).map (·.span)

@[simp] theorem Placed.comments_nil : Placed.comments [] = [] := rfl

@[simp] theorem Placed.comments_lexeme (l : Lexeme) (s : Span) (items : List (Placed Item)) :
    Placed.comments (⟨.lexeme l, s⟩ :: items) = Placed.comments items := rfl

@[simp] theorem Placed.comments_comment (s : Span) (items : List (Placed Item)) :
    Placed.comments (⟨.comment, s⟩ :: items) = s :: Placed.comments items := rfl

/-- A lexeme is an opening parenthesis or has none in it. -/
theorem Lexeme.IsToken.text_eq_paren {x : Lexeme} (h : x.IsToken) :
    x.text = [40] ∨ ∀ b ∈ x.text, b ≠ 40 := by
  have hne : ∀ {p : UInt8 → Bool} {t : Text}, p 40 = false → (∀ b ∈ t, p b = true) →
      ∀ b ∈ t, b ≠ 40 := by
    rintro p t hp ht b hb rfl
    simp [ht _ hb] at hp
  cases x with
  | word w =>
      right
      obtain ⟨b, t, quotes, htext, hb, ht, hquotes⟩ := mem_identifier_iff.mp h.2
      have hbody : ∀ c ∈ b :: t, isSmallBody c = true :=
        List.forall_mem_cons.mpr ⟨by simp [isSmallBody, hb], ht⟩
      show ∀ c ∈ w.text, c ≠ 40
      rw [htext]
      exact List.forall_mem_append.mpr ⟨hne (p := isSmallBody) (by decide) hbody,
        hne (p := isQuote) (by decide) hquotes⟩
  | capital t =>
      right
      obtain ⟨b, u, rfl, hb, hu⟩ := mem_enumIdentifier_iff.mp h
      exact hne (p := isWordBody) (by decide)
        (List.forall_mem_cons.mpr ⟨isWordBody_of_isCapital hb, hu⟩)
  | number t =>
      right
      have hdigits : ∀ {b : UInt8} {t : Text}, isDigit b = true → (∀ c ∈ t, isDigit c = true) →
          ∀ c ∈ b :: t, c ≠ 40 := fun hb ht =>
        hne (p := isDigit) (by decide) (List.forall_mem_cons.mpr ⟨hb, ht⟩)
      obtain ⟨b, u, hb, hu, rfl | ⟨d, v, hd, hv, rfl⟩⟩ := mem_lNumber_iff.mp h
      · exact hdigits hb hu
      · exact List.forall_mem_append.mpr
          ⟨hdigits hb hu, List.forall_mem_cons.mpr ⟨by decide, hdigits hd hv⟩⟩
  | symbol s => cases s <;> first | exact .inl rfl | exact .inr (by decide +kernel)
  | apart => exact .inl rfl

namespace Comment

/-- A byte that does not open a comment. -/
theorem plainScan_none_cons {b : UInt8} {t : Text} (h : b = 40 → t.head? ≠ some 42) (offset : Nat) :
    plainScan none offset (b :: t) = plainScan none (offset + 1) t := by
  refine plainScan.eq_5 none offset b t ?_ (by simp)
  rintro u - rfl rfl
  simp at h

/-- A byte that does not close a comment. -/
theorem plainScan_some_cons {b : UInt8} {t : Text} (h : ∀ u, b = 42 → t ≠ 41 :: u)
    (start offset : Nat) :
    plainScan (some start) offset (b :: t) = plainScan (some start) (offset + 1) t :=
  plainScan.eq_5 (some start) offset b t (by simp) fun _ u _ hb ht => h u hb ht

theorem plainScan_append {u : Text} (h : ∀ b ∈ u, b ≠ 40) (offset : Nat) (t : Text) :
    plainScan none offset (u ++ t) = plainScan none (offset + u.length) t := by
  induction u generalizing offset with
  | nil => rfl
  | cons b u ih =>
      obtain ⟨hb, hu⟩ := List.forall_mem_cons.mp h
      rw [List.cons_append, plainScan_none_cons fun h => absurd h hb, ih hu, List.length_cons,
        Nat.add_assoc, Nat.add_comm 1]

/-- A comment ends where the scanner closes it. -/
theorem plainScan_of_close? {t body rest : Text} (h : close? t = some (body, rest))
    (start offset : Nat) :
    plainScan (some start) offset t = (plainScan none (offset + body.length) rest).map
      (⟨start, offset + body.length⟩ :: ·) := by
  fun_induction close? t generalizing body offset with
  | case1 => simp at h
  | case2 => simp at h
  | case3 after =>
      obtain ⟨rfl, rfl⟩ := by simpa using h
      rfl
  | case4 b t hzero hend ih =>
      obtain ⟨⟨body', rest''⟩, hclose, heq⟩ := Option.map_eq_some_iff.mp h
      obtain ⟨rfl, rfl⟩ := by simpa using heq
      rw [plainScan_some_cons hend, ih hclose, List.length_cons, Nat.add_assoc, Nat.add_comm 1]

end Comment

/-- The plain scan finds the comments that the scanner finds, and goes on behind them. -/
theorem Text.Scans.plainScan {offset stop : Nat} {t rest : Text} {items : List (Placed Item)}
    (h : t.Scans offset items stop rest) :
    Comment.plainScan none offset t =
      (Comment.plainScan none stop rest).map (Placed.comments items ++ ·) := by
  induction h with
  | done => simp
  | @blank offset _ b t _ _ hb _ ih =>
      rw [Comment.plainScan_none_cons, ih]
      rintro rfl
      simp [isBlank] at hb
  | @item offset _ b t taken after rest item items hb hfirst _ ih =>
      obtain ⟨happend, -, hspells⟩ := Item.takes_of_first? hfirst
      cases item with
      | lexeme l =>
          obtain ⟨rfl, htoken⟩ := hspells
          rw [Placed.comments_lexeme, ← ih, happend]
          rcases htoken.text_eq_paren with hparen | hne
          · -- the scanner would have read a comment if a star followed
            rw [hparen] at happend ⊢
            refine Comment.plainScan_none_cons (fun _ hhead => ?_) offset
            obtain ⟨u, rfl⟩ := List.head?_eq_some_iff.mp hhead
            rw [happend] at hfirst
            simp [Item.first?] at hfirst
          · exact Comment.plainScan_append hne offset after
      | comment =>
          obtain ⟨us, body, heq, hclose, rfl⟩ := Item.exists_close?_of_first? hfirst
          have hlength : offset + 2 + body.length = offset + (40 :: 42 :: body).length := by
            simp only [List.length_cons]
            omega
          rw [heq, Comment.plainScan, Comment.plainScan_of_close? hclose, hlength, ih,
            Placed.comments_comment, Option.map_map]
          rfl

/-- The comments of a scanned source are those of a plain scan. -/
theorem comments_of_scan {source : Text} {items : List (Placed Item)}
    (h : scan source = some items) :
    Comment.plainScan none 0 source = some (Placed.comments items) := by
  obtain ⟨mark, text, rfl, hmark, hscans⟩ := scan_eq_some_iff.mp h
  have hparen : ∀ b ∈ mark, b ≠ 40 := by
    rcases hmark with rfl | rfl <;> decide +kernel
  rw [Comment.plainScan_append hparen, Nat.zero_add, hscans.plainScan]
  simp [Comment.plainScan]

end Heptagon
