import Heptagon.Division
import Mathlib.Order.Monotone.Basic

/-!
# Readings go back in the text

Every link of a graph of readings leads to a vertex at an earlier place, and
over the comments between (`Graph.Descends`).  Each step of a contest keeps it
that way, and it never moves a vertex (`Graph.Grows`).  So a path back has at
most as many parts and comments as there are lexemes and comments before its
vertex, and the number of rounds in which the paths of a vertex are followed
does not matter if it is greater (`Graph.complete_eq`).
-/

namespace Heptagon

namespace Graph

variable {g g' g'' : Graph}

theorem vertex_push (g : Graph) (spot : Spot) (place : Nat) (l : Link) (v : Nat) :
    (g.push spot place l).vertex v = if v = g.size then ⟨spot, place, [l]⟩ else g.vertex v := by
  simp only [vertex, push, Array.getD_eq_getD_getElem?, Array.getElem?_push]
  split <;> rfl

theorem vertex_setIfInBounds (g : Graph) (v w : Nat) (x : Vertex) :
    vertex (g.setIfInBounds v x) w = if w = v ∧ v < g.size then x else g.vertex w := by
  simp only [vertex, Array.getD_eq_getD_getElem?, Array.getElem?_setIfInBounds]
  by_cases hv : v = w
  · subst hv
    by_cases hlt : v < g.size <;> simp [hlt]
  · simp [hv, Ne.symm hv]

/-! ## Invariants -/

/-- A link may lead to a vertex at a place if it goes back in the text. -/
structure Admits (g : Graph) (place : Nat) (l : Link) : Prop where
  below_lt : l.below < g.size
  place_lt : (g.vertex l.below).place + l.comments < place

/-- All links go back in the text. -/
def Descends (g : Graph) : Prop := ∀ v, ∀ l ∈ (g.vertex v).links, g.Admits (g.vertex v).place l

/-- Vertices come in, and none is moved. -/
structure Grows (g g' : Graph) : Prop where
  size_le : g.size ≤ g'.size
  place_eq : ∀ v < g.size, (g'.vertex v).place = (g.vertex v).place

theorem Grows.refl (g : Graph) : g.Grows g := ⟨Nat.le_refl _, fun _ _ => rfl⟩

theorem Grows.trans (h : g.Grows g') (h' : g'.Grows g'') : g.Grows g'' :=
  ⟨h.size_le.trans h'.size_le, fun v hv =>
    (h'.place_eq v (Nat.lt_of_lt_of_le hv h.size_le)).trans (h.place_eq v hv)⟩

theorem Admits.grows {place : Nat} {l : Link} (h : g.Admits place l) (hg : g.Grows g') :
    g'.Admits place l :=
  ⟨Nat.lt_of_lt_of_le h.below_lt hg.size_le, hg.place_eq _ h.below_lt ▸ h.place_lt⟩

/-- Some vertices are at a place. -/
def At (g : Graph) (place : Nat) (vs : List Nat) : Prop :=
  ∀ v ∈ vs, v < g.size ∧ (g.vertex v).place = place

theorem At.grows {place : Nat} {vs : List Nat} (h : g.At place vs) (hg : g.Grows g') :
    g'.At place vs := fun v hv =>
  ⟨Nat.lt_of_lt_of_le (h v hv).1 hg.size_le, (hg.place_eq v (h v hv).1).trans (h v hv).2⟩

/-! ## Adding links -/

theorem descends_push (h : g.Descends) (spot : Spot) (place : Nat) {l : Link}
    (hl : g.Admits place l) :
    (g.push spot place l).Descends ∧ g.Grows (g.push spot place l) ∧
      (g.push spot place l).At place [g.size] := by
  have hgrows : g.Grows (g.push spot place l) := by
    refine ⟨by simp [push], fun v hv => ?_⟩
    rw [vertex_push, if_neg hv.ne]
  refine ⟨fun v l' hl' => ?_, hgrows, ?_⟩
  · rw [vertex_push] at hl' ⊢
    split at hl'
    · next hv =>
        obtain rfl := List.mem_singleton.mp hl'
        rw [if_pos hv]
        exact hl.grows hgrows
    · next hv =>
        rw [if_neg hv]
        exact (h v l' hl').grows hgrows
  · intro v hv
    obtain rfl := List.mem_singleton.mp hv
    exact ⟨by simp [push], by rw [vertex_push, if_pos rfl]⟩

/-- Adding links to a vertex one by one keeps the links descending if adding each does. -/
theorem descends_foldl {add : Graph → Link → Graph} {v : Nat}
    (hadd : ∀ g l, g.Descends → v < g.size → g.Admits (g.vertex v).place l →
      (add g l).Descends ∧ g.Grows (add g l)) (ls : List Link) :
    ∀ {g : Graph}, g.Descends → v < g.size → (∀ l ∈ ls, g.Admits (g.vertex v).place l) →
      (ls.foldl add g).Descends ∧ g.Grows (ls.foldl add g) := by
  induction ls with
  | nil => exact fun h _ _ => ⟨h, .refl _⟩
  | cons l ls ih =>
      intro g h hv hls
      obtain ⟨hl, hls⟩ := List.forall_mem_cons.mp hls
      obtain ⟨hfirst, hgrows⟩ := hadd g l h hv hl
      obtain ⟨hmore, hgrows'⟩ := ih hfirst (Nat.lt_of_lt_of_le hv hgrows.size_le) fun l' hl' => by
        rw [hgrows.place_eq v hv]
        exact (hls l' hl').grows hgrows
      exact ⟨hmore, hgrows.trans hgrows'⟩

theorem place_eq_of_covers {a b : Link} (h : g.covers a b = true) :
    (g.vertex a.below).place = (g.vertex b.below).place := by
  simp only [covers, alike, Bool.and_eq_true, beq_iff_eq] at h
  exact h.1.1.2

/-- A vertex has one link more; the other vertices and its place stay. -/
theorem descends_setIfInBounds (h : g.Descends) {v : Nat} {l : Link}
    (hl : g.Admits (g.vertex v).place l) :
    Descends (g.setIfInBounds v { g.vertex v with links := (g.vertex v).links ++ [l] }) ∧
      g.Grows (g.setIfInBounds v { g.vertex v with links := (g.vertex v).links ++ [l] }) := by
  have hgrows : g.Grows (g.setIfInBounds v
      { g.vertex v with links := (g.vertex v).links ++ [l] }) := by
    refine ⟨by simp, fun w _ => ?_⟩
    rw [vertex_setIfInBounds]
    split
    · next hw => rw [hw.1]
    · rfl
  refine ⟨fun w l' hl' => ?_, hgrows⟩
  rw [vertex_setIfInBounds] at hl' ⊢
  split at hl'
  · next hw =>
      rw [if_pos hw]
      rcases List.mem_append.mp hl' with hl' | hl'
      · exact (h v l' hl').grows hgrows
      · obtain rfl := List.mem_singleton.mp hl'
        exact hl.grows hgrows
  · next hw =>
      rw [if_neg hw]
      exact (h w l' hl').grows hgrows

theorem descends_addLink (n : Nat) : ∀ {g : Graph} {v : Nat} {l : Link}, g.Descends → v < g.size →
    g.Admits (g.vertex v).place l →
    (g.addLink n v l).Descends ∧ g.Grows (g.addLink n v l) := by
  induction n with
  | zero => exact fun h _ _ => ⟨h, .refl _⟩
  | succ n ih =>
      intro g v l h hv hl
      rw [addLink]
      split
      · exact ⟨h, .refl _⟩
      · split
        · next e he =>
            -- a link that covers the new one ends at the same place, where the links join
            have hmem := List.mem_of_find?_eq_some he
            have hplace := place_eq_of_covers (List.find?_some he :)
            split
            · exact ⟨h, .refl _⟩
            · refine descends_foldl (fun _ _ h hv hl => ih h hv hl) _ h (h v e hmem).below_lt ?_
              intro l' hl'
              rw [hplace]
              exact h l.below l' hl'
        · dsimp only
          split
          · exact descends_setIfInBounds h hl
          · exact ⟨h, .refl _⟩

theorem descends_join (h : g.Descends) {v w : Nat} (hv : v < g.size)
    (hplace : (g.vertex v).place = (g.vertex w).place) :
    (g.join v w).Descends ∧ g.Grows (g.join v w) :=
  descends_foldl (fun _ _ h hv hl => descends_addLink _ h hv hl) _ h hv fun l hl => by
    rw [hplace]
    exact h w l hl

/-! ## Paths -/

/-- Where a path has come to, on its way back from a place. -/
structure Reaches (g : Graph) (place count : Nat) (p : Path) : Prop where
  below_lt : p.below < g.size
  place_le : (g.vertex p.below).place + p.comments ≤ place
  place_lt : p.missing ≠ count → (g.vertex p.below).place + p.comments < place

theorem Reaches.back (h : g.Descends) {place count : Nat} {p q : Path} (hp : g.Reaches place count p)
    (hq : q ∈ p.back g) : g.Reaches place count q := by
  unfold Path.back at hq
  split at hq
  · obtain rfl := List.mem_singleton.mp hq
    exact ⟨hp.below_lt, hp.place_le, hp.place_lt⟩
  · obtain ⟨l, hl, rfl⟩ := List.mem_map.mp hq
    have hadmits := h p.below l hl
    have hlt : (g.vertex l.below).place + l.comments < place :=
      Nat.lt_of_lt_of_le hadmits.place_lt ((Nat.le_add_right _ _).trans hp.place_le)
    exact ⟨hadmits.below_lt, hlt.le, fun _ => hlt⟩

/-- The next paths of some paths are ways to go back on these. -/
theorem mem_next {ps : List Path} {q : Path}
    (hq : q ∈ (((ps.filter (·.missing != 0)).map (·.back g)).filterMap (·.head?) ++
      ((ps.filter (·.missing != 0)).map (·.back g)).flatMap (·.tail))) :
    ∃ p ∈ ps, q ∈ p.back g := by
  rcases List.mem_append.mp hq with hq | hq
  · obtain ⟨qs, hqs, hhead⟩ := List.mem_filterMap.mp hq
    obtain ⟨p, hp, rfl⟩ := List.mem_map.mp hqs
    exact ⟨p, (List.mem_filter.mp hp).1, List.mem_of_head? hhead⟩
  · obtain ⟨qs, hqs, htail⟩ := List.mem_flatMap.mp hq
    obtain ⟨p, hp, rfl⟩ := List.mem_map.mp hqs
    exact ⟨p, (List.mem_filter.mp hp).1, List.mem_of_mem_tail htail⟩

theorem reaches_of_mem_complete (h : g.Descends) {place count : Nat} (n : Nat) :
    ∀ {ps : List Path}, (∀ p ∈ ps, g.Reaches place count p) →
      ∀ q ∈ g.complete n ps, g.Reaches place count q ∧ q.missing = 0 := by
  induction n with
  | zero =>
      intro ps _ q hq
      cases ps <;> simp [complete] at hq
  | succ n ih =>
      intro ps hps q hq
      cases ps with
      | nil => simp [complete] at hq
      | cons p ps =>
          rw [complete.eq_3 _ _ _ (List.cons_ne_nil p ps)] at hq
          rcases List.mem_append.mp hq with hq | hq
          · obtain ⟨hq, hmissing⟩ := List.mem_filter.mp hq
            exact ⟨hps q hq, by simpa using hmissing⟩
          · refine ih (fun r hr => ?_) q hq
            obtain ⟨p', hp', hr⟩ := mem_next hr
            exact (hps p' hp').back h hr

/-- The paths of a vertex have gone back over at least one part. -/
theorem admits_of_mem_paths (h : g.Descends) {v count : Nat} (hv : v < g.size) (hcount : count ≠ 0)
    {p : Path} (hp : p ∈ g.paths v count) :
    p.below < g.size ∧ (g.vertex p.below).place + p.comments < (g.vertex v).place := by
  have hstart : ∀ q ∈ [(⟨[], 0, v, count, 0⟩ : Path)], g.Reaches (g.vertex v).place count q := by
    intro q hq
    obtain rfl := List.mem_singleton.mp hq
    exact ⟨hv, Nat.le_refl _, fun hne => absurd rfl hne⟩
  obtain ⟨hreaches, hmissing⟩ := reaches_of_mem_complete h _ hstart p hp
  exact ⟨hreaches.below_lt, hreaches.place_lt (by rw [hmissing]; exact hcount.symm)⟩

/-- As many rounds are enough as there are lexemes and comments before a path. -/
theorem complete_succ (h : g.Descends) (n : Nat) :
    ∀ {ps : List Path}, (∀ p ∈ ps, (g.vertex p.below).place + p.ahead < n) →
      g.complete (n + 1) ps = g.complete n ps := by
  induction n with
  | zero =>
      intro ps hps
      cases ps with
      | nil => rfl
      | cons p ps => exact absurd (hps p (by simp)) (Nat.not_lt_zero _)
  | succ n ih =>
      intro ps hps
      cases ps with
      | nil => rfl
      | cons p ps =>
          rw [complete.eq_3 _ _ _ (List.cons_ne_nil p ps), complete.eq_3 _ _ _ (List.cons_ne_nil p ps)]
          rw [ih]
          intro q hq
          -- each round goes back over a comment or over a link
          obtain ⟨p', hp', hq⟩ := mem_next hq
          have hlt := hps p' hp'
          unfold Path.back at hq
          split at hq
          · next m hm =>
              obtain rfl := List.mem_singleton.mp hq
              rw [hm] at hlt
              exact Nat.lt_of_succ_lt_succ hlt
          · next hm =>
              obtain ⟨l, hl, rfl⟩ := List.mem_map.mp hq
              rw [hm] at hlt
              exact Nat.lt_of_lt_of_le (h p'.below l hl).place_lt (Nat.le_of_lt_succ hlt)

theorem complete_eq (h : g.Descends) {n m : Nat} {ps : List Path}
    (hps : ∀ p ∈ ps, (g.vertex p.below).place + p.ahead < n) (hm : n ≤ m) :
    g.complete m ps = g.complete n ps := by
  induction hm with
  | refl => rfl
  | @step m hm ih =>
      rw [complete_succ h m fun p hp => Nat.lt_of_lt_of_le (hps p hp) hm, ih]

/-! ## Putting parts together -/

end Graph

/-- A step that puts parts together puts together at least one. -/
def Move.Folds (m : Move) : Prop := ∀ f, m = .fold f ∨ (∃ s, m = .fork f s) → f.count ≠ 0

namespace Move

theorem folds_fail : Folds .fail := by simp [Folds]

theorem folds_shift (s : Spot) : Folds (.shift s) := by simp [Folds]

theorem folds_fold {f : Folding} (h : f.count ≠ 0) : Folds (.fold f) := by
  simpa [Folds] using h

theorem folds_fork {f : Folding} {s : Spot} (h : f.count ≠ 0) : Folds (.fork f s) := by
  simpa [Folds] using h

end Move

namespace Spot

theorem folds_moveBefore (p : Place) (c : Cue) : (moveBefore p c).Folds := by
  unfold moveBefore
  repeat' split
  all_goals first | exact Move.folds_shift _ | exact Move.folds_fail

theorem folds_moveBehind (p : Place) (c : Cue) : (moveBehind p c).Folds := by
  unfold moveBehind
  repeat' split
  all_goals
    first
      | exact Move.folds_shift _ | exact Move.folds_fail | exact Move.folds_fold (by decide)

theorem folds_moveAfter (p : Place) (c : Cue) : (moveAfter p c).Folds := by
  unfold moveAfter
  repeat' split
  all_goals
    first
      | exact Move.folds_shift _ | exact Move.folds_fold (by decide) | exact folds_moveBehind _ _

theorem folds_moveStatement (c : Cue) : (moveStatement c).Folds := by
  unfold moveStatement
  split
  all_goals first | exact Move.folds_shift _ | exact Move.folds_fail

theorem folds_move (callable : Bool) (s : Spot) (c : Cue) : (s.move callable c).Folds := by
  unfold move
  repeat' split
  all_goals
    first
      | exact Move.folds_shift _ | exact Move.folds_fail | exact Move.folds_fold (by decide)
      | exact Move.folds_fork (by decide) | exact folds_moveBefore _ _ | exact folds_moveAfter _ _
      | exact folds_moveStatement _

end Spot

namespace Graph

variable {g g' : Graph} {place : Nat}

/-- What a step of a contest does to a graph in which readings are at a place: no vertex is moved,
links go back in the text, and the vertices that it gives are at a place. -/
structure Leads (g g' : Graph) (place : Nat) (vs : List Nat) : Prop where
  descends : g'.Descends
  grows : g.Grows g'
  ends : g'.At place vs

theorem Leads.trans {g'' : Graph} {place' : Nat} {vs ws : List Nat} (h : g.Leads g' place vs)
    (h' : g'.Leads g'' place' ws) : g.Leads g'' place' ws :=
  ⟨h'.descends, h.grows.trans h'.grows, h'.ends⟩

theorem Leads.append {g'' : Graph} {vs ws : List Nat} (h : g.Leads g' place vs)
    (h' : g'.Leads g'' place ws) : g.Leads g'' place (vs ++ ws) :=
  ⟨h'.descends, h.grows.trans h'.grows,
    List.forall_mem_append.mpr ⟨h.ends.grows h'.grows, h'.ends⟩⟩

theorem leads_foldTo (f : Folding) {paths : List Path} (bs : List Nat) : ∀ {g : Graph},
    g.Descends →
    (∀ p ∈ paths, p.below < g.size ∧ (g.vertex p.below).place + p.comments < place) →
    g.Leads (g.foldTo place f paths bs).1 place (g.foldTo place f paths bs).2 := by
  induction bs with
  | nil => exact fun h _ => ⟨h, .refl _, by simp [foldTo, At]⟩
  | cons b bs ih =>
      intro g h hpaths
      rw [foldTo]
      split
      · next p ps s hfilter _ =>
          obtain ⟨hp, hbelow⟩ := List.mem_filter.mp (hfilter ▸ List.mem_cons_self : p ∈ _)
          obtain rfl := beq_iff_eq.mp hbelow
          obtain ⟨hlt, hplace⟩ := hpaths p hp
          obtain ⟨hpush, hgrows, hend⟩ := descends_push h s place
            (l := ⟨p.comments, (p.part f).least (ps.map (·.part f)), p.below⟩) ⟨hlt, hplace⟩
          have hfirst : g.Leads _ place [g.size] := ⟨hpush, hgrows, hend⟩
          -- the new vertex moves no other one, so the paths stand where they did
          exact hfirst.append (ih hpush fun q hq => by
            obtain ⟨hlt, hplace⟩ := hpaths q hq
            exact ⟨Nat.lt_of_lt_of_le hlt hgrows.size_le, hgrows.place_eq _ hlt ▸ hplace⟩)
      · exact ih h hpaths

theorem leads_fold (h : g.Descends) {v : Nat} (hv : g.At place [v]) {f : Folding}
    (hf : f.count ≠ 0) : g.Leads (g.fold v f).1 place (g.fold v f).2 := by
  obtain ⟨hlt, hplace⟩ := hv v (by simp)
  rw [fold, hplace]
  refine leads_foldTo f _ h fun p hp => ?_
  rw [← hplace]
  exact admits_of_mem_paths h hlt hf hp

theorem leads_queue (vs : List Nat) : ∀ {g : Graph} {waiting : List Nat}, g.Descends →
    g.At place (waiting ++ vs) → g.Leads (g.queue waiting vs).1 place (g.queue waiting vs).2 := by
  induction vs with
  | nil =>
      intro g waiting h hat
      rw [List.append_nil] at hat
      exact ⟨h, .refl _, hat⟩
  | cons v vs ih =>
      intro g waiting h hat
      rw [queue]
      split
      · next w hw =>
          have hmem := List.mem_of_find?_eq_some hw
          obtain ⟨hlt, hplace⟩ := hat w (List.mem_append_left _ hmem)
          obtain ⟨-, hplace'⟩ := hat v (by simp)
          obtain ⟨hjoin, hgrows⟩ := descends_join h (w := v) hlt (hplace.trans hplace'.symm)
          have hat' : (g.join w v).At place (waiting ++ vs) := At.grows (fun u hu => hat u (by
            rcases List.mem_append.mp hu with hu | hu <;> simp [hu])) hgrows
          obtain ⟨hmore, hgrows', hends⟩ := ih hjoin hat'
          exact ⟨hmore, hgrows.trans hgrows', hends⟩
      · exact ih h (by simpa using hat)

/-- Parts are put together, and what this gives is put with the vertices that wait. -/
theorem leads_queue_fold (h : g.Descends) {v : Nat} {waiting : List Nat}
    (hat : g.At place (v :: waiting)) {f : Folding} (hf : f.count ≠ 0) :
    g.Leads ((g.fold v f).1.queue waiting (g.fold v f).2).1 place
      ((g.fold v f).1.queue waiting (g.fold v f).2).2 := by
  obtain ⟨hv, hwaiting⟩ := List.forall_mem_cons.mp hat
  have hfold := leads_fold h (v := v) (by simpa [At] using hv) hf
  exact hfold.trans (leads_queue _ hfold.descends
    (List.forall_mem_append.mpr ⟨At.grows hwaiting hfold.grows, hfold.ends⟩))

/-- The first of the new vertices comes next, before those that wait and the other new ones. -/
theorem At.next {v u n : Nat} {waiting vs us : List Nat} (hat : g.At place (v :: waiting))
    (h : g.Leads g' place vs) (hdrop : vs.drop n = u :: us) :
    g'.At place (u :: (waiting ++ us)) := by
  have hnew : ∀ w ∈ u :: us, _ := fun w hw => h.ends w (List.mem_of_mem_drop (hdrop ▸ hw))
  obtain ⟨hu, hus⟩ := List.forall_mem_cons.mp hnew
  have hwaiting := At.grows (List.forall_mem_cons.mp hat).2 h.grows
  exact List.forall_mem_cons.mpr ⟨hu, List.forall_mem_append.mpr ⟨hwaiting, hus⟩⟩

theorem leads_shift (h : g.Descends) {v : Nat} {t : Step} (hv : g.At place [v])
    (ht : place + t.comments < t.place) (s : Spot) :
    g.Leads (g.shift v t s).1 t.place [(g.shift v t s).2] := by
  obtain ⟨hlt, hplace⟩ := hv v (by simp)
  obtain ⟨hpush, hgrows, hend⟩ := descends_push h s t.place
    (l := ⟨t.comments, t.part s, v⟩) ⟨hlt, hplace ▸ ht⟩
  exact ⟨hpush, hgrows, hend⟩

theorem leads_take {t : Step} (ht : place + t.comments < t.place) (n : Nat) :
    ∀ {g : Graph} {v : Nat} {waiting : List Nat}, g.Descends → g.At place (v :: waiting) →
      g.Leads (take t n g v waiting).1 t.place (take t n g v waiting).2.1.toList ∧
        (take t n g v waiting).1.At place (take t n g v waiting).2.2 := by
  induction n with
  | zero =>
      intro g v waiting h hat
      exact ⟨⟨h, .refl _, by simp [take, At]⟩, (List.forall_mem_cons.mp hat).2⟩
  | succ n ih =>
      intro g v waiting h hat
      obtain ⟨hv, hwaiting⟩ := List.forall_mem_cons.mp hat
      have hv : g.At place [v] := by simpa [At] using hv
      have hfolds := (g.vertex v).spot.folds_move t.callable t.cue
      rw [take]
      split
      · exact ⟨⟨h, .refl _, by simp [At]⟩, hwaiting⟩
      · next s _ =>
          have hshift := leads_shift h hv ht s
          exact ⟨hshift, At.grows hwaiting hshift.grows⟩
      · next f s hmove =>
          have hqueue := leads_queue_fold h hat (hfolds f (.inr ⟨s, hmove⟩))
          have hshift := leads_shift hqueue.descends (hv.grows hqueue.grows) ht s
          exact ⟨hqueue.trans hshift, hqueue.ends.grows hshift.grows⟩
      · next f hmove =>
          have hqueue := leads_queue_fold h hat (hfolds f (.inl hmove))
          dsimp only
          split
          · exact ⟨⟨hqueue.descends, hqueue.grows, by simp [At]⟩, At.grows hwaiting hqueue.grows⟩
          · next u us hdrop =>
              obtain ⟨hmore, hat'⟩ := ih hqueue.descends (hat.next hqueue hdrop)
              exact ⟨hqueue.trans hmore, hat'⟩

theorem leads_takeAll {t : Step} (ht : place + t.comments < t.place) (n : Nat) :
    ∀ {g : Graph} {waiting : List Nat}, g.Descends → g.At place waiting →
      g.Leads (takeAll t n g waiting).1 t.place (takeAll t n g waiting).2 := by
  induction n with
  | zero => exact fun h _ => ⟨h, .refl _, by simp [takeAll, At]⟩
  | succ n ih =>
      intro g waiting h hat
      cases waiting with
      | nil => exact ⟨h, .refl _, by simp [takeAll, At]⟩
      | cons v waiting =>
          obtain ⟨htake, hat'⟩ := leads_take ht (4 * g.size + 8) h hat
          exact htake.append (ih htake.descends hat')

theorem leads_next {t : Step} (h : g.Descends) {heads : List Nat} (hat : g.At place heads)
    (ht : place + t.comments < t.place) :
    g.Leads (g.next heads t).1 t.place (g.next heads t).2 := by
  have htake := leads_takeAll ht (4 * g.size + 8) h hat
  exact htake.trans (leads_queue _ htake.descends (by simpa using htake.ends))

end Graph

/-- Each step reads something after a place. -/
def Step.Ascend : (place : Nat) → List Step → Prop
  | _, [] => True
  | place, t :: ts => place + t.comments < t.place ∧ Ascend t.place ts

end Heptagon
