import Heptagon.Proofs.Respelling.Parens

/-!
# What a reading depends on

The scenes of some trees lie in the text of these trees (`Tree.within_scenesAll`),
so the parentheses that open no call are among their lexemes
(`Tree.lt_widthAll_of_mem_parens`).  The readings of a scene look at the comments
before its lexemes and at no others; how many comments stand before the first
token of the trees makes no difference (`Tree.parens_congr`).
-/

namespace Heptagon

/-! ## Where the scenes are -/

/-- The lexemes of a scene are among those from one index up to another. -/
structure Scene.Within (start stop : Nat) (s : Scene) : Prop where
  start_le : start ≤ s.start
  le_stop : s.start + Cue.total s.cues ≤ stop

theorem Scene.Within.mono {start stop start' stop' : Nat} {s : Scene} (h : s.Within start stop)
    (hstart : start' ≤ start) (hstop : stop ≤ stop') : s.Within start' stop' :=
  ⟨hstart.trans h.start_le, h.le_stop.trans hstop⟩

namespace Tree

theorem widthAll_append (ts us : List Tree) :
    widthAll (ts ++ us) = widthAll ts + widthAll us := by
  induction ts with
  | nil => exact (Nat.zero_add _).symm
  | cons t ts ih => rw [List.cons_append, widthAll, widthAll, ih, Nat.add_assoc]

theorem widthAll_takeWhile_le (p : Tree → Bool) (ts : List Tree) :
    widthAll (ts.takeWhile p) ≤ widthAll ts := by
  conv_rhs => rw [← ts.takeWhile_append_dropWhile (p := p), widthAll_append]
  exact Nat.le_add_right _ _

mutual

theorem within_scenes : (t : Tree) → ∀ covered i, ∀ s ∈ t.scenes covered i,
    s.Within i (i + t.width)
  | .leaf _, _, _ => by simp [scenes]
  | .node k ts, covered, i => by
      rw [width]
      cases k with
      | expression =>
          rw [scenes]
          split
          · exact within_scenesAll ts true i
          · exact List.forall_mem_cons.mpr
              ⟨⟨le_rfl, (congrArg (i + ·) (total_cuesAll ts)).le⟩, within_scenesAll ts true i⟩
      | ifthenelse => exact within_scenesOfLast ts covered i
      | switchStatement | block | automatonState | resetStatement =>
          exact within_scenesOfList ts _ _ _ i
      | _ => exact within_scenesAll ts _ i

/-- The scenes of some trees lie in their text. -/
theorem within_scenesAll : (ts : List Tree) → ∀ covered i, ∀ s ∈ scenesAll covered i ts,
    s.Within i (i + widthAll ts)
  | [], _, _ => by simp [scenesAll]
  | t :: ts, covered, i => by
      rw [scenesAll, widthAll, ← Nat.add_assoc]
      refine List.forall_mem_append.mpr ⟨fun s hs => ?_, fun s hs => ?_⟩
      · exact (within_scenes t covered i s hs).mono le_rfl (Nat.le_add_right _ _)
      · exact (within_scenesAll ts covered (i + t.width) s hs).mono (Nat.le_add_right _ _) le_rfl

theorem within_scenesOfLast : (ts : List Tree) → ∀ covered i, ∀ s ∈ scenesOfLast covered i ts,
    s.Within i (i + widthAll ts)
  | [], _, _ => by simp [scenesOfLast]
  | [t], covered, i => within_scenes t covered i
  | t :: u :: ts, covered, i => by
      rw [scenesOfLast.eq_3 _ _ _ _ (List.cons_ne_nil _ _), widthAll, ← Nat.add_assoc]
      refine List.forall_mem_append.mpr ⟨fun s hs => ?_, fun s hs => ?_⟩
      · exact (within_scenes t false i s hs).mono le_rfl (Nat.le_add_right _ _)
      · exact (within_scenesOfLast (u :: ts) covered (i + t.width) s hs).mono
          (Nat.le_add_right _ _) le_rfl

theorem within_scenesOfList : (ts : List Tree) → ∀ covered cases within i,
    ∀ s ∈ scenesOfList covered cases within i ts, s.Within i (i + widthAll ts)
  | [], _, _, _, _ => by simp [scenesOfList]
  | t :: ts, covered, cases, within, i => by
      have hlist : Cue.total (cuesAll ((t :: ts).takeWhile isStatement)) ≤ widthAll (t :: ts) :=
        (total_cuesAll _).trans_le (widthAll_takeWhile_le _ _)
      have hmore : ∀ s ∈ t.scenes (covered || t.isStatement) i ++
          scenesOfList covered cases t.isStatement (i + t.width) ts,
          s.Within i (i + widthAll (t :: ts)) := by
        rw [widthAll, ← Nat.add_assoc]
        refine List.forall_mem_append.mpr ⟨fun s hs => ?_, fun s hs => ?_⟩
        · exact (within_scenes t _ i s hs).mono le_rfl (Nat.le_add_right _ _)
        · exact (within_scenesOfList ts covered cases t.isStatement (i + t.width) s hs).mono
            (Nat.le_add_right _ _) le_rfl
      rw [scenesOfList]
      dsimp only
      split
      · exact List.forall_mem_cons.mpr ⟨⟨le_rfl, Nat.add_le_add_left hlist i⟩, hmore⟩
      · exact hmore

end

end Tree

/-! ## Where the parentheses are -/

namespace Scene

theorem lt_of_mem_parensAfterWords {i x : Nat} {cs : List (Cue × Nat)} (hcs : Cue.Solid cs)
    (h : x ∈ parensAfterWords i cs) : x < i + Cue.total cs := by
  fun_induction parensAfterWords i cs with
  | case1 i n m cs ih =>
      obtain ⟨-, hm, hcs⟩ : 0 < n ∧ 0 < m ∧ Cue.Solid cs := by simpa [Cue.Solid] using hcs
      rw [Cue.total, Cue.total]
      rcases List.mem_cons.mp h with rfl | h
      · omega
      · have := ih hcs h
        omega
  | case2 i c n cs _ ih =>
      have := ih (List.forall_mem_cons.mp hcs).2 h
      rw [Cue.total]
      omega
  | case3 => simp at h

/-- A parenthesis that opens no call is in the scene. -/
theorem lt_of_mem_parens {comments : Nat → Nat} {callable : Nat → Bool} {s : Scene}
    (hs : Cue.Solid s.cues) {x : Nat} (h : x ∈ s.parens comments callable) :
    x < s.start + Cue.total s.cues := by
  rw [parens] at h
  dsimp only at h
  split at h
  · exact lt_of_mem_parensAfterWords hs (List.mem_filter.mp h).1
  · simp at h

/-- The steps of a scene depend on the comments before its lexemes only. -/
theorem steps_congr {comments comments' : Nat → Nat} (callable : Nat → Bool) (ending : Cue)
    {i : Nat} (place : Nat) (cs : List (Cue × Nat)) (h : ∀ j, i ≤ j → comments j = comments' j) :
    steps comments callable ending i place cs = steps comments' callable ending i place cs := by
  induction cs generalizing i place with
  | nil => rfl
  | cons c cs ih =>
      rw [steps, steps, h i le_rfl, ih _ fun j hj => h j ((Nat.le_add_right _ _).trans hj)]

theorem parens_congr {comments comments' : Nat → Nat} (callable : Nat → Bool) {s : Scene}
    (h : ∀ j, s.start ≤ j → comments j = comments' j) :
    s.parens comments callable = s.parens comments' callable := by
  rw [parens, parens, steps_congr callable s.stop 0 s.cues h]

end Scene

namespace Tree

/-- The parentheses of some trees that open no call are lexemes of these trees. -/
theorem lt_widthAll_of_mem_parens {comments : Nat → Nat} {callable : Nat → Bool} {ts : List Tree}
    (hts : ∀ t ∈ ts, t.Wide) {x : Nat} (h : x ∈ parens comments callable ts) :
    x < widthAll ts := by
  obtain ⟨s, hs, hx⟩ := List.mem_flatMap.mp h
  have hlt := Scene.lt_of_mem_parens (Wide.scenesAll ts hts false 0 s hs) hx
  have hle := (within_scenesAll ts false 0 s hs).le_stop
  omega

/-- The comments before the first token of some trees make no difference. -/
theorem parens_congr {comments comments' : Nat → Nat} (callable : Nat → Bool) (k : Keyword)
    (ts : List Tree) (h : ∀ i, 0 < i → comments i = comments' i) :
    parens comments callable (.kw k :: ts) = parens comments' callable (.kw k :: ts) := by
  rw [parens, parens]
  refine List.flatMap_congr fun s hs => Scene.parens_congr callable fun j hj => h j ?_
  have hstart := (within_scenesAll ts false (0 + width (.kw k)) s hs).start_le
  exact (Nat.lt_of_lt_of_le Nat.zero_lt_one hstart).trans_le hj

end Tree

end Heptagon
