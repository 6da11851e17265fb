import Heptagon.Proofs.Division.Carrying
import Heptagon.Proofs.Node.Placing
import Heptagon.Proofs.Respelling.Scene

/-!
# Parentheses that open no call in another spelling

Which parentheses open no call, in the reading that stays, does not depend on
how the tokens are spelled, because the contests of the readings are the same
(`Tree.parens_eq`).  If a token has more lexemes in another spelling, only the
places of the parentheses after it are others.
-/

namespace Heptagon

/-! ## Wide trees -/

/-- Every node has children, and those with a cue of their own in front of their last child have
one in front of it. -/
inductive Tree.Wide : Tree → Prop
  | leaf {l : Leaf} : Wide (.leaf l)
  | node {k : Kind} {ts : List Tree} (hne : ts ≠ [])
      (hlast : k = .ifthenelse ∨ k = .resetStatement → 2 ≤ ts.length) (h : ∀ t ∈ ts, Wide t) :
      Wide (.node k ts)

theorem Rule.Generates.two_le_length {α : Type} {label : α → Label} {a b : Rule} {xs : List α}
    (h : (Rule.seq a b).Generates label xs) (ha : a.nullable = false) (hb : b.nullable = false) :
    2 ≤ xs.length := by
  cases h with
  | @seq _ _ xs ys hxs hys =>
      have hne : xs ≠ [] := fun hnil => by simp [hxs.nullable_of_nil hnil] at ha
      have hne' : ys ≠ [] := fun hnil => by simp [hys.nullable_of_nil hnil] at hb
      have hpos := List.length_pos_iff.mpr hne
      have hpos' := List.length_pos_iff.mpr hne'
      rw [List.length_append]
      omega

/-- The trees of a derivation are wide. -/
theorem Tree.Derives.wide {P : Tree → Prop} {t : Tree} (h : t.Derives P) (hfull : t.Full) :
    t.Wide := by
  induction h with
  | leaf => exact .leaf
  | @node k children _ _ hrule _ ih =>
      cases hfull with
      | node hfull =>
          refine .node (by simp) ?_ fun u hu => ih u hu (hfull u hu)
          rintro (rfl | rfl)
          · exact Rule.Generates.two_le_length hrule (by decide) (by decide)
          · exact Rule.Generates.two_le_length hrule (by decide) (by decide)

namespace Tree

mutual

theorem Wide.width_pos : (t : Tree) → t.Wide → 0 < t.width
  | .leaf l, _ => by
      rcases l.lexemes_cases with ⟨x, hx, -⟩ | ⟨x, y, hxy, -⟩ <;> simp [width, *]
  | .node _ ts, .node hne _ h => Wide.widthAll_pos ts hne h

theorem Wide.widthAll_pos : (ts : List Tree) → ts ≠ [] → (∀ t ∈ ts, t.Wide) → 0 < widthAll ts
  | [], hne, _ => absurd rfl hne
  | t :: _, _, h => Nat.add_pos_left (Wide.width_pos t (h t (by simp))) _

end

end Tree

/-! ## Cues with lexemes -/

/-- Every cue has lexemes. -/
def Cue.Solid (cs : List (Cue × Nat)) : Prop := ∀ c ∈ cs, 0 < c.2

theorem Cue.solid_append {cs ds : List (Cue × Nat)} (hcs : Solid cs) (hds : Solid ds) :
    Solid (cs ++ ds) := List.forall_mem_append.mpr ⟨hcs, hds⟩

theorem Cue.Solid.of_carry {f : Nat → Nat} {cs : List (Cue × Nat)} {i : Nat}
    (h : Solid (carry f i cs)) : Solid cs := by
  induction cs generalizing i with
  | nil => simp [Solid]
  | cons c cs ih =>
      obtain ⟨c, n⟩ := c
      obtain ⟨hc, hcs⟩ := List.forall_mem_cons.mp h
      refine List.forall_mem_cons.mpr ⟨Nat.pos_of_ne_zero ?_, ih hcs⟩
      rintro rfl
      simp at hc

namespace Tree

mutual

theorem Wide.cues : (t : Tree) → t.Wide → Cue.Solid t.cues
  | .leaf l, h => by
      have hwidth := Wide.width_pos (.leaf l) h
      simpa [Tree.cues, Cue.Solid, width] using hwidth
  | .node k ts, .node hne hlast h => by
      have hwidth := Wide.widthAll_pos ts hne h
      cases k with
      | ifthenelse | resetStatement => exact Wide.cuesOfLast _ 0 ts (.inl (hlast (by simp))) h
      | _ => first | exact Wide.cuesAll ts h | simpa [Tree.cues, Cue.Solid] using hwidth

/-- The cues of wide trees have lexemes. -/
theorem Wide.cuesAll : (ts : List Tree) → (∀ t ∈ ts, t.Wide) → Cue.Solid (cuesAll ts)
  | [], _ => by simp [Tree.cuesAll, Cue.Solid]
  | t :: ts, h => by
      obtain ⟨ht, hts⟩ := List.forall_mem_cons.mp h
      exact Cue.solid_append (Wide.cues t ht) (Wide.cuesAll ts hts)

theorem Wide.cuesOfLast (head : Cue) (n : Nat) : (ts : List Tree) → 2 ≤ ts.length ∨ 0 < n →
    (∀ t ∈ ts, t.Wide) → Cue.Solid (cuesOfLast head n ts)
  | [], _, _ => by simp [Tree.cuesOfLast, Cue.Solid]
  | [t], hn, h => by
      have hn : 0 < n := by simpa using hn
      exact List.forall_mem_cons.mpr ⟨hn, Wide.cues t (h t (by simp))⟩
  | t :: u :: ts, _, h => by
      obtain ⟨ht, hts⟩ := List.forall_mem_cons.mp h
      have hwidth := Wide.width_pos t ht
      exact Wide.cuesOfLast head (n + t.width) (u :: ts) (.inr (by omega)) hts

end

mutual

theorem Wide.scenes : (t : Tree) → t.Wide → ∀ covered i, ∀ s ∈ t.scenes covered i, Cue.Solid s.cues
  | .leaf _, _, _, _ => by simp [Tree.scenes]
  | .node k ts, .node _ _ h, covered, i => by
      cases k with
      | expression =>
          rw [Tree.scenes]
          split
          · exact Wide.scenesAll ts h true i
          · exact List.forall_mem_cons.mpr ⟨Wide.cuesAll ts h, Wide.scenesAll ts h true i⟩
      | ifthenelse => exact Wide.scenesOfLast ts h covered i
      | switchStatement | block | automatonState | resetStatement =>
          exact Wide.scenesOfList ts h _ _ _ i
      | _ => exact Wide.scenesAll ts h _ i

/-- The cues of the scenes in wide trees have lexemes. -/
theorem Wide.scenesAll : (ts : List Tree) → (∀ t ∈ ts, t.Wide) → ∀ covered i,
    ∀ s ∈ scenesAll covered i ts, Cue.Solid s.cues
  | [], _, _, _ => by simp [Tree.scenesAll]
  | t :: ts, h, covered, i => by
      obtain ⟨ht, hts⟩ := List.forall_mem_cons.mp h
      exact List.forall_mem_append.mpr
        ⟨Wide.scenes t ht covered i, Wide.scenesAll ts hts covered (i + t.width)⟩

theorem Wide.scenesOfLast : (ts : List Tree) → (∀ t ∈ ts, t.Wide) → ∀ covered i,
    ∀ s ∈ scenesOfLast covered i ts, Cue.Solid s.cues
  | [], _, _, _ => by simp [Tree.scenesOfLast]
  | [t], h, covered, i => Wide.scenes t (h t (by simp)) covered i
  | t :: u :: ts, h, covered, i => by
      obtain ⟨ht, hts⟩ := List.forall_mem_cons.mp h
      exact List.forall_mem_append.mpr
        ⟨Wide.scenes t ht false i, Wide.scenesOfLast (u :: ts) hts covered (i + t.width)⟩

theorem Wide.scenesOfList : (ts : List Tree) → (∀ t ∈ ts, t.Wide) → ∀ covered cases within i,
    ∀ s ∈ scenesOfList covered cases within i ts, Cue.Solid s.cues
  | [], _, _, _, _, _ => by simp [Tree.scenesOfList]
  | t :: ts, h, covered, cases, within, i => by
      obtain ⟨ht, hts⟩ := List.forall_mem_cons.mp h
      have hinner := Wide.scenes t ht (covered || t.isStatement) i
      have hrest := Wide.scenesOfList ts hts covered cases t.isStatement (i + t.width)
      have hmore := List.forall_mem_append.mpr ⟨hinner, hrest⟩
      rw [Tree.scenesOfList]
      dsimp only
      split
      · refine List.forall_mem_cons.mpr ⟨Wide.cuesAll _ fun u hu => ?_, hmore⟩
        exact h u (List.takeWhile_subset _ hu)
      · exact hmore

end

end Tree

/-! ## Steps -/

/-- A map of places that stretches some gaps: the first so many places become so many more. -/
def stretchGaps : (gaps : List (Nat × Nat)) → Nat → Nat
  | [], x => x
  | (a, b) :: gaps, x => if x < a then x else b + stretchGaps gaps (x - a)

theorem strictMono_stretchGaps {gaps : List (Nat × Nat)} (h : ∀ g ∈ gaps, g.1 ≤ g.2) :
    StrictMono (stretchGaps gaps) := by
  induction gaps with
  | nil => exact strictMono_id
  | cons g gaps ih =>
      obtain ⟨a, b⟩ := g
      obtain ⟨hg, hgaps⟩ := List.forall_mem_cons.mp h
      have hg : a ≤ b := hg
      intro x y hxy
      simp only [stretchGaps]
      split
      · split
        · exact hxy
        · omega
      · rw [if_neg (by omega)]
        have := ih hgaps (show x - a < y - a by omega)
        omega

theorem stretchGaps_add (a b : Nat) (gaps : List (Nat × Nat)) (x : Nat) :
    stretchGaps ((a, b) :: gaps) (a + x) = b + stretchGaps gaps x := by
  rw [stretchGaps, if_neg (by omega), Nat.add_sub_cancel_left]

theorem stretchGaps_zero {gaps : List (Nat × Nat)} (h : ∀ g ∈ gaps, 0 < g.1) :
    stretchGaps gaps 0 = 0 := by
  cases gaps with
  | nil => rfl
  | cons g gaps => exact if_pos (h g (by simp))

namespace Scene

variable {f : Nat → Nat} (comments : Nat → Nat) (callable : Nat → Bool)

/-- How far apart the places of some cues are, as they stand and as they are carried. -/
def gaps (f : Nat → Nat) (i : Nat) : List (Cue × Nat) → List (Nat × Nat)
  | [] => []
  | (_, n) :: cs =>
    (comments (f i) + n, comments (f i) + (f (i + n) - f i)) :: gaps f (i + n) cs

theorem gaps_le (hf : StrictMono f) (i : Nat) (cs : List (Cue × Nat)) :
    ∀ g ∈ gaps comments f i cs, g.1 ≤ g.2 := by
  induction cs generalizing i with
  | nil => simp [gaps]
  | cons c cs ih =>
      obtain ⟨c, n⟩ := c
      refine List.forall_mem_cons.mpr ⟨Nat.add_le_add_left ?_ _, ih _⟩
      have hle := hf.add_le_nat n i
      rw [Nat.add_comm n i] at hle
      omega

theorem gaps_pos (i : Nat) {cs : List (Cue × Nat)} (h : Cue.Solid cs) :
    ∀ g ∈ gaps comments f i cs, 0 < g.1 := by
  induction cs generalizing i with
  | nil => simp [gaps]
  | cons c cs ih =>
      obtain ⟨c, n⟩ := c
      obtain ⟨hc, hcs⟩ := List.forall_mem_cons.mp h
      exact List.forall_mem_cons.mpr ⟨Nat.add_pos_right _ hc, ih _ hcs⟩

/-- The steps with cues that are carried elsewhere are carried, too. -/
theorem steps_carry (hf : StrictMono f) (ending : Cue) {r : Nat → Nat} {cs : List (Cue × Nat)}
    (h : Cue.Solid cs) : ∀ {i place place' : Nat},
      (∀ x, r (place + x) = place' + stretchGaps (gaps comments f i cs) x) →
      steps comments callable ending (f i) place' (Cue.carry f i cs) =
        (steps (comments ∘ f) (callable ∘ f) ending i place cs).map (Step.carry r f) := by
  induction cs with
  | nil =>
      intro i place place' hr
      simp [steps, Cue.carry, Step.carry, hr, gaps, stretchGaps]
  | cons c cs ih =>
      obtain ⟨c, n⟩ := c
      obtain ⟨hc, hcs⟩ := List.forall_mem_cons.mp h
      intro i place place' hr
      have hstop : f i + (f (i + n) - f i) = f (i + n) :=
        Nat.add_sub_cancel' (hf.monotone (Nat.le_add_right i n))
      have hafter : ∀ x, r (place + comments (f i) + n + x) = place' + comments (f i) +
          (f (i + n) - f i) + stretchGaps (gaps comments f (i + n) cs) x := fun x => by
        have := hr (comments (f i) + n + x)
        rw [gaps, stretchGaps_add] at this
        rw [Nat.add_assoc place, Nat.add_assoc place, this]
        omega
      have hplace := hafter 0
      rw [stretchGaps_zero (gaps_pos comments _ hcs), Nat.add_zero, Nat.add_zero] at hplace
      rw [Cue.carry, steps, steps, hstop, List.map_cons, ih hcs hafter]
      simp [Step.carry, hplace]

theorem ascend_steps (ending : Cue) {cs : List (Cue × Nat)} (h : Cue.Solid cs) :
    ∀ i place : Nat, Step.Ascend place (steps comments callable ending i place cs) := by
  induction cs with
  | nil => exact fun i place => ⟨Nat.lt_succ_self place, trivial⟩
  | cons c cs ih =>
      obtain ⟨c, n⟩ := c
      obtain ⟨hc, hcs⟩ := List.forall_mem_cons.mp h
      exact fun i place => ⟨Nat.lt_add_of_pos_right hc, ih hcs _ _⟩

theorem parensAfterWords_carry (hf : StrictMono f) (i : Nat) (cs : List (Cue × Nat)) :
    parensAfterWords (f i) (Cue.carry f i cs) = (parensAfterWords i cs).map f := by
  have hstop : ∀ j n, f j + (f (j + n) - f j) = f (j + n) := fun j n =>
    Nat.add_sub_cancel' (hf.monotone (Nat.le_add_right j n))
  fun_induction parensAfterWords i cs with
  | case1 i n m cs ih =>
      rw [Cue.carry, Cue.carry, parensAfterWords, hstop, hstop, ih, List.map_cons]
  | case2 i c n cs hnot ih =>
      rw [Cue.carry, parensAfterWords.eq_2, hstop, ih]
      rintro m ds heq rfl
      cases cs with
      | nil => simp [Cue.carry] at heq
      | cons d cs =>
          obtain ⟨d, k⟩ := d
          obtain rfl : d = .parenOpen := by
            simp only [Cue.carry, List.cons.injEq, Prod.mk.injEq] at heq
            exact heq.1.1
          exact hnot _ _ rfl rfl
  | case3 i => rfl

/-- The parentheses of a scene elsewhere that open no call are those of the scene. -/
theorem parens_carry (hf : StrictMono f) {s : Scene} (h : Cue.Solid s.cues) :
    (s.carry f).parens comments callable =
      (s.parens (comments ∘ f) (callable ∘ f)).map f := by
  -- `r` takes the places of a walk to those of the walk elsewhere
  obtain ⟨r, hr⟩ : ∃ r, r = stretchGaps (gaps comments f s.start s.cues) := ⟨_, rfl⟩
  have hraises : Graph.Raises r :=
    ⟨hr ▸ strictMono_stretchGaps (gaps_le comments hf _ _),
      hr ▸ stretchGaps_zero (gaps_pos comments _ h)⟩
  have hsteps : steps comments callable s.stop (f s.start) 0 (Cue.carry f s.start s.cues) =
      (steps (comments ∘ f) (callable ∘ f) s.stop s.start 0 s.cues).map (Step.carry r f) :=
    steps_carry comments callable hf s.stop h fun x => by rw [Nat.zero_add, Nat.zero_add, hr]
  have hdescends : s.graph.Descends := by
    intro v l hl
    cases v with
    | zero => simp [graph, Graph.vertex] at hl
    | succ v => simp [graph, Graph.vertex] at hl
  have hat : s.graph.At 0 [0] := by
    intro v hv
    obtain rfl := List.mem_singleton.mp hv
    exact ⟨by simp [graph], rfl⟩
  have hgraph : s.graph.carry r f = s.graph := by
    simp [graph, Graph.carry, Vertex.carry, hraises.zero]
  obtain ⟨hfollow, hdescends'⟩ := Graph.follow_carry (f := f) hraises hdescends hat
    (ascend_steps (comments ∘ f) (callable ∘ f) s.stop h s.start 0)
  rw [hgraph] at hfollow
  have hstart : (s.carry f).graph = s.graph := rfl
  rw [parens, parens, hstart, show (s.carry f).cues = Cue.carry f s.start s.cues from rfl,
    show (s.carry f).start = f s.start from rfl, show (s.carry f).stop = s.stop from rfl, hsteps,
    hfollow, parensAfterWords_carry hf]
  generalize s.graph.follow [0] _ = result at hdescends' ⊢
  obtain ⟨g, heads⟩ := result
  cases heads with
  | nil => rfl
  | cons v heads =>
      simp only [List.head?_cons, Option.bind_some, Graph.result?_carry hraises hdescends']
      cases g.result? v with
      | none => rfl
      | some shape =>
          simp only [Option.map_some, Shape.parens_carry, List.filter_map]
          congr 1
          refine List.filter_congr fun j _ => ?_
          simp [hf.injective.eq_iff]

end Scene

/-! ## Trees -/

/-- The parentheses of some trees that open no call are those of the trees without spelling, where
the tokens are. -/
theorem Tree.parens_eq {f : Nat → Nat} (hf : StrictMono f) (hzero : f 0 = 0) {ts : List Tree}
    (hwide : ∀ t ∈ ts, t.Wide) (h : Tracks f 0 (widths ts)) (comments : Nat → Nat)
    (callable : Nat → Bool) :
    parens comments callable ts =
      (parens (comments ∘ f) (callable ∘ f) (eraseAll ts)).map f := by
  have hscenes := scenesAll_eq hf ts false h
  have hsolid := Wide.scenesAll ts hwide false 0
  rw [hzero] at hscenes
  rw [hscenes] at hsolid
  rw [parens, parens, hscenes, List.flatMap_map, List.map_flatMap]
  refine List.flatMap_congr fun s hs => ?_
  exact Scene.parens_carry comments callable hf (hsolid _ (List.mem_map_of_mem hs)).of_carry

end Heptagon
