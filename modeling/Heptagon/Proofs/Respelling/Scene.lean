import Heptagon.Division
import Heptagon.Proofs.Respelling.Joining

/-!
# Scenes in another spelling

The cues of a tree do not depend on how its tokens are spelled, nor on the point
of an operator, but for how many lexemes they have.  So the scenes of a tree are
those of the tree without any spelling (`Tree.erase`), in which each token is one
lexeme, moved to where the tokens are (`Tree.scenesAll_eq`).
-/

namespace Heptagon

/-! ## Trees without spelling -/

/-- The token without its spelling. -/
def Leaf.erase : Leaf → Leaf
  | name _ => name (.plain [])
  | variant _ => variant []
  | state _ => state (.capital [])
  | number _ => number []
  | keyword k => keyword k
  | symbol s => symbol s.undotted

namespace Tree

mutual

/-- The tree without the spelling of its tokens. -/
def erase : Tree → Tree
  | leaf l => leaf l.erase
  | node k ts => node k (eraseAll ts)

def eraseAll : List Tree → List Tree
  | [] => []
  | t :: ts => t.erase :: eraseAll ts

end

theorem eraseAll_eq_map (ts : List Tree) : eraseAll ts = ts.map erase := by
  induction ts with
  | nil => rfl
  | cons t ts ih => rw [eraseAll, ih, List.map_cons]

end Tree

theorem Leaf.Alike.erase_eq {l l' : Leaf} (h : l.Alike l') : l'.erase = l.erase := by
  cases h with
  | symbol h => exact congrArg Leaf.symbol h
  | _ => rfl

mutual

theorem Tree.Alike.erase_eq : (t : Tree) → ∀ {t' : Tree}, t.Alike t' → t'.erase = t.erase
  | .leaf _, _, .leaf h => congrArg Tree.leaf h.erase_eq
  | .node k ts, _, .node h => congrArg (Tree.node k) (Tree.Alike.eraseAll_eq ts h)

/-- Trees that are alike are the same without their spelling. -/
theorem Tree.Alike.eraseAll_eq : (ts : List Tree) → ∀ {ts' : List Tree},
    List.Forall₂ Tree.Alike ts ts' → Tree.eraseAll ts' = Tree.eraseAll ts
  | [], _, .nil => rfl
  | t :: ts, _, .cons ht hts =>
      congrArg₂ List.cons (Tree.Alike.erase_eq t ht) (Tree.Alike.eraseAll_eq ts hts)

end

/-! ## Widths -/

@[simp] theorem Leaf.length_lexemes_erase (l : Leaf) : l.erase.lexemes.length = 1 := by
  cases l <;> rfl

@[simp] theorem Leaf.cue_erase (l : Leaf) : l.erase.cue = l.cue := by
  cases l with
  | symbol s => cases s <;> rfl
  | _ => rfl

namespace Tree

/-- How many lexemes the tokens of a row of trees have. -/
def widths (ts : List Tree) : List Nat := (leavesAll ts).map (·.lexemes.length)

@[simp] theorem widths_nil : widths [] = [] := rfl

@[simp] theorem widths_leaf (l : Leaf) : widths [leaf l] = [l.lexemes.length] := rfl

@[simp] theorem widths_node (k : Kind) (ts : List Tree) : widths [node k ts] = widths ts := by
  simp [widths, leavesAll, leaves]

theorem widths_cons (t : Tree) (ts : List Tree) : widths (t :: ts) = widths [t] ++ widths ts := by
  simp [widths, leavesAll]

mutual

theorem width_erase : (t : Tree) → t.erase.width = (widths [t]).length
  | .leaf l => by simp [erase, width]
  | .node k ts => by rw [erase, width, widths_node, widthAll_erase ts]

/-- Without their spelling, trees are as wide as they have tokens. -/
theorem widthAll_erase : (ts : List Tree) → widthAll (eraseAll ts) = (widths ts).length
  | [] => rfl
  | t :: ts => by
      rw [eraseAll, widthAll, width_erase t, widthAll_erase ts, widths_cons t ts, List.length_append]

end

variable {f : Nat → Nat} {i : Nat}

theorem tracks_cons {t : Tree} {ts : List Tree} :
    Tracks f i (widths (t :: ts)) ↔
      Tracks f i (widths [t]) ∧ Tracks f (i + t.erase.width) (widths ts) := by
  rw [widths_cons t ts, tracks_append, width_erase]

theorem tracks_append_iff {ts us : List Tree} :
    Tracks f i (widths (ts ++ us)) ↔
      Tracks f i (widths ts) ∧ Tracks f (i + widthAll (eraseAll ts)) (widths us) := by
  rw [widths, leavesAll_append, List.map_append, tracks_append, widthAll_erase]
  rfl

mutual

theorem width_eq : (t : Tree) → ∀ {i : Nat}, Tracks f i (widths [t]) →
    f i + t.width = f (i + t.erase.width)
  | .leaf l, _, h => by
      rw [width_erase, width]
      exact h.1.symm
  | .node k ts, i, h => by
      rw [widths_node] at h
      exact widthAll_eq ts h

/-- As wide as trees are, so far apart are the places where they start and stop. -/
theorem widthAll_eq : (ts : List Tree) → ∀ {i : Nat}, Tracks f i (widths ts) →
    f i + widthAll ts = f (i + widthAll (eraseAll ts))
  | [], _, _ => rfl
  | t :: ts, i, h => by
      obtain ⟨ht, hts⟩ := tracks_cons.mp h
      have hfirst := width_eq t ht
      have hmore := widthAll_eq ts hts
      rw [eraseAll, widthAll, widthAll, ← Nat.add_assoc, hfirst, hmore, Nat.add_assoc]

end

end Tree

/-! ## Cues -/

/-- The cues with other numbers of lexemes; `i` is where the first of them starts. -/
def Cue.carry (f : Nat → Nat) (i : Nat) : List (Cue × Nat) → List (Cue × Nat)
  | [] => []
  | (c, n) :: cs => (c, f (i + n) - f i) :: carry f (i + n) cs

/-- How many lexemes some cues have. -/
def Cue.total : List (Cue × Nat) → Nat
  | [] => 0
  | (_, n) :: cs => n + total cs

theorem Cue.total_append (cs ds : List (Cue × Nat)) : total (cs ++ ds) = total cs + total ds := by
  induction cs with
  | nil => exact (Nat.zero_add _).symm
  | cons c cs ih => rw [List.cons_append, total, ih, total, Nat.add_assoc]

theorem Cue.carry_append (f : Nat → Nat) (i : Nat) (cs ds : List (Cue × Nat)) :
    carry f i (cs ++ ds) = carry f i cs ++ carry f (i + total cs) ds := by
  induction cs generalizing i with
  | nil => rfl
  | cons c cs ih =>
      obtain ⟨c, n⟩ := c
      simp only [List.cons_append, carry, ih, total, Nat.add_assoc]

namespace Tree

mutual

theorem total_cues : (t : Tree) → Cue.total t.cues = t.width
  | .leaf l => by simp [cues, Cue.total, width]
  | .node k ts => by
      rw [width]
      cases k with
      | ifthenelse | resetStatement =>
          rw [cues, total_cuesOfLast]
          split
          · next h => rw [h, widthAll]
          · exact Nat.zero_add _
      | _ => first | exact total_cuesAll ts | simp [cues, Cue.total]

/-- The cues of a row of trees have all its lexemes. -/
theorem total_cuesAll : (ts : List Tree) → Cue.total (cuesAll ts) = widthAll ts
  | [] => rfl
  | t :: ts => by
      rw [cuesAll, widthAll, Cue.total_append, total_cues t, total_cuesAll ts]

theorem total_cuesOfLast (head : Cue) (n : Nat) : (ts : List Tree) →
    Cue.total (cuesOfLast head n ts) = if ts = [] then 0 else n + widthAll ts
  | [] => rfl
  | [t] => by
      have ht := total_cues t
      simp [cuesOfLast, Cue.total, widthAll] at ht ⊢
      exact ht
  | t :: u :: ts => by
      have hmore := total_cuesOfLast head (n + t.width) (u :: ts)
      rw [cuesOfLast, hmore, if_neg (List.cons_ne_nil _ _), if_neg (List.cons_ne_nil _ _),
        widthAll.eq_2 t, Nat.add_assoc]
      simp

end

theorem ofLiteral_eraseAll (ts : List Tree) : Cue.ofLiteral (eraseAll ts) = Cue.ofLiteral ts := by
  match ts with
  | [] => rfl
  | [.leaf _] => rfl
  | [.node k us] => cases k <;> rfl
  | .leaf _ :: _ :: _ => rfl
  | .node k _ :: _ :: _ => cases k <;> rfl

theorem ofOperator_eraseAll (ts : List Tree) :
    Cue.ofOperator (eraseAll ts) = Cue.ofOperator ts := by
  match ts with
  | [] => rfl
  | [.leaf (.symbol s)] => cases s <;> rfl
  | [.leaf (.name _)] | [.leaf (.variant _)] | [.leaf (.state _)] | [.leaf (.number _)]
  | [.leaf (.keyword _)] => rfl
  | [.node _ _] => rfl
  | .leaf l :: _ :: _ => simp [Cue.ofOperator, eraseAll]
  | .node _ _ :: _ :: _ => rfl

variable {f : Nat → Nat}

mutual

theorem cues_eq (hf : StrictMono f) : (t : Tree) → ∀ {i : Nat}, Tracks f i (widths [t]) →
    t.cues = Cue.carry f i t.erase.cues
  | .leaf l, i, h => by
      have hnext : f (i + 1) = f i + l.lexemes.length := h.1
      simp [cues, erase, Cue.carry, hnext]
  | .node k ts, i, h => by
      rw [widths_node] at h
      have hwidth : widthAll ts = f (i + widthAll (eraseAll ts)) - f i := by
        have := widthAll_eq ts h
        omega
      rw [erase]
      cases k with
      | ifthenelse | resetStatement =>
          rw [cues, cues]
          simpa using cuesOfLast_eq hf _ 0 ts h
      | literal => simp [cues, Cue.carry, hwidth, ofLiteral_eraseAll]
      | binaryOperator => simp [cues, Cue.carry, hwidth, ofOperator_eraseAll]
      | _ => first | exact cuesAll_eq hf ts h | simp [cues, Cue.carry, hwidth]

/-- The cues of a row of trees are those of the trees without spelling, with other widths. -/
theorem cuesAll_eq (hf : StrictMono f) : (ts : List Tree) → ∀ {i : Nat}, Tracks f i (widths ts) →
    cuesAll ts = Cue.carry f i (cuesAll (eraseAll ts))
  | [], _, _ => rfl
  | t :: ts, i, h => by
      obtain ⟨ht, hts⟩ := tracks_cons.mp h
      have hfirst := cues_eq hf t ht
      have hmore := cuesAll_eq hf ts hts
      rw [eraseAll, cuesAll, cuesAll, Cue.carry_append, total_cues, hfirst, hmore]

theorem cuesOfLast_eq (hf : StrictMono f) (head : Cue) (n : Nat) : (ts : List Tree) → ∀ {i : Nat},
    Tracks f (i + n) (widths ts) →
    cuesOfLast head (f (i + n) - f i) ts = Cue.carry f i (cuesOfLast head n (eraseAll ts))
  | [], _, _ => rfl
  | [t], i, h => by
      have ht := cues_eq hf t h
      simp only [eraseAll, cuesOfLast, Cue.carry, ht]
  | t :: u :: ts, i, h => by
      obtain ⟨ht, hts⟩ := tracks_cons.mp h
      have hfirst := width_eq t ht
      have hmore := cuesOfLast_eq hf head (n + t.erase.width) (u :: ts) (i := i)
        (by rwa [← Nat.add_assoc])
      rw [← Nat.add_assoc, ← hfirst] at hmore
      have hle : f i ≤ f (i + n) := hf.monotone (Nat.le_add_right i n)
      rw [Nat.sub_add_comm hle] at hmore
      rw [cuesOfLast.eq_3 _ _ _ _ (List.cons_ne_nil _ _), hmore]
      rfl

end

end Tree

/-! ## Scenes -/

/-- The scene with its tokens at other places. -/
def Scene.carry (f : Nat → Nat) (s : Scene) : Scene :=
  ⟨s.statements, f s.start, Cue.carry f s.start s.cues, s.stop⟩

namespace Tree

@[simp] theorem isStatement_erase (t : Tree) : t.erase.isStatement = t.isStatement := by
  cases t <;> rfl

theorem all_isStatement_eraseAll (ts : List Tree) :
    (eraseAll ts).all isStatement = ts.all isStatement := by
  simp [eraseAll_eq_map, Function.comp_def]

theorem takeWhile_isStatement_eraseAll (ts : List Tree) :
    (eraseAll ts).takeWhile isStatement = eraseAll (ts.takeWhile isStatement) := by
  simp [eraseAll_eq_map, List.takeWhile_map, Function.comp_def]

variable {f : Nat → Nat}

mutual

theorem scenes_eq (hf : StrictMono f) : (t : Tree) → ∀ (covered : Bool) {i : Nat},
    Tracks f i (widths [t]) →
    t.scenes covered (f i) = (t.erase.scenes covered i).map (Scene.carry f)
  | .leaf _, _, _, _ => rfl
  | .node k ts, covered, i, h => by
      rw [widths_node] at h
      rw [erase]
      cases k with
      | expression =>
          rw [scenes, scenes]
          cases covered with
          | true => exact scenesAll_eq hf ts true h
          | false =>
              have hcues := cuesAll_eq hf ts h
              have hmore := scenesAll_eq hf ts true h
              simp [hcues, hmore, Scene.carry]
      | ifthenelse => exact scenesOfLast_eq hf ts covered h
      | switchStatement | block | automatonState | resetStatement =>
          exact scenesOfList_eq hf ts _ _ _ h
      | _ => exact scenesAll_eq hf ts _ h

/-- The scenes in a row of trees are those of the trees without spelling, where the tokens are. -/
theorem scenesAll_eq (hf : StrictMono f) : (ts : List Tree) → ∀ (covered : Bool) {i : Nat},
    Tracks f i (widths ts) →
    scenesAll covered (f i) ts = (scenesAll covered i (eraseAll ts)).map (Scene.carry f)
  | [], _, _, _ => rfl
  | t :: ts, covered, i, h => by
      obtain ⟨ht, hts⟩ := tracks_cons.mp h
      have hwidth := width_eq t ht
      have hfirst := scenes_eq hf t covered ht
      have hmore := scenesAll_eq hf ts covered hts
      rw [eraseAll, scenesAll, scenesAll, hwidth, hfirst, hmore, List.map_append]

theorem scenesOfLast_eq (hf : StrictMono f) : (ts : List Tree) → ∀ (covered : Bool) {i : Nat},
    Tracks f i (widths ts) →
    scenesOfLast covered (f i) ts = (scenesOfLast covered i (eraseAll ts)).map (Scene.carry f)
  | [], _, _, _ => rfl
  | [t], covered, i, h => scenes_eq hf t covered h
  | t :: u :: ts, covered, i, h => by
      obtain ⟨ht, hts⟩ := tracks_cons.mp h
      have hwidth := width_eq t ht
      have hfirst := scenes_eq hf t false ht
      have hmore := scenesOfLast_eq hf (u :: ts) covered hts
      rw [eraseAll, scenesOfLast.eq_3 _ _ _ _ (List.cons_ne_nil _ _), hwidth, hfirst, hmore,
        ← List.map_append]
      rfl

theorem scenesOfList_eq (hf : StrictMono f) : (ts : List Tree) → ∀ (covered cases within : Bool) {i : Nat},
    Tracks f i (widths ts) → scenesOfList covered cases within (f i) ts =
      (scenesOfList covered cases within i (eraseAll ts)).map (Scene.carry f)
  | [], _, _, _, _, _ => rfl
  | t :: ts, covered, cases, within, i, h => by
      obtain ⟨ht, hts⟩ := tracks_cons.mp h
      have hwidth := width_eq t ht
      have hinner := scenes_eq hf t (covered || t.isStatement) ht
      have hrest := scenesOfList_eq hf ts covered cases t.isStatement hts
      have hsplit := h
      rw [← (t :: ts).takeWhile_append_dropWhile (p := isStatement), tracks_append_iff] at hsplit
      have hcues := cuesAll_eq hf _ hsplit.1
      rw [eraseAll, scenesOfList, scenesOfList, isStatement_erase, all_isStatement_eraseAll, hwidth,
        hinner, hrest, hcues, ← eraseAll, takeWhile_isStatement_eraseAll]
      by_cases hstatement : (t.isStatement && !within) = true
      · simp only [if_pos hstatement, List.map_cons, List.map_append]
        rfl
      · simp only [if_neg hstatement, List.map_append]

end

end Tree

end Heptagon
