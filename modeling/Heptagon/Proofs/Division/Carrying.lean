import Heptagon.Proofs.Division.Descending
import Mathlib.Order.WellFounded

/-!
# Contests elsewhere in a text

A contest does not depend on where in a text its cues are: if the places of the
steps are moved upwards, so that none of them meet, and their lexemes are
renumbered, then its graph is moved and renumbered with them
(`Graph.follow_carry`), and so is its result.
-/

namespace Heptagon

/-! ## Shapes -/

namespace Shape

mutual

/-- The shape with its parentheses at other places. -/
def carry (f : Nat → Nat) : Shape → Shape
  | mk p paren cs => mk p (paren.map f) (carryAll f cs)

def carryAll (f : Nat → Nat) : List Shape → List Shape
  | [] => []
  | s :: ss => s.carry f :: carryAll f ss

end

variable (f : Nat → Nat)

theorem carryAll_eq_map (ss : List Shape) : carryAll f ss = ss.map (carry f) := by
  induction ss with
  | nil => rfl
  | cons s ss ih => rw [carryAll, ih, List.map_cons]

@[simp] theorem length_carryAll (ss : List Shape) : (carryAll f ss).length = ss.length := by
  simp [carryAll_eq_map]

@[simp] theorem piece_carry (s : Shape) : (s.carry f).piece = s.piece := by
  cases s
  rfl

@[simp] theorem length_children_carry (s : Shape) :
    (s.carry f).children.length = s.children.length := by
  cases s
  exact length_carryAll f _

@[simp] theorem carry_token (p : Piece) : (token p).carry f = token p := rfl

@[simp] theorem map_carry_comments (n : Nat) : (comments n).map (carry f) = comments n := by
  simp [comments]

theorem map_carry_wrap (ps : List Piece) (parts : List Shape) :
    (wrap parts ps).map (carry f) = wrap (parts.map (carry f)) ps := by
  induction ps with
  | nil => rfl
  | cons p ps ih =>
      rw [wrap, wrap, List.map_singleton, carry, carryAll_eq_map, ih]
      rfl

mutual

@[simp] theorem compare_carry : (s t : Shape) → (s.carry f).compare (t.carry f) = s.compare t
  | mk p _ cs, mk q _ ds => by
      simp only [carry, compare, length_carryAll, compareAll_carryAll cs ds]

/-- Where parentheses are makes no difference to which shape is smaller. -/
theorem compareAll_carryAll : (ss ts : List Shape) →
    compareAll (carryAll f ss) (carryAll f ts) = compareAll ss ts
  | [], _ | _ :: _, [] => by simp [carryAll, compareAll]
  | s :: ss, t :: ts => by
      simp only [carryAll, compareAll, compare_carry s t, compareAll_carryAll ss ts]

end

theorem least_carry (s : Shape) (ss : List Shape) :
    (s.carry f).least (ss.map (carry f)) = (s.least ss).carry f := by
  induction ss generalizing s with
  | nil => rfl
  | cons t ts ih =>
      rw [List.map_cons, least, least, compare_carry, ← ih]
      split <;> rfl

mutual

theorem parens_carry : (s : Shape) → (s.carry f).parens = s.parens.map f
  | mk p paren cs => by
      rw [carry, parens, parens, parensAll_carryAll cs, List.map_append]
      cases paren <;> rfl

theorem parensAll_carryAll : (ss : List Shape) → parensAll (carryAll f ss) = (parensAll ss).map f
  | [] => rfl
  | s :: ss => by
      rw [carryAll, parensAll, parensAll, parens_carry s, parensAll_carryAll ss, List.map_append]

end

end Shape

/-! ## Graphs -/

/-- The link with its parentheses at other places. -/
def Link.carry (f : Nat → Nat) (l : Link) : Link := ⟨l.comments, l.part.carry f, l.below⟩

/-- The vertex at another place. -/
def Vertex.carry (r f : Nat → Nat) (v : Vertex) : Vertex := ⟨v.spot, r v.place, v.links.map (.carry f)⟩

def Graph.carry (r f : Nat → Nat) (g : Graph) : Graph := Array.map (Vertex.carry r f) g

def Path.carry (f : Nat → Nat) (p : Path) : Path :=
  ⟨p.parts.map (.carry f), p.comments, p.below, p.missing, p.ahead⟩

/-- The step at another place and with another lexeme. -/
def Step.carry (r f : Nat → Nat) (t : Step) : Step :=
  ⟨t.cue, f t.lexeme, t.comments, r t.place, t.callable⟩

@[simp] theorem Link.below_carry (f : Nat → Nat) (l : Link) : (l.carry f).below = l.below := rfl

@[simp] theorem Step.part_carry (r f : Nat → Nat) (t : Step) (s : Spot) :
    (t.carry r f).part s = (t.part s).carry f := by
  unfold Step.part Step.carry
  split <;> rfl

section

variable {r f : Nat → Nat}

@[simp] theorem Path.part_carry (p : Path) (fo : Folding) :
    (p.carry f).part fo = (p.part fo).carry f := by
  rw [Path.part, Path.part, Shape.carry, Shape.carryAll_eq_map, Shape.map_carry_wrap]
  rfl

theorem Path.extend_carry (p : Path) (l : Link) :
    (p.carry f).extend (l.carry f) = (p.extend l).carry f := by
  simp [Path.extend, Path.carry, Link.carry]

namespace Graph

@[simp] theorem size_carry (g : Graph) : (g.carry r f).size = g.size := by
  simp [carry]

/-- Places are moved upwards, so that different ones stay so. -/
structure Raises (r : Nat → Nat) : Prop where
  strictMono : StrictMono r
  zero : r 0 = 0

variable (hr : Raises r)
include hr

theorem vertex_carry (g : Graph) (v : Nat) : (g.carry r f).vertex v = (g.vertex v).carry r f := by
  simp only [vertex, carry, Array.getD_eq_getD_getElem?, Array.getElem?_map]
  cases g[v]? with
  | none => simp [Vertex.carry, hr.zero]
  | some x => rfl

theorem place_carry_beq (v w : Vertex) :
    ((v.carry r f).place == (w.carry r f).place) = (v.place == w.place) := by
  rw [Bool.eq_iff_iff, beq_iff_eq, beq_iff_eq]
  exact hr.strictMono.injective.eq_iff

theorem meets_carry (g : Graph) (v w : Nat) : (g.carry r f).meets v w = g.meets v w := by
  rw [meets, meets, vertex_carry hr, vertex_carry hr, place_carry_beq hr]
  rfl

theorem covers_carry (g : Graph) (a b : Link) :
    (g.carry r f).covers (a.carry f) (b.carry f) = g.covers a b := by
  simp only [covers, alike, meets_carry hr, vertex_carry hr, place_carry_beq hr, Link.carry,
    Shape.piece_carry, Shape.length_children_carry]

omit hr in
theorem push_carry (g : Graph) (spot : Spot) (place : Nat) (l : Link) :
    (g.carry r f).push spot (r place) (l.carry f) = (g.push spot place l).carry r f := by
  simp [push, carry, Vertex.carry]

omit hr in
/-- Links that are added one by one. -/
theorem foldl_carry (add : Graph → Link → Graph)
    (hadd : ∀ (g : Graph) l, add (g.carry r f) (l.carry f) = (add g l).carry r f) (ls : List Link)
    (g : Graph) :
    (ls.map (Link.carry f)).foldl add (g.carry r f) = (ls.foldl add g).carry r f := by
  induction ls generalizing g with
  | nil => rfl
  | cons l ls ih => rw [List.map_cons, List.foldl_cons, hadd, ih, List.foldl_cons]

theorem addLink_carry (n : Nat) (g : Graph) (v : Nat) (l : Link) :
    (g.carry r f).addLink n v (l.carry f) = (g.addLink n v l).carry r f := by
  induction n generalizing g v l with
  | zero => rfl
  | succ n ih =>
      have hlinks : ∀ w, ((g.carry r f).vertex w).links = (g.vertex w).links.map (.carry f) :=
        fun w => by rw [vertex_carry hr]; rfl
      have hfind : ((g.carry r f).vertex v).links.find? ((g.carry r f).covers · (l.carry f)) =
          ((g.vertex v).links.find? (g.covers · l)).map (.carry f) := by
        rw [hlinks, List.find?_map]
        simp only [Function.comp_def, covers_carry hr]
      rw [addLink, addLink, hfind, Link.below_carry]
      split
      · rfl
      -- whether a link is covered, and by which one, is the same elsewhere
      · cases (g.vertex v).links.find? (g.covers · l) with
        | some e =>
            by_cases h : e.below = l.below
            · simp [h]
            · simp only [Option.map_some, Link.below_carry, beq_iff_eq, h, if_false, hlinks]
              exact foldl_carry (fun g l => addLink n g e.below l) (fun g l => ih g e.below l) _ g
        | none =>
            simp only [Option.map_none, hlinks, List.length_map]
            split
            · rw [vertex_carry hr]
              simp [carry, Vertex.carry]
            · rfl

theorem join_carry (g : Graph) (v w : Nat) :
    (g.carry r f).join v w = (g.join v w).carry r f := by
  rw [join, join, vertex_carry hr]
  refine foldl_carry (fun g l => g.addLink g.size v l) (fun g l => ?_) _ g
  rw [size_carry, addLink_carry hr]

theorem meeting?_carry (g : Graph) (v : Nat) (ws : List Nat) :
    (g.carry r f).meeting? v ws = g.meeting? v ws := by
  simp only [meeting?, meets_carry hr]

/-! ## Paths elsewhere -/

theorem back_carry (g : Graph) (p : Path) :
    (p.carry f).back (g.carry r f) = (p.back g).map (.carry f) := by
  obtain ⟨parts, comments, below, missing, ahead⟩ := p
  cases ahead with
  | succ n => rfl
  | zero =>
      have hlinks : ((g.carry r f).vertex below).links = (g.vertex below).links.map (.carry f) := by
        rw [vertex_carry hr]
        rfl
      simp only [Path.back, Path.carry] at hlinks ⊢
      rw [← vertex, ← vertex, hlinks, List.map_map, List.map_map]
      exact List.map_congr_left fun l _ => Path.extend_carry ⟨parts, comments, below, missing, 0⟩ l

theorem complete_carry (g : Graph) (n : Nat) (ps : List Path) :
    (g.carry r f).complete n (ps.map (.carry f)) = (g.complete n ps).map (.carry f) := by
  induction n generalizing ps with
  | zero => cases ps <;> rfl
  | succ n ih =>
      cases ps with
      | nil => rfl
      | cons p ps =>
          have hnext : ∀ qs : List Path, (qs.map (Path.carry f)).map (·.back (g.carry r f)) =
              (qs.map (·.back g)).map (List.map (.carry f)) := fun qs => by
            rw [List.map_map, List.map_map]
            exact List.map_congr_left fun q _ => back_carry hr g q
          rw [complete.eq_3 _ (p :: ps) _ (List.cons_ne_nil _ _),
            complete.eq_3 _ ((p :: ps).map _) _ (by simp), List.map_append, ← ih]
          simp only [List.filter_map, Function.comp_def, hnext]
          simp [List.map_flatMap, List.flatMap_map, List.filterMap_map, List.map_filterMap,
            Function.comp_def, Path.carry]

theorem paths_carry {g : Graph} (h : g.Descends) (v count : Nat) :
    (g.carry r f).paths v count = (g.paths v count).map (.carry f) := by
  have hle : (g.vertex v).place + 2 ≤ r (g.vertex v).place + 2 :=
    Nat.add_le_add_right hr.strictMono.le_apply 2
  have hcarry := complete_carry (f := f) hr g (r (g.vertex v).place + 2) [⟨[], 0, v, count, 0⟩]
  rw [complete_eq h (by simp) hle] at hcarry
  rw [paths, vertex_carry hr]
  exact hcarry

/-! ## Steps elsewhere -/

theorem foldTo_carry (place : Nat) (fo : Folding) (paths : List Path) (bs : List Nat) :
    ∀ g : Graph, (g.carry r f).foldTo (r place) fo (paths.map (.carry f)) bs =
      ((g.foldTo place fo paths bs).1.carry r f, (g.foldTo place fo paths bs).2) := by
  induction bs with
  | nil => exact fun _ => rfl
  | cons b bs ih =>
      intro g
      have hfilter : (paths.map (Path.carry f)).filter (·.below == b) =
          (paths.filter (·.below == b)).map (.carry f) := by
        rw [List.filter_map]
        rfl
      have hspot : ((g.carry r f).vertex b).spot = (g.vertex b).spot := by
        rw [vertex_carry hr]
        rfl
      rw [foldTo, foldTo, hfilter, hspot]
      -- the paths that end at a vertex still do, and the least of them stays the least
      cases paths.filter (·.below == b) with
      | nil => exact ih g
      | cons p ps =>
          cases (g.vertex b).spot.after? fo.piece with
          | none => exact ih g
          | some s =>
              have hpush := push_carry (r := r) (f := f) g s place
                ⟨p.comments, (p.part fo).least (ps.map (·.part fo)), b⟩
              have hleast : ((p.carry f).part fo).least ((ps.map (Path.carry f)).map (·.part fo)) =
                  ((p.part fo).least (ps.map (·.part fo))).carry f := by
                rw [Path.part_carry, ← Shape.least_carry, List.map_map, List.map_map]
                simp [Function.comp_def]
              simp only [Link.carry] at hpush
              have hcomments : (p.carry f).comments = p.comments := rfl
              simp only [List.map_cons, hleast, hpush, ih, size_carry, hcomments]

theorem fold_carry {g : Graph} (h : g.Descends) (v : Nat) (fo : Folding) :
    (g.carry r f).fold v fo = ((g.fold v fo).1.carry r f, (g.fold v fo).2) := by
  have hbelow : ((g.paths v fo.count).map (Path.carry f)).map (·.below) =
      (g.paths v fo.count).map (·.below) := by
    rw [List.map_map]
    rfl
  have hplace : ((g.carry r f).vertex v).place = r (g.vertex v).place := by
    rw [vertex_carry hr]
    rfl
  rw [fold, fold, paths_carry hr h, hbelow, hplace, foldTo_carry hr]

theorem queue_carry (vs : List Nat) : ∀ (g : Graph) (waiting : List Nat),
    (g.carry r f).queue waiting vs = ((g.queue waiting vs).1.carry r f, (g.queue waiting vs).2) := by
  induction vs with
  | nil => exact fun _ _ => rfl
  | cons v vs ih =>
      intro g waiting
      rw [queue, queue, meeting?_carry hr]
      cases g.meeting? v waiting with
      | some w => simp only [join_carry hr, ih]
      | none => exact ih g _

omit hr in
theorem shift_carry (g : Graph) (v : Nat) (t : Step) (s : Spot) :
    (g.carry r f).shift v (t.carry r f) s = ((g.shift v t s).1.carry r f, (g.shift v t s).2) := by
  have hpush := push_carry (r := r) (f := f) g s t.place ⟨t.comments, t.part s, v⟩
  simp only [Link.carry] at hpush
  simp only [shift, Step.part_carry, size_carry]
  exact congrArg (·, g.size) hpush

variable {place : Nat}

theorem take_carry {t : Step} (n : Nat) : ∀ {g : Graph} {v : Nat} {waiting : List Nat},
    g.Descends → g.At place (v :: waiting) →
      take (t.carry r f) n (g.carry r f) v waiting =
        ((take t n g v waiting).1.carry r f, (take t n g v waiting).2) := by
  induction n with
  | zero => exact fun _ _ => rfl
  | succ n ih =>
      intro g v waiting h hat
      have hfolds := (g.vertex v).spot.folds_move t.callable t.cue
      have hspot : ((g.carry r f).vertex v).spot = (g.vertex v).spot := by
        rw [vertex_carry hr]
        rfl
      have hmove : ((g.carry r f).vertex v).spot.move (t.carry r f).callable (t.carry r f).cue =
          (g.vertex v).spot.move t.callable t.cue := by
        rw [hspot]
        rfl
      rw [take, take, hmove]
      cases hm : (g.vertex v).spot.move t.callable t.cue with
      | fail => rfl
      | shift s => simp only [shift_carry]
      | fork fo s => simp only [fold_carry hr h, queue_carry hr, shift_carry]
      | fold fo =>
          have hqueue := leads_queue_fold h hat (hfolds fo (.inl hm))
          simp only [fold_carry hr h, queue_carry hr]
          cases hdrop : ((g.fold v fo).1.queue waiting (g.fold v fo).2).2.drop waiting.length with
          | nil => rfl
          | cons u us => exact ih hqueue.descends (hat.next hqueue hdrop)

theorem takeAll_carry {t : Step} (ht : place + t.comments < t.place) (n : Nat) :
    ∀ {g : Graph} {waiting : List Nat}, g.Descends → g.At place waiting →
      takeAll (t.carry r f) n (g.carry r f) waiting =
        ((takeAll t n g waiting).1.carry r f, (takeAll t n g waiting).2) := by
  induction n with
  | zero => exact fun _ _ => rfl
  | succ n ih =>
      intro g waiting h hat
      cases waiting with
      | nil => rfl
      | cons v waiting =>
          obtain ⟨⟨htake, -, -⟩, hat'⟩ := leads_take ht (4 * g.size + 8) h hat
          simp only [takeAll, size_carry, take_carry hr _ h hat, ih htake hat']

theorem next_carry {t : Step} {g : Graph} {heads : List Nat} (h : g.Descends)
    (hat : g.At place heads) (ht : place + t.comments < t.place) :
    (g.carry r f).next heads (t.carry r f) =
      ((g.next heads t).1.carry r f, (g.next heads t).2) := by
  simp only [next, size_carry, takeAll_carry hr ht _ h hat, queue_carry hr]

/-- The graph of some steps elsewhere is theirs. -/
theorem follow_carry {ts : List Step} : ∀ {g : Graph} {heads : List Nat} {place : Nat}, g.Descends →
    g.At place heads → Step.Ascend place ts →
      (g.carry r f).follow heads (ts.map (.carry r f)) =
          ((g.follow heads ts).1.carry r f, (g.follow heads ts).2) ∧
        (g.follow heads ts).1.Descends := by
  induction ts with
  | nil => exact fun h _ _ => ⟨rfl, h⟩
  | cons t ts ih =>
      intro g heads place h hat hsteps
      obtain ⟨ht, hts⟩ := hsteps
      obtain ⟨hnext, -, hends⟩ := leads_next h hat ht
      simp only [List.map_cons, follow, next_carry hr h hat ht]
      exact ih hnext hends hts

theorem result?_carry {g : Graph} (h : g.Descends) (v : Nat) :
    (g.carry r f).result? v = (g.result? v).map (.carry f) := by
  have hparts : ((g.paths v 2).map (Path.carry f)).map (fun p => Shape.mk .mark none p.parts) =
      ((g.paths v 2).map fun p => Shape.mk .mark none p.parts).map (.carry f) := by
    rw [List.map_map, List.map_map]
    exact List.map_congr_left fun p _ => by
      simp [Path.carry, Shape.carry, Shape.carryAll_eq_map]
  rw [result?, result?, paths_carry hr h, hparts]
  cases (g.paths v 2).map fun p => Shape.mk .mark none p.parts with
  | nil => rfl
  | cons s ss => simp [Shape.least_carry]

end Graph

end

end Heptagon
