import Heptagon.Division.Graph

/-!
# Contests of readings

All readings of a scene are followed side by side, cue by cue.  The heads are
the vertices that readings have come to, in order of precedence: each of them
goes on until it has taken the cue, a reading that goes another way is put
behind those that wait, and readings that meet go on as one.

Two readings that meet in parts that are alike have no difference worth
keeping, and the one with precedence stays.  Where parts of different sizes
lead back to one vertex, the smaller shape stays as soon as they are put
together.
-/

namespace Heptagon

/-- A cue of a scene. -/
structure Step where
  cue : Cue
  /-- the index of its first lexeme -/
  lexeme : Nat
  /-- how many comments stand directly before it -/
  comments : Nat
  /-- how many lexemes and comments have been read after it -/
  place : Nat
  /-- whether it is a parenthesis, and a name directly before it could be called -/
  callable : Bool
  deriving DecidableEq, Repr

/-- What a cue is when a reading takes it to a spot. -/
def Step.part (t : Step) : Spot → Shape
  | .word _ => .token .word
  | .target => .token .word
  | .targetName => .token .word
  | .targetMore => .token .word
  | .statements => .token .statement
  | .twoStatements => .token .statement
  | .closed => .token (if t.cue = .record then .record else .literal)
  | .expects (.afterSign _) => .token .sign
  | .expects (.afterOperator _) => .token .operator
  | .expects .inner => .mk .mark (some t.lexeme) []
  | .targets => .mk .mark (some t.lexeme) []
  | _ => .token .mark

namespace Graph

/-- The vertices after the last parts of some readings, put together.  There is one for each
vertex before these parts. -/
def foldTo (g : Graph) (place : Nat) (f : Folding) (paths : List Path) :
    List Nat → Graph × List Nat
  | [] => (g, [])
  | b :: bs =>
    match paths.filter (·.below == b), (g.vertex b).spot.after? f.piece with
    | p :: ps, some s =>
      let v := g.size
      let part := (p.part f).least (ps.map (·.part f))
      let (g, vs) := foldTo (g.push s place ⟨p.comments, part, b⟩) place f paths bs
      (g, v :: vs)
    | _, _ => foldTo g place f paths bs

/-- Puts the last parts of the readings of a vertex together, and gives the new vertices. -/
def fold (g : Graph) (v : Nat) (f : Folding) : Graph × List Nat :=
  let paths := g.paths v f.count
  g.foldTo (g.vertex v).place f paths (paths.map (·.below)).eraseDups

/-- Has new vertices wait behind the other ones, unless they meet one of these. -/
def queue (g : Graph) (waiting : List Nat) : List Nat → Graph × List Nat
  | [] => (g, waiting)
  | v :: vs =>
    match g.meeting? v waiting with
    | some w => (g.join w v).queue waiting vs
    | none => g.queue (waiting ++ [v]) vs

/-- Has a reading take a cue to a spot, and gives the new head. -/
def shift (g : Graph) (v : Nat) (t : Step) (s : Spot) : Graph × Nat :=
  let head := g.size
  (g.push s t.place ⟨t.comments, t.part s, v⟩, head)

/-- Has the head `v` take a cue; the heads in `waiting` have not taken it yet.  The result is the
new head, if there is one, and those that wait then. -/
def take (t : Step) : (steps : Nat) → Graph → (v : Nat) → (waiting : List Nat) →
    Graph × Option Nat × List Nat
  | 0, g, _, waiting => (g, none, waiting)
  | n + 1, g, v, waiting =>
    match (g.vertex v).spot.move t.callable t.cue with
    | .fail => (g, none, waiting)
    | .shift s =>
      let (g, head) := g.shift v t s
      (g, some head, waiting)
    | .fork f s =>
      let (g, vs) := g.fold v f
      let (g, waiting) := g.queue waiting vs
      let (g, head) := g.shift v t s
      (g, some head, waiting)
    | .fold f =>
      let (g, vs) := g.fold v f
      let (g, next) := g.queue waiting vs
      match next.drop waiting.length with
      | [] => (g, none, waiting)
      | u :: us => take t n g u (waiting ++ us)

/-- Has all heads take a cue, in their order. -/
def takeAll (t : Step) : (steps : Nat) → Graph → (waiting : List Nat) → Graph × List Nat
  | n + 1, g, v :: waiting =>
    let (g, head, waiting) := g.take t (4 * g.size + 8) v waiting
    let (g, heads) := takeAll t n g waiting
    (g, head.toList ++ heads)
  | _, g, _ => (g, [])

/-- Has all heads take a cue, and joins those that meet then. -/
def next (g : Graph) (heads : List Nat) (t : Step) : Graph × List Nat :=
  let (g, heads) := g.takeAll t (4 * g.size + 8) heads
  g.queue [] heads

/-- Follows some cues. -/
def follow (g : Graph) (heads : List Nat) : List Step → Graph × List Nat
  | [] => (g, heads)
  | t :: ts =>
    let (g, heads) := g.next heads t
    g.follow heads ts

/-- What the readings of a vertex have read before the last cue: the smallest shape. -/
def result? (g : Graph) (v : Nat) : Option Shape :=
  match (g.paths v 2).map fun p => Shape.mk .mark none p.parts with
  | [] => none
  | s :: ss => some (s.least ss)

end Graph

namespace Scene

/-- The steps with some cues, and the one that ends the scene; `i` is the index of the next
lexeme.  `comments` says how many comments stand directly before a lexeme, and `callable` which
lexemes are parentheses of possible calls. -/
def steps (comments : Nat → Nat) (callable : Nat → Bool) (ending : Cue) (i place : Nat) :
    List (Cue × Nat) → List Step
  | [] => [⟨ending, i, 0, place + 1, false⟩]
  | (c, n) :: cs =>
    let after := place + comments i + n
    ⟨c, i, comments i, after, callable i⟩ :: steps comments callable ending (i + n) after cs

/-- The graph of a scene of which nothing has been read. -/
def graph (s : Scene) : Graph :=
  #[⟨if s.statements then .start else .expects .lone, 0, []⟩]

/-- The indices of the parentheses among some cues that directly follow a word; `i` is the index of
the first lexeme. -/
def parensAfterWords (i : Nat) : List (Cue × Nat) → List Nat
  | (.word, n) :: (.parenOpen, m) :: cs => (i + n) :: parensAfterWords (i + n + m) cs
  | (_, n) :: cs => parensAfterWords (i + n) cs
  | [] => []

/-- The indices of the parentheses that directly follow a word and open no call, in the reading
that stays. -/
def parens (comments : Nat → Nat) (callable : Nat → Bool) (s : Scene) : List Nat :=
  let (g, heads) := s.graph.follow [0] (steps comments callable s.stop s.start 0 s.cues)
  match heads.head?.bind g.result? with
  | some shape => (parensAfterWords s.start s.cues).filter shape.parens.contains
  | none => []

end Scene

end Heptagon
