import Heptagon.Division.Spot

/-!
# Graphs of readings

The readings of a scene up to some cue, together.  A vertex is a spot at a
place of the text; a link leads back from a vertex over the part read last to
a vertex before that part.  A reading is a path of links.  Readings that have
come to the same spot share their vertex from then on, so the graph stays
small although there can be many readings.
-/

namespace Heptagon

/-- A part of some readings, with the number of comments directly before it. -/
structure Link where
  comments : Nat
  part : Shape
  /-- the vertex before the part -/
  below : Nat
  deriving Repr

/-- A spot that readings have come to, with the ways on which they came. -/
structure Vertex where
  spot : Spot
  /-- how many lexemes and comments have been read -/
  place : Nat
  links : List Link
  deriving Repr

/-- The vertices, by number. -/
abbrev Graph := Array Vertex

/-- The last parts of a reading, collected backwards. -/
structure Path where
  parts : List Shape
  /-- how many comments stand directly before the parts -/
  comments : Nat
  /-- the vertex before these -/
  below : Nat
  /-- how many parts are missing -/
  missing : Nat
  /-- how many comments to pass before the next part -/
  ahead : Nat
  deriving Repr

namespace Path

/-- A path and one part more. -/
def extend (p : Path) (l : Link) : Path :=
  ⟨l.part :: (Shape.comments p.comments ++ p.parts), l.comments, l.below, p.missing - 1, l.comments⟩

/-- The ways to go back by one comment or by one part. -/
def back (g : Graph) (p : Path) : List Path :=
  match p.ahead with
  | n + 1 => [{ p with ahead := n }]
  | 0 => (g.getD p.below ⟨.done, 0, []⟩).links.map p.extend

/-- What the parts become. -/
def part (f : Folding) (p : Path) : Shape := .mk f.piece none (Shape.wrap p.parts f.inner)

end Path

namespace Graph

variable (g : Graph)

def vertex (v : Nat) : Vertex := g.getD v ⟨.done, 0, []⟩

/-- Whether two vertices are the same spot at the same place. -/
def meets (v w : Nat) : Bool :=
  (g.vertex v).spot == (g.vertex w).spot && (g.vertex v).place == (g.vertex w).place

/-- Whether two links into one vertex are alike: the same text, read as the same piece with the
same number of parts. -/
def alike (a b : Link) : Bool :=
  a.part.piece == b.part.piece && a.part.children.length == b.part.children.length &&
    (g.vertex a.below).place == (g.vertex b.below).place && a.comments == b.comments

/-- Whether a link adds nothing to another one but what is below. -/
def covers (a b : Link) : Bool :=
  g.alike a b && (a.below == b.below || g.meets a.below b.below)

/-- A vertex has no more links than this. -/
def maxLinks : Nat := 8

/-- Adds a link to a vertex.  Of two links that are alike the older one stays, and what is below
the other one joins what is below it. -/
def addLink : (steps : Nat) → Graph → (v : Nat) → Link → Graph
  | 0, g, _, _ => g
  | n + 1, g, v, l =>
    if l.below == v then g
    else match (g.vertex v).links.find? (g.covers · l) with
      | some e =>
        if e.below == l.below then g
        else (g.vertex l.below).links.foldl (fun g l => addLink n g e.below l) g
      | none =>
        let vertex := g.vertex v
        if vertex.links.length < maxLinks then
          g.setIfInBounds v { vertex with links := vertex.links ++ [l] }
        else g

/-- Joins the readings of one vertex to those of another one. -/
def join (v w : Nat) : Graph :=
  (g.vertex w).links.foldl (fun g l => g.addLink g.size v l) g

/-- The first of some vertices that is the same spot at the same place as a given one. -/
def meeting? (v : Nat) (ws : List Nat) : Option Nat := ws.find? (g.meets · v)

/-- Adds a vertex. -/
def push (spot : Spot) (place : Nat) (link : Link) : Graph :=
  Array.push g ⟨spot, place, [link]⟩

/-- The paths with no part missing that others lead to in some rounds.  A round goes back by one
comment or part on each path; where a path forks, the first way takes its turn, and the other ones
come after all paths. -/
def complete : (rounds : Nat) → List Path → List Path
  | _, [] => []
  | 0, _ => []
  | n + 1, ps =>
    let next := (ps.filter (·.missing != 0)).map (·.back g)
    ps.filter (·.missing == 0) ++
      complete n (next.filterMap (·.head?) ++ next.flatMap (·.tail))

/-- The last parts of the readings of a vertex, as many as given. -/
def paths (v : Nat) (count : Nat) : List Path :=
  g.complete ((g.vertex v).place + 2) [⟨[], 0, v, count, 0⟩]

end Graph

end Heptagon
