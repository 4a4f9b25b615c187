import SetCover.Buffer
import SetCover.Matrix.Basic

/-!
# The conflict graph

Two active rows are in conflict when some active column covers both.  Rows that are pairwise not in
conflict need a column each, so the sum of what the cheapest column of each costs is a lower bound
on the cost of a cover.

The vertices of a `ConflictGraph` are the active rows in ascending order, numbered from 0.  A graph
is built again for each state of the matrix, in the storage of the one before.
-/

namespace SetCover

/-- A conflict graph, with the tables that are used to build it. -/
structure ConflictGraph where
  /-- The row of each vertex. -/
  rows : Array Nat := #[]
  /-- The vertices in conflict with each vertex, in the order in which they were found. -/
  neighbours : Array (Array Nat) := #[]
  /-- The cost of the cheapest active column of each vertex. -/
  cheapest : Array Nat := #[]
  /-- The vertex of each active row. -/
  vertexOf : Array (Option Nat) := #[]
  /-- For each vertex the last one that it was found to be in conflict with. -/
  lastSeen : Array (Option Nat) := #[]
deriving DecidableEq, Repr

namespace ConflictGraph

/-- The number of vertices. -/
def size (g : ConflictGraph) : Nat := g.rows.size

/-- The vertices in conflict with `v`. -/
def neighboursOf (g : ConflictGraph) (v : Nat) : List Nat := (g.neighbours.getD v #[]).toList

/-- The number of vertices in conflict with `v`. -/
def degree (g : ConflictGraph) (v : Nat) : Nat := (g.neighbours.getD v #[]).size

/-- `n` empty tables, in the storage of others. -/
def emptied (tables : Array (Array Nat)) (n : Nat) : Array (Array Nat) :=
  pushTimes ((tables.map (·.shrink 0)).shrink n) #[] (n - tables.size)

/-- The vertices for the active rows of a matrix, with no conflicts yet. -/
def vertices (g : ConflictGraph) (m : Matrix) : ConflictGraph :=
  let rows := (m.active .row).toArray
  { rows
    neighbours := emptied g.neighbours rows.size
    cheapest := g.cheapest.shrink 0
    vertexOf := rows.toList.zipIdx.foldl (fun table (r, v) => table.setIfInBounds r (some v))
      (refill g.vertexOf m.numRows none)
    lastSeen := refill g.lastSeen rows.size none }

/-- Records that `v` is in conflict with row `r`, unless it is that row or it is known. -/
def connect (g : ConflictGraph) (v r : Nat) : ConflictGraph :=
  match g.vertexOf.getD r none with
  | none => g
  | some w =>
    if w = v ∨ g.lastSeen.getD w none = some v then g
    else { g with
      lastSeen := g.lastSeen.setIfInBounds w (some v)
      neighbours := g.neighbours.modify v (·.push w) }

/-- Finds the conflicts and the cheapest column of vertex `v`, which stands for row `r`. -/
def explore (m : Matrix) (g : ConflictGraph) (v r : Nat) : ConflictGraph :=
  let columns := m.line .row r
  let g := (columns.flatMap (m.line .column)).foldl (connect · v) g
  { g with cheapest := g.cheapest.push ((columns.map m.costOf).min?.getD 0) }

/-- The conflict graph of a matrix, in the storage of another graph. -/
def refresh (g : ConflictGraph) (m : Matrix) : ConflictGraph :=
  let g := g.vertices m
  g.rows.toList.zipIdx.foldl (fun g (r, v) => g.explore m v r) g

/-- What the cheapest columns of some vertices cost together. -/
def weight (g : ConflictGraph) (vs : List Nat) : Except Fault Nat :=
  vs.foldlM (fun sum v => Cost.add sum (g.cheapest.getD v 0)) 0

end ConflictGraph

end SetCover
