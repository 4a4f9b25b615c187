import SetCover.Bound.ConflictGraph
import SetCover.Heap

/-!
# Independent rows, by a heap

Independent rows are collected as by the scan, but the remaining rows are kept in a heap.  The value
of a row is the negated number of its remaining conflicts, so the heap gives a row that has the
fewest, and one conflict less is an increase by one.  Among several such rows the heap need not
give the first, so the two ways can differ in the rows they take.
-/

namespace SetCover

/-- The tables of the collection, kept from one use to the next. -/
structure IndependentQueue where
  graph : ConflictGraph := {}
  heap : Heap := {}
deriving DecidableEq, Repr

namespace IndependentQueue

/-- Adds the vertices of a graph to a heap. -/
def fill (graph : ConflictGraph) (heap : Heap) : List Nat → Except Fault Heap
  | [] => .ok heap
  | v :: rest => do fill graph (← heap.insert v (-(graph.degree v : Int))) rest

/-- The tables for a matrix, before the first row is taken. -/
def start (s : IndependentQueue) (m : Matrix) : Except Fault IndependentQueue := do
  let graph := s.graph.refresh m
  return { graph, heap := ← fill graph s.heap.clear (List.range graph.size) }

/-- Removes the vertices that remain among some, and lists them behind others. -/
def removeAll (heap : Heap) (newlyRemoved : List Nat) :
    List Nat → Except Fault (List Nat × Heap)
  | [] => .ok (newlyRemoved, heap)
  | v :: rest =>
    if heap.contains v then do removeAll (← heap.erase v) (newlyRemoved ++ [v]) rest
    else removeAll heap newlyRemoved rest

/-- Counts one conflict less for each vertex that remains. -/
def lowerDegrees (heap : Heap) : List Nat → Except Fault Heap
  | [] => .ok heap
  | v :: rest =>
    if heap.contains v then do lowerDegrees (← heap.increase v 1) rest
    else lowerDegrees heap rest

/-- Takes vertices of least degree one after the other, at most `fuel` of them. -/
def pick (graph : ConflictGraph) (heap : Heap) :
    (fuel : Nat) → Except Fault (List Nat × Heap)
  | 0 => .ok ([], heap)
  | fuel + 1 => do
    match ← heap.pop with
    | (none, heap) => return ([], heap)
    | (some v, heap) =>
      let (newlyRemoved, heap) ← removeAll heap [v] (graph.neighboursOf v)
      let heap ← lowerDegrees heap (newlyRemoved.flatMap graph.neighboursOf)
      let (vs, heap) ← pick graph heap fuel
      return (v :: vs, heap)

/-- The vertices that are taken, in order, for the matrix that the tables are set up for. -/
def choose (s : IndependentQueue) : Except Fault (List Nat × IndependentQueue) := do
  let (vs, heap) ← pick s.graph s.heap s.graph.size
  return (vs, { s with heap })

/-- The sum of the cheapest columns of independent rows. -/
def estimate (s : IndependentQueue) (m : Matrix) :
    Except Fault (Nat × IndependentQueue) := do
  let (vs, s) ← (← s.start m).choose
  return (← s.graph.weight vs, s)

end IndependentQueue

end SetCover
