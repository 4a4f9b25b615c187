import SetCover.Bound.ConflictGraph

/-!
# Independent rows, by a scan

A set of rows that are pairwise not in conflict is collected greedily: the row that is in conflict
with the fewest remaining rows is taken, the first of them if there are several, and then it and
all rows in conflict with it are removed.  The numbers of remaining conflicts are not counted anew
but lowered as rows are removed.
-/

namespace SetCover

/-- The tables of the scan, kept from one use to the next. -/
structure IndependentScan where
  graph : ConflictGraph := {}
  /-- For each vertex the number of its conflicts with remaining vertices. -/
  degrees : Array Nat := #[]
  removed : Array Bool := #[]
deriving DecidableEq, Repr

namespace IndependentScan

/-- The tables for a matrix, before the first row is taken. -/
def start (s : IndependentScan) (m : Matrix) : IndependentScan :=
  let graph := s.graph.refresh m
  { graph
    degrees := (List.range graph.size).foldl (fun table v => table.push (graph.degree v))
      (s.degrees.shrink 0)
    removed := refill s.removed graph.size false }

/-- The number of conflicts of a vertex with remaining vertices. -/
def degree (s : IndependentScan) (v : Nat) : Nat := s.degrees.getD v 0

def isRemoved (s : IndependentScan) (v : Nat) : Bool := s.removed.getD v false

/-- Removes a vertex. -/
def remove (s : IndependentScan) (v : Nat) : IndependentScan :=
  { s with removed := s.removed.setIfInBounds v true }

/-- Removes the vertices that remain among some, and lists them behind others. -/
def removeAll (s : IndependentScan) (newlyRemoved : List Nat) :
    List Nat → List Nat × IndependentScan
  | [] => (newlyRemoved, s)
  | v :: rest =>
    if s.isRemoved v then s.removeAll newlyRemoved rest
    else (s.remove v).removeAll (newlyRemoved ++ [v]) rest

/-- Counts one conflict less for a vertex, if it remains. -/
def lowerDegree (s : IndependentScan) (v : Nat) : Except Fault IndependentScan :=
  if s.isRemoved v then .ok s
  else if s.degree v = 0 then .error .underflow
  else .ok { s with degrees := s.degrees.setIfInBounds v (s.degree v - 1) }

/-- Counts one conflict less for each of some vertices. -/
def lowerDegrees (s : IndependentScan) : List Nat → Except Fault IndependentScan
  | [] => .ok s
  | v :: rest => do (← s.lowerDegree v).lowerDegrees rest

/-- Takes the remaining vertices of least degree one after the other, at most `fuel` of them. -/
def pick (s : IndependentScan) (remaining : List Nat) :
    (fuel : Nat) → Except Fault (List Nat × IndependentScan)
  | 0 => .ok ([], s)
  | fuel + 1 =>
    let remaining := remaining.filter (!s.isRemoved ·)
    match remaining.minOn? s.degree with
    | none => .ok ([], s)
    | some v => do
      let (newlyRemoved, s) := (s.remove v).removeAll [v] (s.graph.neighboursOf v)
      let s ← s.lowerDegrees (newlyRemoved.flatMap s.graph.neighboursOf)
      let (vs, s) ← s.pick remaining fuel
      return (v :: vs, s)

/-- The vertices that are taken, in order, for the matrix that the tables are set up for. -/
def choose (s : IndependentScan) : Except Fault (List Nat × IndependentScan) :=
  s.pick (List.range s.graph.size) s.graph.size

/-- The sum of the cheapest columns of independent rows. -/
def estimate (s : IndependentScan) (m : Matrix) : Except Fault (Nat × IndependentScan) := do
  let (vs, s) ← (s.start m).choose
  return (← s.graph.weight vs, s)

end IndependentScan

end SetCover
