import SetCover.Bound.LowerBound
import SetCover.Greedy
import SetCover.Options

/-!
# Branch and bound

The exact solver explores a tree of partial covers.  At every node it reduces the matrix and
estimates from below what a cover in this subtree costs.  If that reaches the cost of the incumbent,
the cheapest cover so far, the node is pruned.  Otherwise, if rows are left, it branches on a
column: first the column is selected, and then, unless the incumbent rules it out by now, it is
deleted without being selected.

Each branch starts with a checkpoint and ends with a rollback.  The reductions at a node are undone
by whoever called for the node.
-/

namespace SetCover

/-- An exact solver.  The incumbent, the stop flag and the counters belong to one run; the other
parts are kept from run to run. -/
structure Search where
  lowerBound : LowerBound
  selector : Selector
  dominance : DominanceRule
  /-- Provides the first incumbent, and a cover if the search ends without one. -/
  greedy : Greedy
  warmStart : Bool
  incumbent : Option Cover := none
  stopped : Bool := false
  statistics : SearchStatistics := {}

namespace Search

/-- The solver for some options. -/
def ofOptions (o : Options) : Except ConfigurationError Search := do
  o.check
  return {
    lowerBound := .ofKinds o.lowerBounds
    selector := .ofKind o.selector
    dominance := o.dominance
    greedy := .ofKinds o.selector o.dominance
    warmStart := o.warmStart }

/-- The cost that a cover has to stay below to be of interest. -/
def limit (s : Search) : Nat :=
  match s.incumbent with
  | some cover => cover.cost
  | none => Cost.limit - 1

/-- Changes the counters. -/
def count (s : Search) (f : SearchStatistics → SearchStatistics) : Search :=
  { s with statistics := f s.statistics }

/-- Makes some columns the incumbent, if they cost less than the one before. -/
def offer (s : Search) (columns : List Nat) (cost : Nat) : Traced Search := do
  if cost < s.limit then
    let cover := ⟨columns, cost⟩
    Traced.emit (.incumbentFound cover)
    let s := { s with incumbent := some cover }
    return s.count fun n => { n with incumbents := n.incumbents + 1 }
  else return s

/-- Finds a cover with the greedy solver and leaves the matrix as it was. -/
def runGreedily (s : Search) (m : Matrix) : Traced (List Nat × Search × Matrix) := do
  let (columns, greedy, m) ← s.greedy.solveAndRestore m
  return (columns, { s with greedy }, m)

end Search

/-- A search at work: the solver, its condition, the matrix, and the columns selected so far. -/
structure SearchState where
  search : Search
  condition : Condition
  matrix : Matrix
  chosen : List Nat := []

namespace SearchState

/-- Changes the counters. -/
def count (x : SearchState) (f : SearchStatistics → SearchStatistics) : SearchState :=
  { x with search := x.search.count f }

/-- Notes that a node at some depth is visited. -/
def enter (x : SearchState) (depth : Nat) : SearchState :=
  x.count fun n => { n with nodes := n.nodes + 1, peakDepth := max n.peakDepth depth }

/-- Reduces the matrix; the columns that are selected on the way are chosen. -/
def reduce (x : SearchState) : Traced SearchState := do
  let reduced ← (Reduction.mk x.matrix x.chosen []).reduceFully x.search.dominance.comparator
  let forced := reduced.selected.length - x.chosen.length
  let x := { x with matrix := reduced.matrix, chosen := reduced.selected }
  return x.count fun n => { n with forced := n.forced + forced }

/-- A lower bound on what covering the active rows costs. -/
def estimate (x : SearchState) : Except Fault (Nat × SearchState) := do
  let (bound, lowerBound) ← x.search.lowerBound.estimate x.matrix
  return (bound, { x with search := { x.search with lowerBound } })

/-- The column to branch on. -/
def branchColumn (x : SearchState) : Option Nat × SearchState :=
  let (column, selector) := x.search.selector.select x.matrix
  (column, { x with search := { x.search with selector } })

/-- Notes that a branch is made. -/
def noteBranch (x : SearchState) : SearchState :=
  let x := { x with condition := x.condition.noteBranch }
  x.count fun n => { n with branches := n.branches + 1 }

/-- Makes the chosen columns the incumbent, if they cost less than the one before. -/
def offer (x : SearchState) (cost : Nat) : Traced SearchState := do
  return { x with search := ← x.search.offer x.chosen cost }

/-- Sets a checkpoint and selects a column. -/
def select (x : SearchState) (c : Nat) : Traced SearchState := do
  return { x with matrix := ← x.matrix.save.select c, chosen := x.chosen ++ [c] }

/-- Sets a checkpoint and deletes a column without selecting it. -/
def reject (x : SearchState) (c : Nat) : Traced SearchState := do
  return { x with matrix := ← x.matrix.save.delete .column c }

/-- Goes back to the last checkpoint, with the first `n` of the chosen columns. -/
def backtrack (x : SearchState) (n : Nat) : Except Fault SearchState := do
  return { x with matrix := ← x.matrix.restore, chosen := x.chosen.take n }

/-- Keeps the first `n` of the chosen columns. -/
def keep (x : SearchState) (n : Nat) : SearchState := { x with chosen := x.chosen.take n }

/-- Explores the subtree of the present state, in which every cover is known to cost `inherited` at
least, and tells whether it holds a new incumbent.  The tree is explored to depth `fuel`. -/
def explore (x : SearchState) (inherited depth : Nat) : (fuel : Nat) → Traced (Bool × SearchState)
  | 0 => pure (false, x)
  | fuel + 1 => do
    let isMet := x.condition.isMet
    let x := { x with condition := x.condition.polled }
    if isMet then
      return (false, { x with search := { x.search with stopped := true } })
    let kept := x.chosen.length
    let x ← (x.enter depth).reduce
    let cost ← x.matrix.totalCost x.chosen
    let (bound, x) ← x.estimate
    let lower := max inherited (← Cost.add bound cost)
    if x.search.limit ≤ lower then
      Traced.emit (.pruned depth lower)
      return (false, (x.count fun n => { n with prunes := n.prunes + 1 }).keep kept)
    if x.matrix.numActive .row = 0 then
      return (true, (← x.offer cost).keep kept)
    match x.branchColumn with
    | (none, x) => return (false, x.keep kept)
    | (some c, x) =>
      let x := x.noteBranch
      Traced.emit (.branched c depth)
      let before := x.chosen.length
      let (found, x) ← (← x.select c).explore lower (depth + 1) fuel
      let x ← x.backtrack before
      if !x.search.stopped && lower < x.search.limit then
        Traced.emit (.rejected c depth)
        let (foundToo, x) ← (← x.reject c).explore lower (depth + 1) fuel
        let x ← x.backtrack before
        return (found || foundToo, x.keep kept)
      else return (found, x.keep kept)

end SearchState

namespace Search

/-- Forgets what belongs to an earlier run. -/
def reset (s : Search) : Search :=
  { s with incumbent := none, stopped := false, statistics := {} }

/-- Makes the greedy cover the incumbent, if the search is to start from it. -/
def warmUp (s : Search) (m : Matrix) : Traced (Search × Matrix) := do
  if s.warmStart then
    let (columns, s, m) ← s.runGreedily m
    return (← s.offer columns (← m.totalCost columns), m)
  else return (s, m)

/-- The columns of the incumbent, or those of the greedy cover if there is none. -/
def takeIncumbent (s : Search) (m : Matrix) : Traced (List Nat × Search × Matrix) := do
  match s.incumbent with
  | some cover => return (cover.columns, { s with incumbent := none }, m)
  | none =>
    Traced.emit .stoppedWithoutCover
    s.runGreedily m

/-- Finds a cover, which is of minimum cost unless the condition stopped the search, and leaves the
matrix as it was.

Every branch deletes a column, so no node is deeper than there are active columns. -/
def solve (s : Search) (m : Matrix) (condition : Condition) :
    Traced (Outcome × Search × Matrix) := do
  let (s, m) ← s.reset.warmUp m
  let start : SearchState := { search := s, condition, matrix := m.save }
  let (_, x) ← start.explore 0 0 (m.numActive .column + 1)
  let m ← x.matrix.restore
  let (columns, s, m) ← x.search.takeIncumbent m
  let cover ← m.coverOf columns
  if s.stopped then
    Traced.emit (.stopped cover.cost)
    return (.feasible cover, s, m)
  else
    Traced.emit (.provedOptimal cover.cost)
    return (.optimal cover, s, m)

end Search

end SetCover
