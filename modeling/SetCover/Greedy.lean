import SetCover.Reduction
import SetCover.Selection.Selector
import SetCover.Statistics.Counters

/-!
# Greedy covers

The greedy solver reduces the matrix, selects the column that its selector prefers, and repeats
this until no column covers a row any more.  If rows are left then, the matrix has no cover.
-/

namespace SetCover

/-- A greedy solver.  Its counters run on from one use to the next. -/
structure Greedy where
  selector : Selector
  dominance : DominanceRule
  statistics : GreedyStatistics := {}

namespace Greedy

/-- A solver that has not been used yet. -/
def ofKinds (selector : SelectionRule) (dominance : DominanceRule) : Greedy :=
  { selector := .ofKind selector, dominance }

/-- Counts a column that the selector chose. -/
def countSelected (g : Greedy) : Greedy :=
  { g with statistics := { g.statistics with selected := g.statistics.selected + 1 } }

/-- Counts columns that the reduction selected. -/
def countForced (g : Greedy) (n : Nat) : Greedy :=
  { g with statistics := { g.statistics with forced := g.statistics.forced + n } }

/-- Reduces, and counts the columns that are selected on the way. -/
def reduce (g : Greedy) (x : Reduction) : Traced (Greedy × Reduction) := do
  let before := x.selected.length
  let x ← x.reduceFully g.dominance.comparator
  return (g.countForced (x.selected.length - before), x)

/-- Selects columns until there is no candidate, at most `fuel` of them. -/
def extend (g : Greedy) (x : Reduction) : (fuel : Nat) → Traced (Greedy × Reduction)
  | 0 => pure (g, x)
  | fuel + 1 =>
    match g.selector.select x.matrix with
    | (none, selector) => pure ({ g with selector }, x)
    | (some c, selector) => do
      Traced.emit (.columnChosen c)
      let x ← x.select c
      let (g, x) ← ({ g with selector } : Greedy).countSelected.reduce x
      g.extend x fuel

/-- Selects columns that cover all active rows, and gives them in the order of their selection.
Every selection deletes a column, so there are at most as many as active columns. -/
def solve (g : Greedy) (m : Matrix) : Traced (List Nat × Greedy × Matrix) := do
  let (g, x) ← g.reduce { matrix := m }
  let (g, x) ← g.extend x (x.matrix.numActive .column)
  let left := x.matrix.numActive .row
  unless left = 0 do throw (.uncoveredRows left)
  return (x.selected, g, x.matrix)

/-- Finds a cover and leaves the matrix as it was. -/
def solveAndRestore (g : Greedy) (m : Matrix) : Traced (List Nat × Greedy × Matrix) := do
  let (columns, g, m) ← g.solve m.save
  return (columns, g, ← m.restore)

end Greedy

end SetCover
