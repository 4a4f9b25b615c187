import SetCover.Bound.Share
import SetCover.Buffer
import SetCover.Configuration
import SetCover.Selection.TieBreaker

/-!
# Choosing a column

A `Selector` chooses the active column that a solver selects or branches on next.  The candidates
are the active columns that cover at least one row, in ascending order.

* `naive` takes the column with the most rows.
* `weighted` lets a row with `n` columns weigh `1 / (n - 1)` and takes the column whose rows weigh
  the most for its cost.
* `costSensitive` charges every row its cheapest share and takes the column whose cost exceeds the
  charges of its rows the least.

The last two keep a table with a number for each row from one use to the next.
-/

namespace SetCover

namespace Matrix

/-- The active columns that cover a row. -/
def candidates (m : Matrix) : List Nat :=
  (m.active .column).filter fun c => 0 < m.count .column c

/-- The weight of a row with a single column.  It only has to exceed that of a row with two. -/
def singletonWeight : Float := 2

/-- The weight of row `r`, which is the greater the fewer columns it has. -/
def weight (m : Matrix) (r : Nat) : Float :=
  let n := m.count .row r
  if n ≤ 1 then singletonWeight else 1 / wordToFloat (n - 1)

/-- What row `r` is charged. -/
def charge (m : Matrix) (r : Nat) : Float := (m.leastShare? r).getD 0

/-- A table with a number for each row, which is 0 for a deleted row, in the storage of another. -/
def rowTable (m : Matrix) (buffer : Array Float) (value : Nat → Float) : Array Float :=
  (m.active .row).foldl (fun table r => table.setIfInBounds r (value r)) (refill buffer m.numRows 0)

/-- The sum over the rows of column `c` of what a table has for them. -/
def sumOver (m : Matrix) (table : Array Float) (c : Nat) : Float :=
  ((m.line .column c).map (table.getD · 0)).foldl (· + ·) 0

/-- The weight of the rows of column `c` for its cost; a column that costs nothing has no equal. -/
def weightScore (m : Matrix) (weights : Array Float) (c : Nat) : Float :=
  if m.costOf c = 0 then 1 / 0 else m.sumOver weights c / wordToFloat (m.costOf c)

/-- By how much the cost of column `c` exceeds the charges of its rows. -/
def excessScore (m : Matrix) (charges : Array Float) (c : Nat) : Float :=
  wordToFloat (m.costOf c) - m.sumOver charges c

end Matrix

/-- A way to choose a column, with its table. -/
inductive Selector where
  | naive
  | weighted (weights : Array Float)
  | costSensitive (charges : Array Float)

namespace Selector

/-- The selector of a kind, not used yet. -/
def ofKind : SelectionRule → Selector
  | .naive => naive
  | .simple => weighted #[]
  | .cs => costSensitive #[]

/-- The chosen column, if there is a candidate. -/
def select (m : Matrix) : Selector → Option Nat × Selector
  | naive => (TieBreaker.selectBy .maximum (m.count .column) m.candidates, naive)
  | weighted weights =>
    let weights := m.rowTable weights m.weight
    (TieBreaker.selectBy .maximum (m.weightScore weights) m.candidates, weighted weights)
  | costSensitive charges =>
    let charges := m.rowTable charges m.charge
    (TieBreaker.selectBy .minimum (m.excessScore charges) m.candidates, costSensitive charges)

end Selector

end SetCover
