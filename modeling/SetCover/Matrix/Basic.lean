import SetCover.Cell
import SetCover.Cost
import SetCover.HeaderRing
import SetCover.Journal
import SetCover.Marks

/-!
# Sparse matrices

A `Matrix` stores the elements of a 0/1 matrix, and a cost for each column.  Every element is a
cell in the ring of its row and in the ring of its column; both rings are ascending.  The first
cells are the sentinels of the rows, then come those of the columns, then the elements in the order
in which they were added.

A deleted row or column is taken out of the active list, and its cells are taken out of the rings
of the other dimension.  Its own ring is left as it is, which is what makes a deletion reversible.
So the ring of an active row holds the active columns of its elements, and the ring of a deleted
row those that were active when it was deleted.
-/

namespace SetCover

/-- A 0/1 matrix with costs, of which rows and columns can be deleted and restored. -/
structure Matrix where
  /-- Row and column of each cell. -/
  positions : Array (PerDimension Nat)
  /-- The rings of the rows and those of the columns, with cells as nodes. -/
  rings : PerDimension Links
  headers : PerDimension HeaderRing
  /-- The cost of each column. -/
  costs : Array Nat
  journal : Journal
  /-- Scratch flags, all unset outside of a reduction. -/
  marks : PerDimension Marks
deriving DecidableEq, Repr

namespace Matrix

def numRows (m : Matrix) : Nat := m.headers.row.size

def numColumns (m : Matrix) : Nat := m.headers.column.size

/-- The number of rows or columns that are not deleted. -/
def numActive (m : Matrix) (d : Dimension) : Nat := (m.headers.get d).numActive

/-- The rows or columns that are not deleted, in ascending order. -/
def active (m : Matrix) (d : Dimension) : List Nat := (m.headers.get d).active

/-- The cell at which the ring of row or column `i` starts. -/
def sentinel (m : Matrix) (d : Dimension) (i : Nat) : Nat :=
  match d with
  | .row => i
  | .column => m.numRows + i

/-- The row or column of a cell. -/
def position (m : Matrix) (d : Dimension) (cell : Nat) : Nat :=
  (m.positions.getD cell (.both Cell.noPosition)).get d

/-- Everything stored about a cell. -/
def cell (m : Matrix) (id : Nat) : Cell where
  id := id
  position := ⟨m.position .row id, m.position .column id⟩
  links := ⟨m.rings.row.get id, m.rings.column.get id⟩

/-- The cells in the ring of row or column `i`. -/
def ring (m : Matrix) (d : Dimension) (i : Nat) : List Nat :=
  (m.rings.get d).toList (m.sentinel d i)

/-- The columns of row `i`, or the rows of column `i`, as its ring lists them. -/
def line (m : Matrix) (d : Dimension) (i : Nat) : List Nat :=
  (m.ring d i).map (m.position d.other)

/-- What is recorded about row or column `i`. -/
def header (m : Matrix) (d : Dimension) (i : Nat) : Header := (m.headers.get d).header i

/-- The recorded number of elements of row or column `i`. -/
def count (m : Matrix) (d : Dimension) (i : Nat) : Nat := (m.header d i).count

def isDeleted (m : Matrix) (d : Dimension) (i : Nat) : Bool := (m.header d i).deleted

/-- The cost of column `c`, if there is one. -/
def costOf (m : Matrix) (c : Nat) : Nat := m.costs.getD c 0

/-- Row and column of each element that was added, deleted or not. -/
def elements (m : Matrix) : List (PerDimension Nat) :=
  m.positions.toList.drop (m.numRows + m.numColumns)

/-! ### Checked queries -/

/-- What is recorded about row or column `i`. -/
def getHeader (m : Matrix) (d : Dimension) (i : Nat) : Except Fault Header :=
  (m.headers.get d).get i

/-- The columns of row `i`, or the rows of column `i`. -/
def getLine (m : Matrix) (d : Dimension) (i : Nat) : Except Fault (List Nat) := do
  let _ ← m.getHeader d i
  return m.line d i

/-- The cost of column `c`. -/
def getCost (m : Matrix) (c : Nat) : Except Fault Nat :=
  if c < m.costs.size then .ok (m.costOf c) else .error (.outOfBounds c m.costs.size)

/-- What some columns cost together. -/
def totalCost (m : Matrix) (columns : List Nat) : Except Fault Nat :=
  columns.foldlM (fun sum c => do Cost.add sum (← m.getCost c)) 0

/-- The cover that consists of some columns. -/
def coverOf (m : Matrix) (columns : List Nat) : Except Fault Cover := do
  return ⟨columns, ← m.totalCost columns⟩

/-- Whether column `c` is the only one left for one of its rows. -/
def isEssential (m : Matrix) (c : Nat) : Except Fault Bool := do
  return (← m.getLine .column c).any fun r => m.count .row r == 1

/-- The flags of the rows that have an element in one of the flagged columns. -/
def coveredRows (m : Matrix) (selected : Array Bool) : Array Bool :=
  m.elements.foldl
    (fun covered e =>
      if selected.getD e.column false then covered.setIfInBounds e.row true else covered)
    (Array.replicate m.numRows false)

/-- Whether some columns cover every row that has an element, deleted or not. -/
def isCover (m : Matrix) (columns : List Nat) : Except Fault Bool := do
  let selected ← columns.foldlM (fun selected c =>
      if c < m.numColumns then Except.ok (selected.setIfInBounds c true)
      else .error (.unknownColumn c))
    (Array.replicate m.numColumns false)
  let covered := m.coveredRows selected
  return m.elements.all fun e => covered.getD e.row false

end Matrix

end SetCover
