import SetCover.Fault
import SetCover.Links

/-!
# Cells

A cell is an element of the matrix, or the sentinel at which the ring of a row or column starts.
It is a node of two rings, one of its row and one of its column.  Cell numbers and positions are
32-bit words, and the greatest position is kept for "none".
-/

namespace SetCover

/-- A node of the ring of a row and of the ring of a column. -/
structure Cell where
  /-- The number of the cell. -/
  id : Nat
  /-- Its row and column. -/
  position : PerDimension Nat
  /-- Its neighbours in the ring of its row and in that of its column. -/
  links : PerDimension Link
deriving DecidableEq, Repr

namespace Cell

/-- The number of 32-bit words. -/
def wordCount : Nat := UInt32.size

/-- The position of a sentinel in the dimension it does not belong to. -/
def noPosition : Nat := wordCount - 1

/-- Accepts a number that a cell can have. -/
def checkId (id : Nat) : Except Fault Unit :=
  if id < wordCount then .ok () else .error .tooManyCells

/-- Accepts a number that a row or column can have. -/
def checkPosition (i : Nat) : Except Fault Unit :=
  if wordCount ≤ i then .error .indexTooLarge
  else if i = noPosition then .error (.reservedIndex i)
  else .ok ()

/-- A cell that is alone in both of its rings. -/
def alone (id : Nat) (position : PerDimension Nat) : Cell := ⟨id, position, .both ⟨id, id⟩⟩

/-- The cell of an element, not linked to others yet. -/
def element (id row column : Nat) : Except Fault Cell := do
  checkId id
  checkPosition row
  checkPosition column
  return alone id ⟨row, column⟩

/-- The sentinel of row or column `i`, with an empty ring. -/
def sentinel (id : Nat) (d : Dimension) (i : Nat) : Except Fault Cell := do
  checkId id
  checkPosition i
  return alone id ((PerDimension.both noPosition).modify d fun _ => i)

/-- Whether the cell is its own neighbour on all four sides. -/
def isAlone (c : Cell) : Bool := c.links = .both ⟨c.id, c.id⟩

end Cell

end SetCover
