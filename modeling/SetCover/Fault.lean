import SetCover.Cover
import SetCover.Dimension

/-!
# Faults

A fault ends a computation: a precondition of an operation does not hold, an index lies outside a
table, or a sum of costs leaves the range of 64 bits.  Every cause is a constructor that holds what
its message needs, and the messages stand in `Fault.message` alone.
-/

namespace SetCover

/-- Why a computation cannot go on. -/
inductive Fault where
  /-- A row or column number that the matrix does not have. -/
  | noSuchHeader (d : Dimension) (index size : Nat)
  /-- An index outside a table. -/
  | outOfBounds (index size : Nat)
  /-- A sum that leaves its range. -/
  | overflow
  /-- A difference that leaves its range. -/
  | underflow
  /-- An element is taken from a header that has none. -/
  | noElementLeft
  /-- Two active lists of different dimension or size are merged. -/
  | unlikeLists
  /-- An active list that already holds headers is filled. -/
  | alreadyFilled
  /-- An active list is filled out of order. -/
  | notAscending
  /-- An active header is inserted. -/
  | alreadyActive (index : Nat)
  /-- A deleted header is deleted. -/
  | alreadyDeleted (d : Dimension) (index : Nat)
  /-- An active header is restored. -/
  | notDeleted (d : Dimension) (index : Nat)
  /-- A header is restored whose neighbours have changed since its deletion. -/
  | restoredOutOfOrder (d : Dimension) (index : Nat)
  /-- A header is active in both lists of a merge. -/
  | activeInBothLists (d : Dimension) (index : Nat)
  /-- An element outside the matrix. -/
  | elementOutOfRange (row column rows columns : Nat)
  /-- An element is added while deletions can still be undone. -/
  | deletionsRecorded
  /-- A deleted column is selected. -/
  | selectionOfDeleted (column : Nat)
  /-- A selected column keeps elements after all its rows are deleted. -/
  | selectionNotEmptied (count : Nat)
  /-- A rollback without checkpoint. -/
  | noCheckpoint
  /-- A cover names a column that the matrix does not have. -/
  | unknownColumn (column : Nat)
  /-- Rows that no column covers. -/
  | uncoveredRows (count : Nat)
  /-- A cover that leaves a row uncovered. -/
  | notACover (cover : Cover)
  /-- A cell number that does not fit 32 bits. -/
  | tooManyCells
  /-- A row or column number that does not fit 32 bits. -/
  | indexTooLarge
  /-- The row or column number that stands for "none". -/
  | reservedIndex (index : Nat)
deriving DecidableEq, Repr

namespace Fault

/-- Two values that should be equal, in the form of a failed comparison. -/
def comparison (note : String) (left right : Nat) : String :=
  s!"assertion `left == right` failed{note}\n  left: {left}\n right: {right}"

/-- The text of a fault. -/
def message : Fault → String
  | noSuchHeader d index size =>
    s!"{d.name} index {index} is out of range for a matrix with {size} {d.name}s"
  | outOfBounds index size => s!"index out of bounds: the len is {size} but the index is {index}"
  | overflow => "attempt to add with overflow"
  | underflow => "attempt to subtract with overflow"
  | noElementLeft => "assertion failed: header.element_count > 0"
  | unlikeLists =>
    "assertion failed: self.dimension == other.dimension && self.len() == other.len()"
  | alreadyFilled => "the active list is already initialised"
  | notAscending => "active headers have to be given in ascending order"
  | alreadyActive index => s!"{index} is already active"
  | alreadyDeleted d index => s!"{d.name} {index} is already deleted"
  | notDeleted d index => s!"{d.name} {index} is not deleted"
  | restoredOutOfOrder d index => s!"{d.name} {index} is restored out of order"
  | activeInBothLists d index => s!"{d.name} {index} is active in both lists"
  | elementOutOfRange row column rows columns =>
    s!"element ({row}, {column}) is out of range for a {rows}x{columns} matrix"
  | deletionsRecorded => "elements cannot be added while deletions are recorded"
  | selectionOfDeleted column => s!"cannot select deleted column {column}"
  | selectionNotEmptied count => comparison "" 0 count
  | noCheckpoint => "cannot restore the matrix without a saved checkpoint"
  | unknownColumn column => s!"unknown column {column}"
  | uncoveredRows count => comparison ": active rows remain which no column covers" 0 count
  | notACover cover => s!"the cover {cover.text} does not cover the matrix"
  | tooManyCells => "the number of cells fits in a u32"
  | indexTooLarge => "matrix indices fit in a u32"
  | reservedIndex index => s!"matrix index {index} is reserved"

end Fault

theorem ok_bind {α β : Type} (a : α) (f : α → Except Fault β) : (Except.ok a >>= f) = f a := rfl

/-- A sequence of computations succeeds with what the last one makes of the results before it. -/
theorem bind_eq_ok_iff {α β : Type} {x : Except Fault α} {f : α → Except Fault β} {b : β} :
    (x >>= f) = .ok b ↔ ∃ a, x = .ok a ∧ f a = .ok b := by
  cases x with
  | error e => simp [bind, Except.bind]
  | ok a => simp [bind, Except.bind]

end SetCover
