import SetCover.Matrix.Basic
import SetCover.Traced

/-!
# Deleting and restoring

Deleting a row unlinks its cells from the rings of their columns and records the row in the
journal; deleting a column does the same with the roles exchanged.  `save` sets a checkpoint, and
`restore` undoes the deletions since the last one in reverse order, so that every cell finds the
neighbours it was unlinked from.

Selecting a column deletes all rows that it covers, and then the column itself.
-/

namespace SetCover.Matrix

/-- Takes a cell out of the ring of its row or column, and counts it there no longer. -/
def detach (m : Matrix) (d : Dimension) (cell : Nat) : Except Fault Matrix :=
  let i := m.position d cell
  match m with
  | ⟨positions, rings, headers, costs, journal, marks⟩ => do
    let headers ← headers.tryModify d (·.decrement i)
    return { positions, rings := rings.modify d (·.unlink cell), headers, costs, journal, marks }

/-- Puts a cell back into the ring of its row or column, and counts it there again. -/
def attach (m : Matrix) (d : Dimension) (cell : Nat) : Except Fault Matrix :=
  let i := m.position d cell
  match m with
  | ⟨positions, rings, headers, costs, journal, marks⟩ => do
    let headers ← headers.tryModify d (·.increment i)
    return { positions, rings := rings.modify d (·.relink cell), headers, costs, journal, marks }

/-- Takes cells out of their rings, one after the other. -/
def detachAll (m : Matrix) (d : Dimension) : List Nat → Except Fault Matrix
  | [] => .ok m
  | cell :: rest => do (← m.detach d cell).detachAll d rest

/-- Puts cells back into their rings, one after the other. -/
def attachAll (m : Matrix) (d : Dimension) : List Nat → Except Fault Matrix
  | [] => .ok m
  | cell :: rest => do (← m.attach d cell).attachAll d rest

/-- Takes row or column `i` out of the active list and records that. -/
def deactivate (m : Matrix) (d : Dimension) (i : Nat) : Except Fault Matrix :=
  match m with
  | ⟨positions, rings, headers, costs, journal, marks⟩ => do
    let headers ← headers.tryModify d (·.exclude i)
    return { positions, rings, headers, costs, journal := journal.record ⟨d, i⟩, marks }

/-- Deletes row or column `i`. -/
def delete (m : Matrix) (d : Dimension) (i : Nat) : Except Fault Matrix := do
  let m ← m.deactivate d i
  m.detachAll d.other (m.ring d i)

/-- Puts row or column `i` back into the active list. -/
def reactivate (m : Matrix) (d : Dimension) (i : Nat) : Except Fault Matrix :=
  match m with
  | ⟨positions, rings, headers, costs, journal, marks⟩ => do
    let headers ← headers.tryModify d (·.restore i)
    return { positions, rings, headers, costs, journal, marks }

/-- Undoes the deletion of row or column `i`. -/
def undelete (m : Matrix) (d : Dimension) (i : Nat) : Except Fault Matrix := do
  let m ← m.reactivate d i
  m.attachAll d.other (m.ring d i)

/-- Sets a checkpoint. -/
def save (m : Matrix) : Matrix := { m with journal := m.journal.checkpoint }

/-- Undoes deletions, one after the other. -/
def undeleteAll (m : Matrix) : List Deletion → Except Fault Matrix
  | [] => .ok m
  | x :: rest => do (← m.undelete x.dimension x.index).undeleteAll rest

/-- Undoes all deletions since the last checkpoint, and removes it. -/
def restore (m : Matrix) : Except Fault Matrix := do
  let (deletions, journal) ← m.journal.rollback
  let m ← { m with journal := journal }.undeleteAll deletions
  return m

/-- Deletes rows or columns, one after the other. -/
def deleteAll (m : Matrix) (d : Dimension) : List Nat → Except Fault Matrix
  | [] => .ok m
  | i :: rest => do (← m.delete d i).deleteAll d rest

/-- Selects column `c`: deletes the rows it covers, then the column. -/
def select (m : Matrix) (c : Nat) : Traced Matrix := do
  if (← m.getHeader .column c).deleted then
    throw (.selectionOfDeleted c)
  Traced.emit (.columnSelected c)
  let m ← m.deleteAll .row (m.line .column c)
  let count := m.count .column c
  unless count = 0 do
    throw (.selectionNotEmptied count)
  m.delete .column c

end SetCover.Matrix
