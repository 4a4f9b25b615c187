import SetCover.Matrix.Basic

/-!
# Consistency

A check of everything the parts of a matrix promise each other: the active lists hold exactly the
headers that are not deleted, in ascending order; each ring is closed, links agree in both
directions, its cells ascend, and there are as many as its header counts; the cells of active
headers are linked in both dimensions; and the rings of the active rows hold exactly the elements
whose row and column are active.
-/

namespace SetCover.Matrix

/-- Whether node `b` follows node `a`, seen from both of them. -/
def areJoined (l : Links) (a b : Nat) : Bool := l.next a == b && l.previous b == a

/-- Whether the active list of a dimension holds the headers that are not deleted. -/
def hasConsistentActive (m : Matrix) (d : Dimension) : Bool :=
  let headers := m.headers.get d
  let active := m.active d
  active.length == headers.numActive && active == headers.indices (! ·.deleted)

/-- Whether a cell of an active header belongs to an active header of the other dimension, and is
linked there. -/
def isLinkedAcross (m : Matrix) (d : Dimension) (cell : Nat) : Bool :=
  let l := m.rings.get d.other
  !m.isDeleted d.other (m.position d.other cell)
    && areJoined l (l.previous cell) cell && areJoined l cell (l.next cell)

/-- Whether the ring of a row or column is closed, ascending and counted. -/
def hasConsistentRing (m : Matrix) (d : Dimension) (i : Nat) : Bool :=
  let l := m.rings.get d
  let head := m.sentinel d i
  let cells := m.ring d i
  let h := m.header d i
  ((head :: cells).zip (cells ++ [head])).all (fun (a, b) => areJoined l a b)
    && decide ((m.line d i).Pairwise (· < ·))
    && cells.length == h.count
    && (h.deleted || cells.all (m.isLinkedAcross d))

/-- Whether the ring of a row holds cells of that row only. -/
def hasOwnCells (m : Matrix) (r : Nat) : Bool :=
  (m.ring .row r).all fun cell =>
    m.numRows + m.numColumns ≤ cell && cell < m.positions.size && m.position .row cell == r

/-- Whether an element is deleted or in the ring of its row. -/
def isReachable (m : Matrix) (e : PerDimension Nat) : Bool :=
  m.isDeleted .row e.row || m.isDeleted .column e.column || (m.line .row e.row).contains e.column

/-- Whether the parts of a matrix keep all they promise each other. -/
def isConsistent (m : Matrix) : Bool :=
  [Dimension.row, .column].all (fun d =>
    m.hasConsistentActive d && (List.range (m.headers.get d).size).all (m.hasConsistentRing d))
  && (m.active .row).all m.hasOwnCells
  && m.elements.all m.isReachable

end SetCover.Matrix
