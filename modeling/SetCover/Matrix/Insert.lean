import SetCover.Matrix.Basic

/-!
# Building a matrix

A matrix starts with the sentinels of its rows and columns.  Elements can be added, one by one or
in batches, as long as no deletion can be undone.  A new element is linked into its row and column
at its place in the order; the place is sought from behind, so ascending input is fast.

A row or column that gets its first element becomes active: a single one by an ordered insertion,
those of a batch by one merge of ordered lists.
-/

namespace SetCover.Matrix

/-- Adds a cell that is not linked to others yet. -/
def pushCell (m : Matrix) (c : Cell) : Matrix :=
  { m with
    positions := m.positions.push c.position
    rings := ⟨m.rings.row.push c.links.row, m.rings.column.push c.links.column⟩ }

/-- The last cell in the ring of row or column `i` that does not lie behind `position`. -/
def insertionPoint (m : Matrix) (d : Dimension) (i position : Nat) : Nat :=
  (m.rings.get d).lastNot (m.sentinel d i) fun cell => position < m.position d.other cell

/-- Links a new cell into its rings behind the given cells, and counts it. -/
def linkCell (m : Matrix) (c : Cell) (behind : PerDimension Nat) : Except Fault Matrix :=
  match m.pushCell c with
  | ⟨positions, rings, headers, costs, journal, marks⟩ => do
    let row ← headers.row.increment c.position.row
    let column ← headers.column.increment c.position.column
    return {
      positions
      rings := ⟨rings.row.insertAfter behind.row c.id, rings.column.insertAfter behind.column c.id⟩
      headers := ⟨row, column⟩
      costs, journal, marks }

/-- Adds the element at a position, and tells whether it was not there yet. -/
def insertElement (m : Matrix) (row column : Nat) : Except Fault (Bool × Matrix) := do
  unless row < m.numRows ∧ column < m.numColumns do
    throw (.elementOutOfRange row column m.numRows m.numColumns)
  let left := m.insertionPoint .row row column
  if left ≠ m.sentinel .row row ∧ m.position .column left = column then
    return (false, m)
  let above := m.insertionPoint .column column row
  let cell ← Cell.element m.positions.size row column
  return (true, ← m.linkCell cell ⟨left, above⟩)

/-- Refuses to add elements while a deletion or checkpoint is recorded. -/
def checkJournal (m : Matrix) : Except Fault Unit :=
  if m.journal.isEmpty then .ok () else .error .deletionsRecorded

/-- Makes row or column `i` active if it is not. -/
def activate (m : Matrix) (d : Dimension) (i : Nat) : Except Fault Matrix := do
  if (← m.getHeader d i).deleted then
    return { m with headers := ← m.headers.tryModify d (·.insert i) }
  return m

/-- Makes every row or column active that has elements. -/
def activateAll (m : Matrix) (d : Dimension) : Except Fault Matrix := do
  let headers := m.headers.get d
  let filled ← (HeaderRing.excluded d headers.size).fill
    (headers.indices fun h => h.deleted && 0 < h.count)
  return { m with headers := ← m.headers.tryModify d (·.merge filled) }

/-- Adds one element, and tells whether it was not there yet. -/
def addElement (m : Matrix) (row column : Nat) : Except Fault (Bool × Matrix) := do
  m.checkJournal
  let (isNew, m) ← m.insertElement row column
  unless isNew do return (false, m)
  let m ← m.activate .row row
  let m ← m.activate .column column
  return (true, m)

/-- Inserts elements in turn, and counts those that were not there yet. -/
def insertElements (m : Matrix) (added : Nat) : List (Nat × Nat) → Except Fault (Nat × Matrix)
  | [] => .ok (added, m)
  | (row, column) :: rest => do
    let (isNew, m) ← m.insertElement row column
    m.insertElements (if isNew then added + 1 else added) rest

/-- Adds elements, and gives the number of those that were not there yet. -/
def addElements (m : Matrix) (elements : List (Nat × Nat)) : Except Fault (Nat × Matrix) := do
  m.checkJournal
  let (added, m) ← m.insertElements 0 elements
  let m ← m.activateAll .row
  let m ← m.activateAll .column
  return (added, m)

/-- Adds the sentinels of `n` rows or columns, from number `i` on. -/
def pushSentinels (m : Matrix) (d : Dimension) (i : Nat) : Nat → Except Fault Matrix
  | 0 => .ok m
  | n + 1 => do
    let cell ← Cell.sentinel m.positions.size d i
    (m.pushCell cell).pushSentinels d (i + 1) n

/-- A matrix without elements. -/
def zero (rows : Nat) (costs : List Nat) : Except Fault Matrix := do
  let columns := costs.length
  let m : Matrix := {
    positions := #[]
    rings := .both ⟨#[]⟩
    headers := ⟨.excluded .row rows, .excluded .column columns⟩
    costs := costs.toArray
    journal := {}
    marks := ⟨.unset rows, .unset columns⟩ }
  let m ← m.pushSentinels .row 0 rows
  m.pushSentinels .column 0 columns

/-- The matrix with the given elements, whose columns have the given costs. -/
def ofElements (rows : Nat) (costs : List Nat) (elements : List (Nat × Nat)) :
    Except Fault Matrix := do
  let m ← zero rows costs
  let (_, m) ← m.addElements elements
  return m

end SetCover.Matrix
