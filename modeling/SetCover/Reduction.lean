import SetCover.Matrix.Delete

/-!
# Reduction

A reduction deletes rows and columns that a minimum cover does not need, and selects columns that
every cover needs.  It has three phases:

* a column is dropped if it has no element, or if another column covers all its rows and a
  `Comparator` allows to drop the one for the other;
* a column is selected if it is the only one left for some row;
* a row is dropped if it has all columns of another row, since covering that one covers it as well.

`reduce` runs each phase once, and `reduceFully` repeats them until nothing changes.
-/

namespace SetCover

/-- Whether a column may be dropped in favour of one that covers all its rows. -/
abbrev Comparator := Matrix → (dominated dominating : Nat) → Bool

/-- The comparator of a built-in rule. -/
def DominanceRule.comparator : DominanceRule → Comparator
  | costAware => fun m dominated dominating => m.costOf dominating ≤ m.costOf dominated
  | ignoreCost => fun _ _ _ => true

/-- Whether an ascending list is contained in another one, by one pass over both. -/
def ascendingSubset : List Nat → List Nat → Bool
  | [], _ => true
  | _ :: _, [] => false
  | a :: as, b :: bs =>
    if b < a then ascendingSubset (a :: as) bs
    else if b = a then ascendingSubset as bs
    else false

namespace Matrix

/-- Whether the line of `i` is contained in that of `j`. -/
def isSubline (m : Matrix) (d : Dimension) (i j : Nat) : Bool :=
  ascendingSubset (m.line d i) (m.line d j)

def isMarked (m : Matrix) (d : Dimension) (i : Nat) : Bool := (m.marks.get d).contains i

/-- Flags row or column `i`. -/
def mark (m : Matrix) (d : Dimension) (i : Nat) : Matrix :=
  { m with marks := m.marks.modify d (·.insert i) }

/-- Resets all flags of a dimension. -/
def clearMarks (m : Matrix) (d : Dimension) : Matrix :=
  { m with marks := m.marks.modify d (·.clear) }

/-- Whether row or column `i` has changed since it was compared last. -/
def isDirty (m : Matrix) (d : Dimension) (i : Nat) : Bool := (m.header d i).dirty

/-- Records that rows or columns have been compared as they are. -/
def cleanAll (m : Matrix) (d : Dimension) : List Nat → Except Fault Matrix
  | [] => .ok m
  | i :: rest => do
    ({ m with headers := ← m.headers.tryModify d (·.clean i) } : Matrix).cleanAll d rest

/-- A column in favour of which column `c` can be dropped.  It covers the row of `c` with the
fewest columns, so it is sought there. -/
def dominatingColumn? (m : Matrix) (may : Comparator) (c : Nat) : Option Nat :=
  match (m.line .column c).minOn? (m.count .row) with
  | none => none
  | some pivot =>
    (m.line .row pivot).find? fun d =>
      d != c && !m.isMarked .column d && m.count .column c ≤ m.count .column d
        && may m c d && m.isSubline .column c d

/-- The rows that have all columns of row `r`, unless both have been compared as they are.  Such a
row has the column of `r` with the fewest rows, so they are sought there. -/
def dominatedRows (m : Matrix) (r : Nat) : List Nat :=
  match (m.line .row r).minOn? (m.count .column) with
  | none => []
  | some pivot =>
    (m.line .column pivot).filter fun s =>
      s != r && !m.isMarked .row s && m.count .row r ≤ m.count .row s
        && (m.isDirty .row r || m.isDirty .row s) && m.isSubline .row r s

/-- Deletes rows that have all columns of row `r`. -/
def dropRowsFor (m : Matrix) (r : Nat) : List Nat → Traced Matrix
  | [] => pure m
  | s :: rest => do
    Traced.emit (.rowDominated s r)
    let m ← (m.mark .row s).delete .row s
    m.dropRowsFor r rest

/-- Deletes the rows that have all columns of one of some rows, and tells whether there was one.
A row that was deleted on the way is passed over. -/
def thinRows (m : Matrix) (changed : Bool) : List Nat → Traced (Bool × Matrix)
  | [] => pure (changed, m)
  | r :: rest =>
    if m.isMarked .row r then m.thinRows changed rest
    else do
      let dominated := m.dominatedRows r
      let m ← m.dropRowsFor r dominated
      m.thinRows (changed || !dominated.isEmpty) rest

/-- Deletes each row that has all columns of another row, and tells whether there was one. -/
def dropDominatedRows (m : Matrix) : Traced (Bool × Matrix) := do
  let (changed, m) ← m.thinRows false (m.active .row)
  let m := m.clearMarks .row
  let m ← m.cleanAll .row (m.active .row)
  return (changed, m)

end Matrix

/-- A matrix on its way to being reduced, with the columns that were selected and dropped. -/
structure Reduction where
  matrix : Matrix
  selected : List Nat := []
  dropped : List Nat := []
deriving DecidableEq

namespace Reduction

/-- Deletes a column without selecting it. -/
def drop (x : Reduction) (c : Nat) : Except Fault Reduction :=
  match x with
  | ⟨m, selected, dropped⟩ => do return ⟨← m.delete .column c, selected, dropped ++ [c]⟩

/-- Deletes columns without selecting them, one after the other. -/
def dropAll (x : Reduction) : List Nat → Except Fault Reduction
  | [] => .ok x
  | c :: rest => do (← x.drop c).dropAll rest

/-- Selects a column. -/
def select (x : Reduction) (c : Nat) : Traced Reduction :=
  match x with
  | ⟨m, selected, dropped⟩ => do return ⟨← m.select c, selected ++ [c], dropped⟩

/-- Flags row or column `i`. -/
def mark (x : Reduction) (d : Dimension) (i : Nat) : Reduction :=
  match x with
  | ⟨m, selected, dropped⟩ => ⟨m.mark d i, selected, dropped⟩

/-- Resets all flags of a dimension. -/
def clearMarks (x : Reduction) (d : Dimension) : Reduction :=
  match x with
  | ⟨m, selected, dropped⟩ => ⟨m.clearMarks d, selected, dropped⟩

/-- Drops those of some columns that are dominated, and tells whether there was one. -/
def thinColumns (may : Comparator) (x : Reduction) (changed : Bool) :
    List Nat → Traced (Bool × Reduction)
  | [] => pure (changed, x)
  | c :: rest =>
    if !x.matrix.isMarked .column c && (x.matrix.dominatingColumn? may c).isSome then do
      Traced.emit (.columnDominated c)
      let x ← (x.mark .column c).drop c
      x.thinColumns may true rest
    else x.thinColumns may changed rest

/-- Drops the columns without elements and those that are dominated, and tells whether there was
one. -/
def dropDominatedColumns (may : Comparator) (x : Reduction) : Traced (Bool × Reduction) := do
  let empty := (x.matrix.active .column).filter fun c => x.matrix.count .column c == 0
  let x ← x.dropAll empty
  let (changed, x) ← x.thinColumns may (!empty.isEmpty) (x.matrix.active .column)
  return (changed, x.clearMarks .column)

/-- Selects the only column of each of some rows, and tells whether there was one. -/
def selectSingletons (x : Reduction) (changed : Bool) : List Nat → Traced (Bool × Reduction)
  | [] => pure (changed, x)
  | r :: rest =>
    -- an earlier selection may have covered the row already
    if x.matrix.isDeleted .row r then x.selectSingletons changed rest
    else
      match (x.matrix.line .row r).head? with
      | none => x.selectSingletons changed rest
      | some c =>
        if x.matrix.isMarked .column c then x.selectSingletons changed rest
        else do
          Traced.emit (.columnEssential c r)
          let x ← (x.mark .column c).select c
          x.selectSingletons true rest

/-- Selects each column that is the only one of some row, and tells whether there was one. -/
def selectEssential (x : Reduction) : Traced (Bool × Reduction) := do
  let rows := (x.matrix.active .row).filter fun r => x.matrix.count .row r == 1
  let (changed, x) ← x.selectSingletons false rows
  return (changed, x.clearMarks .column)

/-- Deletes each row that has all columns of another row, and tells whether there was one. -/
def dropDominatedRows (x : Reduction) : Traced (Bool × Reduction) :=
  match x with
  | ⟨m, selected, dropped⟩ => do
    let (changed, m) ← m.dropDominatedRows
    return (changed, ⟨m, selected, dropped⟩)

/-- Runs each phase once, and tells whether anything changed. -/
def reduce (may : Comparator) (x : Reduction) : Traced (Bool × Reduction) := do
  let (columns, x) ← x.dropDominatedColumns may
  let (essential, x) ← x.selectEssential
  let (rows, x) ← x.dropDominatedRows
  return (columns || essential || rows, x)

/-- Reduces until nothing changes, but at most `fuel` times. -/
def reduceTimes (may : Comparator) (x : Reduction) : (fuel : Nat) → Traced Reduction
  | 0 => pure x
  | fuel + 1 => do
    let (changed, x) ← x.reduce may
    if changed then x.reduceTimes may fuel else return x

/-- Reduces until nothing changes.  Every pass that changes something deletes a row or column, so
there cannot be more passes than rows and columns that are active, and a last one. -/
def reduceFully (may : Comparator) (x : Reduction) : Traced Reduction :=
  x.reduceTimes may (x.matrix.numActive .row + x.matrix.numActive .column + 1)

end Reduction

end SetCover
