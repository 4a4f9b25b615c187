import SetCover.Bound.Independent.Scan
import SetCover.Bound.Independent.Queue
import SetCover.Bound.Share
import SetCover.Configuration

/-!
# Lower bounds

An `Estimator` is one of the built-in lower bounds on the cost that is needed to cover the active
rows, with the tables it keeps from one use to the next.  A `LowerBound` is the maximum of several.
-/

namespace SetCover

/-- A built-in lower bound, with its tables. -/
inductive Estimator where
  | split
  | mis (tables : IndependentScan)
  | misHeap (tables : IndependentQueue)
deriving DecidableEq, Repr

namespace Estimator

/-- The lower bound of a kind, not used yet. -/
def ofKind : BoundKind → Estimator
  | .split => split
  | .mis => mis {}
  | .misHeap => misHeap {}

/-- A lower bound on the cost of covering the active rows. -/
def estimate (m : Matrix) : Estimator → Except Fault (Nat × Estimator)
  | split => .ok (m.shareBound, split)
  | mis tables => do
    let (bound, tables) ← tables.estimate m
    return (bound, mis tables)
  | misHeap tables => do
    let (bound, tables) ← tables.estimate m
    return (bound, misHeap tables)

end Estimator

/-- The maximum of several lower bounds, which is 0 if there is none. -/
structure LowerBound where
  estimators : List Estimator := []
deriving DecidableEq, Repr

namespace LowerBound

/-- The maximum of the lower bounds of some kinds, not used yet. -/
def ofKinds (kinds : List BoundKind) : LowerBound := ⟨kinds.map Estimator.ofKind⟩

/-- The maximum of `best` and several lower bounds. -/
def estimateFrom (m : Matrix) (best : Nat) : List Estimator → Except Fault (Nat × List Estimator)
  | [] => .ok (best, [])
  | e :: rest => do
    let (bound, e) ← e.estimate m
    let (best, rest) ← estimateFrom m (max best bound) rest
    return (best, e :: rest)

/-- A lower bound on the cost of covering the active rows. -/
def estimate (l : LowerBound) (m : Matrix) : Except Fault (Nat × LowerBound) := do
  let (bound, estimators) ← estimateFrom m 0 l.estimators
  return (bound, ⟨estimators⟩)

end LowerBound

end SetCover
