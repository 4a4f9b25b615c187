import SetCover.Fault

/-!
# The journal of deletions

A journal records which rows and columns were deleted, so that the deletions since a checkpoint can
be undone in reverse order.  It is a stack of segments, one per checkpoint and one for what came
before the first, each with the latest deletion first.
-/

namespace SetCover

/-- A deleted row or column. -/
structure Deletion where
  dimension : Dimension
  index : Nat
deriving DecidableEq, Repr

/-- The deletions so far, cut at the checkpoints. -/
structure Journal where
  /-- The deletions since the last checkpoint, latest first. -/
  current : List Deletion := []
  /-- The segments before each checkpoint, latest checkpoint first. -/
  earlier : List (List Deletion) := []
deriving DecidableEq, Repr

namespace Journal

/-- Starts a new segment. -/
def checkpoint (j : Journal) : Journal := ⟨[], j.current :: j.earlier⟩

def numCheckpoints (j : Journal) : Nat := j.earlier.length

/-- Adds a deletion. -/
def record (j : Journal) (x : Deletion) : Journal := { j with current := x :: j.current }

/-- Whether there is neither a deletion nor a checkpoint. -/
def isEmpty (j : Journal) : Bool := j.current.isEmpty && j.earlier.isEmpty

/-- Removes the last checkpoint and gives the deletions since, latest first. -/
def rollback (j : Journal) : Except Fault (List Deletion × Journal) :=
  match j.earlier with
  | [] => .error .noCheckpoint
  | segment :: rest => .ok (j.current, ⟨segment, rest⟩)

/-- All recorded deletions, oldest first. -/
def deletions (j : Journal) : List Deletion := (j.current ++ j.earlier.flatten).reverse

/-- Rolling back to a checkpoint gives what was recorded since, and the journal of that time. -/
theorem rollback_foldl_record (j : Journal) (xs : List Deletion) :
    (xs.foldl record j.checkpoint).rollback = .ok (xs.reverse, j) := by
  suffices h : ∀ seg, (xs.foldl record ⟨seg, j.current :: j.earlier⟩).rollback
      = .ok (xs.reverse ++ seg, j) by
    simpa [checkpoint] using h []
  induction xs with
  | nil => intro seg; rfl
  | cons x xs ih => intro seg; simpa [record] using ih (x :: seg)

end Journal

end SetCover
