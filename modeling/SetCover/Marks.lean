import SetCover.Fault

/-!
# Marks

A flag for each row or column, set while a reduction runs.  The marked numbers are also listed, so
that clearing takes as long as marking did.
-/

namespace SetCover

/-- Flags, with a list of those that are set. -/
structure Marks where
  flags : Array Bool
  /-- The numbers whose flag is set, latest first. -/
  marked : List Nat
deriving DecidableEq, Repr

namespace Marks

/-- `n` flags, none of them set. -/
def unset (n : Nat) : Marks := ⟨Array.replicate n false, []⟩

/-- Whether flag `i` is set; there is no flag beyond the last one. -/
def contains (m : Marks) (i : Nat) : Bool := m.flags.getD i false

/-- Sets flag `i`. -/
def insert (m : Marks) (i : Nat) : Marks :=
  if m.contains i then m else ⟨m.flags.setIfInBounds i true, i :: m.marked⟩

/-- Whether flag `i` is set, if there is one. -/
def isMarked (m : Marks) (i : Nat) : Except Fault Bool :=
  if i < m.flags.size then .ok (m.contains i) else .error (.outOfBounds i m.flags.size)

/-- Sets flag `i`, and tells whether it was not set before. -/
def mark (m : Marks) (i : Nat) : Except Fault (Bool × Marks) := do
  let before ← m.isMarked i
  return (!before, m.insert i)

/-- Resets the flags of the marked numbers. -/
def clear (m : Marks) : Marks :=
  ⟨m.marked.foldl (fun flags i => flags.setIfInBounds i false) m.flags, []⟩

/-- Whether no flag is set, judged by the flags and not by the list. -/
def isClear (m : Marks) : Bool := m.marked.isEmpty && m.flags.all (! ·)

end Marks

end SetCover
