/-!
# Covers

A cover is a list of columns, in the order in which they were chosen, with what they cost together.
An `Outcome` also says whether the cover is known to be of minimum cost.
-/

namespace SetCover

/-- Columns that were chosen, with their total cost. -/
structure Cover where
  columns : List Nat := []
  cost : Nat := 0
deriving DecidableEq, Repr

namespace Cover

/-- The cost, and the columns in brackets. -/
def text (c : Cover) : String :=
  let columns := ", ".intercalate (c.columns.map toString)
  s!"cost {c.cost} [{columns}]"

end Cover

/-- What solving a covering problem gives. -/
inductive Outcome where
  /-- No cover costs less. -/
  | optimal (cover : Cover)
  /-- A cover of which nothing more is claimed. -/
  | feasible (cover : Cover)
deriving DecidableEq, Repr

namespace Outcome

/-- The cover that was found. -/
def cover : Outcome → Cover
  | optimal c => c
  | feasible c => c

/-- Whether the cover is known to be of minimum cost. -/
def isOptimal : Outcome → Bool
  | optimal _ => true
  | feasible _ => false

end Outcome

end SetCover
