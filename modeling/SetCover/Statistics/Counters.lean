/-!
# Counters

What the solvers count while they run, and the names under which it is recorded.
-/

namespace SetCover

/-- What a greedy solver has counted since it was made. -/
structure GreedyStatistics where
  /-- The columns that the selector chose. -/
  selected : Nat := 0
  /-- The columns that the reduction selected. -/
  forced : Nat := 0
deriving DecidableEq, Repr

/-- What one exact search has counted. -/
structure SearchStatistics where
  nodes : Nat := 0
  branches : Nat := 0
  /-- The nodes at which the lower bound reached the cost of the incumbent. -/
  prunes : Nat := 0
  /-- How often a cheaper cover was found. -/
  incumbents : Nat := 0
  /-- The columns that the reduction selected. -/
  forced : Nat := 0
  /-- The deepest level that was reached. -/
  peakDepth : Nat := 0
  /-- The time spent, in milliseconds; no time passes within a computation. -/
  milliseconds : Nat := 0
deriving DecidableEq, Repr

/-- The names and values of the counters of a greedy solver. -/
def GreedyStatistics.fields (s : GreedyStatistics) : List (String × Nat) :=
  [("num_selected_columns", s.selected), ("num_forced_columns", s.forced)]

/-- The names and values of the counters of a search. -/
def SearchStatistics.fields (s : SearchStatistics) : List (String × Nat) :=
  [("num_nodes", s.nodes), ("num_branches", s.branches), ("num_prunes", s.prunes),
    ("num_incumbents", s.incumbents), ("num_forced_columns", s.forced),
    ("peak_depth", s.peakDepth), ("time_spent_in_solver", s.milliseconds)]

end SetCover
