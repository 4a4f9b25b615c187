/-!
# Configuration by name

The strategies of the solver are enumerations whose values have names.  Reading a name that stands
for nothing is a `ConfigurationError`; an unknown name is never replaced by a default.
-/

namespace SetCover

/-- Why names do not make a configuration. -/
inductive ConfigurationError where
  | unknownAlgorithm (name : String)
  | unknownLowerBound (name : String)
  | unknownSelector (name : String)
  | unknownDominance (name : String)
  | emptyLowerBoundList
deriving DecidableEq, Repr

namespace ConfigurationError

/-- The text of a configuration error, with the names that would have been understood. -/
def message : ConfigurationError → String
  | unknownAlgorithm name => s!"Unknown algorithm '{name}', expected one of: exact, greedy"
  | unknownLowerBound name =>
    s!"Unknown lower bound '{name}', expected one of: split, mis, mis-heap"
  | unknownSelector name =>
    s!"Unknown column selector '{name}', expected one of: naive, simple, cs"
  | unknownDominance name =>
    s!"Unknown dominance rule '{name}', expected one of: cost-aware, ignore-cost"
  | emptyLowerBoundList => "The list of lower bounds is empty"

end ConfigurationError

/-- How a cover is sought. -/
inductive Algorithm where
  /-- Branch and bound, for a cover of minimum cost. -/
  | exact
  /-- One selected column after the other, without going back. -/
  | greedy
deriving DecidableEq, Repr

namespace Algorithm

/-- The name of an algorithm. -/
def name : Algorithm → String
  | exact => "exact"
  | greedy => "greedy"

/-- Reads the name of an algorithm. -/
def parse : String → Except ConfigurationError Algorithm
  | "exact" => .ok exact
  | "greedy" => .ok greedy
  | s => .error (.unknownAlgorithm s)

theorem parse_name (a : Algorithm) : parse a.name = .ok a := by
  cases a <;> rfl

theorem parse_eq_ok_iff {s : String} {a : Algorithm} : parse s = .ok a ↔ s = a.name := by
  constructor
  · intro h
    unfold parse at h
    split at h <;> cases h <;> rfl
  · rintro rfl
    exact parse_name a

end Algorithm

/-- The built-in estimates of the cost that is still to pay. -/
inductive BoundKind where
  /-- Spread the cost of each column over its rows. -/
  | split
  /-- Sum the cheapest columns of rows that share no column. -/
  | mis
  /-- The same, with the rows kept in a heap. -/
  | misHeap
deriving DecidableEq, Repr

namespace BoundKind

/-- The name of a lower bound. -/
def name : BoundKind → String
  | split => "split"
  | mis => "mis"
  | misHeap => "mis-heap"

/-- Reads the name of a lower bound. -/
def parse : String → Except ConfigurationError BoundKind
  | "split" => .ok split
  | "mis" => .ok mis
  | "mis-heap" => .ok misHeap
  | s => .error (.unknownLowerBound s)

theorem parse_name (b : BoundKind) : parse b.name = .ok b := by
  cases b <;> rfl

theorem parse_eq_ok_iff {s : String} {b : BoundKind} : parse s = .ok b ↔ s = b.name := by
  constructor
  · intro h
    unfold parse at h
    split at h <;> cases h <;> rfl
  · rintro rfl
    exact parse_name b

end BoundKind

/-- The built-in ways to choose a column. -/
inductive SelectionRule where
  /-- The column with the most rows. -/
  | naive
  /-- The column with the highest weight of rows for its cost. -/
  | simple
  /-- The column whose cost exceeds the charges of its rows the least. -/
  | cs
deriving DecidableEq, Repr

namespace SelectionRule

/-- The name of a selection rule. -/
def name : SelectionRule → String
  | naive => "naive"
  | simple => "simple"
  | cs => "cs"

/-- Reads the name of a selection rule. -/
def parse : String → Except ConfigurationError SelectionRule
  | "naive" => .ok naive
  | "simple" => .ok simple
  | "cs" => .ok cs
  | s => .error (.unknownSelector s)

theorem parse_name (k : SelectionRule) : parse k.name = .ok k := by
  cases k <;> rfl

theorem parse_eq_ok_iff {s : String} {k : SelectionRule} : parse s = .ok k ↔ s = k.name := by
  constructor
  · intro h
    unfold parse at h
    split at h <;> cases h <;> rfl
  · rintro rfl
    exact parse_name k

end SelectionRule

/-- The built-in rules for dropping a column in favour of another one that covers its rows. -/
inductive DominanceRule where
  /-- Only if the other column costs at most as much. -/
  | costAware
  /-- Always. -/
  | ignoreCost
deriving DecidableEq, Repr

namespace DominanceRule

/-- The name of a dominance rule. -/
def name : DominanceRule → String
  | costAware => "cost-aware"
  | ignoreCost => "ignore-cost"

/-- Reads the name of a dominance rule. -/
def parse : String → Except ConfigurationError DominanceRule
  | "cost-aware" => .ok costAware
  | "ignore-cost" => .ok ignoreCost
  | s => .error (.unknownDominance s)

theorem parse_name (k : DominanceRule) : parse k.name = .ok k := by
  cases k <;> rfl

theorem parse_eq_ok_iff {s : String} {k : DominanceRule} : parse s = .ok k ↔ s = k.name := by
  constructor
  · intro h
    unfold parse at h
    split at h <;> cases h <;> rfl
  · rintro rfl
    exact parse_name k

end DominanceRule

end SetCover
