import SetCover.Condition
import SetCover.Configuration
import SetCover.Text.Blank

/-!
# Options

The options of a solver run, and how they are read from names.
-/

namespace SetCover

/-- How a matrix is to be solved. -/
structure Options where
  algorithm : Algorithm := .exact
  /-- The lower bounds of the exact solver, of which the maximum is used. -/
  lowerBounds : List BoundKind := [.split]
  selector : SelectionRule := .simple
  dominance : DominanceRule := .costAware
  /-- A wish to solve independent blocks apart, which is noted and not fulfilled. -/
  partition : Bool := false
  /-- Whether the exact solver starts from the cover of the greedy one. -/
  warmStart : Bool := true
  /-- The number of branches after which the exact solver stops. -/
  branchBudget : Option Nat := none
  /-- The number of milliseconds after which the exact solver stops. -/
  timeBudget : Option Nat := none
deriving DecidableEq, Repr

namespace Options

/-- Reads a list of lower bounds, separated by commas. -/
def parseLowerBounds (s : String) : Except ConfigurationError (List BoundKind) := do
  let kinds ← (Text.segments s).mapM BoundKind.parse
  if kinds.isEmpty then throw .emptyLowerBoundList
  return kinds

/-- Reads the names of an algorithm, of lower bounds and of a selector.  The lower bounds are looked
at first. -/
def parse (algorithm lowerBounds selector : String) : Except ConfigurationError Options := do
  let lowerBounds ← parseLowerBounds lowerBounds
  let algorithm ← Algorithm.parse algorithm
  let selector ← SelectionRule.parse selector
  return { algorithm, lowerBounds, selector }

/-- Accepts options with at least one lower bound. -/
def check (o : Options) : Except ConfigurationError Unit :=
  if o.lowerBounds.isEmpty then .error .emptyLowerBoundList else .ok ()

/-- The condition that the budgets make. -/
def condition (o : Options) : Condition :=
  .either (.ofOption (o.branchBudget.map .ofBranches)) (.ofOption (o.timeBudget.map .timeBudget))

end Options

end SetCover
