import SetCover.Configuration
import SetCover.Fault

/-!
# Events

While it works, the solver reports what it does.  An `Event` holds the data of one report, and
sometimes more than its text shows: a cheaper cover is reported with its columns.
-/

namespace SetCover

/-- How much an event matters. -/
inductive Level where
  | trace
  | debug
  | warn
deriving DecidableEq, Repr

/-- Something that happened while a matrix was reduced or solved. -/
inductive Event where
  | columnDominated (column : Nat)
  | columnEssential (column row : Nat)
  | rowDominated (row : Nat) (dominating : Nat)
  | columnSelected (column : Nat)
  | columnChosen (column : Nat)
  | pruned (depth bound : Nat)
  | branched (column depth : Nat)
  | rejected (column depth : Nat)
  /-- A cover that is cheaper than all before. -/
  | incumbentFound (cover : Cover)
  | stoppedWithoutCover
  | stopped (cost : Nat)
  | provedOptimal (cost : Nat)
  | solving (rows columns : Nat) (algorithm : Algorithm)
  | partitionIgnored
  | statisticLost (reason : String)
deriving DecidableEq, Repr

namespace Event

/-- How much an event matters. -/
def level : Event → Level
  | columnDominated _ | columnEssential _ _ | rowDominated _ _ | columnSelected _ | columnChosen _
  | pruned _ _ | branched _ _ | rejected _ _ => .trace
  | incumbentFound _ | stoppedWithoutCover | stopped _ | provedOptimal _ | solving _ _ _
  | statisticLost _ => .debug
  | partitionIgnored => .warn

/-- The text of an event, without its level. -/
def text : Event → String
  | columnDominated column => s!"column {column} is dominated"
  | columnEssential column row => s!"column {column} is essential for row {row}"
  | rowDominated row dominating => s!"row {row} is dominated by row {dominating}"
  | columnSelected column => s!"selecting column {column}"
  | columnChosen column => s!"greedily selecting column {column}"
  | pruned depth bound => s!"pruning at depth {depth} with bound {bound}"
  | branched column depth => s!"branching on column {column} at depth {depth}"
  | rejected column depth => s!"rejecting column {column} at depth {depth}"
  | incumbentFound cover => s!"new incumbent with cost {cover.cost}"
  | stoppedWithoutCover => "search stopped without a cover, falling back to the greedy solver"
  | stopped cost => s!"search stopped with a cover of {cost}"
  | provedOptimal cost => s!"proved a cover of {cost} to be optimal"
  | solving rows columns algorithm =>
    s!"solving a {rows}x{columns} matrix with the {algorithm.name} algorithm"
  | partitionIgnored =>
    "partitioning into independent blocks is not supported, solving the matrix as a whole"
  | statisticLost reason => s!"Could not write statistic: {reason}"

end Event

namespace Level

/-- The name of a level in reports. -/
def name : Level → String
  | trace => "TRACE"
  | debug => "DEBUG"
  | warn => "WARN"

end Level

/-- The line that reports an event. -/
def Event.line (e : Event) : String := s!"{e.level.name} {e.text}"

end SetCover
