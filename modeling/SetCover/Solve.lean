import SetCover.Search
import SetCover.Statistics.Recorder

/-!
# Solving

`solve` runs the algorithm that the options name, checks that the result is a cover, and leaves the
matrix as it was.  `solveRecorded` also records the statistics of the run.  They are recorded as
soon as the algorithm has ended, so they are there even if the cover then turns out to be too
expensive to be priced, or to be none.
-/

namespace SetCover

/-- What an algorithm found. -/
inductive Finding where
  /-- Columns that are not priced yet. -/
  | columns (columns : List Nat)
  | outcome (outcome : Outcome)

/-- A run of an algorithm that has ended. -/
structure Run where
  finding : Finding
  matrix : Matrix
  /-- The names and values of the counters. -/
  statistics : List (String × Nat)

namespace Run

/-- Runs the algorithm that the options name. -/
def start (m : Matrix) (o : Options) (search : Search) : Traced Run := do
  if o.partition then Traced.emit .partitionIgnored
  Traced.emit (.solving (m.numActive .row) (m.numActive .column) o.algorithm)
  match o.algorithm with
  | .greedy =>
    let (columns, greedy, m) ← (Greedy.ofKinds o.selector o.dominance).solveAndRestore m
    return ⟨.columns columns, m, greedy.statistics.fields⟩
  | .exact =>
    let (outcome, search, m) ← search.solve m o.condition
    return ⟨.outcome outcome, m, search.statistics.fields⟩

/-- What was found, with its price. -/
def outcome (run : Run) : Except Fault Outcome :=
  match run.finding with
  | .columns columns => do return .feasible (← run.matrix.coverOf columns)
  | .outcome outcome => .ok outcome

/-- What was found, if it is a cover. -/
def finish (run : Run) : Except Fault (Outcome × Matrix) := do
  let outcome ← run.outcome
  unless ← run.matrix.isCover outcome.cover.columns do throw (.notACover outcome.cover)
  return (outcome, run.matrix)

end Run

/-- Finds a cover as the options say. -/
def solve (m : Matrix) (o : Options) : Except ConfigurationError (Traced (Outcome × Matrix)) := do
  let search ← Search.ofOptions o
  return do (← Run.start m o search).finish

/-- Finds a cover as the options say, and records the statistics. -/
def solveRecorded (r : Recorder) (m : Matrix) (o : Options) :
    Except ConfigurationError (Recorder × Traced (Outcome × Matrix)) := do
  let search ← Search.ofOptions o
  match Run.start m o search with
  | .error fault => return (r, .error fault)
  | .ok (run, events) =>
    let (r, lost) :=
      if r.isConfigured then r.recordRun (.ofParts [o.algorithm.name]) run.statistics else (r, [])
    return (r, do
      for event in events ++ lost do Traced.emit event
      run.finish)

end SetCover
