import SetCover.Matrix.Insert
import SetCover.Matrix.Consistent
import SetCover.Solve
import SetCover.Proofs.Ring
import SetCover.Proofs.ActiveHeaders
import SetCover.Proofs.StaleLinks
import SetCover.Proofs.Matrix.Deletion
import SetCover.Proofs.Matrix.Trail
import SetCover.Proofs.Matrix.Insertion
import SetCover.Proofs.Matrix.Lines
import SetCover.Proofs.Matrix.Dirty
import SetCover.Proofs.Lockstep
import SetCover.Proofs.Matrix.Totality
import SetCover.Proofs.Covering
import SetCover.Proofs.Picks
import SetCover.Proofs.Marks
import SetCover.Proofs.Reduction.Steps
import SetCover.Proofs.Reduction.Phases
import SetCover.Proofs.Reduction.Accounts
import SetCover.Proofs.Reduction.Survivors
import SetCover.Proofs.Reduction.Compared
import SetCover.Proofs.Greedy
import SetCover.Proofs.Search.Explores
import SetCover.Proofs.Bound.ConflictGraph
import SetCover.Proofs.Heap
import SetCover.Proofs.Heap.Queue
import SetCover.Proofs.Bound.Admissible
import SetCover.Proofs.Bound.Degrees
import SetCover.Proofs.Binary.Rounding
import SetCover.Proofs.Binary.Packing
import SetCover.Proofs.Binary.Arithmetic
import SetCover.Proofs.Bound.Share
import SetCover.Proofs.Search.Optimal
import SetCover.Proofs.Search.Offers
import SetCover.Proofs.Search.Outcome
import SetCover.Proofs.Search.Settings
import SetCover.Proofs.Reachable
import SetCover.Proofs.Matrix.Consistent
import SetCover.Proofs.Reduction.InStep
import SetCover.Proofs.Reduction.Irreducible
import SetCover.Proofs.Reduction.Walk
import SetCover.Proofs.Matrix.Looks
import SetCover.Proofs.Tables
import SetCover.Proofs.Greedy.InStep
import SetCover.Proofs.Search.InStep
import SetCover.Proofs.Compared
import SetCover.Proofs.Safety
import SetCover.Proofs.Skipping
import SetCover.Proofs.Fixpoint
import SetCover.Proofs.Coverage
import SetCover.Proofs.Reuse
import SetCover.Proofs.Recorded
import SetCover.Proofs.Search.Visits
import SetCover.Proofs.Search.Calls
import SetCover.Proofs.Search.Records
import SetCover.Proofs.Search.Feasible
import SetCover.Proofs.Greedy.Run
import SetCover.Proofs.Coverable
import SetCover.Proofs.Search.Counters
import SetCover.Proofs.Search.Leftmost
import SetCover.Proofs.Improvement
import SetCover.Proofs.Search.Totality
import SetCover.Proofs.Budget
import SetCover.Proofs.Refinement
import SetCover.Proofs.Backtracking
import SetCover.Proofs.Optimum
import SetCover.Proofs.Validity
import SetCover.Proofs.Estimates
import SetCover.Proofs.Matrix.Contents
import SetCover.Proofs.Solving
import SetCover.Proofs.Building
import SetCover.Proofs.Bound.MinimumDegree
import SetCover.Proofs.Polling
import SetCover.Proofs.Text.Segment
import SetCover.Proofs.Parsing
import SetCover.Proofs.Selection
import SetCover.Proofs.Reduction.Essential
import SetCover.Proofs.Essential
import SetCover.Proofs.Bound.Lookups
import SetCover.Proofs.Conflicts
import SetCover.Proofs.Containment
