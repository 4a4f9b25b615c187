/-!
# Termination conditions

A search asks its condition at every node whether to stop, and tells it about every branch.  Time
does not pass within a computation, so a time budget has either run out from the start or it
outlasts the search.  A condition that is decided elsewhere, such as a clock that runs on, is given
by the answers it will give.
-/

namespace SetCover

/-- When to give up a search. -/
inductive Condition where
  /-- Never. -/
  | indefinite
  /-- After a number of branches, some of which have been made. -/
  | branchBudget (budget made : Nat)
  /-- After a number of milliseconds. -/
  | timeBudget (milliseconds : Nat)
  /-- A condition that is known by its next answers alone.  After these it is not met any more. -/
  | foreseen (answers : List Bool)
  /-- A condition that was not given. -/
  | absent
  /-- A condition that was given. -/
  | present (condition : Condition)
  /-- As soon as one of two conditions says so. -/
  | either (first second : Condition)
deriving DecidableEq, Repr

namespace Condition

/-- Stops after `n` branches. -/
def ofBranches (n : Nat) : Condition := branchBudget n 0

/-- A condition that may not be given. -/
def ofOption : Option Condition → Condition
  | none => absent
  | some c => present c

/-- Whether the search is to stop. -/
def isMet : Condition → Bool
  | indefinite => false
  | branchBudget budget made => budget ≤ made
  | timeBudget milliseconds => milliseconds == 0
  | foreseen answers => answers.headD false
  | absent => false
  | present c => c.isMet
  | either c d => c.isMet || d.isMet

/-- The condition after it has been asked whether it is met.  The second of two is only asked if the
first is not met. -/
def polled : Condition → Condition
  | foreseen answers => foreseen answers.tail
  | present c => present c.polled
  | either c d => if c.isMet then either c.polled d else either c.polled d.polled
  | c => c

/-- Takes note of a branch. -/
def noteBranch : Condition → Condition
  | indefinite => indefinite
  | branchBudget budget made => branchBudget budget (made + 1)
  | timeBudget milliseconds => timeBudget milliseconds
  | foreseen answers => foreseen answers
  | absent => absent
  | present c => present c.noteBranch
  | either c d => either c.noteBranch d.noteBranch

end Condition

end SetCover
