/-!
# Breaking ties by order

A `TieBreaker` is shown candidates with their values one after the other and keeps the best.  Of
several candidates with the best value it keeps the one that it was shown first, so a value that
compares neither way never replaces another.
-/

namespace SetCover

/-- Whether the greatest or the least value is sought. -/
inductive Direction where
  | maximum
  | minimum
deriving DecidableEq, Repr

namespace Direction

/-- The name of a direction. -/
def name : Direction → String
  | maximum => "Maximum"
  | minimum => "Minimum"

/-- Whether value `a` is strictly better than value `b`. -/
def improves {β : Type} [LT β] [DecidableLT β] (d : Direction) (a b : β) : Bool :=
  match d with
  | maximum => b < a
  | minimum => a < b

end Direction

/-- The best candidate so far, with its value. -/
structure TieBreaker (α β : Type) where
  direction : Direction
  best : Option (α × β) := none
deriving Repr

namespace TieBreaker

variable {α β : Type}

/-- Shows a candidate. -/
def consider [LT β] [DecidableLT β] (t : TieBreaker α β) (candidate : α) (value : β) :
    TieBreaker α β :=
  match t.best with
  | none => { t with best := some (candidate, value) }
  | some (_, kept) =>
    if t.direction.improves value kept then { t with best := some (candidate, value) } else t

/-- The best candidate, and a tie breaker that has been shown none. -/
def select (t : TieBreaker α β) : Option α × TieBreaker α β :=
  (t.best.map (·.1), { t with best := none })

/-- The best of some candidates by a score. -/
def selectBy [LT β] [DecidableLT β] (direction : Direction) (score : α → β) (candidates : List α) :
    Option α :=
  let shown := candidates.foldl (fun (t : TieBreaker α β) c => t.consider c (score c)) { direction }
  shown.select.1

end TieBreaker

end SetCover
