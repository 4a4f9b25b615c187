import SetCover.Fault

/-!
# Sums of costs

Costs are natural numbers below `2 ^ 64`.  A sum that would reach that limit is a fault, so a sum
that is computed is the mathematical one.
-/

namespace SetCover.Cost

/-- The number of costs, and the least number that is none. -/
def limit : Nat := UInt64.size

/-- The sum of two costs. -/
def add (a b : Nat) : Except Fault Nat :=
  if a + b < limit then .ok (a + b) else .error .overflow

theorem add_eq_ok_iff {a b c : Nat} : add a b = .ok c ↔ c = a + b ∧ a + b < limit := by
  unfold add
  split <;> simp_all [eq_comm]

theorem add_eq_error_iff {a b : Nat} : add a b = .error .overflow ↔ limit ≤ a + b := by
  unfold add
  split <;> simp_all

end SetCover.Cost
