import Mathlib.Logic.Relation
import SetCover.Proofs.Search.Visits

/-!
# The calls of a search

The exploration of a node calls itself for its branches.  A `Call` holds what it is called with, and
`p.Makes q` says that the call `p` makes the call `q`: first for the branch that selects a column,
and then, when that one has returned, for the branch that deletes it.  The calls of a run are those
that the call for the root leads to.

What a node does after its evaluation is an equation, `result_explore`.  So if a call returns, then
the calls that it makes return as well.
-/

namespace SetCover

open SetCover.Matrix

namespace SearchState

variable {x y z z' w x₁ x₂ y₁ : SearchState} {inherited depth fuel cost lower c : Nat}
variable {found : Bool}

/-- What a node does after its evaluation to `z`, apart from the events. -/
theorem result_explore (hmet : x.condition.isMet = false)
    (hev : Evaluates x inherited depth z cost lower) (hlower : lower < Cost.limit) :
    (x.explore inherited depth (fuel + 1)).result =
      if z.search.limit ≤ lower then
        .ok (false, (z.count fun n => { n with prunes := n.prunes + 1 }).keep x.chosen.length)
      else if z.matrix.numActive .row = 0 then do
        return (true, (← (z.offer cost).result).keep x.chosen.length)
      else match z.branchColumn with
        | (none, z) => .ok (false, z.keep x.chosen.length)
        | (some c, z) => do
          let w := z.noteBranch
          let (found, y) ← ((← (w.select c).result).explore lower (depth + 1) fuel).result
          let y ← y.backtrack w.chosen.length
          if !y.search.stopped && lower < y.search.limit then
            let (foundToo, y) ← ((← (y.reject c).result).explore lower (depth + 1) fuel).result
            let y ← y.backtrack w.chosen.length
            return (found || foundToo, y.keep x.chosen.length)
          else return (found, y.keep x.chosen.length) := by
  obtain ⟨x₁, bound, hx₁, hcost, hz, rfl⟩ := hev
  have hsum : Cost.add bound cost = .ok (bound + cost) :=
    Cost.add_eq_ok_iff.2 ⟨rfl, (le_max_right _ _).trans_lt hlower⟩
  rw [poll] at hx₁
  rw [explore, hmet, if_neg Bool.false_ne_true]
  simp only [Traced.result_bind, Traced.result_liftM]
  rw [hx₁]
  simp only [ok_bind, hcost, hz, hsum]
  split
  · rfl
  · split
    · rw [Traced.result_bind]
      rfl
    · cases hbranch : z.branchColumn with
      | mk column w =>
          cases column with
          | none => rfl
          | some c =>
              simp only [Traced.result_bind, Traced.result_liftM, Traced.result_emit, ok_bind]
              congr! 6
              split
              · simp only [Traced.result_bind, Traced.result_liftM, Traced.result_emit, ok_bind]
                rfl
              · rfl

/-- A node that is evaluated to `z` branches on column `c`, with `w` as the state before it does. -/
structure Branches (x : SearchState) (inherited depth : Nat) (z : SearchState) (cost lower c : Nat)
    (w : SearchState) : Prop extends Opens x inherited depth z cost lower where
  numActive_ne : z.matrix.numActive .row ≠ 0
  exists_branchColumn : ∃ z', z.branchColumn = (some c, z') ∧ w = z'.noteBranch

/-- The parts of an exploration that returns: the branch that selects column `c`, and the branch
that rejects it, unless that is left out. -/
theorem Branches.exists_of_explore {r : Bool × SearchState}
    (h : Branches x inherited depth z cost lower c w) (hlower : lower < Cost.limit)
    (hr : (x.explore inherited depth (fuel + 1)).result = .ok r) :
    ∃ x₁ found y₁ y, (w.select c).result = .ok x₁ ∧
      (x₁.explore lower (depth + 1) fuel).result = .ok (found, y₁) ∧
      y₁.backtrack w.chosen.length = .ok y ∧
      (y.search.stopped = false → lower < y.search.limit → ∃ x₂ r₂,
        (y.reject c).result = .ok x₂ ∧ (x₂.explore lower (depth + 1) fuel).result = .ok r₂) := by
  obtain ⟨z', hbranch, rfl⟩ := h.exists_branchColumn
  rw [result_explore h.isMet_eq h.evaluates hlower, if_neg (Nat.not_le_of_lt h.lower_lt),
    if_neg h.numActive_ne, hbranch] at hr
  obtain ⟨x₁, hx₁, hr⟩ := bind_eq_ok_iff.1 hr
  obtain ⟨⟨found, y₁⟩, hy₁, hr⟩ := bind_eq_ok_iff.1 hr
  obtain ⟨y, hy, hr⟩ := bind_eq_ok_iff.1 hr
  refine ⟨x₁, found, y₁, y, hx₁, hy₁, hy, fun hstopped hlt => ?_⟩
  rw [hstopped, decide_eq_true hlt] at hr
  obtain ⟨x₂, hx₂, hr⟩ := bind_eq_ok_iff.1 hr
  obtain ⟨r₂, hr₂, -⟩ := bind_eq_ok_iff.1 hr
  exact ⟨x₂, r₂, hx₂, hr₂⟩

/-- What the exploration of a node is called with. -/
structure Call where
  state : SearchState
  inherited : Nat
  depth : Nat
  fuel : Nat

namespace Call

/-- The exploration that a call asks for. -/
def run (p : Call) : Traced (Bool × SearchState) := p.state.explore p.inherited p.depth p.fuel

/-- A call makes another one, for one of the two branches of its node. -/
inductive Makes : Call → Call → Prop
  | select {x z w x₁ : SearchState} {inherited depth fuel cost lower c : Nat} :
      Branches x inherited depth z cost lower c w → (w.select c).result = .ok x₁ →
      Makes ⟨x, inherited, depth, fuel + 1⟩ ⟨x₁, lower, depth + 1, fuel⟩
  | reject {x z w x₁ y₁ y x₂ : SearchState} {inherited depth fuel cost lower c : Nat}
      {found : Bool} :
      Branches x inherited depth z cost lower c w → (w.select c).result = .ok x₁ →
      (x₁.explore lower (depth + 1) fuel).result = .ok (found, y₁) →
      y₁.backtrack w.chosen.length = .ok y → y.search.stopped = false → lower < y.search.limit →
      (y.reject c).result = .ok x₂ →
      Makes ⟨x, inherited, depth, fuel + 1⟩ ⟨x₂, lower, depth + 1, fuel⟩

end Call

end SearchState

namespace Search

/-- The call for the root of a run leads to a call. -/
def Calls (s : Search) (m : Matrix) (condition : Condition) (p : SearchState.Call) : Prop :=
  ∃ t k, (s.reset.warmUp m).result = .ok (t, k) ∧
    Relation.ReflTransGen SearchState.Call.Makes
      ⟨{ search := t, condition, matrix := k.save }, 0, 0, k.numActive .column + 1⟩ p

end Search

end SetCover
