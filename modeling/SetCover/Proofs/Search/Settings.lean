import SetCover.Proofs.Greedy.InStep
import SetCover.Proofs.Search.Outcome

/-!
# The settings of a solver

The options of a solver are kept in its parts: the kinds of its lower bounds and of its selectors,
and the rules of dominance.  Whatever happens in a run, and however it ends, these stay the same;
what changes are tables, counters and the incumbent.
-/

namespace SetCover

variable {m k : Matrix} {columns : List Nat}

/-! ### Solvers -/

namespace Search

variable {s t : Search} {condition : Condition} {outcome : Outcome}

/-- What a solver is set to do. -/
structure Settings where
  lowerBounds : List BoundKind
  selector : SelectionRule
  dominance : DominanceRule
  greedySelector : SelectionRule
  greedyDominance : DominanceRule
  warmStart : Bool

/-- The settings of a solver. -/
def settings (s : Search) : Settings where
  lowerBounds := s.lowerBound.kinds
  selector := s.selector.kind
  dominance := s.dominance
  greedySelector := s.greedy.selector.kind
  greedyDominance := s.greedy.dominance
  warmStart := s.warmStart

theorem settings_of_offer {cost : Nat} (h : (s.offer columns cost).result = .ok t) :
    t.settings = s.settings := by
  rw [offer] at h
  split at h
  · cases h
    rfl
  · cases h
    rfl

theorem settings_of_runGreedily (h : (s.runGreedily m).result = .ok (columns, t, k)) :
    t.settings = s.settings := by
  simp only [runGreedily, Traced.result_bind, bind_eq_ok_iff] at h
  obtain ⟨⟨columns', greedy, k'⟩, hgreedy, h⟩ := h
  cases h
  obtain ⟨hkind, hdominance⟩ := Greedy.alike_of_solveAndRestore hgreedy
  rw [settings, settings, hkind, hdominance]

theorem settings_of_warmUp (h : (s.warmUp m).result = .ok (t, k)) : t.settings = s.settings := by
  rw [warmUp] at h
  split at h
  · simp only [Traced.result_bind, bind_eq_ok_iff] at h
    obtain ⟨⟨columns, s₁, k'⟩, hgreedy, cost, -, t', hoffer, h⟩ := h
    cases h
    exact (settings_of_offer hoffer).trans (settings_of_runGreedily hgreedy)
  · cases h
    rfl

theorem settings_of_takeIncumbent (h : (s.takeIncumbent m).result = .ok (columns, t, k)) :
    t.settings = s.settings := by
  rw [takeIncumbent] at h
  split at h
  · cases h
    rfl
  · obtain ⟨-, -, h⟩ := Traced.result_bind_eq_ok_iff.1 h
    exact settings_of_runGreedily h

end Search

/-! ### The search tree -/

namespace SearchState

variable {x y z : SearchState} {inherited depth fuel cost lower c : Nat}

theorem settings_of_reduce (h : x.reduce.result = .ok y) :
    y.search.settings = x.search.settings := by
  simp only [reduce, Traced.result_bind, bind_eq_ok_iff] at h
  obtain ⟨reduced, -, h⟩ := h
  cases h
  rfl

theorem settings_of_estimate {bound : Nat} (h : x.estimate = .ok (bound, y)) :
    y.search.settings = x.search.settings := by
  rw [estimate, bind_eq_ok_iff] at h
  obtain ⟨⟨bound', lowerBound⟩, hestimate, h⟩ := h
  cases h
  exact congrArg (fun kinds => { x.search.settings with lowerBounds := kinds })
    (LowerBound.kinds_of_estimate hestimate)

theorem Evaluates.settings_eq (h : Evaluates x inherited depth z cost lower) :
    z.search.settings = x.search.settings := by
  obtain ⟨x₁, bound, hx₁, -, hz, -⟩ := h
  rw [settings_of_estimate hz, settings_of_reduce hx₁]
  rfl

theorem settings_of_branchColumn {column : Option Nat} (h : x.branchColumn = (column, y)) :
    y.search.settings = x.search.settings := by
  cases h
  exact congrArg (fun kind => { x.search.settings with selector := kind })
    (x.search.selector.kind_select x.matrix)

theorem settings_of_select (h : (x.select c).result = .ok y) :
    y.search.settings = x.search.settings := by
  simp only [select, Traced.result_bind, bind_eq_ok_iff] at h
  obtain ⟨m, -, h⟩ := h
  cases h
  rfl

theorem settings_of_reject (h : (x.reject c).result = .ok y) :
    y.search.settings = x.search.settings := by
  simp only [reject, Traced.result_bind, bind_eq_ok_iff] at h
  obtain ⟨m, -, h⟩ := h
  cases h
  rfl

theorem settings_of_backtrack {n : Nat} (h : x.backtrack n = .ok y) :
    y.search.settings = x.search.settings := by
  rw [backtrack, bind_eq_ok_iff] at h
  obtain ⟨m, -, h⟩ := h
  cases h
  rfl

theorem settings_of_node_offer (h : (x.offer cost).result = .ok y) :
    y.search.settings = x.search.settings :=
  Search.settings_of_offer (of_offer h).2.2.1

theorem Explores.settings_eq (h : Explores x inherited depth fuel y) :
    y.search.settings = x.search.settings := by
  induction h with
  | exhausted => rfl
  | stopped => rfl
  | pruned hev => exact hev.settings_eq
  | leaf hev _ _ hoffer => exact (settings_of_node_offer hoffer).trans hev.settings_eq
  | stuck hev _ hbranch => exact (settings_of_branchColumn hbranch).trans hev.settings_eq
  | branch hev hbranch hselect _ hback _ ih =>
      have hnode := (settings_of_branchColumn hbranch).trans hev.settings_eq
      exact (settings_of_backtrack hback).trans
        (ih.trans ((settings_of_select hselect).trans hnode))
  | branchTwice hev hbranch hselect _ hback _ hreject _ hback' ih ih' =>
      have hnode := (settings_of_branchColumn hbranch).trans hev.settings_eq
      have hfirst := (settings_of_backtrack hback).trans
        (ih.trans ((settings_of_select hselect).trans hnode))
      exact (settings_of_backtrack hback').trans
        (ih'.trans ((settings_of_reject hreject).trans hfirst))

end SearchState

/-- A run keeps the settings of the solver. -/
theorem Search.settings_of_solve {s t : Search} {condition : Condition} {outcome : Outcome}
    (h : (s.solve m condition).result = .ok (outcome, t, k)) : t.settings = s.settings := by
  obtain ⟨s₁, m₁, found, x, m₂, columns, hwarm, hexplore, -, htake, -⟩ := of_solve h
  rw [settings_of_takeIncumbent htake, (SearchState.explores_of_explore hexplore).settings_eq,
    settings_of_warmUp hwarm]
  rfl

end SetCover
