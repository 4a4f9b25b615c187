import SetCover.Proofs.Greedy.Run
import SetCover.Proofs.Search.Feasible

/-!
# The counters of a search

What is counted in one part of a search is added to what was counted before, except for the peak
depth, of which the greater one stays.  So what an exploration counts is a record of counters
itself, and `Tallies` says what is known of it: every node is a branching one, is pruned, or
improves on the incumbent, and there is one node less than two for each branch, or fewer if the
search is stopped.
-/

namespace SetCover

open SetCover.Matrix

variable {m n k : Matrix} {E : List (Nat × Nat)} {covers covers' : List Cover}

/-! ### Sums of counters -/

namespace SearchStatistics

/-- The counters `a` after `b` has been counted as well. -/
def plus (a b : SearchStatistics) : SearchStatistics where
  nodes := a.nodes + b.nodes
  branches := a.branches + b.branches
  prunes := a.prunes + b.prunes
  incumbents := a.incumbents + b.incumbents
  forced := a.forced + b.forced
  peakDepth := max a.peakDepth b.peakDepth
  milliseconds := a.milliseconds + b.milliseconds

theorem plus_zero (a : SearchStatistics) : a.plus {} = a := by simp [plus]

theorem zero_plus (a : SearchStatistics) : plus {} a = a := by simp [plus]

theorem plus_assoc (a b c : SearchStatistics) : (a.plus b).plus c = a.plus (b.plus c) := by
  simp [plus, Nat.add_assoc, max_assoc]

end SearchStatistics

/-- An offer counts the incumbents that it records. -/
theorem Search.statistics_of_offer {s t : Search} {columns : List Nat} {cost : Nat}
    (h : (s.offer columns cost).Finds t covers) :
    t.statistics = s.statistics.plus { incumbents := covers.length } := by
  have hcovers := covers_eq_of_offer h
  have ht := h.result_eq
  rw [offer] at ht
  split at ht
  · rename_i hlt
    cases ht
    rw [hcovers, if_pos hlt]
    simp [SearchStatistics.plus, count]
  · rename_i hge
    cases ht
    rw [hcovers, if_neg hge]
    exact (SearchStatistics.plus_zero _).symm

namespace SearchState

variable {x y z z' w x₁ y₁ : SearchState} {inherited depth fuel cost lower c : Nat}

/-! ### What the parts of a node count -/

theorem exists_statistics_of_reduce (h : x.reduce.result = .ok y) : ∃ forced,
    y.search.statistics = x.search.statistics.plus { forced } := by
  simp only [reduce, Traced.result_bind, bind_eq_ok_iff] at h
  obtain ⟨reduced, -, h⟩ := h
  cases h
  exact ⟨_, by simp [SearchStatistics.plus, count, Search.count]; rfl⟩

theorem statistics_of_estimate {bound : Nat} (h : x.estimate = .ok (bound, y)) :
    y.search.statistics = x.search.statistics := by
  rw [estimate, bind_eq_ok_iff] at h
  obtain ⟨p, -, h⟩ := h
  cases h
  rfl

theorem statistics_of_branchColumn {column : Option Nat} (h : x.branchColumn = (column, y)) :
    y.search.statistics = x.search.statistics := by
  cases h
  rfl

theorem search_of_select (h : (x.select c).result = .ok y) : y.search = x.search := by
  simp only [select, Traced.result_bind, bind_eq_ok_iff] at h
  obtain ⟨k, -, h⟩ := h
  cases h
  rfl

theorem search_of_reject (h : (x.reject c).result = .ok y) : y.search = x.search := by
  simp only [reject, Traced.result_bind, bind_eq_ok_iff] at h
  obtain ⟨k, -, h⟩ := h
  cases h
  rfl

theorem search_of_backtrack {i : Nat} (h : x.backtrack i = .ok y) : y.search = x.search := by
  rw [backtrack, bind_eq_ok_iff] at h
  obtain ⟨k, -, h⟩ := h
  cases h
  rfl

theorem statistics_noteBranch (x : SearchState) :
    x.noteBranch.search.statistics = x.search.statistics.plus { branches := 1 } := by
  simp [SearchStatistics.plus, noteBranch, count, Search.count]

theorem statistics_of_offer (h : (x.offer cost).Finds y covers) :
    y.search.statistics = x.search.statistics.plus { incumbents := covers.length } := by
  obtain ⟨t, before, after, ht, hend, rfl⟩ := h.exists_of_bind
  obtain ⟨rfl, rfl⟩ := hend.eq_of_pure
  rw [List.append_nil]
  exact Search.statistics_of_offer ht

/-- A node counts itself, its depth, and the columns that it has to select. -/
theorem Evaluates.exists_statistics (h : Evaluates x inherited depth z cost lower) : ∃ forced,
    z.search.statistics =
      x.search.statistics.plus { nodes := 1, forced, peakDepth := depth } := by
  obtain ⟨x₁, bound, hx₁, -, hz, -⟩ := h
  obtain ⟨forced, hreduce⟩ := exists_statistics_of_reduce hx₁
  refine ⟨forced, ?_⟩
  rw [statistics_of_estimate hz, hreduce]
  simp [SearchStatistics.plus, poll, enter, count, Search.count]

/-! ### Trees -/

/-- What is known of the counters of an exploration that has recorded some incumbents. -/
structure Tallies (depth fuel : Nat) (covers : List Cover) (d : SearchStatistics) : Prop where
  nodes_eq : d.nodes = d.branches + d.prunes + d.incumbents
  nodes_le : d.nodes ≤ 2 * d.branches + 1
  incumbents_eq : d.incumbents = covers.length
  peakDepth_le : d.peakDepth ≤ depth + d.branches
  peakDepth_lt : d.peakDepth < depth + fuel

/-- If nothing happens, nothing is counted. -/
theorem tallies_zero (h : 0 < depth + fuel) : Tallies depth fuel [] {} :=
  ⟨rfl, Nat.zero_le _, rfl, Nat.zero_le _, h⟩

/-- A node that branches adds itself and its branch to what is counted in the two parts. -/
theorem Tallies.node {d d' : SearchStatistics} (h : Tallies (depth + 1) fuel covers d)
    (h' : Tallies (depth + 1) fuel covers' d') (forced : Nat) :
    Tallies depth (fuel + 1) (covers ++ covers')
      (SearchStatistics.plus { nodes := 1, forced, peakDepth := depth }
        (SearchStatistics.plus { branches := 1 } (d.plus d'))) := by
  obtain ⟨hnodes, hle, hincumbents, hdepth, hlt⟩ := h
  obtain ⟨hnodes', hle', hincumbents', hdepth', hlt'⟩ := h'
  constructor <;> simp only [SearchStatistics.plus, List.length_append] <;> omega

/-- Feasible nodes do not get stuck, so each of them is counted by what it ends with. -/
theorem Visits.exists_tallies (h : Visits x inherited depth fuel y covers)
    (hx : IsFeasible E x fuel) : ∃ d,
      y.search.statistics = x.search.statistics.plus d ∧ Tallies depth fuel covers d := by
  induction h with
  | exhausted => exact absurd hx.length_lt (Nat.not_lt_zero _)
  | stopped => exact ⟨{}, (SearchStatistics.plus_zero _).symm, tallies_zero (by omega)⟩
  | @pruned x z _ depth _ _ _ hev =>
      obtain ⟨forced, hz⟩ := hev.exists_statistics
      refine ⟨.plus { nodes := 1, forced, peakDepth := depth } { prunes := 1 }, ?_, ?_⟩
      · rw [← SearchStatistics.plus_assoc, ← hz]
        simp [SearchStatistics.plus, keep, count, Search.count]
      · constructor <;> simp [SearchStatistics.plus]
  | @leaf x z _ _ depth _ _ _ covers hopens _ hoffer =>
      obtain ⟨forced, hz⟩ := hopens.evaluates.exists_statistics
      refine ⟨.plus { nodes := 1, forced, peakDepth := depth } { incumbents := covers.length },
        ?_, ?_⟩
      · rw [← SearchStatistics.plus_assoc, ← hz, ← statistics_of_offer hoffer]
        rfl
      · rw [hopens.covers_eq hoffer]
        constructor <;> simp [SearchStatistics.plus]
  | stuck hopens hrows hbranch =>
      obtain ⟨c, z', hsome⟩ := (hx.isSettled hopens.evaluates).exists_branchColumn hrows
      cases hsome.symm.trans hbranch
  | branch hopens hrows hbranch hselect hchild hback _ ih =>
      obtain ⟨forced, hz⟩ := hopens.evaluates.exists_statistics
      have hw := hx.isSettled_of_branches ⟨hopens, hrows, _, hbranch, rfl⟩
      obtain ⟨d, hd, htallies⟩ := ih (hw.select hselect)
      have hnode := htallies.node (tallies_zero (by omega)) forced
      rw [List.append_nil, SearchStatistics.plus_zero] at hnode
      refine ⟨_, ?_, hnode⟩
      rw [← SearchStatistics.plus_assoc, ← SearchStatistics.plus_assoc, ← hz,
        ← statistics_of_branchColumn hbranch, ← statistics_noteBranch, ← search_of_select hselect,
        ← hd, ← search_of_backtrack hback]
      rfl
  | branchTwice hopens hrows hbranch hselect hchild hback _ hreject _ hback' ih ih' =>
      obtain ⟨forced, hz⟩ := hopens.evaluates.exists_statistics
      have hw := hx.isSettled_of_branches ⟨hopens, hrows, _, hbranch, rfl⟩
      obtain ⟨d, hd, htallies⟩ := ih (hw.select hselect)
      obtain ⟨d', hd', htallies'⟩ := ih' ((hw.backtrack hselect hchild hback).1.reject hreject)
      refine ⟨_, ?_, htallies.node htallies' forced⟩
      rw [← SearchStatistics.plus_assoc, ← SearchStatistics.plus_assoc,
        ← SearchStatistics.plus_assoc, ← hz, ← statistics_of_branchColumn hbranch,
        ← statistics_noteBranch, ← search_of_select hselect, ← hd, ← search_of_backtrack hback,
        ← search_of_reject hreject, ← hd', ← search_of_backtrack hback']
      rfl

end SearchState

/-! ### Runs -/

namespace Search

variable {s t : Search} {condition : Condition} {outcome : Outcome} {columns : List Nat}

theorem statistics_of_warmUp (h : (s.warmUp m).Finds (t, k) covers) :
    t.statistics = s.statistics.plus { incumbents := covers.length } := by
  rw [warmUp] at h
  split at h
  · obtain ⟨⟨columns, s₁, k'⟩, hgreedy, h⟩ := h.exists_of_quiet (s.isQuiet_runGreedily m)
    obtain ⟨cost, -, h⟩ := h.exists_of_lift
    obtain ⟨t', before, after, ht', hend, rfl⟩ := h.exists_of_bind
    obtain ⟨heq, rfl⟩ := hend.eq_of_pure
    cases heq
    rw [List.append_nil, statistics_of_offer ht', (solveAndRestore_of_runGreedily hgreedy).2]
  · obtain ⟨heq, rfl⟩ := h.eq_of_pure
    cases heq
    exact (SearchStatistics.plus_zero _).symm

theorem statistics_of_takeIncumbent (h : (s.takeIncumbent m).result = .ok (columns, t, k)) :
    t.statistics = s.statistics ∧ t.stopped = s.stopped := by
  rw [takeIncumbent] at h
  split at h
  · cases h
    exact ⟨rfl, rfl⟩
  · obtain ⟨-, -, h⟩ := Traced.result_bind_eq_ok_iff.1 h
    rw [(solveAndRestore_of_runGreedily h).2]
    exact ⟨rfl, rfl⟩

end Search

namespace Matrix

open SearchState

variable {s t : Search} {condition : Condition} {outcome : Outcome} {p : Call}

/-- A call tells whether it has counted an incumbent, and leaves the chosen columns as they were. -/
theorem Reachable.exists_run_of_calls (hm : Reachable E m)
    (h : (s.solve m condition).result = .ok (outcome, t, k)) (hp : s.Calls m condition p) :
    ∃ found y, p.run.result = .ok (found, y) ∧
      (found = true ↔
        p.state.search.statistics.incumbents < y.search.statistics.incumbents) ∧
      y.chosen = p.state.chosen := by
  have hrows := (Search.coversOnce_of_solve hm.holds.grounded.isReady h).covers.uncovered_eq_nil
  have hfeasible := hp.isFeasible hm (uncovered_eq_nil_iff.1 hrows)
  obtain ⟨⟨found, y⟩, hrun⟩ := hp.returns hm h
  obtain ⟨covers, hfinds⟩ := Traced.Finds.exists_of_result hrun
  obtain ⟨hvisits, hfound⟩ := visits_of_explore hfinds
  obtain ⟨d, hd, htallies⟩ := hvisits.exists_tallies hfeasible
  refine ⟨found, y, hrun, ?_,
    (hvisits.explores.progress hfeasible.reachable.holds.grounded.isReady).2⟩
  have hincumbents : y.search.statistics.incumbents =
      p.state.search.statistics.incumbents + covers.length := by
    rw [hd, ← htallies.incumbents_eq]
    rfl
  rw [hfound, hincumbents, ← List.length_pos_iff]
  omega

/-- Every node of a run branches, is pruned, or finds an incumbent; one more incumbent comes from a
warm start with a greedy cover that costs less than the greatest cost.  The nodes are at most one
more than twice the branches, and none is deeper than there are branches or active columns.  A call
tells whether it has counted an incumbent, and leaves the chosen columns as they were. -/
theorem Reachable.nodes_eq_of_search (hm : Reachable E m)
    (h : (s.solve m condition).result = .ok (outcome, t, k)) :
    (∃ columns g n, (s.greedy.solveAndRestore m).result = .ok (columns, g, n) ∧
      t.statistics.nodes +
          (if s.warmStart = true ∧ (columns.map m.costOf).sum < Cost.limit - 1 then 1 else 0) =
        t.statistics.branches + t.statistics.prunes + t.statistics.incumbents) ∧
    t.statistics.nodes ≤ 2 * t.statistics.branches + 1 ∧
    t.statistics.peakDepth ≤ t.statistics.branches ∧
    t.statistics.peakDepth ≤ m.numActive .column ∧
    ∀ p, s.Calls m condition p → ∃ found y, p.run.result = .ok (found, y) ∧
      (found = true ↔
        p.state.search.statistics.incumbents < y.search.statistics.incumbents) ∧
      y.chosen = p.state.chosen := by
  have hready := hm.holds.grounded.isReady
  have hcovers := (Search.coversOnce_of_solve hready h).covers
  obtain ⟨covers, hfinds⟩ := Traced.Finds.exists_of_result h
  obtain ⟨x, hx, hend⟩ := Search.exists_tree_of_solve hfinds
  obtain ⟨-, n, taken, -, htake, -⟩ := SearchState.of_finish hend
  obtain ⟨s₁, k₁, warm, rest, hwarm, hvisits, -⟩ := Search.exists_visits_of_tree hx
  have hroot := Search.isFeasible_of_warmUp hm (uncovered_eq_nil_iff.1 hcovers.uncovered_eq_nil)
    hwarm.result_eq condition
  obtain ⟨d, hd, hnodes, hle, -, hdepth, hlt⟩ := hvisits.exists_tallies hroot
  have hstatistics : t.statistics = SearchStatistics.plus { incumbents := warm.length } d := by
    have hstart := Search.statistics_of_warmUp hwarm
    rw [show s.reset.statistics = {} from rfl, SearchStatistics.zero_plus] at hstart
    rw [(Search.statistics_of_takeIncumbent htake).1, hd, hstart]
  have hactive : k₁.numActive .column = m.numActive .column := by
    have hk₁ := (Search.of_warmUp hready hwarm.result_eq).1.similar
    exact ((hk₁.headers .column).numActive_eq).symm
  simp only [hstatistics, SearchStatistics.plus, Nat.zero_add, Nat.zero_max]
  refine ⟨?_, hle, by omega, by omega, fun p hp => hm.exists_run_of_calls h hp⟩
  obtain ⟨-, hcold, hhot⟩ := Search.records_of_warmUp hwarm
  by_cases hwarmStart : s.warmStart = true
  · obtain ⟨columns, g, cost, hgreedy, hcost, hrecorded⟩ := hhot hwarmStart
    have hlimit : s.reset.limit = Cost.limit - 1 := rfl
    have hk₁ := (Search.of_warmUp hready hwarm.result_eq).1.similar
    rw [(totalCost_eq_ok hcost).1, ← hk₁.costOf_eq, hlimit] at hrecorded
    refine ⟨columns, g, k₁, hgreedy, ?_⟩
    rw [hrecorded]
    by_cases hcheap : (columns.map m.costOf).sum < Cost.limit - 1
    · rw [if_pos hcheap, if_pos ⟨hwarmStart, hcheap⟩, List.length_singleton]
      omega
    · rw [if_neg hcheap, if_neg fun hboth => hcheap hboth.2, List.length_nil]
      omega
  · obtain ⟨columns, g, n, hgreedy⟩ :=
      s.greedy.exists_solveAndRestore_eq_ok hready hm.isCompared hcovers
    obtain ⟨-, -, rfl⟩ := hcold (Bool.eq_false_iff.2 hwarmStart)
    refine ⟨columns, g, n, hgreedy, ?_⟩
    rw [if_neg fun hboth => hwarmStart hboth.1, List.length_nil]
    omega

/-- With a warm start, the search finds two covers that cost less than the greedy one.  Two of its
five nodes branch, two improve on the incumbent, and one is pruned. -/
theorem nodes_eq_square : ∃ m s outcome t k columns g n found y,
    ofElements 4 [1, 1, 1, 3]
      [(0, 0), (0, 1), (1, 0), (1, 2), (2, 1), (2, 3), (3, 2), (3, 3)] = .ok m ∧
    Search.ofOptions { lowerBounds := [.mis], selector := .naive } = .ok s ∧
    (s.solve m .indefinite).result = .ok (outcome, t, k) ∧ s.warmStart = true ∧
    (s.greedy.solveAndRestore m).result = .ok (columns, g, n) ∧ (columns.map m.costOf).sum = 4 ∧
    t.statistics.nodes + 1 =
      t.statistics.branches + t.statistics.prunes + t.statistics.incumbents ∧
    t.statistics =
      { nodes := 5, branches := 2, prunes := 1, incumbents := 3, forced := 4, peakDepth := 2 } ∧
    t.statistics.nodes ≤ 2 * t.statistics.branches + 1 ∧
    t.statistics.peakDepth ≤ t.statistics.branches ∧
    ∃ p, s.Calls m .indefinite p ∧ p.run.result = .ok (found, y) ∧ (found = true ↔
      p.state.search.statistics.incumbents < y.search.statistics.incumbents) := by
  obtain ⟨s, hs, hwarmStart, hruns⟩ : ∃ s,
      Search.ofOptions { lowerBounds := [.mis], selector := .naive } = .ok s ∧
      s.warmStart = true ∧ (do
        let m ← ofElements 4 [1, 1, 1, 3]
          [(0, 0), (0, 1), (1, 0), (1, 2), (2, 1), (2, 3), (3, 2), (3, 3)]
        let r ← (s.solve m .indefinite).result
        let g ← (s.greedy.solveAndRestore m).result
        return ((g.1.map m.costOf).sum, r.2.1.statistics)) = .ok (4,
          { nodes := 5, branches := 2, prunes := 1, incumbents := 3, forced := 4,
            peakDepth := 2 }) :=
    ⟨_, rfl, rfl, by decide +kernel⟩
  obtain ⟨m, hm, hruns⟩ := bind_eq_ok_iff.1 hruns
  obtain ⟨⟨outcome, t, k⟩, hsolve, hruns⟩ := bind_eq_ok_iff.1 hruns
  obtain ⟨⟨columns, g, n⟩, hgreedy, hruns⟩ := bind_eq_ok_iff.1 hruns
  obtain ⟨hsum, hstatistics⟩ := Prod.mk.inj (Except.ok.inj hruns)
  have hreachable := Reachable.ofElements (by decide) hm
  obtain ⟨⟨columns', g', n', hgreedy', hnodes⟩, hle, hdepth, -, hcalls⟩ :=
    hreachable.nodes_eq_of_search hsolve
  cases hgreedy.symm.trans hgreedy'
  have hcheap : s.warmStart = true ∧ (columns.map m.costOf).sum < Cost.limit - 1 :=
    ⟨hwarmStart, hsum ▸ by decide⟩
  rw [if_pos hcheap] at hnodes
  obtain ⟨s₁, m₁, -, -, -, -, hwarm, -⟩ := Search.of_solve hsolve
  have hroot : s.Calls m .indefinite _ := ⟨s₁, m₁, hwarm, .refl⟩
  obtain ⟨found, y, hrun, hfound, -⟩ := hcalls _ hroot
  exact ⟨m, s, outcome, t, k, columns, g, n, found, y, hm, hs, hsolve, hwarmStart, hgreedy, hsum,
    hnodes, hstatistics, hle, hdepth, _, hroot, hrun, hfound⟩

end Matrix

end SetCover
