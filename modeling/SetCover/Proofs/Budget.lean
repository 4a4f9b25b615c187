import SetCover.Proofs.Improvement
import SetCover.Proofs.Search.Counters

/-!
# Branch budgets

A branch budget only truncates the search.  A run makes no more branches than its budget allows.  A
larger budget makes the search go on where a smaller one would have stopped it, so what is recorded
under the smaller budget is recorded first under the larger one; and if the smaller budget lasts to
the end of the search, the larger one makes no difference.
-/

namespace SetCover

open SetCover.Matrix

variable {m n k k' : Matrix} {E : List (Nat × Nat)} {o : Options} {s s' t t' : Search}
variable {covers covers' : List Cover} {outcome outcome' : Outcome} {condition : Condition}
variable {condition' : Condition} {columns : List Nat} {budget : Nat} {larger : Option Nat}

/-! ### Conditions -/

namespace Condition

/-- Both conditions are branch budgets, the second one larger or absent, and as many branches have
been made under both. -/
inductive Outlasted : Condition → Condition → Prop
  | mk (budget made : Nat) (larger : Option Nat) : (∀ b ∈ larger, budget ≤ b) →
      Outlasted (.either (.present (.branchBudget budget made)) .absent)
        (.either (.ofOption (larger.map (.branchBudget · made))) .absent)

theorem polled_either_absent (c : Condition) (hc : c.polled = c) :
    (either c absent).polled = either c absent := by
  have hpolled : (either c absent).polled =
      if c.isMet then either c.polled absent else either c.polled absent := rfl
  rw [hpolled, ite_self, hc]

theorem isKept_outlasted : IsKept True Outlasted where
  polled := by
    rintro _ _ ⟨budget, made, larger, hle⟩
    have hkept := Outlasted.mk budget made larger hle
    rwa [polled_either_absent _ rfl, polled_either_absent]
    cases larger <;> rfl
  noteBranch := by
    rintro _ _ ⟨budget, made, larger, hle⟩
    have hkept := Outlasted.mk budget (made + 1) larger hle
    cases larger <;> exact hkept
  isMet_eq_false := by
    rintro _ _ ⟨budget, made, larger, hle⟩ hmet
    cases larger with
    | none => rfl
    | some b =>
        simp only [Option.map_some, ofOption, isMet, Bool.or_false,
          decide_eq_false_iff_not] at hmet ⊢
        exact fun h => hmet ((hle b rfl).trans h)
  isMet_eq_true := fun _ _ _ _ => Or.inl trivial

end Condition

theorem Options.outlasted (htime : o.timeBudget = none) (hle : ∀ b ∈ larger, budget ≤ b) :
    Condition.Outlasted { o with branchBudget := some budget }.condition
      { o with branchBudget := larger }.condition := by
  have hkept := Condition.Outlasted.mk budget 0 larger hle
  rw [condition, condition, htime]
  cases larger <;> exact hkept

/-! ### The number of branches -/

namespace SearchState

variable {x y z z' : SearchState} {inherited depth fuel cost lower c : Nat}

/-- No branch is made between two states. -/
structure IsStraight (x y : SearchState) : Prop where
  condition_eq : y.condition = x.condition
  branches_eq : y.search.statistics.branches = x.search.statistics.branches

theorem IsStraight.trans (h : IsStraight x y) (h' : IsStraight y z) : IsStraight x z :=
  ⟨h'.condition_eq.trans h.condition_eq, h'.branches_eq.trans h.branches_eq⟩

theorem IsStraight.of_eq (h : Agrees x y) (hy : y.search.statistics = x.search.statistics) :
    IsStraight x y :=
  ⟨h.condition_eq, congrArg (·.branches) hy⟩

theorem Evaluates.isStraight (h : Evaluates x inherited depth z cost lower) :
    IsStraight x.poll z := by
  obtain ⟨forced, hz⟩ := h.exists_statistics
  exact ⟨h.agrees.condition_eq, congrArg (·.branches) hz⟩

theorem isStraight_of_branchColumn {column : Option Nat} (h : x.branchColumn = (column, y)) :
    IsStraight x y :=
  .of_eq (of_branchColumn h).2.2.2.1 (statistics_of_branchColumn h)

theorem isStraight_of_select (h : (x.select c).result = .ok y) : IsStraight x y :=
  .of_eq (of_select h).2.2.1 (by rw [search_of_select h])

theorem isStraight_of_reject (h : (x.reject c).result = .ok y) : IsStraight x y :=
  .of_eq (of_reject h).2.2.1 (by rw [search_of_reject h])

theorem isStraight_of_backtrack {i : Nat} (h : x.backtrack i = .ok y) : IsStraight x y :=
  .of_eq (of_backtrack h).2.2.1 (by rw [search_of_backtrack h])

theorem isStraight_of_offer (h : (x.offer cost).Finds y covers) : IsStraight x y :=
  ⟨(of_offer h.result_eq).2.2.2, congrArg (·.branches) (statistics_of_offer h)⟩

/-- The condition is a branch budget that counts the branches of the search, and they are not more
than it allows. -/
structure IsWithin (budget : Nat) (x : SearchState) : Prop where
  condition_eq : x.condition =
    .either (.present (.branchBudget budget x.search.statistics.branches)) .absent
  branches_le : x.search.statistics.branches ≤ budget

namespace IsWithin

theorem congr (h : IsWithin budget x) (hy : IsStraight x y) : IsWithin budget y := by
  refine ⟨?_, hy.branches_eq.trans_le h.branches_le⟩
  rw [hy.condition_eq, hy.branches_eq, h.condition_eq]

theorem poll (h : IsWithin budget x) : IsWithin budget x.poll := by
  refine h.congr ⟨?_, rfl⟩
  rw [SearchState.poll, h.condition_eq]
  exact Condition.polled_either_absent _ rfl

/-- A branch is only made while the budget is not used up. -/
theorem noteBranch (h : IsWithin budget x) (hopens : Opens x inherited depth z cost lower)
    (hbranch : z.branchColumn = (some c, z')) : IsWithin budget z'.noteBranch := by
  have hstraight := hopens.evaluates.isStraight.trans (isStraight_of_branchColumn hbranch)
  have hmet := hopens.isMet_eq
  have hz' := h.poll.congr hstraight
  rw [h.condition_eq] at hmet
  simp only [Condition.isMet, Bool.or_false, decide_eq_false_iff_not, Nat.not_le] at hmet
  have hnoted : z'.noteBranch.condition = z'.condition.noteBranch := rfl
  refine ⟨?_, hstraight.branches_eq.trans_lt hmet⟩
  rw [hnoted, hz'.condition_eq]
  rfl

end IsWithin

/-- However a node ends, the branches are not more than the budget allows. -/
theorem Visits.isWithin (h : Visits x inherited depth fuel y covers) (hx : IsWithin budget x) :
    IsWithin budget y := by
  induction h with
  | exhausted => exact hx
  | stopped => exact hx.poll.congr ⟨rfl, rfl⟩
  | pruned hev => exact (hx.poll.congr hev.isStraight).congr ⟨rfl, rfl⟩
  | leaf hopens _ hoffer =>
      have hz := hx.poll.congr hopens.evaluates.isStraight
      exact (hz.congr (isStraight_of_offer hoffer)).congr ⟨rfl, rfl⟩
  | stuck hopens _ hbranch =>
      have hz := hx.poll.congr hopens.evaluates.isStraight
      exact (hz.congr (isStraight_of_branchColumn hbranch)).congr ⟨rfl, rfl⟩
  | branch hopens _ hbranch hselect _ hback _ ih =>
      have hchild := ih ((hx.noteBranch hopens hbranch).congr (isStraight_of_select hselect))
      exact (hchild.congr (isStraight_of_backtrack hback)).congr ⟨rfl, rfl⟩
  | branchTwice hopens _ hbranch hselect _ hback _ hreject _ hback' ih ih' =>
      have hchild := ih ((hx.noteBranch hopens hbranch).congr (isStraight_of_select hselect))
      have hnode := hchild.congr (isStraight_of_backtrack hback)
      have hchild' := ih' (hnode.congr (isStraight_of_reject hreject))
      exact (hchild'.congr (isStraight_of_backtrack hback')).congr ⟨rfl, rfl⟩

end SearchState

/-! ### Runs -/

namespace Search

/-- A run makes no more branches than its budget allows. -/
theorem branches_le_of_solve (h : (s.solve m (.either (.present (.ofBranches budget))
      .absent)).Finds (outcome, t, k) covers) : t.statistics.branches ≤ budget := by
  obtain ⟨x, hx, hend⟩ := exists_tree_of_solve h
  obtain ⟨-, n, taken, -, htake, -⟩ := SearchState.of_finish hend
  obtain ⟨s₁, k₁, warm, rest, hwarm, hvisits, -⟩ := exists_visits_of_tree hx
  have hbranches : s₁.statistics.branches = 0 :=
    congrArg SearchStatistics.branches (statistics_of_warmUp hwarm)
  have hx : SearchState.IsWithin budget x := by
    refine hvisits.isWithin ⟨?_, hbranches.trans_le (Nat.zero_le _)⟩
    rw [hbranches]
    rfl
  rw [(statistics_of_takeIncumbent htake).1]
  exact hx.branches_le

/-- What a run records under a budget, it records first under a larger one. -/
theorem isPrefix_of_tree {x y : SearchState} (hst : s'.settings = s.settings)
    (hstep : InStep True m m) (hm : m.Unmarked) (hc : Condition.Outlasted condition condition')
    (hx : (s.tree m condition).Finds x covers) (hy : (s'.tree m condition').Finds y covers') :
    covers <+: covers' := by
  have htree := Alike.tree hst hstep hm Condition.isKept_outlasted hc
  obtain ⟨before, hbefore, rfl⟩ := hx
  obtain ⟨after, hafter, rfl⟩ := hy
  suffices hbegin : before <+: after from hbegin.filterMap _
  by_cases hcut : x.search.stopped = true
  · exact htree.isPrefix x before hbefore ⟨trivial, hcut⟩ y after hafter
  · obtain ⟨z, hz, -⟩ := htree.value x before hbefore fun h => hcut h.2
    cases hz.symm.trans hafter
    exact List.prefix_rfl

/-- A run that its budget does not stop ends in the same way under a larger one. -/
theorem solve_eq_ok_of_isOptimal (hst : s'.settings = s.settings) (hstep : InStep True m m)
    (hm : m.Unmarked) (hc : Condition.Outlasted condition condition')
    (h : (s.solve m condition).Finds (outcome, t, k) covers) (hoptimal : outcome.isOptimal = true) :
    ∃ t' k', (s'.solve m condition').result = .ok (outcome, t', k') ∧
      t'.statistics = t.statistics := by
  obtain ⟨x, ⟨before, hbefore, rfl⟩, hend⟩ := exists_tree_of_solve h
  obtain ⟨-, n, taken, -, htake, -, hstopped⟩ := SearchState.of_finish hend
  rw [hoptimal, (statistics_of_takeIncumbent htake).2, eq_comm, Bool.not_eq_true'] at hstopped
  have htree := Alike.tree hst hstep hm Condition.isKept_outlasted hc
  obtain ⟨y, hy, hxy⟩ := htree.value x before hbefore fun h => nomatch hstopped.symm.trans h.2
  obtain ⟨⟨outcome', t', k'⟩, hfinish, houtcome, halike, -⟩ :=
    Traced.Follows.exists_of_result (hxy.finish) hend.result_eq
  cases houtcome
  refine ⟨t', k', ?_, halike.statistics_eq⟩
  rw [solve_eq, Traced.result_bind, bind_eq_ok_iff]
  exact ⟨y, congrArg Traced.result hy, hfinish⟩

end Search

namespace Matrix

/-- Under a branch budget a run makes no more branches than that.  If it proves its cover optimal, a
run under a larger budget, or under none, ends with the same outcome and the same counters.  With a
warm start, or with bounds by independent rows, a run under a larger budget gives a cover that costs
no more. -/
theorem Reachable.truncates_of_budget (hm : Reachable E m) (hs : Search.Used o s)
    (hs' : Search.Used o s') (htime : o.timeBudget = none) (hle : ∀ b ∈ larger, budget ≤ b)
    (h : (s.solve m { o with branchBudget := some budget }.condition).result =
      .ok (outcome, t, k)) :
    t.statistics.branches ≤ budget ∧
    (outcome.isOptimal = true → ∃ t' k',
      (s'.solve m { o with branchBudget := larger }.condition).result = .ok (outcome, t', k') ∧
        t'.statistics = t.statistics) ∧
    (o.warmStart = true ∨ .split ∉ o.lowerBounds ∧
        ((m.active .column).map m.costOf).sum < Cost.limit - 1 →
      ∀ outcome' t' k',
        (s'.solve m { o with branchBudget := larger }.condition).result = .ok (outcome', t', k') →
          outcome'.cover.cost ≤ outcome.cover.cost) := by
  have hready := hm.holds.grounded.isReady
  have hsettings : s'.settings = s.settings := hs'.settings_eq.trans hs.settings_eq.symm
  have houtlasted := Options.outlasted htime hle
  obtain ⟨covers, hfinds⟩ := Traced.Finds.exists_of_result h
  refine ⟨?_, Search.solve_eq_ok_of_isOptimal hsettings hm.inStep_refl hready.unmarked houtlasted
    hfinds, fun ho outcome' t' k' h' => ?_⟩
  · rw [Options.condition, htime] at hfinds
    exact Search.branches_le_of_solve hfinds
  · obtain ⟨covers', hfinds'⟩ := Traced.Finds.exists_of_result h'
    obtain ⟨columns, g, n, hg⟩ := Greedy.exists_solve_eq_ok (.ofKinds o.selector o.dominance)
      hready hm.isCompared (Search.coversOnce_of_solve hready h).covers
    obtain ⟨x, hx, hend⟩ := Search.exists_tree_of_solve hfinds
    obtain ⟨y, hy, hend'⟩ := Search.exists_tree_of_solve hfinds'
    have hcontest : Search.Contest _ columns m s _ x covers :=
      ⟨hready, hm.inStep_refl, hs.mirrors, ⟨g, n, hg⟩, hx⟩
    have hcontest' : Search.Contest _ columns m s' _ y covers' :=
      ⟨hready, hm.inStep_refl, hs'.mirrors, ⟨g, n, hg⟩, hy⟩
    have hbegin :=
      Search.isPrefix_of_tree hsettings hm.inStep_refl hready.unmarked houtlasted hx hy
    have himproves : Search.Improves m s' :=
      ho.imp hs'.warmStart_eq.trans fun ho => ⟨hs'.isIndependent ho.1, ho.2⟩
    exact (hcontest.settles hend).cost_le_of_isPrefix (hcontest'.settles hend') hbegin
      (himproves.first_le hcontest')

/-- Of four rows with two of four columns each, two branches do not suffice to find a cover, and the
greedy solver has to help out; three branches suffice to prove a cheaper cover optimal. -/
theorem truncates_of_budget_square : ∃ m s t k outcome t' k' outcome',
    ofElements 4 [1, 1, 1, 3]
      [(0, 0), (0, 1), (1, 0), (1, 2), (2, 1), (2, 3), (3, 2), (3, 3)] = .ok m ∧
    Search.ofOptions { lowerBounds := [.mis], selector := .naive, warmStart := false } = .ok s ∧
    (s.solve m (Options.condition { branchBudget := some 2 })).result = .ok (outcome, t, k) ∧
    outcome = .feasible ⟨[0, 3], 4⟩ ∧ t.statistics.branches ≤ 2 ∧
    (s.solve m (Options.condition { branchBudget := some 3 })).result = .ok (outcome', t', k') ∧
    outcome' = .optimal ⟨[1, 2], 2⟩ ∧ outcome'.cover.cost ≤ outcome.cover.cost ∧
    ∃ u l, (s.solve m (Options.condition {})).result = .ok (outcome', u, l) ∧
      u.statistics = t'.statistics := by
  obtain ⟨s, hs, hrun⟩ : ∃ s,
      Search.ofOptions { lowerBounds := [.mis], selector := .naive, warmStart := false } = .ok s ∧
      (do
        let m ← ofElements 4 [1, 1, 1, 3]
          [(0, 0), (0, 1), (1, 0), (1, 2), (2, 1), (2, 3), (3, 2), (3, 3)]
        let run ← (s.solve m (Options.condition { branchBudget := some 2 })).result
        let run' ← (s.solve m (Options.condition { branchBudget := some 3 })).result
        return (((m.active .column).map m.costOf).sum, run.1, run'.1) :
          Except Fault (Nat × Outcome × Outcome)) =
        .ok (6, .feasible ⟨[0, 3], 4⟩, .optimal ⟨[1, 2], 2⟩) :=
    ⟨_, rfl, by decide +kernel⟩
  obtain ⟨m, hm, hrun⟩ := bind_eq_ok_iff.1 hrun
  obtain ⟨⟨outcome, t, k⟩, hsolve, hrun⟩ := bind_eq_ok_iff.1 hrun
  obtain ⟨⟨outcome', t', k'⟩, hsolve', hrun⟩ := bind_eq_ok_iff.1 hrun
  obtain ⟨hsum, houtcome, houtcome'⟩ : ((m.active .column).map m.costOf).sum = 6 ∧
      outcome = .feasible ⟨[0, 3], 4⟩ ∧ outcome' = .optimal ⟨[1, 2], 2⟩ := by
    simpa using Except.ok.inj hrun
  have hreachable := Reachable.ofElements (by decide) hm
  have hused := Search.Used.fresh hs
  have hcheap : ((m.active .column).map m.costOf).sum < Cost.limit - 1 := hsum ▸ by decide
  have hlarger : ∀ b ∈ some 3, 2 ≤ b := by decide
  have habsent : ∀ b ∈ (none : Option Nat), 3 ≤ b := by decide
  obtain ⟨hbranches, -, hle⟩ :=
    hreachable.truncates_of_budget hused hused rfl hlarger hsolve
  obtain ⟨-, hend, -⟩ := hreachable.truncates_of_budget hused hused rfl habsent hsolve'
  exact ⟨m, s, t, k, outcome, t', k', outcome', hm, hs, hsolve, houtcome, hbranches, hsolve',
    houtcome', hle (.inr ⟨by decide, hcheap⟩) outcome' t' k' hsolve', hend (houtcome' ▸ rfl)⟩

end Matrix

end SetCover
