import SetCover.Proofs.Fixpoint
import SetCover.Proofs.Search.Calls
import SetCover.Proofs.Search.Records

/-!
# Feasible nodes

A node is feasible if each of its active rows has an element.  Reductions keep a node feasible, and
what they leave has two elements in each row at least.  So both branches of a feasible node are
feasible: selecting a column takes away whole rows, and deleting one leaves each row an element.
After the first branch the column is therefore not essential.

Since every branch deletes a column, fuel for the active columns of a node is enough to explore it.
By induction, all calls of a run are for feasible nodes, and none of them lacks fuel.
-/

namespace SetCover

open SetCover.Matrix

variable {m n k : Matrix} {J : List Deletion} {E : List (Nat × Nat)} {c r : Nat}

/-! ### Columns that are not essential -/

namespace Matrix

/-- A column of which no row has only this one is not essential. -/
theorem WellFormed.isEssential_eq_false (hm : m.WellFormed J) (hc : c ∈ m.active .column)
    (hrows : ∀ r ∈ m.active .row, 2 ≤ (m.line .row r).length) :
    m.isEssential c = .ok false := by
  rw [hm.isEssential_eq hc]
  refine congrArg Except.ok (List.any_eq_false.2 fun r hr => ?_)
  have hactive : r ∈ m.active .row := hm.mem_active_of_mem_line hc hr
  have hcount := hm.count_eq_length_of_mem_active hactive
  have hlength := hrows r hactive
  rw [beq_iff_eq]
  omega

/-- Deleting a column leaves a row that has another one. -/
theorem Trail.line_ne_nil_of_column (h : Trail m [⟨.column, c⟩] n) (hm : m.WellFormed J)
    (hr : r ∈ n.active .row) (hlength : 2 ≤ (m.line .row r).length) : n.line .row r ≠ [] := by
  have hactive := ((h.mem_active_iff hm).1 hr).1
  have hnodup := hm.nodup_line (hm.lt_size_of_mem_active hactive)
  have hpos : 0 < ((m.line .row r).erase c).length := by
    have hle := List.le_length_erase (a := c) (l := m.line .row r)
    omega
  obtain ⟨a, ha⟩ := List.exists_mem_of_length_pos hpos
  obtain ⟨hne, hmem⟩ := (hnodup.mem_erase_iff).1 ha
  exact List.ne_nil_of_mem ((h.mem_line_iff hm hr).2 ⟨hmem, by simpa [Dimension.other]⟩)

end Matrix

namespace SearchState

variable {x y z w x₁ x₂ y₁ : SearchState} {inherited depth fuel cost lower : Nat}
variable {covers : List Cover}

/-! ### Reachable nodes -/

theorem Evaluates.reachable (h : Evaluates x inherited depth z cost lower)
    (hx : Reachable E x.matrix) : Reachable E z.matrix := by
  obtain ⟨x₁, bound, hx₁, -, hz, -⟩ := h
  obtain ⟨⟨reduced, hmatrix, -, hreduced⟩, -⟩ := of_reduce hx₁
  rw [(of_estimate hz).2.1, ← hmatrix]
  exact hx.act (.reduceFully hreduced)

theorem reachable_of_branchColumn {column : Option Nat} (hx : Reachable E x.matrix)
    (h : x.branchColumn = (column, y)) : Reachable E y.noteBranch.matrix := by
  have hmatrix : y.noteBranch.matrix = x.matrix := (of_branchColumn h).2.1
  rwa [hmatrix]

theorem reachable_of_select (hx : Reachable E x.matrix) (h : (x.select c).result = .ok y) :
    Reachable E y.matrix :=
  hx.save.act (.select (of_select h).1)

theorem reachable_of_reject (hx : Reachable E x.matrix) (h : (x.reject c).result = .ok y) :
    Reachable E y.matrix :=
  hx.save.act (.delete (of_reject h).1)

theorem reachable_of_backtrack {n : Nat} (hx : Reachable E x.matrix)
    (h : x.backtrack n = .ok y) : Reachable E y.matrix :=
  hx.restore (of_backtrack h).1

/-- An exploration leads from a reachable matrix to a reachable matrix. -/
theorem Explores.reachable (h : Explores x inherited depth fuel y) (hx : Reachable E x.matrix) :
    Reachable E y.matrix := by
  induction h with
  | exhausted => exact hx
  | stopped => exact hx
  | pruned hev => exact hev.reachable hx
  | leaf hev _ _ hoffer =>
      have hz := hev.reachable hx
      rwa [← (of_offer hoffer).1] at hz
  | stuck hev _ hbranch => exact reachable_of_branchColumn (hev.reachable hx) hbranch
  | branch hev hbranch hselect _ hback _ ih =>
      have hz := reachable_of_branchColumn (hev.reachable hx) hbranch
      have hy := reachable_of_backtrack (ih (reachable_of_select hz hselect)) hback
      exact hy
  | branchTwice hev hbranch hselect _ hback _ hreject _ hback' ih ih' =>
      have hz := reachable_of_branchColumn (hev.reachable hx) hbranch
      have hy := reachable_of_backtrack (ih (reachable_of_select hz hselect)) hback
      have hy' := reachable_of_backtrack (ih' (reachable_of_reject hy hreject)) hback'
      exact hy'

/-! ### Feasible nodes -/

/-- Each active row of the node has an element, and there is fuel for its active columns. -/
structure IsFeasible (E : List (Nat × Nat)) (x : SearchState) (fuel : Nat) : Prop where
  reachable : Reachable E x.matrix
  line_ne_nil : ∀ r ∈ x.matrix.active .row, x.matrix.line .row r ≠ []
  length_lt : (x.matrix.active .column).length < fuel
  limit_lt : x.search.limit < Cost.limit

/-- What the reductions leave of a feasible node. -/
structure IsSettled (E : List (Nat × Nat)) (z : SearchState) (fuel : Nat) : Prop where
  reachable : Reachable E z.matrix
  two_le_length : ∀ r ∈ z.matrix.active .row, 2 ≤ (z.matrix.line .row r).length
  length_le : (z.matrix.active .column).length ≤ fuel
  limit_lt : z.search.limit < Cost.limit

namespace IsSettled

theorem isReady (h : IsSettled E z fuel) : z.matrix.IsReady := h.reachable.holds.grounded.isReady

theorem returns (h : IsSettled E z fuel) (hw : Returns z w) (hreachable : Reachable E w.matrix)
    (hlimit : w.search.limit ≤ z.search.limit) : IsSettled E w fuel := by
  have hsimilar := hw.resembles.similar
  refine ⟨hreachable, ?_, hsimilar.active_eq ▸ h.length_le, hlimit.trans_lt h.limit_lt⟩
  rw [← hsimilar.active_eq, ← hsimilar.line_eq]
  exact h.two_le_length

/-- Some column covers a row that is left. -/
theorem exists_branchColumn (h : IsSettled E z fuel) (hrows : z.matrix.numActive .row ≠ 0) :
    ∃ c y, z.branchColumn = (some c, y) := by
  cases hbranch : z.branchColumn with
  | mk column y =>
      cases column with
      | some c => exact ⟨c, y, rfl⟩
      | none =>
          have hvalid := h.isReady.isValid
          have hnone := Selector.candidates_eq_nil (of_branchColumn hbranch).1
          have huncovered : z.matrix.uncovered = [] := uncovered_eq_nil_iff.2 fun r hr =>
            List.ne_nil_of_length_pos (Nat.zero_lt_two.trans_le (h.two_le_length r hr))
          rw [hvalid.uncovered_eq_active_row hnone] at huncovered
          rw [hvalid.numActive_eq, huncovered] at hrows
          exact absurd rfl hrows

theorem select (h : IsSettled E w fuel) (hselect : (w.select c).result = .ok x₁) :
    IsFeasible E x₁ fuel := by
  obtain ⟨hmatrix, -, hagrees, -⟩ := of_select hselect
  obtain ⟨hdeletes, -, hlt, hdeleted⟩ := deletes_of_select hmatrix
  have hvalid := h.isReady.save.isValid
  have hc := (WellFormed.isDeleted_iff hvalid hlt).1 hdeleted
  refine ⟨reachable_of_select h.reachable hselect, fun r hr => ?_, ?_, ?_⟩
  · have hlength := h.two_le_length r (hdeletes.advances.active_subset hvalid _ hr)
    exact hdeletes.trail.line_ne_nil_of_select hvalid hr
      (List.ne_nil_of_length_pos (Nat.zero_lt_two.trans_le hlength))
  · exact (hdeletes.trail.length_active_lt hvalid hc (by simp [selection])).trans_le h.length_le
  · exact hagrees.limit_eq.trans_lt h.limit_lt

theorem reject (h : IsSettled E w fuel) (hreject : (w.reject c).result = .ok x₂) :
    IsFeasible E x₂ fuel := by
  obtain ⟨hdelete, -, hagrees, -⟩ := of_reject hreject
  have hvalid := h.isReady.save.isValid
  have htrail := Trail.of_delete hdelete
  have hc := hvalid.mem_active_of_deleted (deleted_of_delete hdelete)
  refine ⟨reachable_of_reject h.reachable hreject, fun r hr => ?_, ?_, ?_⟩
  · have hlength := h.two_le_length r ((htrail.mem_active_iff hvalid).1 hr).1
    exact htrail.line_ne_nil_of_column hvalid hr hlength
  · exact (htrail.length_active_lt hvalid hc (by simp)).trans_le h.length_le
  · exact hagrees.limit_eq.trans_lt h.limit_lt

end IsSettled

theorem IsFeasible.isSettled (h : IsFeasible E x (fuel + 1))
    (hev : Evaluates x inherited depth z cost lower) : IsSettled E z fuel := by
  have hready := h.reachable.holds.grounded.isReady
  have hreachable := hev.reachable h.reachable
  obtain ⟨N, -, hreduces⟩ := (hev.evaluated hready).exists_reduces
  refine ⟨hreachable, fun r hr => ?_, ?_, ?_⟩
  · obtain ⟨x₁, bound, hx₁, -, hz, -⟩ := hev
    obtain ⟨⟨reduced, hmatrix, -, hreduced⟩, -⟩ := of_reduce hx₁
    have hx : Reachable E (Reduction.mk x.matrix x.chosen []).matrix := h.reachable
    obtain ⟨-, -, y, hy, -, hisReduced, -⟩ :=
      hx.exists_isReduced (DominanceRule.dependsOnCosts_comparator x.search.dominance)
    cases hy.symm.trans hreduced
    have hne : (z.matrix.line .row r).length ≠ 1 := by
      rw [(of_estimate hz).2.1, ← hmatrix] at hr ⊢
      exact hisReduced.length_ne_one r hr
    have hsome := hreduces.line_ne_nil hready.isValid hr
      (h.line_ne_nil r (hreduces.advances.active_subset hready.isValid _ hr))
    have hpos := List.length_pos_iff.2 hsome
    omega
  · have hle := hreduces.advances.length_active_le (d := .column) hready.isValid
    exact Nat.le_of_lt_succ (hle.trans_lt h.length_lt)
  · exact hev.agrees.limit_eq.trans_lt h.limit_lt

/-- The state before a branch is made is what the reductions leave. -/
theorem IsFeasible.isSettled_of_branches (h : IsFeasible E x (fuel + 1))
    (hb : Branches x inherited depth z cost lower c w) : IsSettled E w fuel := by
  obtain ⟨z', hbranch, rfl⟩ := hb.exists_branchColumn
  have hz := h.isSettled hb.evaluates
  exact hz.returns (returns_of_branchColumn hbranch)
    (reachable_of_branchColumn hz.reachable hbranch) (of_branchColumn hbranch).2.2.2.1.limit_eq.le

/-- After the first branch, what the reductions have left is there again. -/
theorem IsSettled.backtrack (h : IsSettled E w fuel) (hselect : (w.select c).result = .ok x₁)
    (hchild : Visits x₁ inherited depth fuel y₁ covers)
    (hback : y₁.backtrack w.chosen.length = .ok y) : IsSettled E y fuel ∧ Returns w y := by
  have hreturns := returns_of_explores h.isReady (progress_of_select hselect)
    (fun hready => hchild.explores.progress hready) hback
  have hreachable := hchild.explores.reachable (reachable_of_select h.reachable hselect)
  have hlimit : y.search.limit ≤ w.search.limit :=
    calc y.search.limit
        = y₁.search.limit := (of_backtrack hback).2.2.1.limit_eq
      _ ≤ x₁.search.limit := hchild.records.limit_anti
      _ = w.search.limit := (of_select hselect).2.2.1.limit_eq
  exact ⟨h.returns hreturns (reachable_of_backtrack hreachable hback) hlimit, hreturns⟩

/-- After the first branch, its column is not essential and can be rejected. -/
theorem IsSettled.exists_reject (h : IsSettled E w fuel) (hselect : (w.select c).result = .ok x₁)
    (hy : IsSettled E y fuel) (hreturns : Returns w y) :
    y.matrix.isEssential c = .ok false ∧ ∃ x₂, (y.reject c).result = .ok x₂ := by
  obtain ⟨-, -, hlt, hdeleted⟩ := deletes_of_select (of_select hselect).1
  have hc : c ∈ w.matrix.active .column :=
    (WellFormed.isDeleted_iff h.isReady.save.isValid hlt).1 hdeleted
  rw [hreturns.resembles.similar.active_eq] at hc
  obtain ⟨k, hk⟩ := hy.isReady.save.isValid.exists_delete_eq_ok (d := .column) hc
  refine ⟨hy.isReady.isValid.isEssential_eq_false hc hy.two_le_length,
    { y with matrix := k }, ?_⟩
  simp only [SearchState.reject, Traced.result_bind, Traced.result_liftM]
  rw [hk]
  rfl

namespace Call

variable {p q : Call}

/-- A call makes calls for feasible nodes, and leaves them enough fuel. -/
theorem Makes.isFeasible (h : Makes p q) (hp : IsFeasible E p.state p.fuel) :
    IsFeasible E q.state q.fuel := by
  cases h with
  | select hb hselect => exact (hp.isSettled_of_branches hb).select hselect
  | reject hb hselect hchild hback _ _ hreject =>
      obtain ⟨covers, hfinds⟩ := Traced.Finds.exists_of_result hchild
      have hw := hp.isSettled_of_branches hb
      exact (hw.backtrack hselect (visits_of_explore hfinds).1 hback).1.reject hreject

/-- If a call returns, the calls that it makes return. -/
theorem Makes.returns (h : Makes p q) (hp : IsFeasible E p.state p.fuel)
    (hreturns : ∃ r, p.run.result = .ok r) : ∃ r, q.run.result = .ok r := by
  obtain ⟨r, hr⟩ := hreturns
  have hlower : ∀ {x z w : SearchState} {inherited depth fuel cost lower c : Nat},
      IsFeasible E x (fuel + 1) → Branches x inherited depth z cost lower c w →
      lower < Cost.limit := fun hx hb =>
    hb.lower_lt.trans_le (hb.evaluates.agrees.limit_eq.trans_lt hx.limit_lt).le
  cases h with
  | select hb hselect =>
      obtain ⟨x₁, found, y₁, y, hx₁, hy₁, -⟩ := hb.exists_of_explore (hlower hp hb) hr
      cases hselect.symm.trans hx₁
      exact ⟨_, hy₁⟩
  | reject hb hselect hchild hback hstopped hlt hreject =>
      obtain ⟨x₁, found, y₁, y, hx₁, hy₁, hy, hagain⟩ := hb.exists_of_explore (hlower hp hb) hr
      cases hselect.symm.trans hx₁
      cases hchild.symm.trans hy₁
      cases hback.symm.trans hy
      obtain ⟨x₂, r₂, hx₂, hr₂⟩ := hagain hstopped hlt
      cases hreject.symm.trans hx₂
      exact ⟨r₂, hr₂⟩

end Call

end SearchState

/-! ### Runs -/

namespace Search

open SearchState

variable {s t : Search} {condition : Condition} {outcome : Outcome} {p : Call}

theorem reachable_of_warmUp (hm : Reachable E m) (h : (s.warmUp m).result = .ok (t, k)) :
    Reachable E k := by
  rw [warmUp] at h
  split at h
  · simp only [Traced.result_bind, Traced.result_liftM, bind_eq_ok_iff] at h
    obtain ⟨⟨columns, s₁, k'⟩, hgreedy, cost, -, t', -, h⟩ := h
    cases h
    exact hm.act (.greedyAndRestore (solveAndRestore_of_runGreedily hgreedy).1)
  · cases h
    exact hm

theorem limit_lt_of_warmUp (h : (s.reset.warmUp m).result = .ok (t, k)) :
    t.limit < Cost.limit := by
  obtain ⟨covers, hfinds⟩ := Traced.Finds.exists_of_result h
  have hreset : s.reset.limit = Cost.limit - 1 := rfl
  exact (records_of_warmUp hfinds).1.limit_anti.trans_lt (hreset ▸ Nat.sub_one_lt (by decide))

/-- The root of a run is feasible, with fuel for every active column. -/
theorem isFeasible_of_warmUp (hm : Reachable E m)
    (hrows : ∀ r ∈ m.active .row, m.line .row r ≠ [])
    (h : (s.reset.warmUp m).result = .ok (t, k)) (condition : Condition) :
    IsFeasible E { search := t, condition, matrix := k.save } (k.numActive .column + 1) := by
  have hk := reachable_of_warmUp hm h
  have hroot := isRoot_of_warmUp hm.holds.grounded.isReady h condition
  refine ⟨hk.save, ?_, ?_, limit_lt_of_warmUp h⟩
  · rwa [← hroot.similar.active_eq, ← hroot.similar.line_eq]
  · rw [hk.holds.grounded.isValid.numActive_eq]
    exact Nat.lt_succ_self _

/-- All calls of a run are for feasible nodes. -/
theorem Calls.isFeasible (hp : s.Calls m condition p) (hm : Reachable E m)
    (hrows : ∀ r ∈ m.active .row, m.line .row r ≠ []) : IsFeasible E p.state p.fuel := by
  obtain ⟨t, k, hwarm, hcalls⟩ := hp
  induction hcalls with
  | refl => exact isFeasible_of_warmUp hm hrows hwarm condition
  | tail _ hmakes ih => exact hmakes.isFeasible ih

/-- If a run returns, all its calls return. -/
theorem Calls.returns (hp : s.Calls m condition p) (hm : Reachable E m)
    (h : (s.solve m condition).result = .ok (outcome, t, k)) : ∃ r, p.run.result = .ok r := by
  have hrows := (coversOnce_of_solve hm.holds.grounded.isReady h).covers.uncovered_eq_nil
  rw [uncovered_eq_nil_iff] at hrows
  obtain ⟨s₁, m₁, found, x, -, -, hwarm, hexplore, -⟩ := of_solve h
  obtain ⟨t₁, k₁, hwarm', hcalls⟩ := hp
  cases hwarm.symm.trans hwarm'
  induction hcalls with
  | refl => exact ⟨_, hexplore⟩
  | tail hcalls hmakes ih =>
      exact hmakes.returns (Calls.isFeasible ⟨_, _, hwarm, hcalls⟩ hm hrows) ih

end Search

namespace Matrix

open SearchState

variable {s t : Search} {condition : Condition} {outcome : Outcome} {p : Call}

/-- At each node of a run every active row has an element, before and after the reductions.  If rows
are left, the node branches on a column.  This column is not essential after the first branch, so
when it is rejected every active row has an element again.  Since the run gives a cover, every row
has an element at its beginning. -/
theorem Reachable.isEssential_eq_false_of_search (hm : Reachable E m)
    (h : (s.solve m condition).result = .ok (outcome, t, k)) (hp : s.Calls m condition p) :
    ∃ fuel, p.fuel = fuel + 1 ∧
      (∀ r ∈ p.state.matrix.active .row, p.state.matrix.line .row r ≠ []) ∧
      ∀ z cost lower, Evaluates p.state p.inherited p.depth z cost lower →
        (∀ r ∈ z.matrix.active .row, z.matrix.line .row r ≠ []) ∧
        (Opens p.state p.inherited p.depth z cost lower → z.matrix.numActive .row ≠ 0 →
          ∃ c w x₁ found y₁ y x₂, Branches p.state p.inherited p.depth z cost lower c w ∧
            (w.select c).result = .ok x₁ ∧
            (x₁.explore lower (p.depth + 1) fuel).result = .ok (found, y₁) ∧
            y₁.backtrack w.chosen.length = .ok y ∧ y.matrix.isEssential c = .ok false ∧
            (y.reject c).result = .ok x₂ ∧
            ∀ r ∈ x₂.matrix.active .row, x₂.matrix.line .row r ≠ []) := by
  have hrows := (Search.coversOnce_of_solve hm.holds.grounded.isReady h).covers.uncovered_eq_nil
  have hfeasible := hp.isFeasible hm (uncovered_eq_nil_iff.1 hrows)
  obtain ⟨r, hr⟩ := hp.returns hm h
  obtain ⟨x, inherited, depth, fuel⟩ := p
  obtain ⟨fuel, rfl⟩ : ∃ f, fuel = f + 1 :=
    Nat.exists_eq_add_one_of_ne_zero (Nat.ne_zero_of_lt hfeasible.length_lt)
  refine ⟨fuel, rfl, hfeasible.line_ne_nil, fun z cost lower hev => ?_⟩
  have hz := hfeasible.isSettled hev
  refine ⟨fun r hr => List.ne_nil_of_length_pos (Nat.zero_lt_two.trans_le (hz.two_le_length r hr)),
    fun hopens hleft => ?_⟩
  obtain ⟨c, z', hbranch⟩ := hz.exists_branchColumn hleft
  have hb : Branches x inherited depth z cost lower c z'.noteBranch :=
    ⟨hopens, hleft, z', hbranch, rfl⟩
  have hlower := hopens.lower_lt.trans hz.limit_lt
  obtain ⟨x₁, found, y₁, y, hx₁, hy₁, hy, -⟩ := hb.exists_of_explore hlower hr
  obtain ⟨covers, hfinds⟩ := Traced.Finds.exists_of_result hy₁
  have hw := hfeasible.isSettled_of_branches hb
  obtain ⟨hsettled, hreturns⟩ := hw.backtrack hx₁ (visits_of_explore hfinds).1 hy
  obtain ⟨hessential, x₂, hx₂⟩ := hw.exists_reject hx₁ hsettled hreturns
  exact ⟨c, _, x₁, found, y₁, y, x₂, hb, hx₁, hy₁, hy, hessential, hx₂,
    (hsettled.reject hx₂).line_ne_nil⟩

/-- If each of three rows has two of three columns, the search branches at its root.  When the first
branch is undone, no row has only the column that was selected. -/
theorem isEssential_eq_false_triangle : ∃ m s start outcome t k z cost lower c w x₁ found y₁ y x₂,
    ofElements 3 [1, 1, 1] [(0, 0), (0, 1), (1, 1), (1, 2), (2, 2), (2, 0)] = .ok m ∧
    Search.ofOptions { lowerBounds := [.mis], selector := .naive, warmStart := false } = .ok s ∧
    (s.solve m .indefinite).result = .ok (outcome, t, k) ∧ t.statistics.branches = 1 ∧
    start = { search := s.reset, condition := .indefinite, matrix := m.save } ∧
    z.matrix.numActive .row = 3 ∧ Branches start 0 0 z cost lower c w ∧
    (w.select c).result = .ok x₁ ∧ (x₁.explore lower 1 3).result = .ok (found, y₁) ∧
    y₁.backtrack w.chosen.length = .ok y ∧ y.matrix.isEssential c = .ok false ∧
    (y.reject c).result = .ok x₂ ∧ ∀ r ∈ x₂.matrix.active .row, x₂.matrix.line .row r ≠ [] := by
  obtain ⟨s, hs, hwarm, hruns⟩ : ∃ s,
      Search.ofOptions { lowerBounds := [.mis], selector := .naive, warmStart := false } = .ok s ∧
      (∀ m, (s.reset.warmUp m).result = .ok (s.reset, m)) ∧ (do
        let m ← ofElements 3 [1, 1, 1] [(0, 0), (0, 1), (1, 1), (1, 2), (2, 2), (2, 0)]
        let r ← (s.solve m .indefinite).result
        let start : SearchState :=
          { search := s.reset, condition := .indefinite, matrix := m.save }
        let x ← ((start.poll.enter 0).reduce).result
        let cost ← x.matrix.totalCost x.chosen
        let e ← x.estimate
        return (r.2.1.statistics.branches, m.numActive .column,
          decide (max 0 (e.1 + cost) < e.2.search.limit), e.2.matrix.numActive .row)) =
          .ok (1, 3, true, 3) :=
    ⟨_, rfl, fun _ => rfl, by decide +kernel⟩
  obtain ⟨m, hm, hruns⟩ := bind_eq_ok_iff.1 hruns
  obtain ⟨⟨outcome, t, k⟩, hsolve, hruns⟩ := bind_eq_ok_iff.1 hruns
  obtain ⟨x, hx, hruns⟩ := bind_eq_ok_iff.1 hruns
  obtain ⟨cost, hcost, hruns⟩ := bind_eq_ok_iff.1 hruns
  obtain ⟨⟨bound, z⟩, hz, hruns⟩ := bind_eq_ok_iff.1 hruns
  have heq := Except.ok.inj hruns
  simp only [Prod.mk.injEq, decide_eq_true_eq] at heq
  obtain ⟨hbranches, hcolumns, hlower, hrows⟩ := heq
  have hreachable : Reachable [(0, 0), (0, 1), (1, 1), (1, 2), (2, 2), (2, 0)] m :=
    .ofElements (by decide) hm
  obtain ⟨fuel, hfuel, -, hnode⟩ :=
    hreachable.isEssential_eq_false_of_search hsolve ⟨_, _, hwarm m, .refl⟩
  obtain rfl : fuel = 3 := (Nat.succ.inj hfuel).symm.trans hcolumns
  have hev : Evaluates { search := s.reset, condition := .indefinite, matrix := m.save } 0 0 z cost
      (max 0 (bound + cost)) := ⟨x, bound, hx, hcost, hz, rfl⟩
  obtain ⟨c, w, x₁, found, y₁, y, x₂, hb, hx₁, hy₁, hy, hessential, hx₂, hline⟩ :=
    (hnode z cost _ hev).2 ⟨rfl, hev, hlower⟩ (by omega)
  exact ⟨m, s, _, outcome, t, k, z, cost, _, c, w, x₁, found, y₁, y, x₂, hm, hs, hsolve, hbranches,
    rfl, hrows, hb, hx₁, hy₁, hy, hessential, hx₂, hline⟩

end Matrix

end SetCover
