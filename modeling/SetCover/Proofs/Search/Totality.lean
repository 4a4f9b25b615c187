import SetCover.Proofs.Bound.Degrees
import SetCover.Proofs.Improvement
import SetCover.Proofs.Search.Feasible

/-!
# Searches without overflow

The columns that are chosen at a node and those of a cover of what is left are different active
columns of the root.  So if the active columns of the root together have a price, the chosen columns
have one at every node, and a bound by independent rows can be added to it.  Every node is evaluated
then, and by induction on the fuel every exploration returns.
-/

namespace SetCover

open SetCover.Matrix

variable {root m n k : Matrix} {E : List (Nat × Nat)} {J : List Deletion} {S : Finset Nat}
variable {columns : List Nat}

/-- If every active row has an element, the active columns are a cover. -/
theorem Matrix.WellFormed.covers_active (hm : m.WellFormed J)
    (hrows : ∀ r ∈ m.active .row, m.line .row r ≠ []) :
    m.Covers (m.active .column).toFinset := by
  refine ⟨fun c hc => List.mem_toFinset.1 hc, fun r hr => ?_⟩
  obtain ⟨c, hc⟩ := List.exists_mem_of_ne_nil _ (hrows r hr)
  exact ⟨c, List.mem_toFinset.2 (hm.mem_active_of_mem_line hr hc), hc⟩

theorem Search.isIndependent_of_settings_eq {s t : Search} (h : t.settings = s.settings)
    (hs : s.lowerBound.IsIndependent) : t.lowerBound.IsIndependent := by
  have hkinds : t.lowerBound.kinds = s.lowerBound.kinds := congrArg Settings.lowerBounds h
  rw [LowerBound.isIndependent_iff] at hs ⊢
  rwa [hkinds]

theorem Search.exists_offer_eq_ok (s : Search) (columns : List Nat) (cost : Nat) :
    ∃ t, (s.offer columns cost).result = .ok t := by
  rw [offer]
  split <;> exact ⟨_, rfl⟩

namespace SearchState

variable {x y z w x₁ x₂ y₁ : SearchState} {inherited depth fuel cost lower c : Nat}

/-! ### The evaluation of a node -/

theorem Evaluates.unique {z' : SearchState} {cost' lower' : Nat}
    (h : Evaluates x inherited depth z cost lower)
    (h' : Evaluates x inherited depth z' cost' lower') :
    z' = z ∧ cost' = cost ∧ lower' = lower := by
  obtain ⟨x₁, bound, hx₁, hcost, hz, rfl⟩ := h
  obtain ⟨x₂, bound', hx₂, hcost', hz', rfl⟩ := h'
  cases hx₁.symm.trans hx₂
  cases hcost.symm.trans hcost'
  cases hz.symm.trans hz'
  exact ⟨rfl, rfl, rfl⟩

/-- The node is below the root, its bounds are by independent rows, and what every cover below it is
known to cost is no more than what the active columns of the root cost together. -/
structure IsBounded (root : Matrix) (x : SearchState) (inherited : Nat) : Prop where
  isNode : IsNode root x
  isIndependent : x.search.lowerBound.IsIndependent
  inherited_le : inherited ≤ ((root.active .column).map root.costOf).sum

namespace IsBounded

theorem exists_reduce_eq_ok (h : IsBounded root x inherited) (hx : IsFeasible E x fuel)
    (depth : Nat) : ∃ x₁, ((x.poll.enter depth).reduce).result = .ok x₁ ∧ IsNode root x₁ ∧
      Reachable E x₁.matrix ∧ (∀ r ∈ x₁.matrix.active .row, x₁.matrix.line .row r ≠ []) ∧
      x₁.search.lowerBound.IsIndependent := by
  have hreachable : Reachable E (Reduction.mk x.matrix x.chosen []).matrix := hx.reachable
  obtain ⟨-, -, -, -, y, hy⟩ := hreachable.exists_reduced x.search.dominance.comparator
  obtain ⟨x₁, hx₁⟩ : ∃ x₁, ((x.poll.enter depth).reduce).result = .ok x₁ := by
    exact ⟨_, Traced.result_bind_eq_ok_iff.2 ⟨y, hy, rfl⟩⟩
  have hready := h.isNode.isReady
  obtain ⟨⟨N, hN, hreduces⟩, hmarks⟩ :=
    exists_reduces_of_reduce (x := x.poll.enter depth) hready hx₁
  obtain ⟨⟨reduced, hmatrix, -, hreduced⟩, -, hbound⟩ := of_reduce hx₁
  refine ⟨x₁, hx₁, (h.isNode.of_picks ⟨hreduces.advances, hmarks, N, hN⟩
    (hreduces.picks hready.isValid) hN).1, ?_, fun r hr => ?_, hbound ▸ h.isIndependent⟩
  · exact hmatrix ▸ hreachable.act (.reduceFully hreduced)
  · exact hreduces.line_ne_nil hready.isValid hr
      (hx.line_ne_nil r (hreduces.advances.active_subset hready.isValid _ hr))

/-- A feasible node is evaluated, and the bound that is found leaves room for all active columns. -/
theorem exists_evaluates (h : IsBounded root x inherited) (hroot : Reachable E root)
    (hsum : ((root.active .column).map root.costOf).sum < Cost.limit) (hx : IsFeasible E x fuel)
    (depth : Nat) :
    ∃ z cost lower, Evaluates x inherited depth z cost lower ∧ IsBounded root z lower := by
  obtain ⟨x₁, hx₁, hnode, hreachable, hrows, hindependent⟩ := h.exists_reduce_eq_ok hx depth
  have hvalid := hnode.isReady.isValid
  have hcovers := hvalid.covers_active hrows
  have hprice := hnode.picks.price_le hroot.holds.grounded.isValid hcovers
  have hcost : x₁.matrix.totalCost x₁.chosen = .ok (x₁.chosen.map root.costOf).sum := by
    rw [← hnode.costOf_eq]
    refine totalCost_eq_ok_of_lt (fun c hc => ?_) ?_
    · rw [hnode.costs_eq, hroot.size_costs_eq]
      exact hroot.holds.grounded.isValid.lt_size_of_mem_active (hnode.picks.mem_active c hc)
    · rw [hnode.costOf_eq]
      omega
  rw [← hnode.price_eq] at hprice
  have hsize := (hvalid.length_active_le .row).trans (hreachable.fitsWords.size_le .row)
  obtain ⟨bound, l, hl⟩ := hindependent.exists_estimate_eq_ok hvalid
    (hsize.trans_lt (by decide)) hcovers (by omega)
  obtain ⟨hindependent', hbound⟩ := hindependent.estimate_le_price hvalid hl
  have hle := hbound _ hcovers
  have hestimate : x₁.estimate =
      .ok (bound, { x₁ with search := { x₁.search with lowerBound := l } }) := by
    rw [estimate, hl]
    rfl
  refine ⟨_, _, _, ⟨x₁, bound, hx₁, hcost, hestimate, rfl⟩,
    ⟨hnode.isReady, hnode.costs_eq, hnode.picks⟩, hindependent', max_le h.inherited_le ?_⟩
  omega

theorem evaluates (h : IsBounded root x inherited) (hroot : Reachable E root)
    (hsum : ((root.active .column).map root.costOf).sum < Cost.limit) (hx : IsFeasible E x fuel)
    (hev : Evaluates x inherited depth z cost lower) : IsBounded root z lower := by
  obtain ⟨z', cost', lower', hev', hz'⟩ := h.exists_evaluates hroot hsum hx depth
  obtain ⟨rfl, rfl, rfl⟩ := hev.unique hev'
  exact hz'

/-! ### The branches of a node -/

theorem returns (h : IsBounded root z lower) (hreturns : Returns z w)
    (hsettings : w.search.settings = z.search.settings) : IsBounded root w lower :=
  ⟨h.isNode.returns hreturns, Search.isIndependent_of_settings_eq hsettings h.isIndependent,
    h.inherited_le⟩

theorem branchColumn (h : IsBounded root z lower) (hbranch : z.branchColumn = (some c, w)) :
    IsBounded root w.noteBranch lower := by
  have hsettings : w.noteBranch.search.settings = w.search.settings := rfl
  exact h.returns (returns_of_branchColumn hbranch)
    (hsettings.trans (settings_of_branchColumn hbranch))

theorem select (h : IsBounded root w lower) (hselect : (w.select c).result = .ok x₁) :
    IsBounded root x₁ lower :=
  ⟨(h.isNode.select hselect).1.isNode,
    Search.isIndependent_of_settings_eq (settings_of_select hselect) h.isIndependent,
    h.inherited_le⟩

theorem reject (h : IsBounded root w lower) (hreject : (w.reject c).result = .ok x₂) :
    IsBounded root x₂ lower :=
  ⟨(h.isNode.reject hreject).1.isNode,
    Search.isIndependent_of_settings_eq (settings_of_reject hreject) h.isIndependent,
    h.inherited_le⟩

/-- After the first branch, the node is what it was. -/
theorem backtrack (h : IsBounded root w lower) (hselect : (w.select c).result = .ok x₁)
    (hchild : Explores x₁ inherited depth fuel y₁)
    (hback : y₁.backtrack w.chosen.length = .ok y) : IsBounded root y lower := by
  refine h.returns (returns_of_explores h.isNode.isReady (progress_of_select hselect)
    hchild.progress hback) ?_
  rw [settings_of_backtrack hback, hchild.settings_eq, settings_of_select hselect]

end IsBounded

/-! ### Explorations -/

theorem exists_offer_eq_ok (x : SearchState) (cost : Nat) : ∃ y, (x.offer cost).result = .ok y := by
  obtain ⟨s, hs⟩ := x.search.exists_offer_eq_ok x.chosen cost
  exact ⟨_, Traced.result_bind_eq_ok_iff.2 ⟨s, hs, rfl⟩⟩

theorem exists_select_eq_ok (hw : w.matrix.IsReady) (hc : c ∈ w.matrix.active .column) :
    ∃ x₁, (w.select c).result = .ok x₁ := by
  obtain ⟨-, k, -, -, hk⟩ := hw.save.isValid.exists_select_eq_ok (c := c) hc
  exact ⟨_, Traced.result_bind_eq_ok_iff.2 ⟨k, congrArg Traced.result hk, rfl⟩⟩

theorem exists_backtrack_eq_ok (hw : w.matrix.IsReady) (hchild : Progress w.saved x₁)
    (hexplores : Explores x₁ inherited depth fuel y₁) (n : Nat) :
    ∃ y, y₁.backtrack n = .ok y := by
  have hprogress := hchild.trans (hexplores.progress (hchild.isReady hw.save)).1
  obtain ⟨k, hk, -⟩ := hprogress.advances.exists_restore_eq_ok hw.isValid
  exact ⟨_, by rw [SearchState.backtrack, hk]; rfl⟩

/-- If the explorations of feasible nodes return, the first branch is made and undone, and the
second one can be made. -/
theorem IsSettled.exists_first (hw : IsSettled E w fuel) (hb : IsBounded root w lower)
    (hc : c ∈ w.matrix.active .column)
    (hexplore : ∀ x, IsFeasible E x fuel → IsBounded root x lower →
      ∃ r, (x.explore lower depth fuel).result = .ok r) :
    ∃ x₁ found y₁ y x₂, (w.select c).result = .ok x₁ ∧
      (x₁.explore lower depth fuel).result = .ok (found, y₁) ∧
      y₁.backtrack w.chosen.length = .ok y ∧ IsSettled E y fuel ∧ IsBounded root y lower ∧
      (y.reject c).result = .ok x₂ := by
  obtain ⟨x₁, hx₁⟩ := exists_select_eq_ok hw.isReady hc
  obtain ⟨⟨found, y₁⟩, hy₁⟩ := hexplore x₁ (hw.select hx₁) (hb.select hx₁)
  obtain ⟨covers, hfinds⟩ := Traced.Finds.exists_of_result hy₁
  have hvisits := (visits_of_explore hfinds).1
  obtain ⟨y, hy⟩ := exists_backtrack_eq_ok hw.isReady (progress_of_select hx₁) hvisits.explores
    w.chosen.length
  obtain ⟨hsettled, hreturns⟩ := hw.backtrack hx₁ hvisits hy
  obtain ⟨-, x₂, hx₂⟩ := hw.exists_reject hx₁ hsettled hreturns
  exact ⟨x₁, found, y₁, y, x₂, hx₁, hy₁, hy, hsettled, hb.backtrack hx₁ hvisits.explores hy, hx₂⟩

/-- An exploration of a feasible node returns. -/
theorem IsFeasible.exists_explore_eq_ok (hx : IsFeasible E x fuel) (hb : IsBounded root x inherited)
    (hroot : Reachable E root) (hsum : ((root.active .column).map root.costOf).sum < Cost.limit)
    (depth : Nat) : ∃ r, (x.explore inherited depth fuel).result = .ok r := by
  induction fuel generalizing x inherited depth with
  | zero => exact ⟨_, rfl⟩
  | succ fuel ih =>
      cases hmet : x.condition.isMet with
      | true =>
          rw [explore, hmet]
          exact ⟨_, rfl⟩
      | false =>
          obtain ⟨z, cost, lower, hev, hz⟩ := hb.exists_evaluates hroot hsum hx depth
          have hexplore : ∀ x, IsFeasible E x fuel → IsBounded root x lower →
              ∃ r, (x.explore lower (depth + 1) fuel).result = .ok r :=
            fun x hx hb => ih hx hb (depth + 1)
          rw [result_explore hmet hev (hz.inherited_le.trans_lt hsum)]
          split_ifs with hpruned hrows
          · exact ⟨_, rfl⟩
          · obtain ⟨y, hy⟩ := z.exists_offer_eq_ok cost
            rw [hy]
            exact ⟨_, rfl⟩
          · obtain ⟨c, z', hbranch⟩ := (hx.isSettled hev).exists_branchColumn hrows
            have hb : Branches x inherited depth z cost lower c z'.noteBranch :=
              ⟨⟨hmet, hev, Nat.lt_of_not_le hpruned⟩, hrows, z', hbranch, rfl⟩
            have hw := hx.isSettled_of_branches hb
            obtain ⟨hcolumn, hmatrix, -⟩ := of_branchColumn hbranch
            have hc : c ∈ z'.noteBranch.matrix.active .column :=
              hmatrix.symm ▸ Selector.mem_active_of_select hcolumn
            obtain ⟨x₁, found, y₁, y, x₂, hx₁, hy₁, hy, hsettled, hbounded, hx₂⟩ :=
              hw.exists_first (hz.branchColumn hbranch) hc hexplore
            rw [hbranch]
            simp only [hx₁, ok_bind, hy₁, hy]
            split_ifs
            · obtain ⟨⟨found', y₂⟩, hy₂⟩ := hexplore x₂ (hsettled.reject hx₂) (hbounded.reject hx₂)
              obtain ⟨y', hy'⟩ := exists_backtrack_eq_ok hsettled.isReady (progress_of_reject hx₂)
                (explores_of_explore hy₂) z'.noteBranch.chosen.length
              rw [hx₂, ok_bind, hy₂, ok_bind]
              dsimp only
              rw [hy']
              exact ⟨_, rfl⟩
            · exact ⟨_, rfl⟩

end SearchState

/-! ### Runs -/

namespace Search

open SearchState

variable {s t : Search} {condition : Condition} {p : Call}

theorem exists_runGreedily_eq_ok (s : Search) (hm : Reachable E m) (hS : m.Covers S) :
    ∃ columns t k, (s.runGreedily m).result = .ok (columns, t, k) := by
  obtain ⟨columns, g, k, hgreedy⟩ :=
    s.greedy.exists_solveAndRestore_eq_ok hm.holds.grounded.isReady hm.isCompared hS
  exact ⟨columns, _, k, Traced.result_bind_eq_ok_iff.2 ⟨_, hgreedy, rfl⟩⟩

/-- Columns that cover the matrix, each of them once, have a price if all active columns have. -/
theorem totalCost_eq_ok_of_coversOnce (hm : Reachable E m) (hcolumns : m.CoversOnce columns)
    (hsum : ((m.active .column).map m.costOf).sum < Cost.limit) (hk : m.Similar k) :
    k.totalCost columns = .ok (columns.map m.costOf).sum := by
  have hprice := hcolumns.price_le hm.holds.grounded.isValid
  rw [← totalCost_congr hk.costs_eq]
  refine hm.totalCost_eq_ok (fun c hc => ?_) (hprice.trans_lt hsum)
  exact hcolumns.covers.subset_active c (List.mem_toFinset.2 hc)

theorem exists_warmUp_eq_ok (s : Search) (hm : Reachable E m) (hS : m.Covers S)
    (hsum : ((m.active .column).map m.costOf).sum < Cost.limit) :
    ∃ t k, (s.warmUp m).result = .ok (t, k) := by
  rw [warmUp]
  split
  · obtain ⟨columns, t, k, hgreedy⟩ := s.exists_runGreedily_eq_ok hm hS
    obtain ⟨hcolumns, hk, -⟩ := of_runGreedily hm.holds.grounded.isReady hgreedy
    have hcost := totalCost_eq_ok_of_coversOnce hm hcolumns hsum hk.similar
    obtain ⟨t', ht'⟩ := t.exists_offer_eq_ok columns (columns.map m.costOf).sum
    refine ⟨t', k, ?_⟩
    simp only [Traced.result_bind, Traced.result_liftM, hgreedy, ok_bind, hcost, ht']
    rfl
  · exact ⟨_, _, rfl⟩

theorem exists_takeIncumbent_eq_ok (s : Search) (hm : Reachable E m) (hS : m.Covers S) :
    ∃ columns t k, (s.takeIncumbent m).result = .ok (columns, t, k) := by
  rw [takeIncumbent]
  split
  · exact ⟨_, _, _, rfl⟩
  · obtain ⟨columns, t, k, h⟩ := s.exists_runGreedily_eq_ok hm hS
    exact ⟨columns, t, k, (Traced.result_bind _ _).trans h⟩

/-- The root of a run is bounded. -/
theorem isBounded_of_warmUp (hm : Reachable E m) (hs : s.lowerBound.IsIndependent)
    (h : (s.reset.warmUp m).result = .ok (t, k)) (condition : Condition) :
    IsBounded m { search := t, condition, matrix := k.save } 0 :=
  ⟨(isRoot_of_warmUp hm.holds.grounded.isReady h condition).isOffering.isNode,
    isIndependent_of_settings_eq (settings_of_warmUp h) hs, Nat.zero_le _⟩

theorem exists_solve_eq_ok (hm : Reachable E m) (hrows : ∀ r ∈ m.active .row, m.line .row r ≠ [])
    (hsum : ((m.active .column).map m.costOf).sum < Cost.limit)
    (hs : s.lowerBound.IsIndependent) (condition : Condition) :
    ∃ outcome t k, (s.solve m condition).result = .ok (outcome, t, k) := by
  have hready := hm.holds.grounded.isReady
  have hcovers := hready.isValid.covers_active hrows
  obtain ⟨s₁, m₁, hwarm⟩ := s.reset.exists_warmUp_eq_ok hm hcovers hsum
  have hroot := isRoot_of_warmUp hready hwarm condition
  obtain ⟨⟨found, x⟩, hexplore⟩ := (isFeasible_of_warmUp hm hrows hwarm condition)
    |>.exists_explore_eq_ok (isBounded_of_warmUp hm hs hwarm condition) hm hsum 0
  have hexplores := explores_of_explore hexplore
  have hm₁ := (of_warmUp hready hwarm).1
  have hready₁ := hready.resembles hm₁
  -- the way back to the matrix
  obtain ⟨m₂, hrestore, -⟩ :=
    (hexplores.progress hready₁.save).1.advances.exists_restore_eq_ok hready₁.isValid
  have hm₂ := hm₁.trans (resembles_of_explores hready₁ hexplores hrestore)
  have hreachable := (hexplores.reachable (reachable_of_warmUp hm hwarm).save).restore hrestore
  obtain ⟨columns, t, k, htake⟩ :=
    x.search.exists_takeIncumbent_eq_ok hreachable (hm₂.similar.covers_iff.2 hcovers)
  obtain ⟨hk, -, hcolumns, -⟩ :=
    of_takeIncumbent hready hm₂ (hexplores.offers hroot.isOffering) htake
  have hcost := totalCost_eq_ok_of_coversOnce hm hcolumns hsum hk.similar
  have hcover : k.coverOf columns = .ok (m.priced columns) := by
    rw [coverOf, hcost]
    rfl
  simp only [solve, Traced.result_bind, Traced.result_liftM, hwarm, ok_bind, hexplore, hrestore,
    htake, hcover]
  split <;> exact ⟨_, _, _, rfl⟩

end Search

/-! ### Calls -/

theorem SearchState.Call.Makes.isBounded {p q : Call} (h : p.Makes q)
    (hp : IsFeasible E p.state p.fuel) (hb : IsBounded root p.state p.inherited)
    (hroot : Reachable E root) (hsum : ((root.active .column).map root.costOf).sum < Cost.limit) :
    IsBounded root q.state q.inherited := by
  cases h with
  | select hbranches hselect =>
      obtain ⟨z', hbranch, rfl⟩ := hbranches.exists_branchColumn
      have hz := hb.evaluates hroot hsum hp hbranches.evaluates
      exact (hz.branchColumn hbranch).select hselect
  | reject hbranches hselect hchild hback _ _ hreject =>
      obtain ⟨z', hbranch, rfl⟩ := hbranches.exists_branchColumn
      have hz := hb.evaluates hroot hsum hp hbranches.evaluates
      exact ((hz.branchColumn hbranch).backtrack hselect (explores_of_explore hchild)
        hback).reject hreject

theorem Search.Calls.isBounded {s : Search} {condition : Condition} {p : SearchState.Call}
    (hp : s.Calls m condition p) (hm : Reachable E m)
    (hrows : ∀ r ∈ m.active .row, m.line .row r ≠ [])
    (hsum : ((m.active .column).map m.costOf).sum < Cost.limit)
    (hs : s.lowerBound.IsIndependent) : SearchState.IsBounded m p.state p.inherited := by
  obtain ⟨t, k, hwarm, hcalls⟩ := hp
  induction hcalls with
  | refl => exact isBounded_of_warmUp hm hs hwarm condition
  | tail hcalls hmakes ih =>
      exact hmakes.isBounded (Calls.isFeasible ⟨t, k, hwarm, hcalls⟩ hm hrows) ih hm hsum

namespace Matrix

open SearchState

variable {s : Search}

end Matrix

end SetCover
