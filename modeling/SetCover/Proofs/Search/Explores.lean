import SetCover.Proofs.Greedy
import SetCover.Search

/-!
# The search tree

`Explores x inherited depth fuel y` says that the exploration of a node that starts at `x` ends at
`y`, with one constructor for each way in which a node can end.  What an exploration does is shown
by induction on it.

An exploration records its deletions and leaves no mark, so the branches can be undone one by one,
and the columns that were chosen before are chosen after it.
-/

namespace SetCover

open SetCover.Matrix

namespace SearchState

variable {x y z z' y₁ y₂ : SearchState} {inherited depth fuel cost lower c : Nat} {found : Bool}

/-- The state after the condition was asked whether it is met. -/
def poll (x : SearchState) : SearchState := { x with condition := x.condition.polled }

/-- What a node does before it is known whether it branches. -/
def Evaluates (x : SearchState) (inherited depth : Nat) (z : SearchState) (cost lower : Nat) :
    Prop :=
  ∃ x₁ bound, ((x.poll.enter depth).reduce).result = .ok x₁ ∧
    x₁.matrix.totalCost x₁.chosen = .ok cost ∧ x₁.estimate = .ok (bound, z) ∧
    lower = max inherited (bound + cost)

/-- The exploration of a node ends. -/
inductive Explores : SearchState → (inherited depth fuel : Nat) → SearchState → Prop
  | exhausted {x : SearchState} {inherited depth : Nat} : Explores x inherited depth 0 x
  | stopped {x : SearchState} {inherited depth fuel : Nat} : x.condition.isMet = true →
      Explores x inherited depth (fuel + 1)
        { x.poll with search := { x.search with stopped := true } }
  | pruned {x z : SearchState} {inherited depth fuel cost lower : Nat} :
      Evaluates x inherited depth z cost lower → z.search.limit ≤ lower →
      Explores x inherited depth (fuel + 1)
        ((z.count fun n => { n with prunes := n.prunes + 1 }).keep x.chosen.length)
  | leaf {x z y : SearchState} {inherited depth fuel cost lower : Nat} :
      Evaluates x inherited depth z cost lower → lower < z.search.limit →
      z.matrix.numActive .row = 0 → (z.offer cost).result = .ok y →
      Explores x inherited depth (fuel + 1) (y.keep x.chosen.length)
  | stuck {x z z' : SearchState} {inherited depth fuel cost lower : Nat} :
      Evaluates x inherited depth z cost lower → z.matrix.numActive .row ≠ 0 →
      z.branchColumn = (none, z') → Explores x inherited depth (fuel + 1) (z'.keep x.chosen.length)
  | branch {x z z' x₁ y₁ y : SearchState} {inherited depth fuel cost lower c : Nat} :
      Evaluates x inherited depth z cost lower → z.branchColumn = (some c, z') →
      (z'.noteBranch.select c).result = .ok x₁ → Explores x₁ lower (depth + 1) fuel y₁ →
      y₁.backtrack z'.chosen.length = .ok y → (y.search.stopped = false → y.search.limit ≤ lower) →
      Explores x inherited depth (fuel + 1) (y.keep x.chosen.length)
  | branchTwice {x z z' x₁ y₁ y x₂ y₂ y' : SearchState}
      {inherited depth fuel cost lower c : Nat} :
      Evaluates x inherited depth z cost lower → z.branchColumn = (some c, z') →
      (z'.noteBranch.select c).result = .ok x₁ → Explores x₁ lower (depth + 1) fuel y₁ →
      y₁.backtrack z'.chosen.length = .ok y → y.search.stopped = false →
      (y.reject c).result = .ok x₂ → Explores x₂ lower (depth + 1) fuel y₂ →
      y₂.backtrack z'.chosen.length = .ok y' →
      Explores x inherited depth (fuel + 1) (y'.keep x.chosen.length)

theorem explores_of_explore (h : (x.explore inherited depth fuel).result = .ok (found, y)) :
    Explores x inherited depth fuel y := by
  induction fuel generalizing x inherited depth found y with
  | zero =>
      cases h
      exact .exhausted
  | succ fuel ih =>
      rw [explore] at h
      split at h
      · rename_i hmet
        cases h
        exact .stopped hmet
      · simp only [Traced.result_bind, Traced.result_liftM, bind_eq_ok_iff] at h
        obtain ⟨x₁, hx₁, cost, hcost, ⟨bound, z⟩, hz, sum, hsum, h⟩ := h
        obtain ⟨rfl, -⟩ := Cost.add_eq_ok_iff.1 hsum
        have hev : Evaluates x inherited depth z cost (max inherited (bound + cost)) :=
          ⟨x₁, bound, hx₁, hcost, hz, rfl⟩
        split at h
        · rename_i hpruned
          cases h
          exact .pruned hev hpruned
        · rename_i hlower
          split at h
          · rename_i hrows
            obtain ⟨y', hy', h⟩ := Traced.result_bind_eq_ok_iff.1 h
            cases h
            exact .leaf hev (Nat.lt_of_not_le hlower) hrows hy'
          · rename_i hrows
            split at h
            · rename_i z' hbranch
              cases h
              exact .stuck hev hrows hbranch
            · rename_i c z' hbranch
              simp only [Traced.result_bind, Traced.result_liftM, bind_eq_ok_iff] at h
              obtain ⟨-, -, x₂, hx₂, ⟨found₁, y₁⟩, hy₁, y', hy', h⟩ := h
              split at h
              · rename_i hagain
                simp only [Traced.result_bind, Traced.result_liftM, bind_eq_ok_iff] at h
                obtain ⟨-, -, x₃, hx₃, ⟨found₂, y₂⟩, hy₂, y'', hy'', h⟩ := h
                cases h
                rw [Bool.and_eq_true, Bool.not_eq_true'] at hagain
                exact .branchTwice hev hbranch hx₂ (ih hy₁) hy' hagain.1 hx₃ (ih hy₂) hy''
              · rename_i hagain
                cases h
                refine .branch hev hbranch hx₂ (ih hy₁) hy' fun hstopped => ?_
                refine Nat.le_of_not_lt fun hlt => hagain ?_
                rw [hstopped, decide_eq_true hlt]
                rfl

/-! ### Single operations -/

/-- The best cover so far, the stop flag, the rule of dominance and the condition are the same. -/
structure Agrees (x y : SearchState) : Prop where
  incumbent_eq : y.search.incumbent = x.search.incumbent
  stopped_eq : y.search.stopped = x.search.stopped
  dominance_eq : y.search.dominance = x.search.dominance
  condition_eq : y.condition = x.condition

theorem Agrees.trans (h : Agrees x y) (h' : Agrees y z) : Agrees x z :=
  ⟨h'.1.trans h.1, h'.2.trans h.2, h'.3.trans h.3, h'.4.trans h.4⟩

theorem Agrees.limit_eq (h : Agrees x y) : y.search.limit = x.search.limit := by
  rw [Search.limit, Search.limit, h.incumbent_eq]

theorem of_reduce (h : x.reduce.result = .ok y) :
    (∃ reduced : Reduction, reduced.matrix = y.matrix ∧ reduced.selected = y.chosen ∧
      ((Reduction.mk x.matrix x.chosen []).reduceFully x.search.dominance.comparator).result =
        .ok reduced) ∧
    Agrees x y ∧ y.search.lowerBound = x.search.lowerBound := by
  simp only [reduce, Traced.result_bind, bind_eq_ok_iff] at h
  obtain ⟨reduced, hreduced, h⟩ := h
  cases h
  exact ⟨⟨reduced, rfl, rfl, hreduced⟩, ⟨rfl, rfl, rfl, rfl⟩, rfl⟩

theorem of_estimate {bound : Nat} (h : x.estimate = .ok (bound, y)) :
    x.search.lowerBound.estimate x.matrix = .ok (bound, y.search.lowerBound) ∧
    y.matrix = x.matrix ∧ y.chosen = x.chosen ∧ Agrees x y := by
  rw [estimate, bind_eq_ok_iff] at h
  obtain ⟨⟨bound', lowerBound⟩, hestimate, h⟩ := h
  cases h
  exact ⟨hestimate, rfl, rfl, rfl, rfl, rfl, rfl⟩

theorem Evaluates.agrees (h : Evaluates x inherited depth z cost lower) : Agrees x.poll z := by
  obtain ⟨x₁, bound, hx₁, -, hz, -⟩ := h
  have hagrees : Agrees x.poll (x.poll.enter depth) := ⟨rfl, rfl, rfl, rfl⟩
  exact (hagrees.trans (of_reduce hx₁).2.1).trans (of_estimate hz).2.2.2

/-- What a node is known to be before it is known whether it branches. -/
structure Evaluated (x : SearchState) (inherited : Nat) (z : SearchState) (cost lower : Nat) :
    Prop where
  exists_reduces : ∃ N, z.chosen = x.chosen ++ N ∧
    Matrix.Reduces x.search.dominance.comparator x.matrix N z.matrix
  marks_eq : z.matrix.marks = x.matrix.marks
  totalCost_eq : z.matrix.totalCost z.chosen = .ok cost
  exists_bound : ∃ bound, lower = max inherited (bound + cost) ∧
    x.search.lowerBound.estimate z.matrix = .ok (bound, z.search.lowerBound)

/-- The reductions at a node choose columns, and leave no mark. -/
theorem exists_reduces_of_reduce (hx : x.matrix.IsReady) (h : x.reduce.result = .ok y) :
    (∃ N, y.chosen = x.chosen ++ N ∧
      Matrix.Reduces x.search.dominance.comparator x.matrix N y.matrix) ∧
    y.matrix.marks = x.matrix.marks := by
  obtain ⟨⟨reduced, hmatrix, hchosen, hreduced⟩, -⟩ := of_reduce h
  obtain ⟨⟨N, hN, hreduces⟩, hmarks⟩ :=
    Reduction.reduces_of_reduceFully (x := ⟨x.matrix, x.chosen, []⟩) hx hreduced
  rw [hmatrix] at hreduces hmarks
  exact ⟨⟨N, hchosen.symm.trans hN, hreduces⟩, hmarks⟩

theorem Evaluates.evaluated (h : Evaluates x inherited depth z cost lower)
    (hx : x.matrix.IsReady) : Evaluated x inherited z cost lower := by
  obtain ⟨x₁, bound, hx₁, hcost, hz, hlower⟩ := h
  obtain ⟨hreduces, hmarks⟩ := exists_reduces_of_reduce (x := x.poll.enter depth) hx hx₁
  obtain ⟨hestimate, hmatrix, hchosen, -⟩ := of_estimate hz
  rw [(of_reduce hx₁).2.2, ← hmatrix] at hestimate
  rw [← hmatrix, ← hchosen] at hcost hreduces
  rw [← hmatrix] at hmarks
  exact ⟨hreduces, hmarks, hcost, bound, hlower, hestimate⟩

theorem of_branchColumn {column : Option Nat} (h : x.branchColumn = (column, y)) :
    (x.search.selector.select x.matrix).1 = column ∧ y.matrix = x.matrix ∧
    y.chosen = x.chosen ∧ Agrees x y ∧ y.search.lowerBound = x.search.lowerBound := by
  cases h
  exact ⟨rfl, rfl, rfl, ⟨rfl, rfl, rfl, rfl⟩, rfl⟩

theorem of_select (h : (x.select c).result = .ok y) :
    (x.matrix.save.select c).result = .ok y.matrix ∧ y.chosen = x.chosen ++ [c] ∧
    Agrees x y ∧ y.search.lowerBound = x.search.lowerBound := by
  simp only [select, Traced.result_bind, bind_eq_ok_iff] at h
  obtain ⟨m, hm, h⟩ := h
  cases h
  exact ⟨hm, rfl, ⟨rfl, rfl, rfl, rfl⟩, rfl⟩

theorem of_reject (h : (x.reject c).result = .ok y) :
    x.matrix.save.delete .column c = .ok y.matrix ∧ y.chosen = x.chosen ∧
    Agrees x y ∧ y.search.lowerBound = x.search.lowerBound := by
  simp only [reject, Traced.result_bind, Traced.result_liftM, bind_eq_ok_iff] at h
  obtain ⟨m, hm, h⟩ := h
  cases h
  exact ⟨hm, rfl, ⟨rfl, rfl, rfl, rfl⟩, rfl⟩

theorem of_backtrack {n : Nat} (h : x.backtrack n = .ok y) :
    x.matrix.restore = .ok y.matrix ∧ y.chosen = x.chosen.take n ∧
    Agrees x y ∧ y.search.lowerBound = x.search.lowerBound := by
  rw [backtrack, bind_eq_ok_iff] at h
  obtain ⟨m, hm, h⟩ := h
  cases h
  exact ⟨hm, rfl, ⟨rfl, rfl, rfl, rfl⟩, rfl⟩

theorem of_search_offer {s t : Search} {columns : List Nat}
    (h : (s.offer columns cost).result = .ok t) :
    (cost < s.limit ∧ t.incumbent = some ⟨columns, cost⟩ ∨
      s.limit ≤ cost ∧ t.incumbent = s.incumbent) ∧
    t.stopped = s.stopped ∧ t.dominance = s.dominance ∧ t.lowerBound = s.lowerBound := by
  rw [Search.offer] at h
  split at h
  · rename_i hlt
    cases h
    exact ⟨.inl ⟨hlt, rfl⟩, rfl, rfl, rfl⟩
  · rename_i hge
    cases h
    exact ⟨.inr ⟨Nat.le_of_not_lt hge, rfl⟩, rfl, rfl, rfl⟩

theorem of_offer (h : (x.offer cost).result = .ok y) :
    y.matrix = x.matrix ∧ y.chosen = x.chosen ∧ (x.search.offer x.chosen cost).result =
      .ok y.search ∧ y.condition = x.condition := by
  simp only [offer, Traced.result_bind, bind_eq_ok_iff] at h
  obtain ⟨s, hs, h⟩ := h
  cases h
  exact ⟨rfl, rfl, hs, rfl⟩

/-! ### Matrix and chosen columns -/

/-- Deletions are recorded, no mark is left, and columns are chosen. -/
structure Progress (x y : SearchState) : Prop where
  advances : x.matrix.Advances y.matrix
  marks_eq : y.matrix.marks = x.matrix.marks
  exists_chosen : ∃ N, y.chosen = x.chosen ++ N

/-- The state with a checkpoint. -/
def saved (x : SearchState) : SearchState := { x with matrix := x.matrix.save }

/-- The matrix, up to dirty flags, and the chosen columns are the same. -/
structure Returns (x y : SearchState) : Prop where
  resembles : x.matrix.Resembles y.matrix
  chosen_eq : y.chosen = x.chosen

namespace Progress

theorem isReady (h : Progress x y) (hx : x.matrix.IsReady) : y.matrix.IsReady :=
  hx.advances h.advances h.marks_eq

theorem trans (h : Progress x y) (h' : Progress y z) : Progress x z := by
  obtain ⟨N, hN⟩ := h.exists_chosen
  obtain ⟨N', hN'⟩ := h'.exists_chosen
  exact ⟨h.advances.trans h'.advances, h'.marks_eq.trans h.marks_eq,
    N ++ N', by rw [hN', hN, List.append_assoc]⟩

theorem congr (h : Progress x y) (hmatrix : z.matrix = y.matrix) (hchosen : z.chosen = y.chosen) :
    Progress x z :=
  ⟨hmatrix ▸ h.advances, hmatrix ▸ h.marks_eq, hchosen ▸ h.exists_chosen⟩

theorem keep (h : Progress x y) : Progress x (y.keep x.chosen.length) ∧
    (y.keep x.chosen.length).chosen = x.chosen := by
  have hchosen : (y.keep x.chosen.length).chosen = x.chosen := by
    obtain ⟨N, hN⟩ := h.exists_chosen
    rw [SearchState.keep, hN]
    exact List.take_left
  exact ⟨⟨h.advances, h.marks_eq, [], by rw [hchosen, List.append_nil]⟩, hchosen⟩

/-- Backtracking undoes all that was done since the checkpoint. -/
theorem returns (h : Progress x.saved z) (hx : x.matrix.IsReady)
    (hy : z.backtrack x.chosen.length = .ok y) : Returns x y := by
  obtain ⟨hrestore, hchosen, -⟩ := of_backtrack hy
  exact ⟨hx.resembles_of_restore h.advances h.marks_eq hrestore, hchosen.trans h.keep.2⟩

end Progress

theorem Returns.progress (h : Returns x y) : Progress x y :=
  ⟨h.resembles.advances, h.resembles.marks_eq, [], by rw [h.chosen_eq, List.append_nil]⟩

theorem Evaluated.progress (h : Evaluated x inherited z cost lower) : Progress x z := by
  obtain ⟨N, hN, hreduces⟩ := h.exists_reduces
  exact ⟨hreduces.advances, h.marks_eq, N, hN⟩

theorem progress_of_select (h : (x.select c).result = .ok y) : Progress x.saved y := by
  obtain ⟨hselect, hchosen, -⟩ := of_select h
  obtain ⟨hdeletes, hmarks, -⟩ := deletes_of_select hselect
  exact ⟨hdeletes.advances, hmarks, [c], hchosen⟩

theorem progress_of_reject (h : (x.reject c).result = .ok y) : Progress x.saved y := by
  obtain ⟨hdelete, hchosen, -⟩ := of_reject h
  exact ⟨(deletes_of_delete hdelete).advances, (deleted_of_delete hdelete).marks_eq, [],
    by rw [hchosen]; exact (List.append_nil _).symm⟩

/-- Exploring a branch and backtracking leads back to the node. -/
theorem returns_of_explores (hx : x.matrix.IsReady) (hchild : Progress x.saved z)
    (hexplore : z.matrix.IsReady → Progress z y₁ ∧ y₁.chosen = z.chosen)
    (hback : y₁.backtrack x.chosen.length = .ok y) : Returns x y :=
  (hchild.trans (hexplore (hchild.isReady hx.save)).1).returns hx hback

/-- The columns that were chosen before an exploration are chosen after it. -/
theorem Explores.progress (h : Explores x inherited depth fuel y) (hx : x.matrix.IsReady) :
    Progress x y ∧ y.chosen = x.chosen := by
  induction h with
  | exhausted => exact ⟨⟨.refl _, rfl, [], (List.append_nil _).symm⟩, rfl⟩
  | stopped => exact ⟨⟨.refl _, rfl, [], (List.append_nil _).symm⟩, rfl⟩
  | pruned hev => exact ((hev.evaluated hx).progress.congr (z := count _ _) rfl rfl).keep
  | leaf hev _ _ hoffer =>
      obtain ⟨hmatrix, hchosen, -⟩ := of_offer hoffer
      exact ((hev.evaluated hx).progress.congr hmatrix hchosen).keep
  | stuck hev _ hbranch =>
      obtain ⟨-, hmatrix, hchosen, -⟩ := of_branchColumn hbranch
      exact ((hev.evaluated hx).progress.congr hmatrix hchosen).keep
  | branch hev hbranch hselect _ hback _ ih =>
      obtain ⟨-, hmatrix, hchosen, -⟩ := of_branchColumn hbranch
      have hz' := (hev.evaluated hx).progress.congr (z := noteBranch _) hmatrix hchosen
      have hreturns := returns_of_explores (hz'.isReady hx) (progress_of_select hselect) ih hback
      exact (hz'.trans hreturns.progress).keep
  | branchTwice hev hbranch hselect _ hback _ hreject _ hback' ih ih' =>
      obtain ⟨-, hmatrix, hchosen, -⟩ := of_branchColumn hbranch
      have hz' := (hev.evaluated hx).progress.congr (z := noteBranch _) hmatrix hchosen
      have hreturns := returns_of_explores (hz'.isReady hx) (progress_of_select hselect) ih hback
      have hy := hz'.trans hreturns.progress
      have hlength := congrArg List.length hreturns.chosen_eq
      have hreturns' := returns_of_explores (hy.isReady hx) (progress_of_reject hreject) ih'
        (hlength ▸ hback')
      exact (hy.trans hreturns'.progress).keep

end SearchState

end SetCover
