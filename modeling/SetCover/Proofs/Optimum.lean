import SetCover.Proofs.Reachable

/-!
# The optimum of reachable matrices

Reductions keep the optimum but for the price of the columns that they select, whatever comparator
they use, as long as it prefers no column that costs more.  The exact solver with bounds by
independent rows finds the optimum unless it is stopped.
-/

namespace SetCover.Matrix

variable {m k : Matrix} {E : List (Nat × Nat)}

/-- A reduction appends columns to the selected ones, and their price makes up the difference
between the optima before and after it. -/
theorem Reachable.isOptimum_of_reduce {x y : Reduction} {may : Comparator}
    (hx : Reachable E x.matrix) (hmay : x.matrix.Admits may)
    (hy : (∃ b, (x.reduce may).result = .ok (b, y)) ∨ (x.reduceFully may).result = .ok y) :
    ∃ N, y.selected = x.selected ++ N ∧
      ((∃ v, x.matrix.IsOptimum v) ↔ ∃ w, y.matrix.IsOptimum w) ∧
      ∀ v w, x.matrix.IsOptimum v → y.matrix.IsOptimum w →
        v = (N.map x.matrix.costOf).sum + w := by
  have hready := hx.holds.grounded.isReady
  have hreduces : Reduction.Reduces may x y := by
    rcases hy with ⟨b, hy⟩ | hy
    · exact (Reduction.reduces_of_reduce hready hy).1
    · exact (Reduction.reduces_of_reduceFully hready hy).1
  obtain ⟨N, hN, hrun⟩ := hreduces
  have hto := hrun.reducesTo hready.isValid hmay
  exact ⟨N, hN, hto.exists_isOptimum_iff, fun v w => hto.eq_of_isOptimum⟩

/-- Of two columns the one that covers both rows is selected, and nothing is left. -/
theorem isOptimum_of_reduce_two_by_two : ∃ m y,
    ofElements 2 [1, 1] [(0, 0), (0, 1), (1, 1)] = .ok m ∧
    ((Reduction.mk m [] []).reduceFully DominanceRule.costAware.comparator).result = .ok y ∧
      y.selected = [1] ∧ ∃ N, y.selected = [] ++ N ∧
        ((∃ v, m.IsOptimum v) ↔ ∃ w, y.matrix.IsOptimum w) ∧
        ∀ v w, m.IsOptimum v → y.matrix.IsOptimum w → v = (N.map m.costOf).sum + w := by
  obtain ⟨m, hm, y, hy, hselected⟩ : ∃ m, ofElements 2 [1, 1] [(0, 0), (0, 1), (1, 1)] = .ok m ∧
      ∃ y, ((Reduction.mk m [] []).reduceFully DominanceRule.costAware.comparator).result = .ok y ∧
        y.selected = [1] := ⟨_, rfl, _, rfl, rfl⟩
  have hreachable : Reachable [(0, 0), (0, 1), (1, 1)] (Reduction.mk m [] []).matrix :=
    .ofElements (by decide) hm
  exact ⟨m, y, hm, hy, hselected,
    hreachable.isOptimum_of_reduce (admits_costAware m) (.inr hy)⟩

/-- A cover that the exact solver proves optimal has the least price of all covers, and without a
condition that is met it always proves its cover optimal. -/
theorem Reachable.isOptimum_of_search {s s' : Search} {condition : Condition} {outcome : Outcome}
    (hm : Reachable E m) (hbound : s.lowerBound.IsIndependent)
    (hdominance : s.dominance = .costAware ∨
      ∀ c ∈ m.active .column, ∀ b ∈ m.active .column, m.costOf c = m.costOf b)
    (h : (s.solve m condition).result = .ok (outcome, s', k)) :
    (outcome.isOptimal = true → m.IsOptimum outcome.cover.cost) ∧
      (condition = .indefinite → outcome.isOptimal = true) := by
  have hready := hm.holds.grounded.isReady
  have hmay : m.Admits s.dominance.comparator := by
    cases hrule : s.dominance with
    | costAware => exact admits_costAware m
    | ignoreCost => exact admits_ignoreCost (hdominance.resolve_left (by simp [hrule]))
  refine ⟨Search.isOptimum_of_solve hready hmay hbound h, ?_⟩
  rintro rfl
  exact Search.isOptimal_of_indefinite hready h

/-- If each of three rows has two of three columns, then two columns are needed. -/
theorem isOptimum_of_search_triangle : ∃ m s s' k,
    ofElements 3 [1, 1, 1] [(0, 0), (0, 1), (1, 1), (1, 2), (2, 2), (2, 0)] = .ok m ∧
    Search.ofOptions { lowerBounds := [.mis], selector := .naive } = .ok s ∧
    (s.solve m .indefinite).result = .ok (.optimal ⟨[0, 2], 2⟩, s', k) ∧ m.IsOptimum 2 := by
  obtain ⟨s, hs, hrun⟩ : ∃ s,
      Search.ofOptions { lowerBounds := [.mis], selector := .naive } = .ok s ∧ (do
        let m ← ofElements 3 [1, 1, 1] [(0, 0), (0, 1), (1, 1), (1, 2), (2, 2), (2, 0)]
        (s.solve m .indefinite).result.map Prod.fst) = .ok (.optimal ⟨[0, 2], 2⟩) :=
    ⟨_, rfl, by decide +kernel⟩
  obtain ⟨m, hm, hrun⟩ := bind_eq_ok_iff.1 hrun
  have hreachable : Reachable [(0, 0), (0, 1), (1, 1), (1, 2), (2, 2), (2, 0)] m :=
    .ofElements (by decide) hm
  cases hs
  cases hresult : (Search.solve _ m .indefinite).result with
  | error e =>
      rw [hresult] at hrun
      exact nomatch hrun
  | ok r =>
      rw [hresult] at hrun
      obtain ⟨outcome, s', k⟩ := r
      cases hrun
      have hoptimum := hreachable.isOptimum_of_search
        (LowerBound.isIndependent_ofKinds (by decide)) (.inl rfl) hresult
      exact ⟨m, _, s', k, hm, rfl, hresult, hoptimum.1 rfl⟩

end SetCover.Matrix
