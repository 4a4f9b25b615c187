import SetCover.Proofs.Reduction.Survivors
import SetCover.Proofs.Safety

/-!
# What a reduction keeps

A reduction loses neither columns nor coverage, whatever the comparator is: each column that was
active is selected, dropped or still active, in exactly one way, and the selected columns complete
every cover of what is left.  If the comparator looks at costs, then there is a reason for each
deletion that is still there when a pass is over.
-/

namespace SetCover

namespace Reduction

open SetCover.Matrix

variable {x y : Reduction} {may : Comparator} {rs : List Nat} {changed b : Bool}

/-! ### Accounts of the columns -/

/-- The columns that were active are those that were selected, dropped or left. -/
theorem Accounts.perm_active {xs : List Deletion} {N D : List Nat} (h : Accounts xs x y)
    (hx : x.matrix.IsValid) (hN : y.selected = x.selected ++ N) (hD : y.dropped = x.dropped ++ D) :
    (x.matrix.active .column).Perm (N ++ D ++ y.matrix.active .column) := by
  obtain ⟨N', D', hN', hD', hperm⟩ := h.exists_perm
  obtain rfl : N = N' := List.append_cancel_left (hN.symm.trans hN')
  obtain rfl : D = D' := List.append_cancel_left (hD.symm.trans hD')
  exact (h.deletes.trail.perm_active hx .column).trans (hperm.append_right _)

/-! ### Only the first phase drops columns -/

theorem dropped_of_selectSingletons (h : (x.selectSingletons changed rs).result = .ok (b, y)) :
    y.dropped = x.dropped := by
  induction rs generalizing x changed with
  | nil =>
      cases h
      rfl
  | cons r rs ih =>
      rw [selectSingletons] at h
      split at h
      · exact ih h
      · split at h
        · exact ih h
        · split at h
          · exact ih h
          · simp only [Traced.result_bind, bind_eq_ok_iff] at h
            obtain ⟨-, -, x', hx', h⟩ := h
            obtain ⟨-, -, -, hdropped⟩ := of_mark_select hx'
            exact (ih h).trans hdropped

theorem dropped_of_selectEssential (h : x.selectEssential.result = .ok (b, y)) :
    y.dropped = x.dropped := by
  simp only [selectEssential, Traced.result_bind, bind_eq_ok_iff] at h
  obtain ⟨⟨b', z⟩, hz, h⟩ := h
  cases h
  have hdropped := dropped_of_selectSingletons hz
  exact hdropped

theorem dropped_of_dropDominatedRows (h : x.dropDominatedRows.result = .ok (b, y)) :
    y.dropped = x.dropped := by
  obtain ⟨m, selected, dropped⟩ := x
  simp only [dropDominatedRows, Traced.result_bind, bind_eq_ok_iff] at h
  obtain ⟨⟨b', k⟩, -, h⟩ := h
  cases h
  rfl

end Reduction

namespace Matrix

variable {E : List (Nat × Nat)} {x y : Reduction} {may : Comparator}

/-- Reducing until nothing changes loses no column and no coverage, whatever the comparator is. -/
theorem Reachable.exists_completes (hx : Reachable E x.matrix) (may : Comparator) :
    ∃ y, (x.reduceFully may).result = .ok y ∧ Reduction.Settles may x y ∧ ∃ N D,
      y.selected = x.selected ++ N ∧ y.dropped = x.dropped ++ D ∧
      (N ++ D ++ y.matrix.active .column).Nodup ∧
      (∀ c, c ∈ x.matrix.active .column ↔ c ∈ N ++ D ++ y.matrix.active .column) ∧
      (∀ r ∈ y.matrix.active .row, x.matrix.line .row r ≠ [] → y.matrix.line .row r ≠ []) ∧
      ∀ S, y.matrix.Covers S → x.matrix.Covers (N.toFinset ∪ S) := by
  have hready := hx.holds.grounded.isReady
  obtain ⟨-, -, -, -, y, hy⟩ := hx.exists_reduced may
  have hsettles := Reduction.settles_of_reduceFully hready hy
  obtain ⟨N, hN, hrun⟩ := (Reduction.reduces_of_reduceFully hready hy).1
  obtain ⟨xs, haccounts⟩ := hsettles.exists_accounts
  obtain ⟨-, D, -, hD, -⟩ := haccounts.exists_perm
  have hperm := haccounts.perm_active hready.isValid hN hD
  refine ⟨y, hy, hsettles, N, D, hN, hD, ?_, fun c => hperm.mem_iff, ?_, ?_⟩
  · exact hperm.nodup_iff.1 (hready.isValid.nodup_active .column)
  · exact fun r hr hline => hrun.line_ne_nil hready.isValid hr hline
  · exact (hrun.picks hready.isValid).completes

/-- Of two equal columns that may be dropped for each other one is left, and the column of a row
that has only this one is selected. -/
theorem exists_completes_triangle : ∃ m y,
    ofElements 4 [1, 1, 1, 1, 1] [(0, 0), (0, 1), (0, 3), (1, 1), (1, 2), (2, 0), (2, 2), (2, 3),
      (3, 4)] = .ok m ∧
    ((Reduction.mk m [9] [8]).reduceFully DominanceRule.ignoreCost.comparator).result = .ok y ∧
      (y.selected, y.dropped, y.matrix.active .column) = ([9, 4], [8, 0], [1, 2, 3]) ∧
      ∀ S, y.matrix.Covers S → m.Covers ([4].toFinset ∪ S) := by
  obtain ⟨m, hm, hrun⟩ : ∃ m, ofElements 4 [1, 1, 1, 1, 1] [(0, 0), (0, 1), (0, 3), (1, 1), (1, 2),
      (2, 0), (2, 2), (2, 3), (3, 4)] = .ok m ∧
      ((Reduction.mk m [9] [8]).reduceFully DominanceRule.ignoreCost.comparator).result.map
        (fun y => (y.selected, y.dropped, y.matrix.active .column)) =
          .ok ([9, 4], [8, 0], [1, 2, 3]) :=
    ⟨_, rfl, by decide +kernel⟩
  have hreachable : Reachable [(0, 0), (0, 1), (0, 3), (1, 1), (1, 2), (2, 0), (2, 2), (2, 3),
      (3, 4)] (Reduction.mk m [9] [8]).matrix := .ofElements (by decide) hm
  obtain ⟨y, hy, -, N, D, hN, -, -, -, -, hcompletes⟩ :=
    hreachable.exists_completes DominanceRule.ignoreCost.comparator
  rw [hy] at hrun
  have hends := Except.ok.inj hrun
  have hselected : [9] ++ N = [9] ++ [4] := hN.symm.trans (congrArg Prod.fst hends)
  obtain rfl := List.append_cancel_left hselected
  exact ⟨m, y, hm, hy, hends, hcompletes⟩

/-- In the first phase, a column that is dropped was empty, or a column that is left covers all its
rows and does not cost more. -/
theorem Reachable.exists_isReplaced {b : Bool} (hx : Reachable E x.matrix)
    (hmay : x.matrix.Admits may) (hy : (x.dropDominatedColumns may).result = .ok (b, y)) :
    ∃ D, y.dropped = x.dropped ++ D ∧
      ∀ c ∈ D, IsReplaced x.matrix y.matrix c ∧ c ∉ y.matrix.active .column := by
  have hready := hx.holds.grounded.isReady
  obtain ⟨D, hD, -⟩ := Reduction.exists_drops_of_dropDominatedColumns hy
  obtain ⟨⟨N, -, hrun⟩, -⟩ := Reduction.reduces_of_dropDominatedColumns hready hy
  have hrows : x.matrix.active .row ⊆ y.matrix.active .row := by
    intro r hr
    exact (hD.deletes.trail.mem_active_iff hready.isValid).2 ⟨hr, by simp⟩
  have hperm := hD.deletes.trail.perm_active hready.isValid .column
  rw [Deletion.indices_map] at hperm
  refine ⟨D, hD.dropped_eq, fun c hc => ⟨?_, fun hactive => ?_⟩⟩
  · exact hrun.isReplaced hready.isValid hmay hrows (hperm.mem_iff.2 (List.mem_append_left _ hc))
  · exact ((hD.deletes.trail.mem_active_iff hready.isValid).1 hactive).2 (List.mem_map_of_mem hc)

/-- There is a reason for every deletion of a pass.  A column that is dropped was empty, or another
one that is not dropped covers all its rows and does not cost more.  A row that is deleted has a
selected column, or all columns of a row that is left. -/
theorem Reachable.exists_reasons (hx : Reachable E x.matrix) :
    ∃ b y, (x.reduce DominanceRule.costAware.comparator).result = .ok (b, y) ∧ ∃ N D,
      y.selected = x.selected ++ N ∧ y.dropped = x.dropped ++ D ∧
      (∀ c ∈ D, x.matrix.line .column c = [] ∨ ∃ a ∈ x.matrix.active .column, a ≠ c ∧ a ∉ D ∧
        x.matrix.costOf a ≤ x.matrix.costOf c ∧
          x.matrix.line .column c ⊆ x.matrix.line .column a) ∧
      ∀ r ∈ x.matrix.active .row, r ∉ y.matrix.active .row →
        (∃ c ∈ N, c ∈ x.matrix.line .row r) ∨
          ∃ s ∈ y.matrix.active .row, y.matrix.line .row s ⊆ x.matrix.line .row r := by
  have hready := hx.holds.grounded.isReady
  obtain ⟨-, -, -, ⟨b, y, hy⟩, -⟩ := hx.exists_reduced DominanceRule.costAware.comparator
  obtain ⟨N, hN, hrun⟩ := (Reduction.reduces_of_reduce hready hy).1
  refine ⟨b, y, hy, N, ?_⟩
  simp only [Reduction.reduce, Traced.result_bind, bind_eq_ok_iff] at hy
  obtain ⟨⟨b₁, x₁⟩, hx₁, ⟨b₂, x₂⟩, hx₂, ⟨b₃, x₃⟩, hx₃, hy⟩ := hy
  cases hy
  obtain ⟨D, hD, hreplaced⟩ := hx.exists_isReplaced (admits_costAware x.matrix) hx₁
  have hdropped := Reduction.dropped_of_dropDominatedRows hx₃
  rw [Reduction.dropped_of_selectEssential hx₂, hD] at hdropped
  have hadvances := (Reduction.reduces_of_dropDominatedColumns hready hx₁).1.advances
  refine ⟨D, hN, hdropped, fun c hc => ?_, fun r hr _ => hrun.isServed hready.isValid hr⟩
  obtain ⟨hempty | ⟨a, ha, hcost, hsub⟩, hgone⟩ := hreplaced c hc
  · exact Or.inl hempty
  · have hne : a ≠ c := fun hac => hgone (hac ▸ ha)
    exact Or.inr ⟨a, hadvances.active_subset hready.isValid _ ha, hne,
      fun haD => (hreplaced a haD).2 ha, hcost, hsub⟩

/-- The first column is dropped for the second one, which is dropped for the third one.  The third
one answers for both, and a row that is deleted has it, or all columns of a row that is left. -/
theorem exists_reasons_chain : ∃ m b y,
    ofElements 7 [1, 1, 1, 1, 1, 1] [(0, 0), (0, 1), (0, 2), (1, 1), (1, 2), (2, 2), (3, 3), (3, 4),
      (4, 4), (4, 5), (5, 5), (5, 3), (6, 3), (6, 4), (6, 5)] = .ok m ∧
    ((Reduction.mk m [] []).reduce DominanceRule.costAware.comparator).result = .ok (b, y) ∧
      (y.selected, y.dropped, y.matrix.active .row) = ([2], [0, 1], [3, 4, 5]) ∧
      (∀ c ∈ [0, 1], m.line .column c = [] ∨ ∃ a ∈ m.active .column, a ≠ c ∧ a ∉ [0, 1] ∧
        m.costOf a ≤ m.costOf c ∧ m.line .column c ⊆ m.line .column a) ∧
      ((∃ c ∈ [2], c ∈ m.line .row 6) ∨
        ∃ s ∈ y.matrix.active .row, y.matrix.line .row s ⊆ m.line .row 6) := by
  obtain ⟨m, hm, hactive, hrun⟩ : ∃ m, ofElements 7 [1, 1, 1, 1, 1, 1] [(0, 0), (0, 1), (0, 2),
      (1, 1), (1, 2), (2, 2), (3, 3), (3, 4), (4, 4), (4, 5), (5, 5), (5, 3), (6, 3), (6, 4),
      (6, 5)] = .ok m ∧ 6 ∈ m.active .row ∧
      ((Reduction.mk m [] []).reduce DominanceRule.costAware.comparator).result.map
        (fun p => (p.2.selected, p.2.dropped, p.2.matrix.active .row)) =
          .ok ([2], [0, 1], [3, 4, 5]) :=
    ⟨_, rfl, by decide +kernel, by decide +kernel⟩
  have hreachable : Reachable [(0, 0), (0, 1), (0, 2), (1, 1), (1, 2), (2, 2), (3, 3), (3, 4),
      (4, 4), (4, 5), (5, 5), (5, 3), (6, 3), (6, 4), (6, 5)] (Reduction.mk m [] []).matrix :=
    .ofElements (by decide) hm
  obtain ⟨b, y, hy, N, D, hN, hD, hcolumns, hrows⟩ := hreachable.exists_reasons
  rw [hy] at hrun
  have hends : (y.selected, y.dropped, y.matrix.active .row) = ([2], [0, 1], [3, 4, 5]) :=
    Except.ok.inj hrun
  obtain ⟨hselected, hdropped, hleft⟩ : y.selected = [2] ∧ y.dropped = [0, 1] ∧
      y.matrix.active .row = [3, 4, 5] := by simpa using hends
  obtain rfl : N = [2] := hN.symm.trans hselected
  obtain rfl : D = [0, 1] := hD.symm.trans hdropped
  exact ⟨m, b, y, hm, hy, hends, hcolumns, hrows 6 hactive (by simp [hleft])⟩

end Matrix

end SetCover
