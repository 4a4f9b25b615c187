import SetCover.Proofs.Greedy.InStep
import SetCover.Proofs.Search.Optimal

/-!
# Greedy runs

A matrix that has a cover still has one after a reduction, whatever the comparator allows, and after
any active column is selected.  So a greedy run, which goes on until no column covers a row, ends
with no row left: on a matrix that has a cover the greedy solver finds one.

`Ends g x g' y` says that the greedy solver gets from `x` to `y`, with one constructor for the
choice of a column and one for the end; `g` and `g'` are the solver before and after.
-/

namespace SetCover

open SetCover.Matrix

variable {m n k : Matrix} {S : Finset Nat} {J : List Deletion} {N columns : List Nat} {c : Nat}
variable {may : Comparator} {x y z : Reduction} {g g' g₁ g₂ : Greedy}

/-! ### Covers that are left -/

namespace Matrix

theorem Covers.insert (h : m.Covers S) (hc : c ∈ m.active .column) :
    m.Covers (Insert.insert c S) := by
  refine ⟨fun c' hc' => ?_, fun r hr => ?_⟩
  · rcases Finset.mem_insert.1 hc' with rfl | hc'
    · exact hc
    · exact h.subset_active c' hc'
  · obtain ⟨c', hc', hline⟩ := h.exists_mem_line r hr
    exact ⟨c', Finset.mem_insert_of_mem hc', hline⟩

theorem Trail.covers_erase_of_select (h : Trail m (m.selection c) n) (hm : m.WellFormed J)
    (hc : c ∈ m.active .column) (hS : m.Covers S) : n.Covers (S.erase c) := by
  have hcovers := hS.insert hc
  rw [h.covers_iff_of_select hm hc]
  refine ⟨Finset.notMem_erase c S, ?_⟩
  by_cases hcS : c ∈ S
  · rwa [Finset.insert_erase hcS]
  · rwa [Finset.erase_eq_of_notMem hcS]

/-- Selecting a column leaves a cover if there was one, and deletes an active column. -/
theorem IsValid.covers_of_select (hm : m.IsValid) (h : (m.select c).result = .ok n) :
    (∀ S, m.Covers S → n.Covers (S.erase c)) ∧
      (n.active .column).length < (m.active .column).length := by
  obtain ⟨hdeletes, -, hlt, hdeleted⟩ := deletes_of_select h
  have hc := (WellFormed.isDeleted_iff hm hlt).1 hdeleted
  exact ⟨fun S => hdeletes.trail.covers_erase_of_select hm hc,
    hdeletes.trail.length_active_lt hm hc (by simp [selection])⟩

theorem Step.exists_covers (h : Step may N m n) (hm : m.IsValid) (hS : m.Covers S) :
    ∃ T, n.Covers T := by
  cases h with
  | touch hsimilar _ => exact ⟨S, hsimilar.covers_iff.2 hS⟩
  | dropEmpty hempty hd =>
      obtain ⟨T, hT, -⟩ := (hd.trail.reducesTo_of_empty hm hempty).exists_covers S hS
      exact ⟨T, hT⟩
  | dropDominated _ hb hne hsub _ hd =>
      have hT := hS.exchange hm hb hsub
      exact ⟨_, (hd.trail.covers_iff_of_column hm).2 ⟨hT, notMem_insert_erase hne⟩⟩
  | select hr hline hd =>
      have hc := hm.mem_active_of_mem_line hr (hline ▸ List.mem_singleton_self _)
      exact ⟨_, hd.trail.covers_erase_of_select hm hc hS⟩
  | dropRow hr hs hne _ hsub hd => exact ⟨S, (hd.trail.covers_iff_of_row hm hr hs hne hsub).2 hS⟩

/-- Reductions leave a cover if there was one. -/
theorem Reduces.exists_covers (h : Reduces may m N n) (hm : m.IsValid) (hS : m.Covers S) :
    ∃ T, n.Covers T := by
  induction h with
  | refl => exact ⟨S, hS⟩
  | concat hrun hstep ih =>
      obtain ⟨T, hT⟩ := ih
      exact hstep.exists_covers (hrun.advances.isValid hm) hT

end Matrix

/-! ### Runs -/

namespace Greedy

open Reduction

/-- The greedy solver gets from one state to another, in which its selector chooses no column.  It
reduces until nothing changes, chooses a column, and so on. -/
inductive Ends : Greedy → Reduction → Greedy → Reduction → Prop
  | done {g g₁ : Greedy} {x y : Reduction} {selector : Selector} :
      (g.reduce x).result = .ok (g₁, y) → Settles g.dominance.comparator x y →
      (g₁.selector.select y.matrix).1 = none → Ends g x { g₁ with selector } y
  | choose {g g₁ g' : Greedy} {x x₁ x₂ y : Reduction} {c : Nat} {selector : Selector} :
      (g.reduce x).result = .ok (g₁, x₁) → Settles g.dominance.comparator x x₁ →
      g₁.selector.select x₁.matrix = (some c, selector) → (x₁.select c).result = .ok x₂ →
      Ends ({ g₁ with selector } : Greedy).countSelected x₂ g' y → Ends g x g' y

theorem of_reduce (h : (g.reduce x).result = .ok (g', y)) :
    (x.reduceFully g.dominance.comparator).result = .ok y ∧
      g' = g.countForced (y.selected.length - x.selected.length) := by
  simp only [Greedy.reduce, Traced.result_bind, bind_eq_ok_iff] at h
  obtain ⟨z, hz, h⟩ := h
  cases h
  exact ⟨hz, rfl⟩

theorem settles_of_reduce (hx : x.matrix.IsReady) (h : (g.reduce x).result = .ok (g', y)) :
    Settles g.dominance.comparator x y :=
  settles_of_reduceFully hx (of_reduce h).1

theorem uncovered_perm_of_reduce (hx : x.matrix.IsReady) (h : (g.reduce x).result = .ok (g', y)) :
    x.matrix.uncovered.Perm y.matrix.uncovered := by
  obtain ⟨⟨N, -, hreduces⟩, -⟩ := reduces_of_reduceFully hx (of_reduce h).1
  exact hreduces.uncovered_perm hx.isValid

/-- At the end of a run, the rows that no column covered at its beginning are left. -/
theorem Ends.uncovered_perm (h : Ends g x g' y) (hx : x.matrix.IsReady) :
    x.matrix.uncovered.Perm (y.matrix.active .row) := by
  induction h with
  | done hreduce _ hnone =>
      have hvalid := ((selects_of_reduce hx hreduce).isReady hx).isValid
      rw [← hvalid.uncovered_eq_active_row (Selector.candidates_eq_nil hnone)]
      exact uncovered_perm_of_reduce hx hreduce
  | choose hreduce _ _ hselect _ ih =>
      have hx₁ := (selects_of_reduce hx hreduce).isReady hx
      have hx₂ := (selects_of_select hx₁ hselect).isReady hx₁
      obtain ⟨k, hk, rfl⟩ := select_eq_ok_iff.1 hselect
      obtain ⟨hdeletes, -, hlt, hdeleted⟩ := deletes_of_select hk
      have hc := (WellFormed.isDeleted_iff hx₁.isValid hlt).1 hdeleted
      exact ((uncovered_perm_of_reduce hx hreduce).trans
        (hdeletes.uncovered_perm_of_select hx₁.isValid hc)).trans (ih hx₂)

theorem Ends.numActive_row_eq (h : Ends g x g' y) (hx : x.matrix.IsReady)
    (hy : y.matrix.IsValid) : y.matrix.numActive .row = x.matrix.uncovered.length := by
  rw [hy.numActive_eq, (h.uncovered_perm hx).length_eq]

/-- All columns that a run selects are counted, in one of two ways. -/
theorem Ends.total_eq (h : Ends g x g' y) (hx : x.matrix.IsReady) :
    g'.statistics.selected + g'.statistics.forced + x.selected.length =
      g.statistics.selected + g.statistics.forced + y.selected.length := by
  induction h with
  | done hreduce =>
      obtain ⟨N, hN, -⟩ := (selects_of_reduce hx hreduce).exists_selected
      rw [(of_reduce hreduce).2, hN, List.length_append]
      simp only [countForced]
      omega
  | choose hreduce _ _ hselect _ ih =>
      obtain ⟨N, hN, -⟩ := (selects_of_reduce hx hreduce).exists_selected
      have hx₁ := (selects_of_reduce hx hreduce).isReady hx
      have hrest := ih ((selects_of_select hx₁ hselect).isReady hx₁)
      obtain ⟨k, hk, rfl⟩ := select_eq_ok_iff.1 hselect
      rw [(of_reduce hreduce).2] at hrest
      simp only [countForced, countSelected, List.length_append, List.length_singleton, hN] at hrest
      omega

/-- Fuel for every active column suffices. -/
theorem ends_of_extend {fuel : Nat} (hx : x.matrix.IsReady)
    (hreduce : (g.reduce x).result = .ok (g₁, y)) (h : (g₁.extend y fuel).result = .ok (g₂, z))
    (hfuel : (y.matrix.active .column).length ≤ fuel) : Ends g x g₂ z := by
  have hy := (selects_of_reduce hx hreduce).isReady hx
  have hsettles := settles_of_reduce hx hreduce
  induction fuel generalizing g x g₁ y with
  | zero =>
      cases h
      refine .done hreduce hsettles (Option.eq_none_iff_forall_ne_some.2 fun c hc => ?_)
      have hactive := Selector.mem_active_of_select hc
      rw [List.length_eq_zero_iff.1 (Nat.le_zero.1 hfuel)] at hactive
      exact List.not_mem_nil hactive
  | succ fuel ih =>
      rw [extend] at h
      split at h
      · rename_i selector hselect
        cases h
        exact .done hreduce hsettles (congrArg Prod.fst hselect)
      · rename_i c selector hselect
        simp only [Traced.result_bind, bind_eq_ok_iff] at h
        obtain ⟨-, -, x₂, hx₂, ⟨g₃, y₃⟩, hreduce', h⟩ := h
        have hready := (selects_of_select hy hx₂).isReady hy
        have hselects := selects_of_reduce hready hreduce'
        have hle := hselects.advances.length_active_le (d := .column) hready.isValid
        obtain ⟨k, hk, rfl⟩ := select_eq_ok_iff.1 hx₂
        have hlt := (hy.isValid.covers_of_select hk).2
        refine .choose hreduce hsettles hselect hx₂ (ih hready hreduce' h ?_
          (hselects.isReady hready) (settles_of_reduce hready hreduce'))
        exact Nat.le_of_lt_succ ((hle.trans_lt hlt).trans_le hfuel)

theorem ends_of_solve (hm : m.IsReady) (h : (g.solve m).result = .ok (columns, g', k)) :
    ∃ y, Ends g { matrix := m } g' y ∧ y.selected = columns := by
  simp only [solve, Traced.result_bind, bind_eq_ok_iff] at h
  obtain ⟨⟨g₁, x⟩, hx, ⟨g₂, y⟩, hy, h⟩ := h
  have hready : x.matrix.IsReady :=
    (selects_of_reduce (x := { matrix := m }) hm hx).isReady hm
  have hends := ends_of_extend hm hx hy (hready.isValid.numActive_eq _).ge
  by_cases hleft : y.matrix.numActive .row = 0
  · rw [if_pos hleft] at h
    cases h
    exact ⟨y, hends, rfl⟩
  · rw [if_neg hleft] at h
    cases h

theorem result_solve (hreduce : (g.reduce { matrix := m }).result = .ok (g₁, y))
    (hextend : (g₁.extend y (y.matrix.numActive .column)).result = .ok (g₂, z)) :
    (g.solve m).result =
      if z.matrix.numActive .row = 0 then .ok (z.selected, g₂, z.matrix)
      else .error (.uncoveredRows (z.matrix.numActive .row)) := by
  rw [solve, Traced.result_bind, hreduce]
  refine (Traced.result_bind _ _).trans ?_
  rw [hextend]
  change Traced.result (if z.matrix.numActive .row = 0 then _ else _) = _
  split <;> rfl

/-- The run of the greedy solver ends.  It fails with the number of rows that no column covers, and
succeeds if there is none. -/
theorem exists_ends (g : Greedy) (hm : m.IsReady) (hc : m.IsCompared) :
    ∃ g' y, Ends g { matrix := m } g' y ∧ y.matrix.IsReady ∧
      (g.solve m).result =
        if m.uncovered.length = 0 then .ok (y.selected, g', y.matrix)
        else .error (.uncoveredRows m.uncovered.length) := by
  have hx : Reduction.Abreast True { matrix := m } { matrix := m } := abreast_refl hm hc
  obtain ⟨⟨g₁, x⟩, q, events, hreduce, hreduce', hx⟩ := (Alike.refl g).reduce hx
  cases hreduce.symm.trans hreduce'
  have hready : x.matrix.IsReady := hx.reductions.isReady
  obtain ⟨⟨g₂, y⟩, q', events', hextend, -, hy⟩ :=
    (Alike.refl g₁).extend hx.reductions (x.matrix.numActive .column)
  have hready' : y.matrix.IsReady := hy.reductions.isReady
  have hends := ends_of_extend (x := { matrix := m }) hm (congrArg Traced.result hreduce)
    (congrArg Traced.result hextend) (hready.isValid.numActive_eq _).ge
  refine ⟨g₂, y, hends, hready', ?_⟩
  rw [← hends.numActive_row_eq hm hready'.isValid]
  exact result_solve (congrArg Traced.result hreduce) (congrArg Traced.result hextend)

/-- On a matrix that has a cover the greedy solver finds one. -/
theorem exists_solve_eq_ok (g : Greedy) (hm : m.IsReady) (hc : m.IsCompared) (hS : m.Covers S) :
    ∃ columns g' k, (g.solve m).result = .ok (columns, g', k) := by
  obtain ⟨g', y, -, -, hsolve⟩ := exists_ends g hm hc
  rw [hS.uncovered_eq_nil, List.length_nil, if_pos rfl] at hsolve
  exact ⟨_, _, _, hsolve⟩

theorem exists_solveAndRestore_eq_ok (g : Greedy) (hm : m.IsReady) (hc : m.IsCompared)
    (hS : m.Covers S) : ∃ columns g' k, (g.solveAndRestore m).result = .ok (columns, g', k) := by
  have hsaved := (inStep_refl (p := True) hm.isValid hc).save.isCompared_left
  obtain ⟨columns, g', n, hn⟩ :=
    exists_solve_eq_ok g hm.save hsaved ((similar_save m).covers_iff.2 hS)
  obtain ⟨-, hadvances, -⟩ := coversOnce_of_solve hm.save hn
  obtain ⟨k, hk, -⟩ := hadvances.exists_restore_eq_ok hm.isValid
  refine ⟨columns, g', k, ?_⟩
  simp only [solveAndRestore, Traced.result_bind, Traced.result_liftM, hn, ok_bind, hk]
  rfl

end Greedy

end SetCover
