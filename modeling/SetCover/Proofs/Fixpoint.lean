import SetCover.Proofs.Reduction.Essential
import SetCover.Proofs.Reduction.Irreducible
import SetCover.Proofs.Safety

/-!
# Reducing until nothing changes

The passes over a reachable matrix come to an end, and what is left is reduced: no phase finds
anything any more, and one more pass leaves everything as it is.  This holds for every comparator
that looks at costs and indices alone.  A single phase already leaves nothing of its own kind.
-/

namespace SetCover.Matrix

variable {E : List (Nat × Nat)} {x y : Reduction} {may : Comparator}

/-- The last of the passes starts from a reachable matrix and changes nothing. -/
theorem Reachable.exists_last (hx : Reachable E x.matrix) (h : Reduction.Settles may x y) :
    ∃ z : Reduction, Reachable E z.matrix ∧ (z.reduce may).result = .ok (false, y) := by
  induction h with
  | done h => exact ⟨_, hx, h⟩
  | again h _ ih => exact ih (hx.act (.reduce h))

/-- If a pass changes nothing, then no phase finds anything in what it leaves, and all rows that
are left are clean. -/
theorem Reachable.isReduced_of_reduce (hx : Reachable E x.matrix) (hmay : may.DependsOnCosts)
    (hy : (x.reduce may).result = .ok (false, y)) :
    y.matrix.IsReduced may ∧ ∀ r ∈ y.matrix.active .row, y.matrix.isDirty .row r = false := by
  simp only [Reduction.reduce, Traced.result_bind, bind_eq_ok_iff] at hy
  obtain ⟨⟨b₁, x₁⟩, hx₁, ⟨b₂, x₂⟩, hx₂, ⟨b₃, x₃⟩, hx₃, hy⟩ := hy
  obtain ⟨hb, rfl⟩ := Prod.mk.inj (Except.ok.inj hy)
  obtain ⟨⟨-, rfl⟩, rfl⟩ : (b₁ = false ∧ b₂ = false) ∧ b₃ = false := by simpa using hb
  have hreachable₁ := hx.act (.dropDominatedColumns hx₁)
  have hreachable₂ := hreachable₁.act (.selectEssential hx₂)
  have hready₁ := hreachable₁.holds.grounded.isReady
  have hready₂ := hreachable₂.holds.grounded.isReady
  -- neither of the last two phases has deleted anything
  obtain ⟨xs, hxs, hb₂⟩ := Reduction.exists_accounts_of_selectEssential hx₂
  obtain rfl : xs = [] := by simpa using hb₂
  obtain ⟨ys, hys, hb₃⟩ := Reduction.exists_accounts_of_dropDominatedRows hx₃
  obtain rfl : ys = [] := by simpa using hb₃
  have hsimilar := hxs.deletes.trail.similar_of_nil.trans hys.deletes.trail.similar_of_nil
  obtain ⟨hthin, hclean⟩ := Reduction.isThin_of_dropDominatedRows hready₂ hreachable₂.isCompared hx₃
  have hready := hx.holds.grounded.isReady
  have hcolumns := Reduction.hasThinColumns_of_dropDominatedColumns hready hmay hx₁
  refine ⟨⟨hcolumns.of_similar hmay hsimilar, ?_, hthin⟩, hclean⟩
  rw [← hsimilar.active_eq, ← hsimilar.line_eq]
  intro r hr
  exact Reduction.length_ne_one_of_selectEssential hready₁ hx₂ hr

/-- What a phase leaves is thin in its own sense.  Reducing until nothing changes comes to an end
with a reduced matrix, and one more pass leaves everything as it is. -/
theorem Reachable.exists_isReduced (hx : Reachable E x.matrix) (hmay : may.DependsOnCosts) :
    (∃ b y, (x.dropDominatedColumns may).result = .ok (b, y) ∧ y.matrix.HasThinColumns may) ∧
    (∃ b y, x.dropDominatedRows.result = .ok (b, y) ∧ y.matrix.IsThin) ∧
    ∃ y, (x.reduceFully may).result = .ok y ∧ Reduction.Settles may x y ∧
      y.matrix.IsReduced may ∧ y.reduce may = pure (false, y) := by
  have hready := hx.holds.grounded.isReady
  obtain ⟨⟨b₁, y₁, hy₁⟩, -, ⟨b₂, y₂, hy₂⟩, -, y, hy⟩ := hx.exists_reduced may
  refine ⟨⟨b₁, y₁, hy₁, ?_⟩, ⟨b₂, y₂, hy₂, ?_⟩, y, hy, ?_⟩
  · exact Reduction.hasThinColumns_of_dropDominatedColumns hready hmay hy₁
  · exact (Reduction.isThin_of_dropDominatedRows hready hx.isCompared hy₂).1
  · have hsettles := Reduction.settles_of_reduceFully hready hy
    obtain ⟨z, hz, hlast⟩ := hx.exists_last hsettles
    obtain ⟨hreduced, hclean⟩ := hz.isReduced_of_reduce hmay hlast
    have hready' := (hx.act (.reduceFully hy)).holds.grounded.isReady
    exact ⟨hsettles, hreduced, Reduction.reduce_eq_self hready' hreduced hclean⟩

/-- A column is dropped, another one is selected for its row, and a row goes for a smaller one.
The three rows that are left have two columns each, and no pass finds anything there. -/
theorem isReduced_of_triangle : ∃ m y,
    ofElements 5 [1, 1, 1, 1, 1] [(0, 0), (0, 1), (0, 3), (1, 1), (1, 2), (2, 2), (2, 0), (3, 4),
      (4, 0), (4, 1), (4, 3)] = .ok m ∧
    ((Reduction.mk m [] []).reduceFully DominanceRule.costAware.comparator).result = .ok y ∧
      (y.selected, y.dropped, y.matrix.active .row) = ([4], [3], [0, 1, 2]) ∧
      y.matrix.IsReduced DominanceRule.costAware.comparator ∧
      y.reduce DominanceRule.costAware.comparator = pure (false, y) := by
  obtain ⟨m, hm, hrun⟩ : ∃ m, ofElements 5 [1, 1, 1, 1, 1] [(0, 0), (0, 1), (0, 3), (1, 1), (1, 2),
      (2, 2), (2, 0), (3, 4), (4, 0), (4, 1), (4, 3)] = .ok m ∧
      ((Reduction.mk m [] []).reduceFully DominanceRule.costAware.comparator).result.map
        (fun y => (y.selected, y.dropped, y.matrix.active .row)) = .ok ([4], [3], [0, 1, 2]) :=
    ⟨_, rfl, by decide +kernel⟩
  have hreachable : Reachable [(0, 0), (0, 1), (0, 3), (1, 1), (1, 2), (2, 2), (2, 0), (3, 4),
      (4, 0), (4, 1), (4, 3)] (Reduction.mk m [] []).matrix := .ofElements (by decide) hm
  obtain ⟨-, -, y, hy, -, hreduced, hlast⟩ :=
    hreachable.exists_isReduced (DominanceRule.dependsOnCosts_comparator .costAware)
  rw [hy] at hrun
  exact ⟨m, y, hm, hy, Except.ok.inj hrun, hreduced, hlast⟩

end SetCover.Matrix
