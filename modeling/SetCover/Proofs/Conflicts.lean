import SetCover.Proofs.Bound.Lookups
import SetCover.Proofs.Refinement

/-!
# Conflicts of reachable matrices

The conflict graph of a reachable matrix is stated on the elements that were added and on the
journal, in whatever tables it is built.  Two active rows are in conflict if they have elements in
one active column, and no conflict is missing or listed twice; the cost that is noted for a row is
that of the cheapest of its active columns.
-/

namespace SetCover

open SetCover.Matrix

variable {m : Matrix} {E : List (Nat × Nat)} {r : Nat}

/-- The cheapest active column of row `r` costs `a`; if there is no such column, then `a` is 0. -/
def Matrix.IsCheapest (E : List (Nat × Nat)) (m : Matrix) (r a : Nat) : Prop :=
  (∃ c ∈ m.active .column, (r, c) ∈ E ∧ m.costOf c = a ∧
    ∀ b ∈ m.active .column, (r, b) ∈ E → a ≤ m.costOf b) ∨
      (∀ c ∈ m.active .column, (r, c) ∉ E) ∧ a = 0

/-- The graph is what the elements and the active rows and columns of the matrix say. -/
structure ConflictGraph.IsExact (E : List (Nat × Nat)) (m : Matrix) (g : ConflictGraph) :
    Prop where
  rows_eq : g.rows.toList = m.active .row
  rows_ascending : g.rows.toList.Pairwise (· < ·)
  size_neighbours : g.neighbours.size = g.size
  nodup_neighboursOf : ∀ v, (g.neighboursOf v).Nodup
  mem_neighboursOf_iff : ∀ v w : Nat, w ∈ g.neighboursOf v ↔ w ≠ v ∧ ∃ r s c, g.rows[v]? = some r ∧
    g.rows[w]? = some s ∧ c ∈ m.active .column ∧ (r, c) ∈ E ∧ (s, c) ∈ E
  mem_comm : ∀ v w, w ∈ g.neighboursOf v ↔ v ∈ g.neighboursOf w
  size_cheapest : g.cheapest.size = g.size
  isCheapest : ∀ v r : Nat, g.rows[v]? = some r →
    ∃ a, g.cheapest[v]? = some a ∧ m.IsCheapest E r a

namespace Matrix

open ConflictGraph

theorem Reachable.mem_line_row_iff (hm : Reachable E m) (hr : r ∈ m.active .row) {c : Nat} :
    c ∈ m.line .row r ↔ c ∈ m.active .column ∧ (r, c) ∈ E := by
  rw [hm.holds.grounded.isValid.mem_line_iff hr, hm.holds.meets_iff, and_comm]
  rfl

/-- The least cost in the line of an active row is that of its cheapest column. -/
theorem Reachable.isCheapest_leastCost (hm : Reachable E m) (hr : r ∈ m.active .row) :
    m.IsCheapest E r (leastCost m r) := by
  rw [leastCost]
  cases hmin : ((m.line .row r).map m.costOf).min? with
  | none =>
      rw [List.min?_eq_none_iff, List.map_eq_nil_iff] at hmin
      refine .inr ⟨fun c hc hrc => ?_, rfl⟩
      have hline := (hm.mem_line_row_iff hr).2 ⟨hc, hrc⟩
      exact absurd (hmin ▸ hline) List.not_mem_nil
  | some a =>
      obtain ⟨hmem, hle⟩ := List.min?_eq_some_iff.1 hmin
      obtain ⟨c, hc, rfl⟩ := List.mem_map.1 hmem
      obtain ⟨hactive, hrc⟩ := (hm.mem_line_row_iff hr).1 hc
      refine .inl ⟨c, hactive, hrc, rfl, fun b hb hrb => ?_⟩
      exact hle _ (List.mem_map_of_mem ((hm.mem_line_row_iff hr).2 ⟨hb, hrb⟩))

/-- In whatever tables it is built, the conflict graph of a reachable matrix is exact, and no
access on the way is out of range. -/
theorem Reachable.tryRefresh_isExact (hm : Reachable E m) (g : ConflictGraph) :
    g.tryRefresh m = .ok (g.refresh m) ∧ (g.refresh m).IsExact E m := by
  have hvalid := hm.holds.grounded.isValid
  obtain ⟨hrefresh, hserves⟩ := g.tryRefresh_eq hvalid hm.size_costs_eq
  have hg := g.represents_refresh hvalid
  have hrows : ∀ v, (g.refresh m).rows[v]? = (m.active .row)[v]? := fun v => by
    rw [← hg.rows_eq, Array.getElem?_toList]
  refine ⟨hrefresh, hg.rows_eq, ?_, ?_, hg.nodup_neighboursOf, fun v w => ?_,
    fun v w => hg.mem_comm, ?_, fun v r hr => ?_⟩
  · rw [hg.rows_eq]
    exact (hvalid.isOrdered .row).ascending
  · rw [hserves.size_neighbours, hg.size_eq]
  · rw [hg.mem_neighboursOf_iff, InConflict, ne_comm]
    simp only [hrows]
    refine and_congr_right fun _ => exists₃_congr fun r s c => ?_
    refine and_congr_right fun hr => and_congr_right fun hs => ?_
    rw [hm.mem_line_row_iff (List.mem_of_getElem? hr),
      hm.mem_line_row_iff (List.mem_of_getElem? hs)]
    exact and_and_left.symm
  · rw [← Array.length_toList, hg.cheapest_eq, List.length_map, hg.size_eq]
  · rw [hrows] at hr
    refine ⟨leastCost m r, ?_, hm.isCheapest_leastCost (List.mem_of_getElem? hr)⟩
    rw [← Array.getElem?_toList, hg.cheapest_eq, List.getElem?_map, hr]
    rfl

/-- A row and a column are deleted, and the graph is built in the tables of the one before.  The
rows that are left have other numbers than their vertices; two of them share two columns and are in
conflict once, and one has lost its only column. -/
theorem tryRefresh_isExact_five_rows : ∃ m k g, ofElements 5 [5, 2, 7, 1]
      [(0, 0), (0, 1), (1, 1), (2, 1), (2, 2), (3, 3), (4, 0), (4, 1)] = .ok m ∧
    (do (← m.delete .row 1).delete .column 3) = .ok k ∧
    ConflictGraph.tryRefresh {} m = .ok g ∧ g.tryRefresh k = .ok (g.refresh k) ∧
    ((g.refresh k).rows, (g.refresh k).neighbours, (g.refresh k).cheapest) =
      (#[0, 2, 3, 4], #[#[3, 1], #[0, 3], #[], #[0, 1]], #[2, 2, 0, 2]) ∧
    (g.refresh k).IsExact
      [(0, 0), (0, 1), (1, 1), (2, 1), (2, 2), (3, 3), (4, 0), (4, 1)] k := by
  have hrun : (do
      let m ← ofElements 5 [5, 2, 7, 1]
        [(0, 0), (0, 1), (1, 1), (2, 1), (2, 2), (3, 3), (4, 0), (4, 1)]
      let n ← m.delete .row 1
      let k ← n.delete .column 3
      let g ← ConflictGraph.tryRefresh {} m
      return ((g.refresh k).rows, (g.refresh k).neighbours, (g.refresh k).cheapest)) =
        .ok (#[0, 2, 3, 4], #[#[3, 1], #[0, 3], #[], #[0, 1]], #[2, 2, 0, 2]) := by decide +kernel
  obtain ⟨m, hm, hrun⟩ := bind_eq_ok_iff.1 hrun
  obtain ⟨n, hn, hrun⟩ := bind_eq_ok_iff.1 hrun
  obtain ⟨k, hk, hrun⟩ := bind_eq_ok_iff.1 hrun
  obtain ⟨g, hg, hrun⟩ := bind_eq_ok_iff.1 hrun
  have hreachable : Reachable
      [(0, 0), (0, 1), (1, 1), (2, 1), (2, 2), (3, 3), (4, 0), (4, 1)] k :=
    .act (.act (.ofElements (by decide) hm) (.delete hn)) (.delete hk)
  obtain ⟨hrefresh, hexact⟩ := hreachable.tryRefresh_isExact g
  refine ⟨m, k, g, hm, ?_, hg, hrefresh, Except.ok.inj hrun, hexact⟩
  rw [hn, ok_bind, hk]

end Matrix

end SetCover
