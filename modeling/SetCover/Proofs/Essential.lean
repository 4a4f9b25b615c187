import SetCover.Proofs.Coverage
import SetCover.Proofs.Reduction.Essential
import SetCover.Proofs.Refinement

/-!
# The selection of essential columns

On a reachable matrix the second phase of a reduction selects the essential columns, no other ones,
and deletes what they cover.
-/

namespace SetCover.Matrix

/-- The second phase selects exactly the essential columns, each once, ordered by the lowest row
of which each is the only column.  They and the rows that they cover are deleted; the rows that are
left keep their columns, and none has a single one.  The phase tells whether it selected any. -/
theorem Reachable.exists_essential {E : List (Nat × Nat)} {x : Reduction}
    (hx : Reachable E x.matrix) : ∃ b y N, x.selectEssential.result = .ok (b, y) ∧
      y.selected = x.selected ++ N ∧ y.dropped = x.dropped ∧ (b = true ↔ N ≠ []) ∧ N.Nodup ∧
      (∀ c, c ∈ N ↔ c ∈ x.matrix.active .column ∧ x.matrix.isEssential c = .ok true) ∧
      N.Pairwise (x.matrix.Precedes (x.matrix.active .row)) ∧
      (∀ c, c ∈ y.matrix.active .column ↔ c ∈ x.matrix.active .column ∧ c ∉ N) ∧
      (∀ r, r ∈ y.matrix.active .row ↔ r ∈ x.matrix.active .row ∧ ∀ c ∈ N, (r, c) ∉ E) ∧
      (∀ r ∈ y.matrix.active .row, y.matrix.line .row r = x.matrix.line .row r) ∧
      ∀ r ∈ y.matrix.active .row, y.matrix.count .row r ≠ 1 := by
  have hready := hx.holds.grounded.isReady
  have hvalid := hready.isValid
  obtain ⟨-, ⟨b, y, hy⟩, -⟩ := hx.exists_reduced fun _ _ _ => true
  obtain ⟨N, hN, hb⟩ := Reduction.exists_takes_of_selectEssential hready hy
  have hmem : ∀ c, c ∈ N ↔ ∃ r, x.matrix.IsSingleton r c := fun c =>
    (hN.mem_iff c).trans (exists_congr fun r => and_iff_right_of_imp And.left)
  have hactive : ∀ c ∈ N, c ∈ x.matrix.active .column := by
    intro c hc
    obtain ⟨r, hr⟩ := (hmem c).1 hc
    exact hr.mem_active hvalid
  refine ⟨b, y, N, hy, hN.selected_eq, Reduction.dropped_of_selectEssential hy, hb,
    hN.ordered.imp Precedes.ne, fun c => ?_, hN.ordered, hN.leaves.mem_active_column,
    fun r => ?_, hN.leaves.line_eq, fun r hr hcount => ?_⟩
  · constructor
    · exact fun hc => ⟨hactive c hc, (hvalid.isEssential_iff (hactive c hc)).2 ((hmem c).1 hc)⟩
    · exact fun hc => (hmem c).2 ((hvalid.isEssential_iff hc.1).1 hc.2)
  · rw [hN.leaves.mem_active_row]
    refine and_congr_right fun hr => forall₂_congr fun c hc => not_congr ?_
    rw [hvalid.mem_line_iff hr, hx.holds.meets_iff]
    exact and_iff_left (hactive c hc)
  · have hvalid' := hN.leaves.advances.isValid hvalid
    rw [hvalid'.count_eq_length_of_mem_active hr, List.length_eq_one_iff] at hcount
    obtain ⟨c, hc⟩ := hcount
    obtain ⟨hbefore, hnot⟩ := hN.leaves.isSingleton_iff.1 ⟨hr, hc⟩
    exact hnot ((hmem c).2 ⟨r, hbefore⟩)

/-- Column 2 is the only one of two rows, and column 1 of a row that has lost another column.  The
row that is left keeps its columns. -/
theorem exists_essential_of_shared : ∃ n b y, (do
    let m ← ofElements 5 [1, 1, 1, 1, 1] [(0, 2), (1, 0), (1, 3), (2, 2), (3, 1), (3, 4), (4, 0),
      (4, 1)]
    m.delete .column 4) = .ok n ∧
    (Reduction.mk n [9] [8]).selectEssential.result = .ok (b, y) ∧
      y.selected = [9, 2, 1] ∧ y.dropped = [8] ∧ b = true ∧
      (y.matrix.active .row, y.matrix.active .column) = ([1], [0, 3]) ∧
      n.isEssential 1 = .ok true ∧ y.matrix.line .row 1 = n.line .row 1 := by
  obtain ⟨n, hn, hrun⟩ : ∃ n, (do
    let m ← ofElements 5 [1, 1, 1, 1, 1] [(0, 2), (1, 0), (1, 3), (2, 2), (3, 1), (3, 4), (4, 0),
      (4, 1)]
    m.delete .column 4) = .ok n ∧ (Reduction.mk n [9] [8]).selectEssential.result.map (fun p =>
      (p.2.selected, p.2.matrix.active .row, p.2.matrix.active .column)) =
        .ok ([9, 2, 1], [1], [0, 3]) :=
    ⟨_, rfl, by decide +kernel⟩
  obtain ⟨m, hm, hn'⟩ := bind_eq_ok_iff.1 hn
  have hreachable : Reachable [(0, 2), (1, 0), (1, 3), (2, 2), (3, 1), (3, 4), (4, 0), (4, 1)]
      (Reduction.mk n [9] [8]).matrix := .act (.ofElements (by decide) hm) (.delete hn')
  obtain ⟨b, y, N, hy, hselected, hdropped, hb, -, hmem, -, -, -, hline, -⟩ :=
    hreachable.exists_essential
  rw [hy] at hrun
  obtain ⟨hends, hrows, hcolumns⟩ : y.selected = [9, 2, 1] ∧ y.matrix.active .row = [1] ∧
      y.matrix.active .column = [0, 3] := by simpa using Except.ok.inj hrun
  obtain rfl : N = [2, 1] := List.append_cancel_left (hselected.symm.trans hends)
  refine ⟨n, b, y, hn, hy, hends, hdropped, hb.2 (by decide), ?_, ?_, ?_⟩
  · rw [hrows, hcolumns]
  · exact ((hmem 1).1 (by decide)).2
  · exact hline 1 (by rw [hrows]; decide)

end SetCover.Matrix
