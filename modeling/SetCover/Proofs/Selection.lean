import Mathlib.Data.List.MinMax
import SetCover.Proofs.Greedy.InStep
import SetCover.Proofs.Refinement

/-!
# What a selector chooses

The contract of the selectors on a reachable matrix.  A selector chooses an active column that
covers an active row, and none only if there is none; `naive` takes the lowest of the columns that
cover most.

A tie breaker keeps its first candidate, whatever value it has, and replaces it by later ones only.
So there is a choice even if no two values compare.
-/

namespace SetCover

open SetCover.Matrix

variable {m : Matrix} {E : List (Nat × Nat)} {c r : Nat}

namespace TieBreaker

variable {α β : Type}

theorem selectBy_eq_none_iff [LT β] [DecidableLT β] {d : Direction} {score : α → β}
    {candidates : List α} : selectBy d score candidates = none ↔ candidates = [] :=
  ⟨eq_nil_of_selectBy, by rintro rfl; rfl⟩

/-- A tie breaker for the maximum that keeps a candidate. -/
def holding [LT β] (score : α → β) (kept : Option α) : TieBreaker α β where
  direction := .maximum
  best := kept.map fun c => (c, score c)

theorem consider_holding [LT β] [DecidableLT β] (score : α → β) (kept : Option α) (c : α) :
    (holding score kept).consider c (score c) =
      holding score (List.argAux (fun b c => score c < score b) kept c) := by
  cases kept with
  | none => rfl
  | some b => by_cases hlt : score b < score c <;>
      simp [holding, consider, Direction.improves, List.argAux, hlt]

/-- To seek the maximum is to take the first argument of the greatest value. -/
theorem selectBy_maximum_eq_argmax [Preorder β] [DecidableLT β] (score : α → β)
    (candidates : List α) : selectBy .maximum score candidates = candidates.argmax score := by
  have hfold : candidates.foldl (fun t c => t.consider c (score c)) (holding score none) =
      holding score (candidates.argmax score) := List.foldl_hom _ (consider_holding score)
  calc selectBy .maximum score candidates
      = (holding score (candidates.argmax score)).select.1 := by rw [← hfold]; rfl
    _ = candidates.argmax score := by simp [holding, select, Function.comp_def]

/-- In an ascending list the positions are ordered as the entries. -/
theorem idxOf_le_idxOf_iff {cs : List Nat} (h : cs.Pairwise (· < ·)) {b : Nat} (hb : b ∈ cs)
    (hc : c ∈ cs) : cs.idxOf c ≤ cs.idxOf b ↔ c ≤ b := by
  have hmono := h.sortedLT.strictMono_get.le_iff_le
    (a := ⟨cs.idxOf c, List.idxOf_lt_length_iff.2 hc⟩)
    (b := ⟨cs.idxOf b, List.idxOf_lt_length_iff.2 hb⟩)
  rwa [List.idxOf_get, List.idxOf_get, Fin.mk_le_mk, Iff.comm] at hmono

/-- Of ascending candidates the lowest with the greatest value is chosen. -/
theorem selectBy_maximum_eq_some_iff [LinearOrder β] {score : Nat → β} {cs : List Nat}
    (h : cs.Pairwise (· < ·)) : selectBy .maximum score cs = some c ↔
      c ∈ cs ∧ ∀ b ∈ cs, score b ≤ score c ∧ (score b = score c → c ≤ b) := by
  rw [selectBy_maximum_eq_argmax, List.argmax_eq_some_iff]
  refine and_congr_right fun hc => ?_
  rw [← forall₂_and]
  refine forall₂_congr fun b hb => and_congr_right fun hle => ?_
  rw [idxOf_le_idxOf_iff h hb hc]
  exact ⟨fun hfirst heq => hfirst heq.ge, fun hlow hge => hlow (le_antisymm hle hge)⟩

end TieBreaker

/-! ### Candidates -/

namespace Matrix

/-- The number of active rows that column `c` covers. -/
def coverage (E : List (Nat × Nat)) (m : Matrix) (c : Nat) : Nat :=
  (m.active .row).countP fun r => (r, c) ∈ E

/-- The recorded number of elements of an active column is that of the active rows it covers. -/
theorem Reachable.count_column_eq (h : Reachable E m) (hc : c ∈ m.active .column) :
    m.count .column c = coverage E m c := by
  have hvalid := h.holds.grounded.isValid
  have hline : m.line .column c = (m.active .row).filter fun r => (r, c) ∈ E := by
    have hlt := hvalid.lt_size_of_mem_active hc
    refine List.Pairwise.eq_of_mem_iff (hvalid.ascending .column c hlt)
      ((hvalid.isOrdered .row).ascending.filter _) fun r => ?_
    rw [hvalid.mem_line_iff hc, h.holds.meets_iff, List.mem_filter, decide_eq_true_iff, and_comm]
    rfl
  rw [hvalid.count_eq_length_of_mem_active hc, hline, coverage, List.countP_eq_length_filter]

theorem coverage_pos_iff : 0 < coverage E m c ↔ ∃ r ∈ m.active .row, (r, c) ∈ E := by
  simp only [coverage, List.countP_pos_iff, decide_eq_true_iff]

/-- The candidates are the active columns that cover an active row. -/
theorem Reachable.mem_candidates_iff (h : Reachable E m) :
    c ∈ m.candidates ↔ c ∈ m.active .column ∧ ∃ r ∈ m.active .row, (r, c) ∈ E := by
  rw [candidates, List.mem_filter, decide_eq_true_iff]
  refine and_congr_right fun hc => ?_
  rw [h.count_column_eq hc, coverage_pos_iff]

theorem Reachable.candidates_ascending (h : Reachable E m) : m.candidates.Pairwise (· < ·) :=
  (h.holds.grounded.isValid.isOrdered .column).ascending.filter _

/-! ### Tables -/

/-- The rows for which a selector writes a number to its table or looks one up. -/
def tableRows (m : Matrix) : List Nat := m.active .row ++ m.candidates.flatMap (m.line .column)

theorem size_rowTable (m : Matrix) (buffer : Array Float) (value : Nat → Float) :
    (m.rowTable buffer value).size = m.numRows := by
  refine List.foldlRecOn (motive := fun table : Array Float => table.size = m.numRows) _ _ ?_ ?_
  · rw [refill_eq_replicate, Array.size_replicate]
  · exact fun table htable r _ => Array.size_setIfInBounds.trans htable

theorem Reachable.lt_numRows_of_mem_tableRows (h : Reachable E m) (hr : r ∈ m.tableRows) :
    r < m.numRows := by
  have hvalid := h.holds.grounded.isValid
  refine hvalid.lt_size_of_mem_active (d := .row) ?_
  rcases List.mem_append.1 hr with hr | hr
  · exact hr
  · obtain ⟨c, hc, hr⟩ := List.mem_flatMap.1 hr
    exact hvalid.mem_active_of_mem_line (mem_active_of_mem_candidates hc) hr

end Matrix

/-! ### The contract -/

namespace Selector

/-- The table of a selector, if it keeps one. -/
def table? : Selector → Option (Array Float)
  | naive => none
  | weighted weights => some weights
  | costSensitive charges => some charges

theorem select_eq_none_iff {s : Selector} : (s.select m).1 = none ↔ m.candidates = [] := by
  refine ⟨candidates_eq_nil, fun hnil => ?_⟩
  cases s with
  | naive => exact TieBreaker.selectBy_eq_none_iff.2 hnil
  | weighted weights => exact TieBreaker.selectBy_eq_none_iff.2 hnil
  | costSensitive charges => exact TieBreaker.selectBy_eq_none_iff.2 hnil

theorem size_table_of_select {s : Selector} {table : Array Float}
    (h : table ∈ (s.select m).2.table?) : table.size = m.numRows := by
  cases s with
  | naive => cases h
  | weighted weights =>
      cases h
      exact size_rowTable m weights m.weight
  | costSensitive charges =>
      cases h
      exact size_rowTable m charges m.charge

end Selector

/-- The `naive` selector finds the lowest of the active columns that cover most. -/
theorem Matrix.Reachable.select_naive_eq_some_iff (h : Reachable E m) :
    (Selector.naive.select m).1 = some c ↔
      c ∈ m.active .column ∧ (∃ r ∈ m.active .row, (r, c) ∈ E) ∧
        ∀ b ∈ m.active .column, coverage E m b ≤ coverage E m c ∧
          (coverage E m b = coverage E m c → c ≤ b) := by
  rw [Selector.select, TieBreaker.selectBy_maximum_eq_some_iff h.candidates_ascending,
    h.mem_candidates_iff, and_assoc]
  refine and_congr_right fun hc => and_congr_right fun hcovers => ?_
  constructor
  · intro hbest b hb
    by_cases hcandidate : b ∈ m.candidates
    · have hbest := hbest b hcandidate
      rwa [h.count_column_eq hb, h.count_column_eq hc] at hbest
    · -- a column that covers nothing is worse than one that covers a row
      have hpos : 0 < coverage E m c := coverage_pos_iff.2 hcovers
      have hzero : ¬0 < coverage E m b := fun hb' =>
        hcandidate (h.mem_candidates_iff.2 ⟨hb, coverage_pos_iff.1 hb'⟩)
      omega
  · intro hbest b hb
    have hb := mem_active_of_mem_candidates hb
    rw [h.count_column_eq hb, h.count_column_eq hc]
    exact hbest b hb

/-- A selector finds no column exactly if no active column covers an active row, and otherwise an
active column that does.  It does so whatever its table held before, and neither writes nor looks
up anything outside of the table.  The `naive` selector finds the lowest of the active columns that
cover most. -/
theorem Matrix.Reachable.select_contract (h : Reachable E m) (s : Selector) :
    ((s.select m).1 = none ↔ ∀ c ∈ m.active .column, ∀ r ∈ m.active .row, (r, c) ∉ E) ∧
    (∀ c, (s.select m).1 = some c → c ∈ m.active .column ∧ ∃ r ∈ m.active .row, (r, c) ∈ E) ∧
    (∀ table ∈ (s.select m).2.table?, ∀ r ∈ m.tableRows, r < table.size) ∧
    (∀ c, (Selector.naive.select m).1 = some c ↔
      c ∈ m.active .column ∧ (∃ r ∈ m.active .row, (r, c) ∈ E) ∧
        ∀ b ∈ m.active .column, coverage E m b ≤ coverage E m c ∧
          (coverage E m b = coverage E m c → c ≤ b)) := by
  refine ⟨?_, fun c hc => ?_, fun table htable r hr => ?_,
    fun c => h.select_naive_eq_some_iff⟩
  · rw [Selector.select_eq_none_iff, List.eq_nil_iff_forall_not_mem]
    simp only [h.mem_candidates_iff]
    push Not
    rfl
  · exact h.mem_candidates_iff.1 (Selector.mem_candidates_of_select hc)
  · rw [Selector.size_table_of_select htable]
    exact h.lt_numRows_of_mem_tableRows hr

/-- Column 0 is deleted, column 1 is left without rows, and column 2 costs nothing, so its score is
infinite.  The table is too short and holds what an earlier use has left. -/
theorem Matrix.select_contract_of_free_column : ∃ k, (do
    let m ← ofElements 4 [1, 1, 0, 4] [(0, 0), (0, 2), (1, 1), (2, 2), (2, 3), (3, 0), (3, 3)]
    (← m.delete .row 1).delete .column 0) = .ok k ∧
      k.active .column = [1, 2, 3] ∧ ((Selector.weighted #[7]).select k).1 = some 2 ∧
      (Selector.naive.select k).1 = some 2 ∧
      ∀ s : Selector, (s.select k).1 = some 2 ∨ (s.select k).1 = some 3 := by
  obtain ⟨k, hk, hcolumns, hrows, hweighted⟩ : ∃ k, (do
    let m ← ofElements 4 [1, 1, 0, 4] [(0, 0), (0, 2), (1, 1), (2, 2), (2, 3), (3, 0), (3, 3)]
    (← m.delete .row 1).delete .column 0) = .ok k ∧ k.active .column = [1, 2, 3] ∧
      k.active .row = [0, 2, 3] ∧ ((Selector.weighted #[7]).select k).1 = some 2 :=
    ⟨_, rfl, rfl, rfl, by decide +kernel⟩
  obtain ⟨m, hm, hk'⟩ := bind_eq_ok_iff.1 hk
  obtain ⟨n, hn, hk'⟩ := bind_eq_ok_iff.1 hk'
  have hreachable := Reachable.act (.act (.ofElements (by decide) hm) (.delete hn)) (.delete hk')
  refine ⟨k, hk, hcolumns, hweighted, ?_, fun s => ?_⟩
  · obtain ⟨-, -, -, hnaive⟩ := hreachable.select_contract .naive
    refine (hnaive 2).2 ?_
    rw [hcolumns]
    simp only [coverage, hrows]
    decide
  · obtain ⟨hnone, hsome, -⟩ := hreachable.select_contract s
    rw [hcolumns, hrows] at hnone hsome
    cases hchoice : (s.select k).1 with
    | none => exact absurd (hnone.1 hchoice) (by decide)
    | some c =>
        obtain ⟨hc, hcovers⟩ := hsome c hchoice
        obtain rfl | rfl | rfl : c = 1 ∨ c = 2 ∨ c = 3 := by simpa using hc
        · exact absurd hcovers (by decide)
        · exact Or.inl rfl
        · exact Or.inr rfl

end SetCover
