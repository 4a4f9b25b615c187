import SetCover.Proofs.Matrix.Consistent
import SetCover.Proofs.Reachable

/-!
# What a reachable matrix stands for

`Refines E m` says that the linked structure `m` stands for the abstract matrix with the elements
`E`, of which the rows and columns in the journal are deleted, in this order.  A row is active if it
has an element and is not deleted.  The line of an active row holds its active columns; that of a
deleted row keeps the columns that were not deleted before it.  Nothing else is seen from outside.
-/

namespace SetCover.Matrix

variable {m : Matrix} {E : List (Nat × Nat)} {S : Finset Nat} {d : Dimension} {i j : Nat}

/-- There is an element in row or column `i` and in column or row `j`. -/
def HasElementAt (E : List (Nat × Nat)) : Dimension → (i j : Nat) → Prop
  | .row, i, j => (i, j) ∈ E
  | .column, i, j => (j, i) ∈ E

/-- The matrix is what its elements `E` and its journal say. -/
structure Refines (E : List (Nat × Nat)) (m : Matrix) : Prop where
  mem_active_iff : ∀ d i, i ∈ m.active d ↔
    (∃ j, HasElementAt E d i j) ∧ ⟨d, i⟩ ∉ m.journal.deletions
  isDeleted_iff : ∀ d i, i < (m.headers.get d).size → (m.isDeleted d i = true ↔ i ∉ m.active d)
  active_ascending : ∀ d, (m.active d).Pairwise (· < ·)
  numActive_eq : ∀ d, m.numActive d = (m.active d).length
  mem_line_of_active : ∀ d i, i ∈ m.active d → ∀ j,
    (j ∈ m.line d i ↔ HasElementAt E d i j ∧ j ∈ m.active d.other)
  mem_line_of_deleted : ∀ d i, ⟨d, i⟩ ∈ m.journal.deletions → ∀ j,
    (j ∈ m.line d i ↔ HasElementAt E d i j ∧
      ⟨d.other, j⟩ ∉ Deletion.before m.journal.deletions ⟨d, i⟩)
  line_ascending : ∀ d i, i < (m.headers.get d).size → (m.line d i).Pairwise (· < ·)
  count_eq : ∀ d i, i < (m.headers.get d).size → m.count d i = (m.line d i).length
  isClear : ∀ d, (m.marks.get d).isClear = true
  isConsistent : m.isConsistent = true

theorem Holds.meets_iff (h : Holds E m) : m.Meets d i j ↔ HasElementAt E d i j := by
  cases d with
  | row => exact meets_row_iff.trans (h.mem_elements ⟨i, j⟩)
  | column => exact meets_other.symm.trans (meets_row_iff.trans (h.mem_elements ⟨j, i⟩))

theorem Holds.hasElement_iff (h : Holds E m) : m.HasElement d i ↔ ∃ j, HasElementAt E d i j := by
  constructor
  · rintro ⟨x, hx, hi⟩
    exact ⟨_, h.meets_iff.1 ⟨x, hx, hi, rfl⟩⟩
  · rintro ⟨j, hj⟩
    exact (h.meets_iff.2 hj).hasElement

/-- A set of active columns covers the matrix if each active row has an element in one of them. -/
theorem Reachable.covers_iff (h : Reachable E m) : m.Covers S ↔
    (∀ c ∈ S, c ∈ m.active .column) ∧ ∀ r ∈ m.active .row, ∃ c ∈ S, (r, c) ∈ E := by
  rw [h.holds.grounded.isValid.covers_iff]
  simp only [h.holds.meets_iff, HasElementAt]

theorem isClear_unset (n : Nat) : (Marks.unset n).isClear = true := by
  rw [Marks.isClear, Marks.unset, Bool.and_eq_true, Array.all_eq_true]
  exact ⟨rfl, fun i hi => by simp⟩

/-- A reachable matrix stands for its elements and its journal. -/
theorem Reachable.refines (h : Reachable E m) : Refines E m := by
  have hvalid : m.WellFormed m.journal.deletions := h.holds.grounded.isValid
  refine ⟨fun d i => ?_, fun d i hi => ?_, fun d => (hvalid.isOrdered d).ascending,
    hvalid.numActive_eq, fun d i hi j => ?_, fun d i hi j => ?_,
    hvalid.ascending, fun d i hi => hvalid.count_eq_length hi, fun d => ?_, hvalid.isConsistent⟩
  · rw [hvalid.mem_active, h.holds.hasElement_iff]
  · rw [← hvalid.isDeleted_iff hi, Bool.not_eq_false]
  · rw [hvalid.mem_line_iff hi, h.holds.meets_iff]
  · have hlt := hvalid.lt_size_of_hasElement (hvalid.hasElement d i hi)
    rw [hvalid.toLinked.mem_line_iff hlt, h.holds.meets_iff]
  · rw [h.holds.grounded.unmarked d]
    exact isClear_unset _

/-- The first row is deleted after the second column, so it keeps the first column. -/
theorem refines_two_by_two : ∃ k, (do
    let m ← ofElements 2 [1, 1] [(0, 0), (0, 1), (1, 1)]
    (← m.delete .column 1).delete .row 0) = .ok k ∧
      k.line .row 0 = [0] ∧ Refines [(0, 0), (0, 1), (1, 1)] k := by
  obtain ⟨k, hk, hline⟩ : ∃ k, (do
    let m ← ofElements 2 [1, 1] [(0, 0), (0, 1), (1, 1)]
    (← m.delete .column 1).delete .row 0) = .ok k ∧ k.line .row 0 = [0] := ⟨_, rfl, rfl⟩
  obtain ⟨m, hm, hk'⟩ := bind_eq_ok_iff.1 hk
  obtain ⟨n, hn, hk'⟩ := bind_eq_ok_iff.1 hk'
  have hreachable : Reachable [(0, 0), (0, 1), (1, 1)] k :=
    .act (.act (.ofElements (by decide) hm) (.delete hn)) (.delete hk')
  exact ⟨k, hk, hline, hreachable.refines⟩

end SetCover.Matrix
