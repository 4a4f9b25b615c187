import SetCover.Proofs.Matrix.Trail

/-!
# What the lines hold

The lines of a well-formed matrix as its elements and deletions say: the line of a row that is
deleted last holds what it held before, and the line of an active row holds its active columns.
-/

namespace SetCover.Matrix

variable {m n k : Matrix} {J xs : List Deletion} {d : Dimension} {i j : Nat}

/-- Row or column `i` has an element in row or column `j` of the other dimension. -/
def Meets (m : Matrix) (d : Dimension) (i j : Nat) : Prop :=
  ∃ x, m.IsElement x ∧ m.position d x = i ∧ m.position d.other x = j

theorem meets_other : m.Meets d.other j i ↔ m.Meets d i j := by
  rw [Meets, Meets, Dimension.other_other]
  constructor
  · rintro ⟨x, hx, hj, hi⟩
    exact ⟨x, hx, hi, hj⟩
  · rintro ⟨x, hx, hi, hj⟩
    exact ⟨x, hx, hj, hi⟩

theorem meets_row_iff {r c : Nat} : m.Meets .row r c ↔ ⟨r, c⟩ ∈ m.elements := by
  rw [mem_elements_iff]
  constructor
  · rintro ⟨x, hx, hr, hc⟩
    refine ⟨x, hx, fun e => ?_⟩
    cases e
    · exact hr
    · exact hc
  · rintro ⟨x, hx, hposition⟩
    exact ⟨x, hx, hposition .row, hposition .column⟩

theorem Meets.hasElement (h : m.Meets d i j) : m.HasElement d i := by
  obtain ⟨x, hx, hi, -⟩ := h
  exact ⟨x, hx, hi⟩

theorem Meets.hasElement_other (h : m.Meets d i j) : m.HasElement d.other j :=
  (meets_other.2 h).hasElement

theorem SameCells.meets_eq (h : m.SameCells n) : m.Meets = n.Meets := by
  funext d i j
  rw [Meets, Meets, h.isElement_eq, h.position_eq]

namespace Linked

theorem mem_line_iff (h : Linked J m) (hi : i < (m.headers.get d).size) :
    j ∈ m.line d i ↔ m.Meets d i j ∧ ⟨d.other, j⟩ ∉ Deletion.before J ⟨d, i⟩ := by
  rw [line, List.mem_map]
  constructor
  · rintro ⟨x, hx, rfl⟩
    obtain ⟨helement, hposition, hbefore⟩ := (h.mem_ring d i x hi).1 hx
    exact ⟨⟨x, helement, hposition, rfl⟩, hbefore⟩
  · rintro ⟨⟨x, helement, hposition, rfl⟩, hbefore⟩
    exact ⟨x, (h.mem_ring d i x hi).2 ⟨helement, hposition, hbefore⟩, rfl⟩

theorem count_eq_length (h : Linked J m) (hi : i < (m.headers.get d).size) :
    m.count d i = (m.line d i).length := by
  rw [h.count_eq d i hi, line, List.length_map]

theorem nodup_line (h : Linked J m) (hi : i < (m.headers.get d).size) : (m.line d i).Nodup :=
  (h.ascending d i hi).imp Nat.ne_of_lt

end Linked

namespace WellFormed

theorem nodup_active (h : m.WellFormed J) (d : Dimension) : (m.active d).Nodup :=
  (h.isOrdered d).ascending.imp Nat.ne_of_lt

theorem length_active_le (h : m.WellFormed J) (d : Dimension) :
    (m.active d).length ≤ (m.headers.get d).size :=
  length_le_of_forall_lt (h.nodup_active d) fun _ => h.lt_size_of_mem_active

theorem count_eq_length_of_mem_active (h : m.WellFormed J) (hi : i ∈ m.active d) :
    m.count d i = (m.line d i).length :=
  h.count_eq_length (h.lt_size_of_mem_active hi)

/-- The line of an active row or column holds those that it meets and that are active. -/
theorem mem_line_iff (h : m.WellFormed J) (hi : i ∈ m.active d) :
    j ∈ m.line d i ↔ m.Meets d i j ∧ j ∈ m.active d.other := by
  rw [h.toLinked.mem_line_iff (h.lt_size_of_mem_active hi),
    Deletion.before_of_notMem ((h.mem_active d i).1 hi).2, h.mem_active]
  exact ⟨fun hj => ⟨hj.1, hj.1.hasElement_other, hj.2⟩, fun hj => ⟨hj.1, hj.2.2⟩⟩

theorem mem_active_of_mem_line (h : m.WellFormed J) (hi : i ∈ m.active d) (hj : j ∈ m.line d i) :
    j ∈ m.active d.other :=
  ((h.mem_line_iff hi).1 hj).2

theorem mem_line_other (h : m.WellFormed J) (hi : i ∈ m.active d) (hj : j ∈ m.line d i) :
    i ∈ m.line d.other j := by
  obtain ⟨hmeets, hactive⟩ := (h.mem_line_iff hi).1 hj
  rw [h.mem_line_iff hactive, Dimension.other_other]
  exact ⟨meets_other.2 hmeets, hi⟩

theorem isDeleted_iff (h : m.WellFormed J) (hi : i < (m.headers.get d).size) :
    m.isDeleted d i = false ↔ i ∈ m.active d := by
  have hmem := (h.isOrdered d).mem_active i
  rw [active, hmem]
  exact ⟨fun hdeleted => ⟨hi, hdeleted⟩, And.right⟩

end WellFormed

/-! ### Lines along a trail -/

/-- A trail takes its deletions out of the active rows and columns, and no others. -/
theorem Trail.mem_active_iff (h : Trail m xs n) (hm : m.WellFormed J) :
    i ∈ n.active d ↔ i ∈ m.active d ∧ ⟨d, i⟩ ∉ xs := by
  rw [(h.wellFormed hm).mem_active, hm.mem_active, h.sameCells.hasElement_eq, List.mem_append,
    not_or, and_assoc]

theorem Trail.costOf_eq (h : Trail m xs n) : n.costOf = m.costOf := by
  funext c
  rw [costOf, costOf, h.costs_eq]

/-- What is left of an active line along a trail was there before. -/
theorem Advances.line_subset (h : m.Advances n) (hm : m.IsValid) (hi : i ∈ n.active d) :
    n.line d i ⊆ m.line d i := by
  obtain ⟨xs, hxs⟩ := h
  intro j hj
  rw [(hxs.advances.isValid hm).mem_line_iff hi, hxs.trail.sameCells.meets_eq,
    hxs.trail.mem_active_iff hm] at hj
  exact (hm.mem_line_iff ((hxs.trail.mem_active_iff hm).1 hi).1).2 ⟨hj.1, hj.2.1⟩

theorem Advances.active_subset (h : m.Advances n) (hm : m.IsValid) (d : Dimension) :
    n.active d ⊆ m.active d := by
  obtain ⟨xs, hxs⟩ := h
  exact fun i hi => ((hxs.trail.mem_active_iff hm).1 hi).1

theorem Advances.costOf_eq (h : m.Advances n) : n.costOf = m.costOf := by
  obtain ⟨xs, hxs⟩ := h
  exact hxs.trail.costOf_eq

/-- Deleting a row leaves the lines of the rows alone, and so for columns. -/
theorem Deleted.line_self (h : Deleted d i m k) (j : Nat) : k.line d j = m.line d j := by
  rw [line, line, h.ring_self, h.position_eq]

end SetCover.Matrix
