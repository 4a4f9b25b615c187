import Mathlib.Data.List.TakeWhile
import SetCover.Matrix.Delete
import SetCover.Proofs.ActiveHeaders

/-!
# Well-formed matrices

`m.WellFormed J` is what the parts of a matrix promise each other when the rows and columns in `J`
are deleted, the oldest deletion first.  The ring of a row holds its elements in those columns that
were not deleted before it, so the ring of an active row holds its elements in active columns.

`m.Similar n` says that two matrices differ in dirty flags, journal and marks at most.  All that
can be asked about a matrix is the same for similar ones.
-/

namespace SetCover

/-- The deletions of `J` before `x`, which are all of them if `x` is not deleted. -/
def Deletion.before (J : List Deletion) (x : Deletion) : List Deletion := J.takeWhile (· ≠ x)

namespace Deletion

variable {J : List Deletion} {x y : Deletion}

theorem before_of_notMem (h : x ∉ J) : before J x = J := by
  rw [before, List.takeWhile_eq_self_iff]
  intro y hy
  simpa using fun hyx : y = x => h (hyx ▸ hy)

theorem before_append_of_mem (h : x ∈ J) (K : List Deletion) : before (J ++ K) x = before J x := by
  obtain ⟨as, bs, rfl⟩ := List.append_of_mem h
  rw [before, before, List.append_assoc, List.cons_append]
  induction as with
  | nil => simp
  | cons a as ih =>
      rw [List.cons_append, List.cons_append, List.takeWhile_cons, List.takeWhile_cons]
      split_ifs
      · rw [ih (by simp)]
      · rfl

theorem mem_before_append_singleton {z : Deletion} : y ∈ before (J ++ [z]) x ↔
    y ∈ before J x ∨ y = z ∧ x ∉ J ∧ z ≠ x := by
  by_cases hx : x ∈ J
  · rw [before_append_of_mem hx]
    simp [hx]
  · rw [before_of_notMem hx, before, List.takeWhile_append_of_pos fun w hw => by
      simpa using fun hwx : w = x => hx (hwx ▸ hw)]
    by_cases hz : z = x
    · simp [hz]
    · simp [hz, hx]

theorem before_subset (J : List Deletion) (x : Deletion) : before J x ⊆ J :=
  List.takeWhile_subset _

end Deletion

namespace Matrix

variable {m n k : Matrix} {J : List Deletion} {d e : Dimension} {i j x y : Nat} {xs : List Nat}
variable {a : PerDimension Nat}

/-- Cell `x` is an element, not a sentinel. -/
def IsElement (m : Matrix) (x : Nat) : Prop :=
  m.numRows + m.numColumns ≤ x ∧ x < m.positions.size

/-- Row or column `i` has an element, deleted or not. -/
def HasElement (m : Matrix) (d : Dimension) (i : Nat) : Prop :=
  ∃ x, m.IsElement x ∧ m.position d x = i

theorem position_eq_get (hx : x < m.positions.size) : m.position d x = m.positions[x].get d := by
  rw [position, Array.getD_eq_getD_getElem?, Array.getElem?_eq_getElem hx, Option.getD_some]

theorem mem_elements_iff :
    a ∈ m.elements ↔ ∃ x, m.IsElement x ∧ ∀ d, m.position d x = a.get d := by
  rw [elements, List.mem_iff_getElem]
  constructor
  · rintro ⟨x, hx, hget⟩
    rw [List.length_drop, Array.length_toList] at hx
    have hlt : m.numRows + m.numColumns + x < m.positions.size := by omega
    refine ⟨m.numRows + m.numColumns + x, ⟨Nat.le_add_right _ _, hlt⟩, fun d => ?_⟩
    rw [position_eq_get hlt]
    simp only [List.getElem_drop, Array.getElem_toList] at hget
    rw [hget]
  · rintro ⟨x, ⟨hle, hlt⟩, hposition⟩
    refine ⟨x - (m.numRows + m.numColumns), ?_, PerDimension.ext_get fun d => ?_⟩
    · rw [List.length_drop, Array.length_toList]
      omega
    · rw [← hposition, position_eq_get hlt]
      simp only [List.getElem_drop, Array.getElem_toList, Nat.add_sub_cancel' hle]

theorem hasElement_iff : m.HasElement d i ↔ ∃ a ∈ m.elements, a.get d = i := by
  constructor
  · rintro ⟨x, hx, rfl⟩
    refine ⟨⟨m.position .row x, m.position .column x⟩, mem_elements_iff.2 ⟨x, hx, fun e => ?_⟩, ?_⟩
    · cases e <;> rfl
    · cases d <;> rfl
  · rintro ⟨a, ha, rfl⟩
    obtain ⟨x, hx, hposition⟩ := mem_elements_iff.1 ha
    exact ⟨x, hx, hposition d⟩

theorem sentinel_lt (hi : i < (m.headers.get d).size) :
    m.sentinel d i < m.numRows + m.numColumns := by
  cases d
  · exact Nat.lt_add_right _ hi
  · exact Nat.add_lt_add_left hi _

theorem not_isElement_sentinel (hi : i < (m.headers.get d).size) :
    ¬m.IsElement (m.sentinel d i) := fun hx =>
  Nat.not_lt.2 hx.1 (sentinel_lt hi)

/-- Where the cells are and what they stand for, which no deletion changes. -/
structure Layout (m : Matrix) : Prop where
  size_rings : ∀ d, (m.rings.get d).size = m.positions.size
  numRows_add_numColumns_le : m.numRows + m.numColumns ≤ m.positions.size
  position_sentinel : ∀ d i, i < (m.headers.get d).size → m.position d (m.sentinel d i) = i
  position_lt : ∀ d x, m.IsElement x → m.position d x < (m.headers.get d).size
  eq_of_position_eq : ∀ x y, m.IsElement x → m.IsElement y →
    (∀ d, m.position d x = m.position d y) → x = y

/-- The rings hold what they should when the rows and columns in `J` are deleted. -/
structure Linked (J : List Deletion) (m : Matrix) : Prop extends Layout m where
  respects : ∀ d, (m.rings.get d).Respects (m.position d)
  closed : ∀ d, (m.rings.get d).Closed
  isRing : ∀ d i, i < (m.headers.get d).size →
    (m.rings.get d).IsRing (m.sentinel d i) (m.ring d i)
  mem_ring : ∀ d i x, i < (m.headers.get d).size → (x ∈ m.ring d i ↔
    m.IsElement x ∧ m.position d x = i ∧ ⟨d.other, m.position d.other x⟩ ∉ Deletion.before J ⟨d, i⟩)
  ascending : ∀ d i, i < (m.headers.get d).size → (m.line d i).Pairwise (· < ·)
  count_eq : ∀ d i, i < (m.headers.get d).size → m.count d i = (m.ring d i).length
  isOrdered : ∀ d, (m.headers.get d).IsOrdered

/-- The parts of a matrix fit together, and the rows and columns in `J` are deleted. -/
structure WellFormed (J : List Deletion) (m : Matrix) : Prop extends Linked J m where
  mem_active : ∀ d i, i ∈ m.active d ↔ m.HasElement d i ∧ ⟨d, i⟩ ∉ J
  nodup : J.Nodup
  hasElement : ∀ d i, ⟨d, i⟩ ∈ J → m.HasElement d i

theorem Layout.lt_size_of_hasElement (h : m.Layout) (hi : m.HasElement d i) :
    i < (m.headers.get d).size := by
  obtain ⟨x, hx, rfl⟩ := hi
  exact h.position_lt d x hx

/-! ### Matrices with the same cells -/

/-- The matrices have the same size and the same elements in the same cells. -/
structure SameCells (m n : Matrix) : Prop where
  positions_eq : m.positions = n.positions
  size_eq : ∀ d, (m.headers.get d).size = (n.headers.get d).size

namespace SameCells

theorem numRows_eq (h : m.SameCells n) : m.numRows = n.numRows := h.size_eq .row

theorem numColumns_eq (h : m.SameCells n) : m.numColumns = n.numColumns := h.size_eq .column

theorem position_eq (h : m.SameCells n) : m.position = n.position := by
  funext d x
  rw [position, position, h.positions_eq]

theorem sentinel_eq (h : m.SameCells n) : m.sentinel = n.sentinel := by
  funext d i
  cases d
  · rfl
  · rw [sentinel, sentinel, h.numRows_eq]

theorem isElement_eq (h : m.SameCells n) : m.IsElement = n.IsElement := by
  funext x
  rw [IsElement, IsElement, h.positions_eq, h.numRows_eq, h.numColumns_eq]

theorem hasElement_eq (h : m.SameCells n) : m.HasElement = n.HasElement := by
  funext d i
  rw [HasElement, HasElement, h.isElement_eq, h.position_eq]

theorem elements_eq (h : m.SameCells n) : m.elements = n.elements := by
  rw [elements, elements, h.positions_eq, h.numRows_eq, h.numColumns_eq]

theorem ring_eq (h : m.SameCells n) (hrings : m.rings.get d = n.rings.get d) (i : Nat) :
    m.ring d i = n.ring d i := by
  rw [ring, ring, hrings, h.sentinel_eq]

theorem line_eq (h : m.SameCells n) (hrings : m.rings.get d = n.rings.get d) (i : Nat) :
    m.line d i = n.line d i := by
  rw [line, line, h.ring_eq hrings, h.position_eq]

/-- Whether the rings are as they should be does not depend on who is active. -/
theorem linked (h : m.SameCells n) (hrings : m.rings = n.rings) (hcount : m.count = n.count)
    (hm : Linked J m) (hn : ∀ d, (n.headers.get d).IsOrdered) : Linked J n := by
  have hring : m.ring = n.ring := by
    funext d i
    exact h.ring_eq (by rw [hrings]) i
  have hline : m.line = n.line := by
    funext d i
    exact h.line_eq (by rw [hrings]) i
  obtain ⟨⟨h1, h2, h3, h4, h5⟩, h6, h7, h8, h9, h10, h11, -⟩ := hm
  simp only [hrings, hcount, hring, hline, h.positions_eq, h.position_eq, h.sentinel_eq,
    h.isElement_eq, h.size_eq, h.numRows_eq, h.numColumns_eq] at h1 h2 h3 h4 h5 h6 h7 h8 h9 h10 h11
  exact ⟨⟨h1, h2, h3, h4, h5⟩, h6, h7, h8, h9, h10, h11, hn⟩

end SameCells

/-! ### Similar matrices -/

/-- The matrices differ in dirty flags, journal and marks at most. -/
structure Similar (m n : Matrix) : Prop where
  positions_eq : m.positions = n.positions
  rings_eq : m.rings = n.rings
  costs_eq : m.costs = n.costs
  headers : ∀ d, (m.headers.get d).Similar (n.headers.get d)

namespace Similar

theorem refl (m : Matrix) : m.Similar m := ⟨rfl, rfl, rfl, fun _ => .refl _⟩

theorem symm (h : m.Similar n) : n.Similar m :=
  ⟨h.1.symm, h.2.symm, h.3.symm, fun d => (h.4 d).symm⟩

theorem trans (h : m.Similar n) (h' : n.Similar k) : m.Similar k :=
  ⟨h.1.trans h'.1, h.2.trans h'.2, h.3.trans h'.3, fun d => (h.4 d).trans (h'.4 d)⟩

theorem sameCells (h : m.Similar n) : m.SameCells n :=
  ⟨h.positions_eq, fun d => (h.headers d).size_eq⟩

theorem size_eq (h : m.Similar n) (d : Dimension) :
    (m.headers.get d).size = (n.headers.get d).size :=
  h.sameCells.size_eq d

theorem line_eq (h : m.Similar n) : m.line = n.line := by
  funext d i
  exact h.sameCells.line_eq (by rw [h.rings_eq]) i

theorem active_eq (h : m.Similar n) : m.active = n.active := by
  funext d
  exact (h.headers d).active_eq

theorem count_eq (h : m.Similar n) : m.count = n.count := by
  funext d i
  exact (h.headers d).count_eq i

theorem costOf_eq (h : m.Similar n) : m.costOf = n.costOf := by
  funext c
  rw [costOf, costOf, h.costs_eq]

theorem wellFormed (h : m.Similar n) (hm : m.WellFormed J) : n.WellFormed J := by
  refine ⟨h.sameCells.linked h.rings_eq h.count_eq hm.toLinked fun d =>
    (hm.isOrdered d).of_recounted (h.headers d).1, ?_, hm.nodup, ?_⟩
  · rw [← h.active_eq, ← h.sameCells.hasElement_eq]
    exact hm.mem_active
  · rw [← h.sameCells.hasElement_eq]
    exact hm.hasElement

end Similar

end Matrix

end SetCover
