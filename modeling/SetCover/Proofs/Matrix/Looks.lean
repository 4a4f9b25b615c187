import Mathlib.Data.List.Sort
import SetCover.Proofs.Matrix.Lines

/-!
# Matrices that look alike

What is asked about a matrix starts at its active rows and columns and follows their lines.  Two
matrices `LooksLike` each other when all that can be come to is the same in both, whatever the
numbers of the cells are.

Well-formed matrices with the same elements, costs and active rows and columns look alike, and so
do they after the same deletion.
-/

namespace SetCover.Matrix

variable {m n k k' : Matrix} {J K : List Deletion} {d : Dimension} {i : Nat}

/-- Row or column `i` is active, or it is on the line of one that is seen. -/
inductive Seen (m : Matrix) : Dimension → Nat → Prop
  | active {d : Dimension} {i : Nat} : i ∈ m.active d → Seen m d i
  | line {d : Dimension} {i j : Nat} : Seen m d i → j ∈ m.line d i → Seen m d.other j

/-- The matrices have the same costs, and show the same to whoever follows lines. -/
structure LooksLike (m n : Matrix) : Prop where
  size_eq : ∀ d, (m.headers.get d).size = (n.headers.get d).size
  costs_eq : m.costs = n.costs
  active_eq : m.active = n.active
  numActive_eq : m.numActive = n.numActive
  line_eq : ∀ d i, m.Seen d i → m.line d i = n.line d i
  count_eq : ∀ d i, m.Seen d i → m.count d i = n.count d i

namespace LooksLike

theorem refl (m : Matrix) : m.LooksLike m :=
  ⟨fun _ => rfl, rfl, rfl, rfl, fun _ _ _ => rfl, fun _ _ _ => rfl⟩

theorem costOf_eq (h : m.LooksLike n) : m.costOf = n.costOf := by
  funext c
  rw [costOf, costOf, h.costs_eq]

theorem line_eq_of_mem_active (h : m.LooksLike n) (hi : i ∈ m.active d) :
    m.line d i = n.line d i :=
  h.line_eq d i (.active hi)

theorem count_eq_of_mem_active (h : m.LooksLike n) (hi : i ∈ m.active d) :
    m.count d i = n.count d i :=
  h.count_eq d i (.active hi)

theorem filter_active_eq (h : m.LooksLike n) (d : Dimension) (p : Nat → Bool) :
    ((m.active d).filter fun i => p (m.count d i)) =
      (n.active d).filter fun i => p (n.count d i) := by
  rw [← h.active_eq]
  refine List.filter_congr fun i hi => ?_
  rw [h.count_eq_of_mem_active hi]

end LooksLike

/-- In a well-formed matrix no line leads to what is deleted. -/
theorem WellFormed.seen_iff (h : m.WellFormed J) : m.Seen d i ↔ i ∈ m.active d := by
  refine ⟨fun hseen => ?_, .active⟩
  induction hseen with
  | active hi => exact hi
  | line _ hj ih => exact h.mem_active_of_mem_line ih hj

/-- The lists of active rows and columns are known by what they hold. -/
theorem WellFormed.active_eq (hm : m.WellFormed J) (hn : n.WellFormed K)
    (h : ∀ d i, i ∈ m.active d ↔ i ∈ n.active d) : m.active = n.active := by
  funext d
  exact List.Pairwise.eq_of_mem_iff (hm.isOrdered d).ascending (hn.isOrdered d).ascending (h d)

/-- The matrices have the same elements, costs and active rows and columns. -/
structure SameElements (m n : Matrix) : Prop where
  size_eq : ∀ d, (m.headers.get d).size = (n.headers.get d).size
  costs_eq : m.costs = n.costs
  meets_eq : m.Meets = n.Meets
  active_eq : m.active = n.active

namespace SameElements

theorem refl (m : Matrix) : m.SameElements m := ⟨fun _ => rfl, rfl, rfl, rfl⟩

theorem symm (h : m.SameElements n) : n.SameElements m :=
  ⟨fun d => (h.size_eq d).symm, h.costs_eq.symm, h.meets_eq.symm, h.active_eq.symm⟩

theorem trans (h : m.SameElements n) (h' : n.SameElements k) : m.SameElements k :=
  ⟨fun d => (h.size_eq d).trans (h'.size_eq d), h.costs_eq.trans h'.costs_eq,
    h.meets_eq.trans h'.meets_eq, h.active_eq.trans h'.active_eq⟩

theorem line_eq (h : m.SameElements n) (hm : m.WellFormed J) (hn : n.WellFormed K)
    (hi : i ∈ m.active d) : m.line d i = n.line d i := by
  have hi' : i ∈ n.active d := h.active_eq ▸ hi
  refine List.Pairwise.eq_of_mem_iff (hm.ascending d i (hm.lt_size_of_mem_active hi))
    (hn.ascending d i (hn.lt_size_of_mem_active hi')) fun j => ?_
  rw [hm.mem_line_iff hi, hn.mem_line_iff hi', h.meets_eq, h.active_eq]

theorem isDeleted_eq (h : m.SameElements n) (hm : m.WellFormed J) (hn : n.WellFormed K)
    (hi : i < (m.headers.get d).size) : m.isDeleted d i = n.isDeleted d i := by
  have hi' : i < (n.headers.get d).size := h.size_eq d ▸ hi
  rw [Bool.eq_iff_iff, ← Bool.not_eq_false, ← Bool.not_eq_false, not_iff_not,
    hm.isDeleted_iff hi, hn.isDeleted_iff hi', h.active_eq]

/-- Where the cells are does not show. -/
theorem looksLike (h : m.SameElements n) (hm : m.WellFormed J) (hn : n.WellFormed K) :
    m.LooksLike n where
  size_eq := h.size_eq
  costs_eq := h.costs_eq
  active_eq := h.active_eq
  numActive_eq := by
    funext d
    rw [hm.numActive_eq, hn.numActive_eq, h.active_eq]
  line_eq := fun d i hseen => h.line_eq hm hn (hm.seen_iff.1 hseen)
  count_eq := by
    intro d i hseen
    have hi := hm.seen_iff.1 hseen
    rw [hm.count_eq_length_of_mem_active hi,
      hn.count_eq_length_of_mem_active (h.active_eq ▸ hi), h.line_eq hm hn hi]

/-- Deletions from matrices with the same elements leave such matrices. -/
theorem delete (h : m.SameElements n) (hm : m.WellFormed J) (hn : n.WellFormed K)
    (hk : m.delete d i = .ok k) (hk' : n.delete d i = .ok k') : k.SameElements k' := by
  have hd := deleted_of_delete hk
  have hd' := deleted_of_delete hk'
  refine ⟨fun e => ?_, ?_, ?_, ?_⟩
  · rw [hd.size_eq, hd'.size_eq, h.size_eq]
  · rw [hd.costs_eq, hd'.costs_eq, h.costs_eq]
  · rw [hd.sameCells.meets_eq, hd'.sameCells.meets_eq, h.meets_eq]
  · refine (hm.delete hk).active_eq (hn.delete hk') fun e j => ?_
    rw [(Trail.of_delete hk).mem_active_iff hm, (Trail.of_delete hk').mem_active_iff hn,
      h.active_eq]

end SameElements

theorem meets_eq_of_mem_iff (h : ∀ a, a ∈ m.elements ↔ a ∈ n.elements) : m.Meets = n.Meets := by
  have hrow : ∀ i j, m.Meets .row i j ↔ n.Meets .row i j := by
    intro i j
    rw [meets_row_iff, meets_row_iff, h]
  funext d i j
  cases d with
  | row => exact propext (hrow i j)
  | column =>
      have hturn : ∀ k : Matrix, k.Meets .row j i ↔ k.Meets .column i j := fun k =>
        meets_other (d := .column)
      rw [← hturn m, ← hturn n, hrow]

/-- Without deletions, the elements say which rows and columns are active. -/
theorem sameElements_of_mem_iff (hm : m.WellFormed []) (hn : n.WellFormed [])
    (hsize : ∀ d, (m.headers.get d).size = (n.headers.get d).size) (hcosts : m.costs = n.costs)
    (h : ∀ a, a ∈ m.elements ↔ a ∈ n.elements) : m.SameElements n := by
  refine ⟨hsize, hcosts, meets_eq_of_mem_iff h, hm.active_eq hn fun d i => ?_⟩
  rw [hm.mem_active, hn.mem_active, hasElement_iff, hasElement_iff]
  simp only [h]

theorem Similar.sameElements (h : m.Similar n) : m.SameElements n :=
  ⟨h.size_eq, h.costs_eq, h.sameCells.meets_eq, h.active_eq⟩

end SetCover.Matrix
