/-!
# Rows and columns

Almost everything a sparse matrix stores exists twice, once for its rows and once for its columns,
and most operations treat the two alike.  `Dimension` names the two sides, and `PerDimension`
holds one value for each.
-/

namespace SetCover

/-- One of the two dimensions of a matrix. -/
inductive Dimension where
  | row
  | column
deriving DecidableEq, Repr

namespace Dimension

/-- The dimension that is not `d`. -/
def other : Dimension → Dimension
  | row => column
  | column => row

@[simp] theorem other_other (d : Dimension) : d.other.other = d := by
  cases d <;> rfl

theorem eq_or_eq_other (d e : Dimension) : e = d ∨ e = d.other := by
  cases d <;> cases e <;> simp [other]

@[simp] theorem other_ne (d : Dimension) : d.other ≠ d := by
  cases d <;> decide

/-- The name of a dimension in messages. -/
def name : Dimension → String
  | row => "Row"
  | column => "Column"

end Dimension

/-- A value for the rows together with a value for the columns. -/
structure PerDimension (α : Type) where
  row : α
  column : α
deriving DecidableEq, Repr

namespace PerDimension

variable {α β ε : Type}

/-- The same value for both dimensions. -/
def both (a : α) : PerDimension α := ⟨a, a⟩

/-- The value for dimension `d`. -/
def get (p : PerDimension α) : Dimension → α
  | .row => p.row
  | .column => p.column

/-- Replaces the value for `d` by its image under `f`. -/
@[inline] def modify (p : PerDimension α) (d : Dimension) (f : α → α) : PerDimension α :=
  match d, p with
  | .row, ⟨r, c⟩ => ⟨f r, c⟩
  | .column, ⟨r, c⟩ => ⟨r, f c⟩

/-- Replaces the value for `d` by its image under `f`, unless `f` fails. -/
@[inline] def tryModify (p : PerDimension α) (d : Dimension) (f : α → Except ε α) :
    Except ε (PerDimension α) :=
  match d, p with
  | .row, ⟨r, c⟩ => (f r).map (⟨·, c⟩)
  | .column, ⟨r, c⟩ => (f c).map (⟨r, ·⟩)

@[simp] theorem get_row (p : PerDimension α) : p.get .row = p.row := rfl

@[simp] theorem get_column (p : PerDimension α) : p.get .column = p.column := rfl

@[simp] theorem get_both (a : α) (d : Dimension) : (both a).get d = a := by
  cases d <;> rfl

@[simp] theorem get_modify_self (p : PerDimension α) (d : Dimension) (f : α → α) :
    (p.modify d f).get d = f (p.get d) := by
  cases d <;> rfl

@[simp] theorem get_modify_other (p : PerDimension α) (d : Dimension) (f : α → α) :
    (p.modify d f).get d.other = p.get d.other := by
  cases d <;> rfl

@[simp] theorem get_other_modify_other (p : PerDimension α) (d : Dimension) (f : α → α) :
    (p.modify d.other f).get d = p.get d := by
  cases d <;> rfl

theorem ext_get {p q : PerDimension α} (h : ∀ d, p.get d = q.get d) : p = q := by
  cases p; cases q
  have hr := h .row
  have hc := h .column
  simp only [get_row, get_column] at hr hc
  rw [hr, hc]

/-- Replacing one side succeeds with exactly the replaced value on that side. -/
theorem tryModify_eq_ok_iff {p q : PerDimension α} {d : Dimension} {f : α → Except ε α} :
    p.tryModify d f = .ok q ↔ f (p.get d) = .ok (q.get d) ∧ q.get d.other = p.get d.other := by
  cases d <;> cases p with | mk r c => cases q with | mk r' c' =>
    simp only [tryModify, get, Dimension.other]
    constructor
    · intro h
      cases hf : f _ with
      | error e => simp [hf, Except.map] at h
      | ok a =>
        simp only [hf, Except.map, Except.ok.injEq, PerDimension.mk.injEq] at h
        simp [h.1, h.2]
    · rintro ⟨h, rfl⟩
      simp [h, Except.map]

/-- Replacing one side succeeds with the replaced pair. -/
theorem tryModify_eq_ok_iff_exists {p q : PerDimension α} {d : Dimension} {f : α → Except ε α} :
    p.tryModify d f = .ok q ↔ ∃ a, f (p.get d) = .ok a ∧ q = p.modify d fun _ => a := by
  rw [tryModify_eq_ok_iff]
  constructor
  · rintro ⟨h, hother⟩
    refine ⟨q.get d, h, ext_get fun e => ?_⟩
    cases d.eq_or_eq_other e with
    | inl he => rw [he, get_modify_self]
    | inr he => rw [he, get_modify_other, hother]
  · rintro ⟨a, h, rfl⟩
    exact ⟨by rw [get_modify_self, h], get_modify_other p d _⟩

end PerDimension

end SetCover
