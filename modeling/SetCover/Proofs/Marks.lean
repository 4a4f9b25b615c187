import Mathlib.Tactic.ByContra
import Mathlib.Tactic.SplitIfs
import SetCover.Marks

/-!
# Marking and clearing

Flags that were set one by one from `n` unset ones are `Over n`: every flag that is set is listed.
Clearing them gives the `n` unset flags again.
-/

namespace SetCover.Marks

variable {m : Marks} {i j n : Nat}

/-- There are `n` flags, and each one that is set is listed. -/
structure Over (n : Nat) (m : Marks) : Prop where
  size_eq : m.flags.size = n
  mem_marked : ∀ i, m.contains i → i ∈ m.marked

theorem over_unset (n : Nat) : Over n (unset n) := by
  refine ⟨Array.size_replicate, fun i hi => ?_⟩
  by_cases hlt : i < n
  · simp [contains, unset, hlt] at hi
  · simp [contains, unset, hlt] at hi

theorem contains_setIfInBounds (flags : Array Bool) (marked : List Nat) (i j : Nat) (b : Bool) :
    (⟨flags.setIfInBounds i b, marked⟩ : Marks).contains j =
      if j = i ∧ j < flags.size then b else flags.getD j false := by
  simp only [contains, Array.getD_eq_getD_getElem?, Array.getElem?_setIfInBounds]
  by_cases hij : i = j
  · by_cases hj : j < flags.size <;> simp [hij, hj]
  · simp [hij, Ne.symm hij]

theorem contains_insert (m : Marks) (i j : Nat) :
    (m.insert i).contains j = (decide (j = i ∧ j < m.flags.size) || m.contains j) := by
  rw [insert]
  split_ifs with hset
  · by_cases hj : j = i
    · simp [hj, hset]
    · simp [hj]
  · rw [contains_setIfInBounds]
    by_cases hj : j = i ∧ j < m.flags.size
    · rw [if_pos hj, decide_eq_true hj, Bool.true_or]
    · rw [if_neg hj, decide_eq_false hj, Bool.false_or, contains]

/-- Resetting all flags that may be set leaves none. -/
theorem foldl_setIfInBounds_false {is : List Nat} {flags : Array Bool} (hsize : flags.size = n)
    (hflags : ∀ i, flags.getD i false → i ∈ is) :
    is.foldl (fun flags i => flags.setIfInBounds i false) flags = Array.replicate n false := by
  induction is generalizing flags with
  | nil =>
      refine Array.ext (by simp [hsize]) fun i hi hi' => ?_
      rw [List.foldl_nil] at hi
      have hnot := hflags i
      rw [Array.getD_eq_getD_getElem?, Array.getElem?_eq_getElem hi, Option.getD_some] at hnot
      simpa using hnot
  | cons i is ih =>
      refine ih (by simp [hsize]) fun j hj => ?_
      have hset := contains_setIfInBounds flags [] i j false
      rw [contains] at hset
      rw [hset] at hj
      split_ifs at hj with hji
      refine (List.mem_cons.1 (hflags j hj)).resolve_left fun heq => hji ⟨heq, ?_⟩
      by_contra hlt
      simp [Array.getD_eq_getD_getElem?, Array.getElem?_eq_none (Nat.le_of_not_lt hlt)] at hj

namespace Over

theorem insert (h : Over n m) (i : Nat) : Over n (m.insert i) := by
  refine ⟨?_, fun j hj => ?_⟩
  · rw [Marks.insert]
    split_ifs
    · exact h.size_eq
    · exact Array.size_setIfInBounds.trans h.size_eq
  · rw [contains_insert, Bool.or_eq_true, decide_eq_true_eq] at hj
    rw [Marks.insert]
    split_ifs with hset
    · rcases hj with ⟨rfl, -⟩ | hj
      · exact h.mem_marked j hset
      · exact h.mem_marked j hj
    · rcases hj with ⟨rfl, -⟩ | hj
      · exact List.mem_cons_self
      · exact List.mem_cons_of_mem _ (h.mem_marked j hj)

/-- Clearing resets all flags. -/
theorem clear (h : Over n m) : m.clear = unset n := by
  rw [Marks.clear, foldl_setIfInBounds_false h.size_eq h.mem_marked, unset]

end Over

end SetCover.Marks
