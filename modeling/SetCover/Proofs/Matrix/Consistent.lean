import Mathlib.Data.List.Sort
import SetCover.Matrix.Consistent
import SetCover.Proofs.Matrix.Lines

/-!
# Well-formed matrices pass the check

Each part of the check follows from well-formedness, with whatever deletions.
-/

namespace SetCover

namespace Links

variable {l : Links} {a b : Nat} {xs : List Nat}

theorem areJoined_iff : Matrix.areJoined l a b = true ↔ l.Joined a b := by
  rw [Matrix.areJoined, Bool.and_eq_true, beq_iff_eq, beq_iff_eq, Joined]

/-- Neighbours in a chain are joined. -/
theorem all_areJoined_of_isChain (h : (a :: (xs ++ [b])).IsChain l.Joined) :
    ((a :: xs).zip (xs ++ [b])).all (fun (a, b) => Matrix.areJoined l a b) = true := by
  induction xs generalizing a with
  | nil => simpa [areJoined_iff] using h
  | cons x xs ih =>
      rw [List.cons_append, List.isChain_cons_cons] at h
      rw [List.cons_append, List.zip_cons_cons, List.all_cons, ih h.2, Bool.and_true]
      exact areJoined_iff.2 h.1

end Links

namespace Matrix

variable {m : Matrix} {J : List Deletion} {d : Dimension} {i x : Nat} {a : PerDimension Nat}

namespace WellFormed

theorem hasConsistentActive (h : m.WellFormed J) (d : Dimension) :
    m.hasConsistentActive d = true := by
  have hordered := h.isOrdered d
  have hindices : m.active d = (m.headers.get d).indices (! ·.deleted) := by
    refine List.Pairwise.eq_of_mem_iff hordered.ascending
      (List.Pairwise.filter _ List.pairwise_lt_range) fun i => ?_
    rw [active, hordered.mem_active, HeaderRing.indices, List.mem_filter, List.mem_range,
      Bool.not_eq_true']
  rw [Matrix.hasConsistentActive, Bool.and_eq_true, beq_iff_eq, beq_iff_eq]
  exact ⟨(h.numActive_eq d).symm, hindices⟩

/-- The cells of an active row are in the rings of active columns. -/
theorem isLinkedAcross (h : m.WellFormed J) (hi : i ∈ m.active d) (hx : x ∈ m.ring d i) :
    m.isLinkedAcross d x = true := by
  have hj := h.mem_active_of_mem_line hi (List.mem_map_of_mem hx)
  have hlt := h.lt_size_of_mem_active hj
  have hnot := ((h.mem_active d i).1 hi).2
  obtain ⟨helement, hposition, -⟩ := (h.mem_ring d i x (h.lt_size_of_mem_active hi)).1 hx
  have hother : x ∈ m.ring d.other (m.position d.other x) := by
    refine (h.mem_ring _ _ x hlt).2 ⟨helement, rfl, fun hbefore => hnot ?_⟩
    rw [Dimension.other_other, hposition] at hbefore
    exact Deletion.before_subset J _ hbefore
  obtain ⟨hleft, hright⟩ := (h.isRing _ _ hlt).isLinked hother
  rw [Matrix.isLinkedAcross, (h.isDeleted_iff hlt).2 hj, Bool.not_false, Bool.true_and,
    Bool.and_eq_true, Links.areJoined_iff, Links.areJoined_iff]
  exact ⟨hleft, hright⟩

theorem hasConsistentRing (h : m.WellFormed J) (hi : i < (m.headers.get d).size) :
    m.hasConsistentRing d i = true := by
  have hcount : (m.ring d i).length = (m.header d i).count := (h.count_eq d i hi).symm
  have hacross : ((m.header d i).deleted || (m.ring d i).all (m.isLinkedAcross d)) = true := by
    cases hdeleted : (m.header d i).deleted with
    | true => rfl
    | false => exact List.all_eq_true.2 fun x => h.isLinkedAcross ((h.isDeleted_iff hi).1 hdeleted)
  rw [Matrix.hasConsistentRing, Links.all_areJoined_of_isChain (h.isRing d i hi).chain,
    decide_eq_true (h.ascending d i hi), beq_iff_eq.2 hcount, hacross]
  rfl

theorem hasOwnCells (h : m.WellFormed J) (hi : i ∈ m.active .row) : m.hasOwnCells i = true := by
  refine List.all_eq_true.2 fun x hx => ?_
  obtain ⟨⟨hle, hlt⟩, hposition, -⟩ := (h.mem_ring .row i x (h.lt_size_of_mem_active hi)).1 hx
  rw [decide_eq_true hle, decide_eq_true hlt, beq_iff_eq.2 hposition]
  rfl

theorem isReachable (h : m.WellFormed J) (ha : a ∈ m.elements) : m.isReachable a = true := by
  have hmeets : m.Meets .row a.row a.column := meets_row_iff.2 ha
  have hrow := h.lt_size_of_hasElement hmeets.hasElement
  have hcolumn := h.lt_size_of_hasElement hmeets.hasElement_other
  rw [Matrix.isReachable, Bool.or_eq_true, Bool.or_eq_true, List.contains_iff_mem]
  cases hr : m.isDeleted .row a.row with
  | true => exact .inl (.inl rfl)
  | false =>
      cases hc : m.isDeleted .column a.column with
      | true => exact .inl (.inr rfl)
      | false =>
          have hactive := (h.isDeleted_iff hcolumn).1 hc
          exact .inr ((h.mem_line_iff ((h.isDeleted_iff hrow).1 hr)).2 ⟨hmeets, hactive⟩)

theorem isConsistent (h : m.WellFormed J) : m.isConsistent = true := by
  rw [Matrix.isConsistent, Bool.and_eq_true, Bool.and_eq_true]
  refine ⟨⟨List.all_eq_true.2 fun d _ => ?_, List.all_eq_true.2 fun i => h.hasOwnCells⟩,
    List.all_eq_true.2 fun a => h.isReachable⟩
  rw [h.hasConsistentActive, Bool.true_and]
  exact List.all_eq_true.2 fun i hi => h.hasConsistentRing (List.mem_range.1 hi)

end WellFormed

end Matrix

end SetCover
