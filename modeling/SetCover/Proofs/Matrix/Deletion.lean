import SetCover.Proofs.Matrix.WellFormed

/-!
# Deleting and undoing

Deleting a row or column of a well-formed matrix gives a well-formed matrix with one deletion more.
Undoing the deletion then gives a matrix that is similar to the first one, whatever became of the
dirty flags in between.
-/

namespace SetCover.Matrix

variable {m n k : Matrix} {J : List Deletion} {d e : Dimension} {i j x y : Nat} {xs : List Nat}

/-! ### Detaching and attaching cells -/

theorem detach_eq_ok_iff : m.detach d x = .ok k ↔
    ∃ l, (m.headers.get d).decrement (m.position d x) = .ok l ∧
      k = { m with
        rings := m.rings.modify d (·.unlink x)
        headers := m.headers.modify d fun _ => l } := by
  obtain ⟨positions, rings, headers, costs, journal, marks⟩ := m
  simp only [detach, bind_eq_ok_iff, PerDimension.tryModify_eq_ok_iff_exists]
  constructor
  · rintro ⟨_, ⟨l, hl, rfl⟩, hk⟩
    cases hk
    exact ⟨l, hl, rfl⟩
  · rintro ⟨l, hl, rfl⟩
    exact ⟨_, ⟨l, hl, rfl⟩, rfl⟩

theorem attach_eq_ok_iff : m.attach d x = .ok k ↔
    ∃ l, (m.headers.get d).increment (m.position d x) = .ok l ∧
      k = { m with
        rings := m.rings.modify d (·.relink x)
        headers := m.headers.modify d fun _ => l } := by
  obtain ⟨positions, rings, headers, costs, journal, marks⟩ := m
  simp only [attach, bind_eq_ok_iff, PerDimension.tryModify_eq_ok_iff_exists]
  constructor
  · rintro ⟨_, ⟨l, hl, rfl⟩, hk⟩
    cases hk
    exact ⟨l, hl, rfl⟩
  · rintro ⟨l, hl, rfl⟩
    exact ⟨_, ⟨l, hl, rfl⟩, rfl⟩

/-- The matrix `k` is `m` but for the rings and headers of one dimension, whose links are `links`
and whose headers differ in dirty flags and numbers of elements. -/
structure Relinked (d : Dimension) (links : Links) (m k : Matrix) : Prop where
  positions_eq : k.positions = m.positions
  rings_eq : k.rings = m.rings.modify d fun _ => links
  costs_eq : k.costs = m.costs
  journal_eq : k.journal = m.journal
  marks_eq : k.marks = m.marks
  headers_other : k.headers.get d.other = m.headers.get d.other
  recounted : (m.headers.get d).Recounted (k.headers.get d)

theorem relinked_refl (m : Matrix) (d : Dimension) : Relinked d (m.rings.get d) m m := by
  refine ⟨rfl, PerDimension.ext_get fun e => ?_, rfl, rfl, rfl, rfl, .refl _⟩
  rcases d.eq_or_eq_other e with rfl | rfl
  · rw [PerDimension.get_modify_self]
  · rw [PerDimension.get_modify_other]

theorem Relinked.trans {links links' : Links} (h : Relinked d links m k)
    (h' : Relinked d links' k n) : Relinked d links' m n := by
  refine ⟨h'.1.trans h.1, ?_, h'.3.trans h.3, h'.4.trans h.4, h'.5.trans h.5, h'.6.trans h.6,
    h.7.trans h'.7⟩
  rw [h'.rings_eq, h.rings_eq]
  apply PerDimension.ext_get
  intro e
  rcases d.eq_or_eq_other e with rfl | rfl
  · rw [PerDimension.get_modify_self, PerDimension.get_modify_self]
  · rw [PerDimension.get_modify_other, PerDimension.get_modify_other, PerDimension.get_modify_other]

theorem Relinked.get_rings {links : Links} (h : Relinked d links m k) : k.rings.get d = links := by
  rw [h.rings_eq, PerDimension.get_modify_self]

theorem Relinked.position_eq {links : Links} (h : Relinked d links m k) :
    k.position = m.position := by
  funext e x
  rw [position, position, h.positions_eq]

theorem relinked_of_detach (h : m.detach d x = .ok k) :
    Relinked d ((m.rings.get d).unlink x) m k ∧
      ∀ j, k.count d j + (if m.position d x = j then 1 else 0) = m.count d j := by
  obtain ⟨l, hl, rfl⟩ := detach_eq_ok_iff.1 h
  obtain ⟨hrecounted, hcount⟩ := HeaderRing.recounted_of_decrement hl
  refine ⟨⟨rfl, ?_, rfl, rfl, rfl, PerDimension.get_modify_other _ _ _, ?_⟩, fun j => ?_⟩
  · cases d <;> rfl
  · rwa [PerDimension.get_modify_self]
  · simp only [count, header, PerDimension.get_modify_self, eq_comm]
    exact hcount j

theorem exists_attach_eq_ok (h : m.position d x < (m.headers.get d).headers.size) :
    ∃ k, m.attach d x = .ok k ∧ Relinked d ((m.rings.get d).relink x) m k ∧
      ∀ j, k.count d j = m.count d j + if m.position d x = j then 1 else 0 := by
  obtain ⟨l, hl, hrecounted, hcount⟩ := HeaderRing.increment_eq_ok h
  refine ⟨_, attach_eq_ok_iff.2 ⟨l, hl, rfl⟩,
    ⟨rfl, ?_, rfl, rfl, rfl, PerDimension.get_modify_other _ _ _, ?_⟩, fun j => ?_⟩
  · cases d <;> rfl
  · rwa [PerDimension.get_modify_self]
  · simp only [count, header, PerDimension.get_modify_self, eq_comm]
    exact hcount j

theorem relinked_of_detachAll (h : m.detachAll d xs = .ok k) :
    Relinked d (xs.foldl Links.unlink (m.rings.get d)) m k ∧
      ∀ j, k.count d j + xs.countP (m.position d · = j) = m.count d j := by
  induction xs generalizing m with
  | nil =>
      cases h
      exact ⟨relinked_refl _ d, fun j => rfl⟩
  | cons x xs ih =>
      rw [detachAll, bind_eq_ok_iff] at h
      obtain ⟨m', hm', hk⟩ := h
      obtain ⟨hfirst, hcount⟩ := relinked_of_detach hm'
      obtain ⟨hrest, hcounts⟩ := ih hk
      rw [hfirst.get_rings] at hrest
      refine ⟨hfirst.trans hrest, fun j => ?_⟩
      rw [← hcount, ← hcounts, hfirst.position_eq, List.countP_cons]
      simp only [decide_eq_true_eq, Nat.add_assoc]

theorem exists_attachAll_eq_ok (h : ∀ x ∈ xs, m.position d x < (m.headers.get d).headers.size) :
    ∃ k, m.attachAll d xs = .ok k ∧
      Relinked d (xs.foldl Links.relink (m.rings.get d)) m k ∧
      ∀ j, k.count d j = m.count d j + xs.countP (m.position d · = j) := by
  induction xs generalizing m with
  | nil => exact ⟨m, rfl, relinked_refl m d, fun j => rfl⟩
  | cons x xs ih =>
      obtain ⟨m', hm', hfirst, hcount⟩ := exists_attach_eq_ok (h x (by simp))
      have hbounds : ∀ y ∈ xs, m'.position d y < (m'.headers.get d).headers.size := by
        intro y hy
        rw [hfirst.position_eq, ← hfirst.recounted.size_headers_eq]
        exact h y (by simp [hy])
      obtain ⟨k, hk, hrest, hcounts⟩ := ih hbounds
      rw [hfirst.get_rings] at hrest
      refine ⟨k, ?_, hfirst.trans hrest, fun j => ?_⟩
      · rw [attachAll, hm']
        exact hk
      · rw [hcounts, hcount, hfirst.position_eq, List.countP_cons]
        simp only [decide_eq_true_eq, Nat.add_assoc, Nat.add_comm]

/-! ### Deactivating and reactivating -/

theorem deactivate_eq_ok_iff : m.deactivate d i = .ok k ↔
    ∃ l, (m.headers.get d).exclude i = .ok l ∧
      k = { m with
        headers := m.headers.modify d fun _ => l
        journal := m.journal.record ⟨d, i⟩ } := by
  obtain ⟨positions, rings, headers, costs, journal, marks⟩ := m
  simp only [deactivate, bind_eq_ok_iff, PerDimension.tryModify_eq_ok_iff_exists]
  constructor
  · rintro ⟨_, ⟨l, hl, rfl⟩, hk⟩
    cases hk
    exact ⟨l, hl, rfl⟩
  · rintro ⟨l, hl, rfl⟩
    exact ⟨_, ⟨l, hl, rfl⟩, rfl⟩

theorem reactivate_eq_ok_iff : m.reactivate d i = .ok k ↔
    ∃ l, (m.headers.get d).restore i = .ok l ∧
      k = { m with headers := m.headers.modify d fun _ => l } := by
  obtain ⟨positions, rings, headers, costs, journal, marks⟩ := m
  simp only [reactivate, bind_eq_ok_iff, PerDimension.tryModify_eq_ok_iff_exists]
  constructor
  · rintro ⟨_, ⟨l, hl, rfl⟩, hk⟩
    cases hk
    exact ⟨l, hl, rfl⟩
  · rintro ⟨l, hl, rfl⟩
    exact ⟨_, ⟨l, hl, rfl⟩, rfl⟩

/-- What a deletion does to each part of a matrix. -/
structure Deleted (d : Dimension) (i : Nat) (m k : Matrix) : Prop where
  positions_eq : k.positions = m.positions
  rings_eq : k.rings = m.rings.modify d.other fun l => (m.ring d i).foldl Links.unlink l
  costs_eq : k.costs = m.costs
  journal_eq : k.journal = m.journal.record ⟨d, i⟩
  marks_eq : k.marks = m.marks
  exclude_eq : (m.headers.get d).exclude i = .ok (k.headers.get d)
  recounted : (m.headers.get d.other).Recounted (k.headers.get d.other)
  count_eq : ∀ j,
    k.count d.other j + (m.ring d i).countP (m.position d.other · = j) = m.count d.other j

theorem deleted_of_delete (h : m.delete d i = .ok k) : Deleted d i m k := by
  rw [delete, bind_eq_ok_iff] at h
  obtain ⟨m', hm', hk⟩ := h
  obtain ⟨l, hl, rfl⟩ := deactivate_eq_ok_iff.1 hm'
  have hcells : ({ m with
      headers := m.headers.modify d fun _ => l
      journal := m.journal.record ⟨d, i⟩ } : Matrix).SameCells m := by
    refine ⟨rfl, fun e => ?_⟩
    obtain ⟨-, -, rfl⟩ := HeaderRing.exclude_eq_ok_iff.1 hl
    cases d <;> cases e <;> rfl
  rw [hcells.ring_eq rfl] at hk
  obtain ⟨hrelinked, hcount⟩ := relinked_of_detachAll hk
  refine ⟨hrelinked.positions_eq, ?_, hrelinked.costs_eq, hrelinked.journal_eq,
    hrelinked.marks_eq, ?_, ?_, fun j => ?_⟩
  · rw [hrelinked.rings_eq]
    cases d <;> rfl
  · have hother := hrelinked.headers_other
    rw [Dimension.other_other, PerDimension.get_modify_self] at hother
    rw [hother, hl]
  · have hrecounted := hrelinked.recounted
    rwa [PerDimension.get_modify_other] at hrecounted
  · have hj := hcount j
    rwa [count, count, header, header, PerDimension.get_modify_other] at hj

/-! ### Deletion of a row or column -/

namespace Deleted

theorem size_eq (h : Deleted d i m k) (e : Dimension) :
    (k.headers.get e).size = (m.headers.get e).size := by
  rcases d.eq_or_eq_other e with rfl | rfl
  · obtain ⟨-, -, heq⟩ := HeaderRing.exclude_eq_ok_iff.1 h.exclude_eq
    rw [heq]
  · exact h.recounted.size_eq.symm

theorem dimension_eq (h : Deleted d i m k) (e : Dimension) :
    (k.headers.get e).dimension = (m.headers.get e).dimension := by
  rcases d.eq_or_eq_other e with rfl | rfl
  · obtain ⟨-, -, heq⟩ := HeaderRing.exclude_eq_ok_iff.1 h.exclude_eq
    rw [heq]
  · exact h.recounted.dimension_eq.symm

theorem sameCells (h : Deleted d i m k) : k.SameCells m := ⟨h.positions_eq, h.size_eq⟩

theorem position_eq (h : Deleted d i m k) : k.position = m.position := h.sameCells.position_eq

theorem ring_self (h : Deleted d i m k) (j : Nat) : k.ring d j = m.ring d j := by
  refine h.sameCells.ring_eq ?_ j
  rw [h.rings_eq, PerDimension.get_other_modify_other]

theorem layout (h : Deleted d i m k) (hm : m.Layout) : k.Layout := by
  have hrows : k.numRows = m.numRows := h.size_eq .row
  have hcolumns : k.numColumns = m.numColumns := h.size_eq .column
  refine ⟨fun e => ?_, ?_, ?_, ?_, ?_⟩
  · rw [h.positions_eq, h.rings_eq, ← hm.size_rings e]
    rcases d.eq_or_eq_other e with rfl | rfl
    · rw [PerDimension.get_other_modify_other]
    · rw [PerDimension.get_modify_self, Links.size_foldl_unlink]
  · rw [h.positions_eq, hrows, hcolumns]
    exact hm.numRows_add_numColumns_le
  · simpa only [h.position_eq, h.sameCells.sentinel_eq, h.size_eq] using hm.position_sentinel
  · simpa only [h.position_eq, h.sameCells.isElement_eq, h.size_eq] using hm.position_lt
  · simpa only [h.position_eq, h.sameCells.isElement_eq] using hm.eq_of_position_eq

end Deleted

namespace WellFormed

/-- The cells of one ring lie in rings of the other dimension that are pairwise different. -/
theorem nodup_map_position (h : m.WellFormed J) (hi : i < (m.headers.get d).size) :
    ((m.ring d i).map (m.position d.other)).Nodup :=
  (h.ascending d i hi).imp Nat.ne_of_lt

/-- A cell in the ring of an active row or column is also in the ring that crosses it there. -/
theorem mem_ring_other (h : m.WellFormed J) (hi : ⟨d, i⟩ ∉ J) (hlt : i < (m.headers.get d).size)
    (hx : x ∈ m.ring d i) : x ∈ m.ring d.other (m.position d.other x) := by
  obtain ⟨helement, hposition, -⟩ := (h.mem_ring d i x hlt).1 hx
  refine (h.mem_ring _ _ x (h.position_lt d.other x helement)).2 ⟨helement, rfl, ?_⟩
  rw [Dimension.other_other, hposition]
  exact fun hmem => hi (Deletion.before_subset _ _ hmem)

theorem lt_size_of_mem_active (h : m.WellFormed J) (hi : i ∈ m.active d) :
    i < (m.headers.get d).size :=
  ((h.isOrdered d).mem_active i).1 hi |>.1

theorem numActive_eq (h : m.WellFormed J) (d : Dimension) : m.numActive d = (m.active d).length :=
  (h.isOrdered d).numActive_eq

/-- Deleting an active row or column unlinks its cells from the rings that they cross. -/
theorem isRing_foldl_unlink (h : m.WellFormed J) (hi : i ∈ m.active d)
    (hj : j < (m.headers.get d.other).size) :
    ((m.ring d i).foldl Links.unlink (m.rings.get d.other)).IsRing (m.sentinel d.other j)
      ((m.ring d.other j).filter (· ∉ m.ring d i)) := by
  have hlt := h.lt_size_of_mem_active hi
  have hactive := ((h.mem_active d i).1 hi).2
  have hnotMem : ∀ j' < (m.headers.get d.other).size, m.sentinel d.other j' ∉ m.ring d i :=
    fun j' hj' hmem => not_isElement_sentinel hj' ((h.mem_ring d i _ hlt).1 hmem).1
  refine (h.isRing _ j hj).foldl_unlink (h.isRing d i hlt).nodup_tail (hnotMem j hj) ?_
  intro x hx
  have hlt' := h.position_lt d.other x ((h.mem_ring d i x hlt).1 hx).1
  exact ⟨_, _, h.isRing _ _ hlt', hnotMem _ hlt', h.mem_ring_other hactive hlt hx⟩

theorem mem_active_of_deleted (h : m.WellFormed J) (hd : Deleted d i m k) : i ∈ m.active d :=
  (h.isOrdered d).mem_active_of_exclude hd.exclude_eq

theorem ring_other (h : m.WellFormed J) (hd : Deleted d i m k)
    (hj : j < (m.headers.get d.other).size) :
    k.ring d.other j = (m.ring d.other j).filter (· ∉ m.ring d i) := by
  rw [ring, hd.rings_eq, PerDimension.get_modify_self, hd.sameCells.sentinel_eq]
  exact (h.isRing_foldl_unlink (h.mem_active_of_deleted hd) hj).toList_eq

/-- The cells that a deletion unlinks from a ring are those of the ring in the deleted line. -/
theorem length_ring_other (h : m.WellFormed J) (hd : Deleted d i m k)
    (hj : j < (m.headers.get d.other).size) :
    (k.ring d.other j).length + (m.ring d i).countP (m.position d.other · = j)
      = (m.ring d.other j).length := by
  have hi := h.mem_active_of_deleted hd
  have hlt := h.lt_size_of_mem_active hi
  have hactive := ((h.mem_active d i).1 hi).2
  have hperm : ((m.ring d.other j).filter (· ∈ m.ring d i)).Perm
      ((m.ring d i).filter (m.position d.other · = j)) := by
    refine (List.perm_ext_iff_of_nodup ((h.isRing _ _ hj).nodup_tail.filter _)
      ((h.isRing _ _ hlt).nodup_tail.filter _)).2 fun x => ?_
    simp only [List.mem_filter, decide_eq_true_eq]
    constructor
    · rintro ⟨hxj, hx⟩
      exact ⟨hx, ((h.mem_ring _ _ x hj).1 hxj).2.1⟩
    · rintro ⟨hx, rfl⟩
      exact ⟨h.mem_ring_other hactive hlt hx, hx⟩
  rw [h.ring_other hd hj, List.countP_eq_length_filter, ← hperm.length_eq,
    ← List.countP_eq_length_filter, ← List.countP_eq_length_filter,
    List.length_eq_countP_add_countP (· ∉ m.ring d i)]
  simp

theorem mem_ring_of_deleted (h : m.WellFormed J) (hd : Deleted d i m k)
    (hj : j < (m.headers.get e).size) : x ∈ k.ring e j ↔
      m.IsElement x ∧ m.position e x = j ∧
        ⟨e.other, m.position e.other x⟩ ∉ Deletion.before (J ++ [⟨d, i⟩]) ⟨e, j⟩ := by
  have hi := h.mem_active_of_deleted hd
  have hactive := ((h.mem_active d i).1 hi).2
  rw [Deletion.mem_before_append_singleton]
  rcases d.eq_or_eq_other e with rfl | rfl
  · rw [hd.ring_self, h.mem_ring _ _ _ hj]
    simp
  · -- a ring that crosses loses its cell in the deleted line, unless it was deleted before
    rw [h.ring_other hd hj, List.mem_filter, h.mem_ring _ _ _ hj, Dimension.other_other,
      decide_eq_true_eq, h.mem_ring _ _ _ (h.lt_size_of_mem_active hi),
      Deletion.before_of_notMem hactive]
    have hne : (⟨d, i⟩ : Deletion) ≠ ⟨d.other, j⟩ := fun heq =>
      d.other_ne (congrArg Deletion.dimension heq).symm
    constructor
    · rintro ⟨⟨helement, hposition, hbefore⟩, hnot⟩
      refine ⟨helement, hposition, ?_⟩
      rintro (hmem | ⟨heq, hnotMem, -⟩)
      · exact hbefore hmem
      · exact hnot ⟨helement, by simpa using heq, hposition ▸ hnotMem⟩
    · rintro ⟨helement, hposition, hbefore⟩
      rw [not_or] at hbefore
      refine ⟨⟨helement, hposition, hbefore.1⟩, ?_⟩
      rintro ⟨-, heq, hnotMem⟩
      exact hbefore.2 ⟨by rw [heq], hposition ▸ hnotMem, hne⟩

theorem count_of_deleted (h : m.WellFormed J) (hd : Deleted d i m k) {e : Dimension}
    (hj : j < (m.headers.get e).size) : k.count e j = (k.ring e j).length := by
  rcases d.eq_or_eq_other e with rfl | rfl
  · have hlt := h.lt_size_of_mem_active (h.mem_active_of_deleted hd)
    rw [hd.ring_self, ← h.count_eq e j hj, count, count, header, header,
      HeaderRing.header_of_exclude hd.exclude_eq ((h.isOrdered e).lt_size_headers hlt)]
    split_ifs with hij
    · rw [hij]
    · rfl
  · have hcount := hd.count_eq j
    rw [h.count_eq _ j hj, ← h.length_ring_other hd hj] at hcount
    exact Nat.add_right_cancel hcount

theorem linked_of_deleted (h : m.WellFormed J) (hd : Deleted d i m k) :
    Linked (J ++ [⟨d, i⟩]) k := by
  have hi := h.mem_active_of_deleted hd
  refine ⟨hd.layout h.toLayout, fun e => ?_, fun e => ?_, fun e j hj => ?_, fun e j x hj => ?_,
    fun e j hj => ?_, fun e j hj => ?_, fun e => ?_⟩
  · rw [hd.position_eq, hd.rings_eq]
    rcases d.eq_or_eq_other e with rfl | rfl
    · rw [PerDimension.get_other_modify_other]
      exact h.respects e
    · rw [PerDimension.get_modify_self]
      exact (h.respects _).foldl_unlink _
  · rw [hd.rings_eq]
    rcases d.eq_or_eq_other e with rfl | rfl
    · rw [PerDimension.get_other_modify_other]
      exact h.closed e
    · rw [PerDimension.get_modify_self]
      exact (h.closed _).foldl_unlink _
  · rw [hd.size_eq] at hj
    rw [hd.sameCells.sentinel_eq]
    rcases d.eq_or_eq_other e with rfl | rfl
    · rw [hd.rings_eq, PerDimension.get_other_modify_other, hd.ring_self]
      exact h.isRing e j hj
    · rw [hd.rings_eq, PerDimension.get_modify_self, h.ring_other hd hj]
      exact h.isRing_foldl_unlink hi hj
  · rw [hd.size_eq] at hj
    rw [h.mem_ring_of_deleted hd hj, hd.sameCells.isElement_eq, hd.position_eq]
  · rw [hd.size_eq] at hj
    rw [line, hd.position_eq]
    rcases d.eq_or_eq_other e with rfl | rfl
    · rw [hd.ring_self]
      exact h.ascending e j hj
    · rw [h.ring_other hd hj]
      exact (h.ascending _ j hj).sublist (List.filter_sublist.map _)
  · rw [hd.size_eq] at hj
    exact h.count_of_deleted hd hj
  · rcases d.eq_or_eq_other e with rfl | rfl
    · exact (h.isOrdered e).exclude hd.exclude_eq
    · exact (h.isOrdered _).of_recounted hd.recounted

theorem mem_active_iff_of_deleted (h : m.WellFormed J) (hd : Deleted d i m k) {e : Dimension} :
    j ∈ k.active e ↔ k.HasElement e j ∧ ⟨e, j⟩ ∉ J ++ [⟨d, i⟩] := by
  rw [hd.sameCells.hasElement_eq, List.mem_append, List.mem_singleton, not_or]
  rcases d.eq_or_eq_other e with rfl | rfl
  · rw [active, (h.isOrdered e).active_of_exclude hd.exclude_eq, List.mem_filter]
    have hmem := h.mem_active e j
    rw [active] at hmem
    rw [hmem]
    simp [and_assoc]
  · have hmem := h.mem_active d.other j
    rw [active, hd.recounted.active_eq] at hmem
    rw [active, hmem]
    simp

/-- Deleting a row or column leaves a well-formed matrix. -/
theorem delete (h : m.WellFormed J) (hk : m.delete d i = .ok k) :
    k.WellFormed (J ++ [⟨d, i⟩]) := by
  have hd := deleted_of_delete hk
  obtain ⟨helement, hactive⟩ := (h.mem_active d i).1 (h.mem_active_of_deleted hd)
  refine ⟨h.linked_of_deleted hd, fun e j => h.mem_active_iff_of_deleted hd, ?_,
    fun e j hmem => ?_⟩
  · rw [List.nodup_append]
    refine ⟨h.nodup, List.nodup_singleton _, ?_⟩
    rintro a ha b hb rfl
    rw [List.mem_singleton] at hb
    exact hactive (hb ▸ ha)
  · rw [hd.sameCells.hasElement_eq]
    rcases List.mem_append.1 hmem with hmem | hmem
    · exact h.hasElement e j hmem
    · cases List.mem_singleton.1 hmem
      exact helement

/-- The cells of a line find their way back into the rings that cross it. -/
theorem foldl_relink_ring (h : m.WellFormed J) (hactive : ⟨d, i⟩ ∉ J)
    (hlt : i < (m.headers.get d).size) :
    (m.ring d i).foldl Links.relink ((m.ring d i).foldl Links.unlink (m.rings.get d.other)) =
      m.rings.get d.other := by
  refine Links.foldl_relink_foldl_unlink (h.respects _) (h.nodup_map_position hlt) ?_
  intro x hx
  have hposition := h.position_lt d.other x ((h.mem_ring d i x hlt).1 hx).1
  exact (h.isRing _ _ hposition).isLinked (h.mem_ring_other hactive hlt hx)

/-- A matrix where only the header of a deleted row or column was put back. -/
structure Reactivated (d : Dimension) (i : Nat) (m k n : Matrix) : Prop where
  sameCells : n.SameCells m
  rings_eq : n.rings = m.rings.modify d.other fun l => (m.ring d i).foldl Links.unlink l
  costs_eq : n.costs = m.costs
  similar : (n.headers.get d).Similar (m.headers.get d)
  similar_other : (k.headers.get d.other).Similar (n.headers.get d.other)

theorem exists_reactivate_eq_ok (h : m.WellFormed J) (hd : Deleted d i m k) (hkn : k.Similar n) :
    ∃ n', n.reactivate d i = .ok n' ∧ Reactivated d i m k n' ∧
      n'.journal = n.journal ∧ n'.marks = n.marks := by
  obtain ⟨l, hl, hsimilar⟩ := (h.isOrdered d).restore hd.exclude_eq (hkn.headers d)
  refine ⟨_, reactivate_eq_ok_iff.2 ⟨l, hl, rfl⟩, ⟨⟨?_, fun e => ?_⟩, ?_, ?_, ?_, ?_⟩, rfl, rfl⟩
  · rw [← hd.positions_eq, hkn.positions_eq]
  · rcases d.eq_or_eq_other e with rfl | rfl
    · rw [PerDimension.get_modify_self, hsimilar.size_eq]
    · rw [PerDimension.get_modify_other, ← hkn.size_eq, hd.size_eq]
  · rw [← hd.rings_eq, hkn.rings_eq]
  · rw [← hd.costs_eq, hkn.costs_eq]
  · rwa [PerDimension.get_modify_self]
  · rw [PerDimension.get_modify_other]
    exact hkn.headers d.other

/-- A deletion can be undone, whatever became of dirty flags, journal and marks since. -/
theorem exists_undelete_eq_ok (h : m.WellFormed J) (hk : m.delete d i = .ok k)
    (hkn : k.Similar n) : ∃ n', n.undelete d i = .ok n' ∧ n'.Similar m ∧
      n'.journal = n.journal ∧ n'.marks = n.marks := by
  have hd := deleted_of_delete hk
  have hi := h.mem_active_of_deleted hd
  have hlt := h.lt_size_of_mem_active hi
  have hactive := ((h.mem_active d i).1 hi).2
  obtain ⟨n₁, hn₁, hreactivated, hjournal, hmarks⟩ := h.exists_reactivate_eq_ok hd hkn
  have hother := hreactivated.similar_other
  have hposition : n₁.position = m.position := hreactivated.sameCells.position_eq
  have hring : n₁.ring d i = m.ring d i := by
    refine hreactivated.sameCells.ring_eq ?_ i
    rw [hreactivated.rings_eq, PerDimension.get_other_modify_other]
  have hbounds : ∀ x ∈ m.ring d i,
      n₁.position d.other x < (n₁.headers.get d.other).headers.size := by
    intro x hx
    rw [hposition, ← hother.size_headers_eq, ← hd.recounted.size_headers_eq]
    exact (h.isOrdered _).lt_size_headers
      (h.position_lt _ x ((h.mem_ring d i x hlt).1 hx).1)
  obtain ⟨n', hn', hrelinked, hcount⟩ := exists_attachAll_eq_ok hbounds
  refine ⟨n', ?_, ⟨?_, ?_, ?_, fun e => ?_⟩, ?_, ?_⟩
  · rw [undelete, hn₁]
    simp only [bind, Except.bind, hring]
    exact hn'
  · rw [hrelinked.positions_eq, hreactivated.sameCells.positions_eq]
  · rw [hrelinked.rings_eq, hreactivated.rings_eq]
    apply PerDimension.ext_get
    intro e
    rcases d.eq_or_eq_other e with rfl | rfl
    · rw [PerDimension.get_other_modify_other, PerDimension.get_other_modify_other]
    · rw [PerDimension.get_modify_self, PerDimension.get_modify_self]
      exact h.foldl_relink_ring hactive hlt
  · rw [hrelinked.costs_eq, hreactivated.costs_eq]
  · rcases d.eq_or_eq_other e with rfl | rfl
    · have heq := hrelinked.headers_other
      rw [Dimension.other_other] at heq
      rw [heq]
      exact hreactivated.similar
    · refine ⟨(hd.recounted.trans (hother.1.trans hrelinked.recounted)).symm, fun j => ?_⟩
      have hj := hcount j
      have hj' := hd.count_eq j
      rw [hposition] at hj
      rw [count, header, hother.count_eq] at hj'
      exact hj.trans hj'
  · rw [hrelinked.journal_eq, hjournal]
  · rw [hrelinked.marks_eq, hmarks]

end WellFormed

end SetCover.Matrix
