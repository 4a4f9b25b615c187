import SetCover.Proofs.Lockstep
import SetCover.Proofs.Matrix.Lines
import SetCover.Proofs.Matrix.Insertion

/-!
# Operations that cannot fail

On a well-formed matrix, the only deletions that fail are those of a row or column that does not
exist or is deleted already, and a selected column is always emptied by deleting its rows.  Elements
can be added if they lie in the matrix and all cells have a number.
-/

namespace SetCover

namespace HeaderRing

variable {l : HeaderRing} {i : Nat} {js : List Nat} {f : Fault}

theorem exists_decrement_eq_ok (hi : i < l.headers.size) (hcount : 0 < (l.header i).count) :
    ∃ k, l.decrement i = .ok k := by
  have hget : l.headers[i]? = some (l.header i) := by
    rw [header, Array.getD_eq_getD_getElem?, Array.getElem?_eq_getElem hi, Option.getD_some]
  rw [decrement, hget]
  dsimp only
  rw [if_neg (Nat.ne_of_gt hcount)]
  exact ⟨_, rfl⟩

theorem get_of_size_le (hi : l.size ≤ i) : l.get i = .error (.noSuchHeader l.dimension i l.size) :=
  if_neg (Nat.not_lt.2 hi)

theorem exclude_of_size_le (hi : l.size ≤ i) :
    l.exclude i = .error (.noSuchHeader l.dimension i l.size) := by
  rw [exclude, get_of_size_le hi]
  rfl

theorem exclude_of_deleted (hi : i < l.size) (hdeleted : (l.header i).deleted = true) :
    l.exclude i = .error (.alreadyDeleted l.dimension i) := by
  rw [exclude, get_eq_ok_iff.2 ⟨hi, rfl⟩]
  simp only [bind, Except.bind, hdeleted]
  rfl

theorem exists_fillFrom_eq_ok {last : Nat} (hjs : js.Pairwise (· < ·)) (hlt : ∀ j ∈ js, j < l.size)
    (hlast : last = l.head ∨ ∀ j ∈ js, last < j) :
    ∃ k, l.fillFrom last js = .ok k ∧ k.dimension = l.dimension ∧ k.size = l.size := by
  induction js generalizing l last with
  | nil => exact ⟨l, rfl, rfl, rfl⟩
  | cons i js ih =>
      obtain ⟨hi, hpairwise⟩ := List.pairwise_cons.1 hjs
      have hlt' : ∀ j ∈ js, j < (l.activateAfter last i (l.header i).dirty).size := fun j hj =>
        hlt j (List.mem_cons_of_mem i hj)
      have hbelow : i = (l.activateAfter last i (l.header i).dirty).head ∨ ∀ j ∈ js, i < j :=
        Or.inr hi
      obtain ⟨k, hk, hdimension, hsize⟩ := ih hpairwise hlt' hbelow
      refine ⟨k, fillFrom_cons_eq_ok_iff.2 ⟨?_, hlt i (by simp), hk⟩, hdimension, hsize⟩
      exact hlast.imp_right fun h => h i (by simp)

theorem exists_mergeFrom_eq_ok {cursor : Nat} (hnodup : js.Nodup)
    (hjs : ∀ j ∈ js, j < l.size ∧ (l.header j).deleted = true) :
    ∃ k, l.mergeFrom cursor js = .ok k := by
  induction js generalizing l cursor with
  | nil => exact ⟨l, rfl⟩
  | cons i js ih =>
      obtain ⟨hnot, hnodup⟩ := List.nodup_cons.1 hnodup
      obtain ⟨hi, hdeleted⟩ := hjs i (by simp)
      have hkept : ∀ p, ∀ j ∈ js, j < (l.activateAfter p i true).size ∧
          ((l.activateAfter p i true).header j).deleted = true := by
        intro p j hj
        obtain ⟨hlt, hdeleted⟩ := hjs j (List.mem_cons_of_mem i hj)
        refine ⟨hlt, ?_⟩
        rw [activateAfter, header_setIfInBounds, if_neg fun h : j = i ∧ _ => hnot (h.1 ▸ hj),
          hdeleted]
      obtain ⟨k, hk⟩ := ih hnodup (hkept _)
      exact ⟨k, mergeFrom_cons_eq_ok_iff.2 ⟨hi, hdeleted, hk⟩⟩

end HeaderRing

namespace Matrix

variable {m k : Matrix} {J : List Deletion} {d : Dimension} {i j c : Nat} {cells is : List Nat}
variable {f : Fault}

/-! ### Deletions -/

theorem exists_detach_eq_ok {x : Nat}
    (hx : m.position d x < (m.headers.get d).headers.size)
    (hcount : 0 < m.count d (m.position d x)) : ∃ k, m.detach d x = .ok k := by
  obtain ⟨l, hl⟩ := HeaderRing.exists_decrement_eq_ok hx hcount
  exact ⟨_, detach_eq_ok_iff.2 ⟨l, hl, rfl⟩⟩

theorem exists_detachAll_eq_ok
    (hcells : ∀ x ∈ cells, m.position d x < (m.headers.get d).headers.size)
    (hcount : ∀ j, cells.countP (m.position d · = j) ≤ m.count d j) :
    ∃ k, m.detachAll d cells = .ok k := by
  induction cells generalizing m with
  | nil => exact ⟨m, rfl⟩
  | cons x cells ih =>
      have hpos : 0 < m.count d (m.position d x) := by
        refine Nat.lt_of_lt_of_le ?_ (hcount (m.position d x))
        rw [List.countP_cons_of_pos (by simp)]
        exact Nat.succ_pos _
      obtain ⟨n, hn⟩ := exists_detach_eq_ok (hcells x (by simp)) hpos
      obtain ⟨hrelinked, hcounts⟩ := relinked_of_detach hn
      have hcells' : ∀ y ∈ cells, n.position d y < (n.headers.get d).headers.size := by
        intro y hy
        rw [hrelinked.position_eq, ← hrelinked.recounted.size_headers_eq]
        exact hcells y (List.mem_cons_of_mem x hy)
      have hcount' : ∀ j, cells.countP (n.position d · = j) ≤ n.count d j := by
        intro j
        have hj := hcount j
        rw [← hcounts j, List.countP_cons] at hj
        rw [hrelinked.position_eq]
        simpa using hj
      obtain ⟨k, hk⟩ := ih hcells' hcount'
      refine ⟨k, ?_⟩
      rw [detachAll, hn]
      exact hk

namespace WellFormed

/-- A header counts at least the cells that a line has in its ring. -/
theorem countP_ring_le (hm : m.WellFormed J) (hi : i ∈ m.active d) (j : Nat) :
    (m.ring d i).countP (m.position d.other · = j) ≤ m.count d.other j := by
  have hlt := hm.lt_size_of_mem_active hi
  have hactive := ((hm.mem_active d i).1 hi).2
  by_cases hj : j < (m.headers.get d.other).size
  · rw [hm.count_eq _ j hj, List.countP_eq_length_filter]
    refine (List.subperm_of_subset ((hm.isRing _ _ hlt).nodup_tail.filter _) ?_).length_le
    intro x hx
    obtain ⟨hx, hposition⟩ := List.mem_filter.1 hx
    rw [← of_decide_eq_true hposition]
    exact hm.mem_ring_other hactive hlt hx
  · rw [List.countP_eq_zero.2]
    · exact Nat.zero_le _
    · intro x hx
      rw [decide_eq_true_eq]
      rintro rfl
      exact hj (hm.position_lt _ x ((hm.mem_ring d i x hlt).1 hx).1)

/-- An active row or column can be deleted. -/
theorem exists_delete_eq_ok (hm : m.WellFormed J) (hi : i ∈ m.active d) :
    ∃ k, m.delete d i = .ok k := by
  obtain ⟨hlt, hdeleted⟩ := ((hm.isOrdered d).mem_active i).1 hi
  obtain ⟨n, hn, hcells, hrings, hother⟩ : ∃ n, m.deactivate d i = .ok n ∧ n.SameCells m ∧
      n.rings = m.rings ∧ n.headers.get d.other = m.headers.get d.other := by
    refine ⟨_, deactivate_eq_ok_iff.2 ⟨_, HeaderRing.exclude_eq_ok_iff.2 ⟨hlt, hdeleted, rfl⟩, rfl⟩,
      ⟨rfl, fun e => ?_⟩, rfl, PerDimension.get_modify_other _ _ _⟩
    cases d <;> cases e <;> rfl
  obtain ⟨k, hk⟩ : ∃ k, n.detachAll d.other (n.ring d i) = .ok k := by
    rw [hcells.ring_eq (by rw [hrings])]
    refine exists_detachAll_eq_ok (fun x hx => ?_) fun j => ?_
    · rw [hother, hcells.position_eq]
      exact (hm.isOrdered _).lt_size_headers
        (hm.position_lt _ x ((hm.mem_ring d i x hlt).1 hx).1)
    · rw [hcells.position_eq, count, header, hother]
      exact hm.countP_ring_le hi j
  refine ⟨k, ?_⟩
  rw [Matrix.delete, hn]
  exact hk

end WellFormed

/-- A deletion that cannot exclude the header does nothing else. -/
theorem delete_of_exclude (h : (m.headers.get d).exclude i = .error f) :
    m.delete d i = .error f := by
  obtain ⟨positions, rings, ⟨row, column⟩, costs, journal, marks⟩ := m
  cases d with
  | row =>
      change row.exclude i = .error f at h
      simp only [delete, deactivate, PerDimension.tryModify, h]
      rfl
  | column =>
      change column.exclude i = .error f at h
      simp only [delete, deactivate, PerDimension.tryModify, h]
      rfl

/-- A deletion fails only if there is nothing to delete. -/
theorem WellFormed.delete_eq_error_iff (hm : m.WellFormed J) : m.delete d i = .error f ↔
    (m.headers.get d).size ≤ i ∧
      f = .noSuchHeader (m.headers.get d).dimension i (m.headers.get d).size ∨
    i < (m.headers.get d).size ∧ m.isDeleted d i = true ∧
      f = .alreadyDeleted (m.headers.get d).dimension i := by
  rcases Nat.lt_or_ge i (m.headers.get d).size with hi | hi
  · cases hdeleted : m.isDeleted d i with
    | false =>
        obtain ⟨k, hk⟩ := hm.exists_delete_eq_ok ((hm.isDeleted_iff hi).1 hdeleted)
        simp [hk, Nat.not_le.2 hi]
    | true =>
        rw [delete_of_exclude (HeaderRing.exclude_of_deleted hi hdeleted)]
        simp [hi, Nat.not_le.2 hi, eq_comm]
  · rw [delete_of_exclude (HeaderRing.exclude_of_size_le hi), Except.error.injEq]
    constructor
    · exact fun h => Or.inl ⟨hi, h.symm⟩
    · exact fun h => h.elim (fun h => h.2.symm) fun h => absurd h.1 (Nat.not_lt.2 hi)

/-! ### Selections -/

theorem WellFormed.exists_deleteAll_eq_ok (hm : m.WellFormed J) (hnodup : is.Nodup)
    (his : ∀ i ∈ is, i ∈ m.active d) : ∃ k, m.deleteAll d is = .ok k := by
  induction is generalizing m J with
  | nil => exact ⟨m, rfl⟩
  | cons i is ih =>
      obtain ⟨hnot, hnodup⟩ := List.nodup_cons.1 hnodup
      obtain ⟨n, hn⟩ := hm.exists_delete_eq_ok (his i (by simp))
      obtain ⟨k, hk⟩ := ih (hm.delete hn) hnodup fun j hj => by
        rw [(Trail.of_delete hn).mem_active_iff hm]
        refine ⟨his j (List.mem_cons_of_mem i hj), ?_⟩
        simpa using fun hji : j = i => hnot (hji ▸ hj)
      refine ⟨k, ?_⟩
      rw [deleteAll, hn]
      exact hk

/-- After its rows are deleted, an active column has no element any more. -/
theorem WellFormed.count_of_deleteAll (hm : m.WellFormed J) (hc : c ∈ m.active .column)
    (hk : m.deleteAll .row (m.line .column c) = .ok k) :
    c ∈ k.active .column ∧ k.count .column c = 0 := by
  have htrail := (deletes_of_deleteAll hk).1.trail
  have hwell := htrail.wellFormed hm
  have hactive : c ∈ k.active .column := (htrail.mem_active_iff hm).2 ⟨hc, by simp⟩
  refine ⟨hactive, ?_⟩
  rw [hwell.count_eq_length_of_mem_active hactive, List.length_eq_zero_iff,
    List.eq_nil_iff_forall_not_mem]
  intro r hr
  obtain ⟨hmeets, hrow⟩ := (hwell.mem_line_iff hactive).1 hr
  rw [htrail.sameCells.meets_eq] at hmeets
  obtain ⟨hrow, hnot⟩ := (htrail.mem_active_iff hm).1 hrow
  exact hnot (List.mem_map_of_mem ((hm.mem_line_iff hc).2 ⟨hmeets, hrow⟩))

/-- An active column can be selected. -/
theorem WellFormed.exists_select_eq_ok (hm : m.WellFormed J) (hc : c ∈ m.active .column) :
    ∃ n k, m.deleteAll .row (m.line .column c) = .ok n ∧ n.delete .column c = .ok k ∧
      m.select c = .ok (k, [.columnSelected c]) := by
  have hlt := hm.lt_size_of_mem_active hc
  obtain ⟨n, hn⟩ : ∃ n, m.deleteAll .row (m.line .column c) = .ok n :=
    hm.exists_deleteAll_eq_ok (hm.nodup_line hlt) fun r hr => hm.mem_active_of_mem_line hc hr
  obtain ⟨hactive, hcount⟩ := hm.count_of_deleteAll hc hn
  obtain ⟨k, hk⟩ :=
    ((deletes_of_deleteAll hn).1.trail.wellFormed hm).exists_delete_eq_ok hactive
  refine ⟨n, k, hn, hk, ?_⟩
  have hget : m.getHeader .column c = .ok (m.header .column c) :=
    HeaderRing.get_eq_ok_iff.2 ⟨hlt, rfl⟩
  have hdeleted : (m.header .column c).deleted = false := (hm.isDeleted_iff hlt).2 hc
  rw [select, hget, hn]
  refine Traced.bind_eq_ok_iff.2 ⟨_, [], [.columnSelected c], rfl, ?_, rfl⟩
  rw [hdeleted, if_neg Bool.false_ne_true]
  refine Traced.bind_eq_ok_iff.2 ⟨(), [.columnSelected c], [], rfl, ?_, rfl⟩
  refine Traced.bind_eq_ok_iff.2 ⟨n, [], [], rfl, ?_, rfl⟩
  rw [if_pos hcount, hk]
  rfl

/-- A selection fails only if there is no such column, or it is deleted already. -/
theorem WellFormed.select_eq_error_iff (hm : m.WellFormed J) : (m.select c).result = .error f ↔
    m.numColumns ≤ c ∧ f = .noSuchHeader m.headers.column.dimension c m.numColumns ∨
      c < m.numColumns ∧ m.isDeleted .column c = true ∧ f = .selectionOfDeleted c := by
  rcases Nat.lt_or_ge c m.numColumns with hc | hc
  · have hget : m.getHeader .column c = .ok (m.header .column c) :=
      HeaderRing.get_eq_ok_iff.2 ⟨hc, rfl⟩
    cases hdeleted : m.isDeleted .column c with
    | false =>
        obtain ⟨n, k, -, -, hk⟩ := hm.exists_select_eq_ok ((hm.isDeleted_iff hc).1 hdeleted)
        simp [hk, Traced.result, Except.map, Nat.not_le.2 hc]
    | true =>
        have hselect : (m.select c).result = .error (.selectionOfDeleted c) := by
          rw [select, hget, Traced.result_bind]
          change (m.header .column c).deleted = true at hdeleted
          simp only [Traced.result_liftM, bind, Except.bind, hdeleted]
          rfl
        simp [hselect, hc, Nat.not_le.2 hc, eq_comm]
  · have hselect : (m.select c).result =
        .error (.noSuchHeader m.headers.column.dimension c m.numColumns) := by
      have hget : m.getHeader .column c = _ := HeaderRing.get_of_size_le hc
      rw [select, hget]
      rfl
    rw [hselect, Except.error.injEq]
    constructor
    · exact fun h => Or.inl ⟨hc, h.symm⟩
    · exact fun h => h.elim (fun h => h.2.symm) fun h => absurd h.1 (Nat.not_lt.2 hc)

/-! ### New elements -/

theorem exists_linkCell_eq_ok {a : PerDimension Nat}
    (ha : ∀ d, a.get d < (m.headers.get d).headers.size) (behind : PerDimension Nat) :
    ∃ k, m.linkCell (Cell.alone m.positions.size a) behind = .ok k := by
  obtain ⟨row, hrow, -⟩ := HeaderRing.increment_eq_ok (ha .row)
  obtain ⟨column, hcolumn, -⟩ := HeaderRing.increment_eq_ok (ha .column)
  obtain ⟨positions, rings, headers, costs, journal, marks⟩ := m
  refine ⟨_, bind_eq_ok_iff.2 ⟨row, hrow, bind_eq_ok_iff.2 ⟨column, hcolumn, rfl⟩⟩⟩

theorem checkPosition_eq_ok (hi : i < Cell.noPosition) : Cell.checkPosition i = .ok () := by
  have hlt : i < Cell.wordCount := hi.trans (Nat.lt_succ_self _)
  rw [Cell.checkPosition, if_neg (Nat.not_le.2 hlt), if_neg (Nat.ne_of_lt hi)]

/-- An element that lies in the matrix can be inserted if there is a number for its cell. -/
theorem Linked.exists_insertElement_eq_ok (hm : Linked J m) (hfit : m.FitsWords)
    (hsize : m.positions.size < Cell.wordCount) {row column : Nat} (hrow : row < m.numRows)
    (hcolumn : column < m.numColumns) :
    ∃ isNew k, m.insertElement row column = .ok (isNew, k) := by
  by_cases hfound : m.insertionPoint .row row column ≠ m.sentinel .row row ∧
      m.position .column (m.insertionPoint .row row column) = column
  · refine ⟨false, m, insertElement_eq_ok_iff.2 ⟨⟨hrow, hcolumn⟩, ?_⟩⟩
    rw [if_pos hfound]
    exact ⟨rfl, rfl⟩
  · have hlt : ∀ d, (⟨row, column⟩ : PerDimension Nat).get d < (m.headers.get d).headers.size := by
      intro d
      cases d
      · exact (hm.isOrdered .row).lt_size_headers hrow
      · exact (hm.isOrdered .column).lt_size_headers hcolumn
    obtain ⟨k, hk⟩ := exists_linkCell_eq_ok hlt
      ⟨m.insertionPoint .row row column, m.insertionPoint .column column row⟩
    refine ⟨true, k, insertElement_eq_ok_iff.2 ⟨⟨hrow, hcolumn⟩, ?_⟩⟩
    rw [if_neg hfound]
    refine ⟨rfl, _, element_eq_ok_iff.2 ⟨⟨if_pos hsize, ?_, ?_⟩, rfl⟩, hk⟩
    · exact checkPosition_eq_ok (hrow.trans_le (hfit.size_le .row))
    · exact checkPosition_eq_ok (hcolumn.trans_le (hfit.size_le .column))

theorem exists_activate_eq_ok (hi : i < (m.headers.get d).size) :
    ∃ k, m.activate d i = .ok k := by
  rw [activate, getHeader, HeaderRing.get_eq_ok_iff.2 ⟨hi, rfl⟩]
  cases hdeleted : ((m.headers.get d).header i).deleted with
  | false =>
      refine ⟨m, ?_⟩
      simp only [bind, Except.bind, hdeleted]
      rfl
  | true =>
      obtain ⟨l, hl⟩ : ∃ l, (m.headers.get d).insert i = .ok l :=
        ⟨_, HeaderRing.insert_eq_ok_iff.2 ⟨hi, hdeleted, rfl⟩⟩
      have hmodify : m.headers.tryModify d (·.insert i) = .ok (m.headers.modify d fun _ => l) :=
        PerDimension.tryModify_eq_ok_iff_exists.2 ⟨l, hl, rfl⟩
      refine ⟨{ m with headers := m.headers.modify d fun _ => l }, ?_⟩
      rw [hmodify]
      simp only [bind, Except.bind, hdeleted]
      rfl

theorem exists_activateAll_eq_ok (hd : (m.headers.get d).dimension = d) :
    ∃ k, m.activateAll d = .ok k := by
  have hpending : (m.pending d).Pairwise (· < ·) := List.pairwise_lt_range.filter _
  have hmem : ∀ i ∈ m.pending d, i < (m.headers.get d).size ∧
      ((m.headers.get d).header i).deleted = true := by
    intro i hi
    rw [pending, HeaderRing.indices, List.mem_filter, List.mem_range, Bool.and_eq_true] at hi
    exact ⟨hi.1, hi.2.1⟩
  obtain ⟨filled, hfilled, hdimension, hsize⟩ :=
    HeaderRing.exists_fillFrom_eq_ok (l := .excluded d (m.headers.get d).size) hpending
      (fun i hi => (hmem i hi).1) (Or.inl rfl)
  have hfill : (HeaderRing.excluded d (m.headers.get d).size).fill (m.pending d) = .ok filled :=
    hfilled
  have hactive := ((HeaderRing.isOrdered_excluded d _).fill hfill).2
  obtain ⟨l, hl⟩ : ∃ l, (m.headers.get d).merge filled = .ok l := by
    rw [HeaderRing.merge, hactive, hdimension, hsize, if_pos ⟨hd, rfl⟩]
    exact HeaderRing.exists_mergeFrom_eq_ok hpending.nodup hmem
  have hmodify : m.headers.tryModify d (·.merge filled) = .ok (m.headers.modify d fun _ => l) :=
    PerDimension.tryModify_eq_ok_iff_exists.2 ⟨l, hl, rfl⟩
  exact ⟨_, bind_eq_ok_iff.2 ⟨filled, hfill, bind_eq_ok_iff.2 ⟨_, hmodify, rfl⟩⟩⟩

/-- The position lies in the matrix. -/
def InRange (m : Matrix) (e : Nat × Nat) : Prop := e.1 < m.numRows ∧ e.2 < m.numColumns

instance (m : Matrix) (e : Nat × Nat) : Decidable (m.InRange e) :=
  inferInstanceAs (Decidable (_ ∧ _))

/-- The active lists know whether they hold rows or columns. -/
def IsLabelled (m : Matrix) : Prop := ∀ d, (m.headers.get d).dimension = d

theorem IsLabelled.of_activated {js : List Nat} (hm : m.IsLabelled) (h : Activated d js m k) :
    k.IsLabelled := by
  intro e
  rcases d.eq_or_eq_other e with rfl | rfl
  · exact h.activates.dimension_eq.trans (hm e)
  · rw [h.headers_other]
    exact hm _

/-- What the insertion of an element leaves as it was. -/
theorem of_insertElement {row column : Nat} {isNew : Bool}
    (hk : m.insertElement row column = .ok (isNew, k)) :
    (∀ d, (m.headers.get d).Recounted (k.headers.get d)) ∧ k.costs = m.costs ∧
      k.positions.size ≤ m.positions.size + 1 := by
  obtain ⟨-, hk⟩ := insertElement_eq_ok_iff.1 hk
  split_ifs at hk
  · obtain ⟨-, rfl⟩ := hk
    exact ⟨fun d => .refl _, rfl, Nat.le_succ _⟩
  · obtain ⟨-, cell, hcell, hk⟩ := hk
    obtain ⟨-, rfl⟩ := element_eq_ok_iff.1 hcell
    have hinserted := inserted_of_linkCell hk
    refine ⟨hinserted.recounted, hinserted.costs_eq, ?_⟩
    rw [hinserted.positions_eq, Array.size_push]

theorem insertElement_of_not_inRange {e : Nat × Nat} (he : ¬m.InRange e) :
    m.insertElement e.1 e.2 = .error (.elementOutOfRange e.1 e.2 m.numRows m.numColumns) := by
  rw [insertElement]
  exact if_neg he

/-- Elements are inserted up to the first one that lies outside the matrix. -/
theorem Linked.insertElements_eq (hm : Linked [] m) (hfit : m.FitsWords) {es : List (Nat × Nat)}
    (hsize : m.positions.size + es.length ≤ Cell.wordCount) (before : Nat) :
    (∃ e, es.find? (fun e => ¬m.InRange e) = some e ∧ m.insertElements before es =
      .error (.elementOutOfRange e.1 e.2 m.numRows m.numColumns)) ∨
    es.find? (fun e => ¬m.InRange e) = none ∧ ∃ added k, m.insertElements before es =
      .ok (added, k) ∧ ∀ d, (m.headers.get d).Recounted (k.headers.get d) := by
  induction es generalizing m before with
  | nil => exact Or.inr ⟨rfl, before, m, rfl, fun d => .refl _⟩
  | cons e es ih =>
      rw [List.length_cons, ← Nat.add_assoc, Nat.add_right_comm] at hsize
      by_cases he : m.InRange e
      · have hlt : m.positions.size < Cell.wordCount :=
          (Nat.lt_succ_self _).trans_le ((Nat.le_add_right _ _).trans hsize)
        obtain ⟨isNew, n, hn⟩ := hm.exists_insertElement_eq_ok hfit hlt he.1 he.2
        obtain ⟨hrecounted, hcosts, hle⟩ := of_insertElement hn
        have hsizes : ∀ d, (n.headers.get d).size = (m.headers.get d).size := fun d =>
          (hrecounted d).size_eq.symm
        have hrows : n.numRows = m.numRows := hsizes .row
        have hcolumns : n.numColumns = m.numColumns := hsizes .column
        have hstep := ih (hm.insertElement hn).1 (hfit.of_eq hcosts hsizes)
          ((Nat.add_le_add_right hle _).trans hsize) (if isNew then before + 1 else before)
        rw [hrows, hcolumns] at hstep
        have hrange : ∀ e, n.InRange e ↔ m.InRange e := fun e => by
          rw [InRange, InRange, hrows, hcolumns]
        simp only [hrange] at hstep
        rw [List.find?_cons_of_neg (by simpa using he)]
        have heq : m.insertElements before (e :: es) =
            n.insertElements (if isNew then before + 1 else before) es := by
          rw [Matrix.insertElements, hn]
          rfl
        rw [heq]
        rcases hstep with hfound | ⟨hnone, added, k, hk, hall⟩
        · exact Or.inl hfound
        · exact Or.inr ⟨hnone, added, k, hk, fun d => (hrecounted d).trans (hall d)⟩
      · refine Or.inl ⟨e, List.find?_cons_of_pos (by simpa using he), ?_⟩
        rw [Matrix.insertElements, insertElement_of_not_inRange he]
        rfl

theorem dimension_of_insertElements {es : List (Nat × Nat)} {before added : Nat}
    (hk : m.insertElements before es = .ok (added, k)) (d : Dimension) :
    (k.headers.get d).dimension = (m.headers.get d).dimension := by
  induction es generalizing m before with
  | nil =>
      cases hk
      rfl
  | cons e es ih =>
      obtain ⟨row, column⟩ := e
      rw [insertElements, bind_eq_ok_iff] at hk
      obtain ⟨⟨isNew, n⟩, hn, hk⟩ := hk
      rw [ih hk, ((of_insertElement hn).1 d).dimension_eq]

theorem checkJournal_eq_ok (h : m.journal.isEmpty = true) : m.checkJournal = .ok () := by
  rw [checkJournal, if_pos h]

theorem checkJournal_eq_error (h : m.journal.isEmpty = false) :
    m.checkJournal = .error .deletionsRecorded := by
  rw [checkJournal, h]
  rfl

theorem IsValid.wellFormed_nil (hm : m.IsValid) (h : m.journal.isEmpty = true) :
    m.WellFormed [] := by
  rwa [IsValid, Journal.deletions_of_isEmpty h] at hm

/-- What can be inserted can be added, with the same answer. -/
theorem Linked.exists_addElement_eq_ok (hm : Linked [] m) (hempty : m.journal.isEmpty = true)
    {row column : Nat} {isNew : Bool} {n : Matrix}
    (hn : m.insertElement row column = .ok (isNew, n)) :
    ∃ k, m.addElement row column = .ok (isNew, k) := by
  obtain ⟨hrow, hcolumn⟩ := (insertElement_eq_ok_iff.1 hn).1
  obtain ⟨hlinked, haugmented, -⟩ := hm.insertElement hn
  rw [addElement, checkJournal_eq_ok hempty, ok_bind, hn, ok_bind]
  cases isNew with
  | false => exact ⟨n, rfl⟩
  | true =>
      have hrow' : row < (n.headers.get .row).size := (haugmented.size_eq .row).symm ▸ hrow
      obtain ⟨n₁, hn₁⟩ := exists_activate_eq_ok hrow'
      have hcolumn' : column < (n₁.headers.get .column).size := by
        rw [(hlinked.activate hn₁).2.size_eq, haugmented.size_eq]
        exact hcolumn
      obtain ⟨k, hk⟩ := exists_activate_eq_ok hcolumn'
      exact ⟨k, bind_eq_ok_iff.2 ⟨n₁, hn₁, bind_eq_ok_iff.2 ⟨k, hk, rfl⟩⟩⟩

theorem addElement_of_insertElement (hempty : m.journal.isEmpty = true) {row column : Nat}
    (h : m.insertElement row column = .error f) : m.addElement row column = .error f := by
  rw [addElement, checkJournal_eq_ok hempty, ok_bind, h]
  rfl

/-- What can be inserted can be added as a batch, with the same answer. -/
theorem Linked.exists_addElements_eq_ok (hm : Linked [] m) (hempty : m.journal.isEmpty = true)
    (hlabels : m.IsLabelled) {es : List (Nat × Nat)} {added : Nat} {n : Matrix}
    (hn : m.insertElements 0 es = .ok (added, n)) :
    ∃ k, m.addElements es = .ok (added, k) := by
  have hlabels' : n.IsLabelled := fun d => (dimension_of_insertElements hn d).trans (hlabels d)
  obtain ⟨n₁, hn₁⟩ := exists_activateAll_eq_ok (hlabels' .row)
  have hactivated := ((hm.insertElements hn).1.activateAll hn₁).2
  obtain ⟨k, hk⟩ := exists_activateAll_eq_ok (hlabels'.of_activated hactivated .column)
  rw [addElements, checkJournal_eq_ok hempty, ok_bind, hn, ok_bind]
  exact ⟨k, bind_eq_ok_iff.2 ⟨n₁, hn₁, bind_eq_ok_iff.2 ⟨k, hk, rfl⟩⟩⟩

theorem addElements_of_insertElements (hempty : m.journal.isEmpty = true) {es : List (Nat × Nat)}
    (h : m.insertElements 0 es = .error f) : m.addElements es = .error f := by
  rw [addElements, checkJournal_eq_ok hempty, ok_bind, h]
  rfl

/-- An element cannot be added if it lies outside the matrix, or something can be undone. -/
theorem IsValid.addElement_eq_error_iff (hm : m.IsValid) (hfit : m.FitsWords)
    (hsize : m.positions.size < Cell.wordCount) {row column : Nat} :
    m.addElement row column = .error f ↔
      m.journal.isEmpty = false ∧ f = .deletionsRecorded ∨ m.journal.isEmpty = true ∧
        ¬m.InRange (row, column) ∧ f = .elementOutOfRange row column m.numRows m.numColumns := by
  cases hempty : m.journal.isEmpty with
  | false =>
      rw [addElement, checkJournal_eq_error hempty]
      simp [bind, Except.bind, eq_comm]
  | true =>
      have hlinked := (hm.wellFormed_nil hempty).toLinked
      by_cases hrange : m.InRange (row, column)
      · obtain ⟨isNew, n, hn⟩ := hlinked.exists_insertElement_eq_ok hfit hsize hrange.1 hrange.2
        obtain ⟨k, hk⟩ := hlinked.exists_addElement_eq_ok hempty hn
        simp [hk, hrange]
      · rw [addElement_of_insertElement hempty (insertElement_of_not_inRange hrange)]
        simp [hrange, eq_comm]

/-- A batch of elements cannot be added if one of them lies outside the matrix, or something can be
undone. -/
theorem IsValid.addElements_eq_error_iff (hm : m.IsValid) (hlabels : m.IsLabelled)
    (hfit : m.FitsWords) {es : List (Nat × Nat)}
    (hsize : m.positions.size + es.length ≤ Cell.wordCount) :
    m.addElements es = .error f ↔
      m.journal.isEmpty = false ∧ f = .deletionsRecorded ∨ m.journal.isEmpty = true ∧
        ∃ e, es.find? (fun e => ¬m.InRange e) = some e ∧
          f = .elementOutOfRange e.1 e.2 m.numRows m.numColumns := by
  cases hempty : m.journal.isEmpty with
  | false =>
      rw [addElements, checkJournal_eq_error hempty]
      simp [bind, Except.bind, eq_comm]
  | true =>
      have hlinked := (hm.wellFormed_nil hempty).toLinked
      rcases hlinked.insertElements_eq hfit hsize 0 with
        ⟨e, he, herror⟩ | ⟨hnone, added, n, hn, -⟩
      · rw [addElements_of_insertElements hempty herror, he]
        simp [eq_comm]
      · obtain ⟨k, hk⟩ := hlinked.exists_addElements_eq_ok hempty hlabels hn
        rw [hk, hnone]
        simp

end Matrix

end SetCover
