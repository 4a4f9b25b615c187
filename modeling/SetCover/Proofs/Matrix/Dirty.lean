import SetCover.Proofs.Matrix.Lines
import SetCover.Proofs.Matrix.Insertion
import SetCover.Reduction

/-!
# Dirty flags

A dirty flag is set when a row or column changes or comes back, so whatever is clean after an
operation is as it was before.  `KeepsClean d m k` says this of the rows, or of the columns.  It
holds of deletions and of their undoing, and of new elements.
-/

namespace SetCover

/-! ### Flags of single headers -/

namespace HeaderRing

variable {l k : HeaderRing} {i j : Nat} {js : List Nat}

def isDirty (l : HeaderRing) (i : Nat) : Bool := (l.header i).dirty

theorem isDirty_setIfInBounds {h : Header} (hi : i < l.headers.size) (hh : h.dirty = true)
    (links : Links) (numActive j : Nat) :
    ({ l with headers := l.headers.setIfInBounds i h, links, numActive } : HeaderRing).isDirty j =
      (l.isDirty j || decide (j = i)) := by
  rw [isDirty, header_setIfInBounds, isDirty]
  by_cases hj : j = i
  · rw [if_pos ⟨hj, hj ▸ hi⟩, decide_eq_true hj, Bool.or_true, hh]
  · rw [if_neg fun h => hj h.1, decide_eq_false hj, Bool.or_false]

theorem isDirty_of_increment (h : l.increment i = .ok k) (j : Nat) :
    k.isDirty j = (l.isDirty j || decide (j = i)) := by
  rw [increment] at h
  split at h
  · cases h
  · rename_i header hheader
    obtain ⟨hi, -⟩ := Array.getElem?_eq_some_iff.1 hheader
    cases h
    exact isDirty_setIfInBounds hi rfl _ _ j

theorem isDirty_of_decrement (h : l.decrement i = .ok k) (j : Nat) :
    k.isDirty j = (l.isDirty j || decide (j = i)) := by
  rw [decrement] at h
  split at h
  · cases h
  · rename_i header hheader
    obtain ⟨hi, -⟩ := Array.getElem?_eq_some_iff.1 hheader
    split_ifs at h
    cases h
    exact isDirty_setIfInBounds hi rfl _ _ j

theorem isDirty_of_exclude (h : l.exclude i = .ok k) (j : Nat) : k.isDirty j = l.isDirty j := by
  obtain ⟨-, -, rfl⟩ := exclude_eq_ok_iff.1 h
  rw [isDirty, header_setIfInBounds, isDirty]
  split_ifs with hj
  · rw [hj.1]
  · rfl

theorem eq_of_restore (h : l.restore i = .ok k) : k = { l with
    headers := l.headers.setIfInBounds i { l.header i with deleted := false, dirty := true }
    links := l.links.relink i
    numActive := l.numActive + 1 } := by
  simp only [restore, bind_eq_ok_iff, get_eq_ok_iff] at h
  obtain ⟨_, ⟨-, rfl⟩, h⟩ := h
  by_cases hdeleted : (l.header i).deleted
  · by_cases hgap : l.links.isGapFor i
    · simp only [hdeleted, hgap] at h
      cases h
      rfl
    · simp only [hdeleted, hgap] at h
      cases h
  · simp only [hdeleted] at h
    cases h

theorem isDirty_of_restore (h : l.restore i = .ok k) (hi : i < l.headers.size) (j : Nat) :
    k.isDirty j = (l.isDirty j || decide (j = i)) := by
  rw [eq_of_restore h]
  exact isDirty_setIfInBounds hi rfl _ _ j

theorem isDirty_activateAfter (hi : i < l.headers.size) (p j : Nat) :
    (l.activateAfter p i true).isDirty j = (l.isDirty j || decide (j = i)) :=
  isDirty_setIfInBounds hi rfl _ _ j

theorem isDirty_of_mergeFrom {cursor : Nat} (hsize : ∀ i < l.size, i < l.headers.size)
    (h : l.mergeFrom cursor js = .ok k) (j : Nat) :
    k.isDirty j = (l.isDirty j || decide (j ∈ js)) := by
  induction js generalizing l cursor with
  | nil =>
      cases h
      simp
  | cons i js ih =>
      obtain ⟨hi, -, h⟩ := mergeFrom_cons_eq_ok_iff.1 h
      have hsize' : ∀ i' < l.size, i' < (l.activateAfter
          (l.links.advance l.head (· < i) l.links.size cursor) i true).headers.size := by
        intro i' hi'
        rw [activateAfter, Array.size_setIfInBounds]
        exact hsize i' hi'
      rw [ih hsize' h, isDirty_activateAfter (hsize i hi), Bool.or_assoc]
      simp only [List.mem_cons, Bool.decide_or]

end HeaderRing

namespace Matrix

variable {m n k n' : Matrix} {J xs : List Deletion} {d e : Dimension} {i j r : Nat}
variable {cells : List Nat} {es : List (Nat × Nat)}

theorem isDirty_eq (m : Matrix) (d : Dimension) (i : Nat) :
    m.isDirty d i = (m.headers.get d).isDirty i := rfl

/-- What is clean in `k` is active and clean in `m`, with the same line. -/
def KeepsClean (d : Dimension) (m k : Matrix) : Prop :=
  ∀ r ∈ k.active d, k.isDirty d r = false →
    r ∈ m.active d ∧ m.isDirty d r = false ∧ k.line d r = m.line d r

namespace KeepsClean

theorem refl (d : Dimension) (m : Matrix) : KeepsClean d m m := fun _ hr hclean =>
  ⟨hr, hclean, rfl⟩

theorem trans (h : KeepsClean d m n) (h' : KeepsClean d n k) : KeepsClean d m k := by
  intro r hr hclean
  obtain ⟨hr', hclean', hline'⟩ := h' r hr hclean
  obtain ⟨hr, hclean, hline⟩ := h r hr' hclean'
  exact ⟨hr, hclean, hline'.trans hline⟩

theorem of_headers_eq (h : m.Similar k) (hheaders : k.headers.get d = m.headers.get d) :
    KeepsClean d m k := by
  intro r hr hclean
  rw [isDirty_eq, hheaders] at hclean
  exact ⟨by rwa [h.active_eq], hclean, by rw [h.line_eq]⟩

end KeepsClean

/-! ### Deletions -/

theorem isDirty_of_detachAll (h : m.detachAll d cells = .ok k) (j : Nat) :
    k.isDirty d j = (m.isDirty d j || decide (j ∈ cells.map (m.position d))) := by
  induction cells generalizing m with
  | nil =>
      cases h
      simp
  | cons x cells ih =>
      rw [detachAll, bind_eq_ok_iff] at h
      obtain ⟨m', hm', hk⟩ := h
      have hposition := (relinked_of_detach hm').1.position_eq
      obtain ⟨l, hl, rfl⟩ := detach_eq_ok_iff.1 hm'
      rw [ih hk, hposition, isDirty_eq, PerDimension.get_modify_self,
        HeaderRing.isDirty_of_decrement hl, Bool.or_assoc, isDirty_eq]
      simp only [List.map_cons, List.mem_cons, Bool.decide_or]

/-- Deleting a row makes the columns dirty that it crosses, and so for columns. -/
theorem isDirty_of_delete (h : m.delete d i = .ok k) (j : Nat) :
    k.isDirty d j = m.isDirty d j ∧
      k.isDirty d.other j = (m.isDirty d.other j || decide (j ∈ m.line d i)) := by
  rw [delete, bind_eq_ok_iff] at h
  obtain ⟨m', hm', hk⟩ := h
  obtain ⟨l, hl, rfl⟩ := deactivate_eq_ok_iff.1 hm'
  have hdirty := isDirty_of_detachAll hk j
  have hother := (relinked_of_detachAll hk).1.headers_other
  rw [Dimension.other_other, PerDimension.get_modify_self] at hother
  refine ⟨?_, ?_⟩
  · rw [isDirty_eq, hother, HeaderRing.isDirty_of_exclude hl, isDirty_eq]
  · have hcells : ({ m with
        headers := m.headers.modify d fun _ => l
        journal := m.journal.record ⟨d, i⟩ } : Matrix).SameCells m := by
      refine ⟨rfl, fun e => ?_⟩
      obtain ⟨-, -, rfl⟩ := HeaderRing.exclude_eq_ok_iff.1 hl
      cases d <;> cases e <;> rfl
    rw [hdirty, isDirty_eq, PerDimension.get_modify_other, hcells.position_eq, hcells.ring_eq rfl]
    rfl

/-- A line that a deleted one does not cross stays as it is. -/
theorem WellFormed.line_of_deleted (hm : m.WellFormed J) (hd : Deleted e i m k)
    (hr : r < (m.headers.get d).size) (h : d = e.other → r ∉ m.line e i) :
    k.line d r = m.line d r := by
  rcases e.eq_or_eq_other d with rfl | rfl
  · exact hd.line_self r
  · rw [line, line, hm.ring_other hd hr, hd.position_eq, List.filter_eq_self.2]
    intro x hx
    rw [decide_eq_true_eq]
    intro hcrosses
    refine h rfl (List.mem_map.2 ⟨x, hcrosses, ?_⟩)
    exact ((hm.mem_ring _ r x hr).1 hx).2.1

theorem WellFormed.keepsClean_of_delete (hm : m.WellFormed J) (hk : m.delete e i = .ok k)
    (d : Dimension) : KeepsClean d m k := by
  intro r hr hclean
  have hr := (((Trail.of_delete hk).mem_active_iff hm).1 hr).1
  have hdirty := isDirty_of_delete hk r
  have hline := hm.line_of_deleted (deleted_of_delete hk) (hm.lt_size_of_mem_active hr)
  rcases e.eq_or_eq_other d with rfl | rfl
  · rw [hdirty.1] at hclean
    exact ⟨hr, hclean, hline fun h => absurd h.symm d.other_ne⟩
  · rw [hdirty.2, Bool.or_eq_false_iff, decide_eq_false_iff_not] at hclean
    exact ⟨hr, hclean.1, hline fun _ => hclean.2⟩

/-! ### Undoing deletions -/

theorem isDirty_of_attachAll (h : m.attachAll d cells = .ok k) (j : Nat) :
    k.isDirty d j = (m.isDirty d j || decide (j ∈ cells.map (m.position d))) ∧
      k.headers.get d.other = m.headers.get d.other := by
  induction cells generalizing m with
  | nil =>
      cases h
      simp
  | cons x cells ih =>
      rw [attachAll, bind_eq_ok_iff] at h
      obtain ⟨m', hm', hk⟩ := h
      obtain ⟨l, hl, rfl⟩ := attach_eq_ok_iff.1 hm'
      obtain ⟨hdirty, hother⟩ := ih hk
      refine ⟨?_, by rw [hother, PerDimension.get_modify_other]⟩
      have hposition : ({ m with
          rings := m.rings.modify d (·.relink x)
          headers := m.headers.modify d fun _ => l } : Matrix).position = m.position := rfl
      rw [hdirty, hposition, isDirty_eq, PerDimension.get_modify_self,
        HeaderRing.isDirty_of_increment hl, Bool.or_assoc, isDirty_eq]
      simp only [List.map_cons, List.mem_cons, Bool.decide_or]

/-- Undoing the deletion of a row makes it dirty, and the columns that it crosses. -/
theorem isDirty_of_undelete (h : m.undelete d i = .ok k) (hi : i < (m.headers.get d).headers.size)
    (j : Nat) : k.isDirty d j = (m.isDirty d j || decide (j = i)) ∧
      k.isDirty d.other j = (m.isDirty d.other j || decide (j ∈ m.line d i)) := by
  rw [undelete, bind_eq_ok_iff] at h
  obtain ⟨m', hm', hk⟩ := h
  obtain ⟨l, hl, rfl⟩ := reactivate_eq_ok_iff.1 hm'
  obtain ⟨hdirty, hother⟩ := isDirty_of_attachAll hk j
  rw [Dimension.other_other, PerDimension.get_modify_self] at hother
  refine ⟨?_, ?_⟩
  · rw [isDirty_eq, hother, HeaderRing.isDirty_of_restore hl hi, isDirty_eq]
  · have hcells : ({ m with headers := m.headers.modify d fun _ => l } : Matrix).SameCells m := by
      refine ⟨rfl, fun e => ?_⟩
      rw [HeaderRing.eq_of_restore hl]
      cases d <;> cases e <;> rfl
    rw [hdirty, isDirty_eq, PerDimension.get_modify_other, hcells.position_eq, hcells.ring_eq rfl]
    rfl

theorem WellFormed.keepsClean_of_undelete (hm : m.WellFormed J) (hk : m.delete e i = .ok k)
    (hkn : k.Similar n) (hn' : n.undelete e i = .ok n') (d : Dimension) : KeepsClean d n n' := by
  have hdeleted := deleted_of_delete hk
  have hi := hm.mem_active_of_deleted hdeleted
  have hsize : i < (n.headers.get e).headers.size := by
    refine (hkn.wellFormed (hm.delete hk)).isOrdered e |>.lt_size_headers ?_
    rw [← hkn.size_eq, hdeleted.size_eq]
    exact hm.lt_size_of_mem_active hi
  have hsimilar : n'.Similar m := by
    obtain ⟨n'', hn'', hsimilar, -⟩ := hm.exists_undelete_eq_ok hk hkn
    cases hn''.symm.trans hn'
    exact hsimilar
  have hcrossed : n.line e i = m.line e i := by rw [← hkn.line_eq, hdeleted.line_self]
  intro r hr hclean
  rw [hsimilar.active_eq] at hr
  have hactive := (Trail.of_delete hk).mem_active_iff (i := r) (d := d) hm
  have hline := hm.line_of_deleted hdeleted (hm.lt_size_of_mem_active hr)
  rw [← hkn.active_eq, hactive, hsimilar.line_eq, ← hkn.line_eq]
  obtain ⟨hdirty, hdirty'⟩ := isDirty_of_undelete hn' hsize r
  rcases e.eq_or_eq_other d with rfl | rfl
  · rw [hdirty, Bool.or_eq_false_iff, decide_eq_false_iff_not] at hclean
    exact ⟨⟨hr, by simpa using hclean.2⟩, hclean.1, (hline fun h => absurd h.symm d.other_ne).symm⟩
  · rw [hdirty', hcrossed, Bool.or_eq_false_iff, decide_eq_false_iff_not] at hclean
    exact ⟨⟨hr, by simp⟩, hclean.1, (hline fun _ => hclean.2).symm⟩

theorem Trail.keepsClean_of_undeleteAll (h : Trail m xs n) (hm : m.WellFormed J)
    (hn : n.Similar n') (hk : n'.undeleteAll xs.reverse = .ok k) (d : Dimension) :
    KeepsClean d n' k := by
  induction h generalizing n' with
  | nil _ =>
      cases hk
      exact .refl d _
  | concat h hd hn₁ ih =>
      rw [List.reverse_append, List.reverse_singleton, List.singleton_append, undeleteAll,
        bind_eq_ok_iff] at hk
      obtain ⟨k₁, hk₁, hk⟩ := hk
      have hwell := h.wellFormed hm
      have hkeeps := hwell.keepsClean_of_undelete hd (hn₁.trans hn) hk₁ d
      obtain ⟨k₂, hk₂, hsimilar, -⟩ := hwell.exists_undelete_eq_ok hd (hn₁.trans hn)
      cases hk₂.symm.trans hk₁
      exact hkeeps.trans (ih hsimilar.symm hk)

/-- A rollback over a trail leaves nothing clean that it changes. -/
theorem Trail.keepsClean_of_restore {j : Journal} (h : Trail m xs n) (hm : m.WellFormed J)
    (hj : n.journal.rollback = .ok (xs.reverse, j)) (hk : n.restore = .ok k) (d : Dimension) :
    KeepsClean d n k := by
  rw [restore, hj] at hk
  have hsimilar : n.Similar { n with journal := j } := ⟨rfl, rfl, rfl, fun _ => .refl _⟩
  exact (KeepsClean.of_headers_eq hsimilar rfl).trans
    (h.keepsClean_of_undeleteAll hm hsimilar hk d)

theorem Advances.keepsClean_of_restore (h : m.save.Advances n) (hm : m.WellFormed J)
    (hk : n.restore = .ok k) (d : Dimension) : KeepsClean d n k := by
  obtain ⟨xs, hxs, hjournal⟩ := h
  refine (hxs.similar_left (similar_save m).symm).keepsClean_of_restore hm (j := m.journal) ?_ hk d
  rw [hjournal]
  exact Journal.rollback_foldl_record m.journal xs

theorem Grounded.keepsClean_of_restore (h : m.Grounded) (hk : m.restore = .ok k)
    (d : Dimension) : KeepsClean d m k := by
  obtain ⟨m₀, hm₀, htrail⟩ := h.exists_trail
  obtain ⟨⟨xs, j⟩, hrollback, -⟩ := bind_eq_ok_iff.1 hk
  rw [Journal.deletions_of_rollback hrollback] at htrail
  obtain ⟨n, hn, hnm⟩ := htrail.exists_of_append
  refine hnm.keepsClean_of_restore (hn.wellFormed hm₀) (j := j) ?_ hk d
  rw [List.reverse_reverse, hrollback]

/-! ### New elements -/

theorem isDirty_of_linkCell {a behind : PerDimension Nat}
    (h : m.linkCell (Cell.alone m.positions.size a) behind = .ok k) (d : Dimension) (j : Nat) :
    k.isDirty d j = (m.isDirty d j || decide (j = a.get d)) := by
  obtain ⟨positions, rings, headers, costs, journal, marks⟩ := m
  simp only [linkCell, pushCell, Cell.alone, bind_eq_ok_iff] at h
  obtain ⟨row, hrow, column, hcolumn, hk⟩ := h
  cases hk
  cases d with
  | row => exact HeaderRing.isDirty_of_increment hrow j
  | column => exact HeaderRing.isDirty_of_increment hcolumn j

theorem Inserted.line_of_ne {a behind : PerDimension Nat} (h : Inserted a behind m k)
    (hm : Linked J m) (ha : Fits a behind m) (hr : r < (m.headers.get d).size)
    (hne : r ≠ a.get d) : k.line d r = m.line d r := by
  obtain ⟨as, bs, hcut, hbehind⟩ := ha.exists_cut d
  rw [line, line, h.ring_eq hm (ha.lt_size d) hcut hbehind hr, if_neg hne]
  exact List.map_congr_left fun x hx => h.position_of_lt ((hm.mem_ring d r x hr).1 hx).1.2

theorem Linked.keepsClean_of_insertElement (hm : Linked [] m) {row column : Nat} {isNew : Bool}
    (hk : m.insertElement row column = .ok (isNew, k)) (d : Dimension) : KeepsClean d m k := by
  obtain ⟨⟨hrow, hcolumn⟩, hk⟩ := insertElement_eq_ok_iff.1 hk
  split_ifs at hk with hfound
  · obtain ⟨-, rfl⟩ := hk
    exact .refl d k
  · obtain ⟨-, cell, hcell, hk⟩ := hk
    obtain ⟨-, rfl⟩ := element_eq_ok_iff.1 hcell
    have hinserted := inserted_of_linkCell hk
    intro r hr hclean
    rw [isDirty_of_linkCell hk, Bool.or_eq_false_iff, decide_eq_false_iff_not] at hclean
    have hr : r ∈ m.active d := by rwa [active, (hinserted.recounted d).active_eq]
    have hlt := ((hm.isOrdered d).mem_active r).1 hr
    exact ⟨hr, hclean.1, hinserted.line_of_ne hm (hm.fits hrow hcolumn hfound) hlt.1 hclean.2⟩

theorem Linked.keepsClean_of_insertElements (hm : Linked [] m) {before added : Nat}
    (hk : m.insertElements before es = .ok (added, k)) (d : Dimension) : KeepsClean d m k := by
  induction es generalizing m before with
  | nil =>
      cases hk
      exact .refl d _
  | cons e es ih =>
      obtain ⟨row, column⟩ := e
      rw [Matrix.insertElements, bind_eq_ok_iff] at hk
      obtain ⟨⟨isNew, n⟩, hn, hk⟩ := hk
      exact (hm.keepsClean_of_insertElement hn d).trans (ih (hm.insertElement hn).1 hk)

/-- Rows that become active are dirty, and so are columns. -/
theorem Activated.keepsClean {js : List Nat} (h : Activated e js m k)
    (hdirty : ∀ j, j ∉ m.active e → j ∈ js → k.isDirty e j = true)
    (hkept : ∀ j, k.isDirty e j = false → m.isDirty e j = false) (d : Dimension) :
    KeepsClean d m k := by
  intro r hr hclean
  have hline : k.line d r = m.line d r := h.sameCells.line_eq (by rw [h.rings_eq]) r
  rw [h.mem_active] at hr
  rcases e.eq_or_eq_other d with rfl | rfl
  · refine ⟨?_, hkept r hclean, hline⟩
    by_contra hnot
    have hjs := hr.resolve_right hnot
    rw [hdirty r hnot hjs.2] at hclean
    exact nomatch hclean
  · rw [isDirty_eq, h.headers_other] at hclean
    exact ⟨hr.resolve_left fun h => e.other_ne h.1, hclean, hline⟩

theorem Linked.keepsClean_of_activate (hm : Linked J m) (hk : m.activate e i = .ok k)
    (d : Dimension) : KeepsClean d m k := by
  have hactivated := (hm.activate hk).2
  rw [Matrix.activate, bind_eq_ok_iff] at hk
  obtain ⟨h, hget, hk⟩ := hk
  obtain ⟨hi, rfl⟩ := HeaderRing.get_eq_ok_iff.1 hget
  by_cases hdeleted : ((m.headers.get e).header i).deleted
  · rw [if_pos hdeleted, bind_eq_ok_iff] at hk
    obtain ⟨headers, hheaders, hk⟩ := hk
    obtain ⟨l, hl, rfl⟩ := PerDimension.tryModify_eq_ok_iff_exists.1 hheaders
    cases hk
    obtain ⟨-, -, rfl⟩ := HeaderRing.insert_eq_ok_iff.1 hl
    have hdirty := HeaderRing.isDirty_activateAfter (l := m.headers.get e)
      ((hm.isOrdered e).lt_size_headers hi)
    refine hactivated.keepsClean (fun j _ hj => ?_) (fun j hj => ?_) d
    · rw [isDirty_eq, PerDimension.get_modify_self, hdirty, List.mem_singleton.1 hj]
      simp
    · rw [isDirty_eq, PerDimension.get_modify_self, hdirty, Bool.or_eq_false_iff] at hj
      exact hj.1
  · rw [if_neg hdeleted] at hk
    cases hk
    exact .refl d _

theorem Linked.keepsClean_of_activateAll (hm : Linked J m) (hk : m.activateAll e = .ok k)
    (d : Dimension) : KeepsClean d m k := by
  have hactivated := (hm.activateAll hk).2
  rw [Matrix.activateAll, bind_eq_ok_iff] at hk
  obtain ⟨filled, hfilled, hk⟩ := hk
  obtain ⟨headers, hheaders, hk⟩ := bind_eq_ok_iff.1 hk
  obtain ⟨l, hl, rfl⟩ := PerDimension.tryModify_eq_ok_iff_exists.1 hheaders
  cases hk
  have hactive : filled.active = m.pending e :=
    ((HeaderRing.isOrdered_excluded e _).fill hfilled).2
  rw [HeaderRing.merge] at hl
  split_ifs at hl
  have hdirty := HeaderRing.isDirty_of_mergeFrom
    (fun i hi => (hm.isOrdered e).lt_size_headers hi) hl
  rw [hactive] at hdirty
  refine hactivated.keepsClean (fun j _ hj => ?_) (fun j hj => ?_) d
  · rw [isDirty_eq, PerDimension.get_modify_self, hdirty, decide_eq_true hj, Bool.or_true]
  · rw [isDirty_eq, PerDimension.get_modify_self, hdirty, Bool.or_eq_false_iff] at hj
    exact hj.1

theorem WellFormed.keepsClean_of_addElement (hm : m.WellFormed []) {row column : Nat}
    {isNew : Bool} (hk : m.addElement row column = .ok (isNew, k)) (d : Dimension) :
    KeepsClean d m k := by
  simp only [Matrix.addElement, bind_eq_ok_iff] at hk
  obtain ⟨-, -, ⟨isNew', n⟩, hn, hk⟩ := hk
  obtain ⟨hlinked, -, hsame⟩ := hm.toLinked.insertElement hn
  cases isNew' with
  | false =>
      cases hk
      cases hsame rfl
      exact .refl d _
  | true =>
      obtain ⟨n₁, hn₁, hk⟩ := bind_eq_ok_iff.1 hk
      obtain ⟨n₂, hn₂, hk⟩ := bind_eq_ok_iff.1 hk
      cases hk
      have hlinked₁ := (hlinked.activate hn₁).1
      exact ((hm.keepsClean_of_insertElement hn d).trans
        (hlinked.keepsClean_of_activate hn₁ d)).trans (hlinked₁.keepsClean_of_activate hn₂ d)

theorem WellFormed.keepsClean_of_addElements (hm : m.WellFormed []) {added : Nat}
    (hk : m.addElements es = .ok (added, k)) (d : Dimension) : KeepsClean d m k := by
  simp only [Matrix.addElements, bind_eq_ok_iff] at hk
  obtain ⟨-, -, ⟨added', n⟩, hn, n₁, hn₁, n₂, hn₂, hk⟩ := hk
  cases hk
  have hlinked := (hm.toLinked.insertElements hn).1
  have hlinked₁ := (hlinked.activateAll hn₁).1
  exact ((hm.keepsClean_of_insertElements hn d).trans
    (hlinked.keepsClean_of_activateAll hn₁ d)).trans (hlinked₁.keepsClean_of_activateAll hn₂ d)

end Matrix

end SetCover
