import SetCover.Proofs.Matrix.Dirty
import SetCover.Proofs.Matrix.Looks
import SetCover.Proofs.Reduction.Phases

/-!
# Compared rows

Rows are compared only if one of them is dirty.  This loses nothing as long as the matrix is
`IsCompared`: no clean row has all columns of another clean row.  Every operation that keeps what is
clean keeps this, and after the rows were thinned, no active row has all columns of another one.
-/

namespace SetCover

/-- The pass over two ascending lists finds a containment. -/
theorem ascendingSubset_of_subset {as bs : List Nat} (has : as.Pairwise (· < ·))
    (hbs : bs.Pairwise (· < ·)) (h : as ⊆ bs) : ascendingSubset as bs = true := by
  fun_induction ascendingSubset as bs with
  | case1 => rfl
  | case2 a as => exact absurd (h List.mem_cons_self) List.not_mem_nil
  | case3 a as b bs hlt ih =>
      refine ih has (List.pairwise_cons.1 hbs).2 fun x hx => ?_
      refine (List.mem_cons.1 (h hx)).resolve_left ?_
      rintro rfl
      rcases List.mem_cons.1 hx with rfl | hx
      · exact Nat.lt_irrefl _ hlt
      · exact Nat.lt_asymm hlt ((List.pairwise_cons.1 has).1 _ hx)
  | case4 as b bs _ ih =>
      refine ih (List.pairwise_cons.1 has).2 (List.pairwise_cons.1 hbs).2 fun x hx => ?_
      have hlt := (List.pairwise_cons.1 has).1 x hx
      exact (List.mem_cons.1 (h (List.mem_cons_of_mem b hx))).resolve_left (Nat.ne_of_gt hlt)
  | case5 a as b bs hge hne =>
      have hmem := (List.mem_cons.1 (h List.mem_cons_self)).resolve_left (Ne.symm hne)
      exact absurd ((List.pairwise_cons.1 hbs).1 a hmem) hge

/-- The first of the least depends on the values of the members alone. -/
theorem minOn?_congr {f g : Nat → Nat} {xs : List Nat} (h : ∀ x ∈ xs, f x = g x) :
    xs.minOn? f = xs.minOn? g := by
  induction xs with
  | nil => rfl
  | cons x xs ih =>
      rw [List.minOn?_cons, List.minOn?_cons, ih fun y hy => h y (List.mem_cons_of_mem x hy)]
      cases hmin : xs.minOn? g with
      | none => rfl
      | some y =>
          have hy := h y (List.mem_cons_of_mem x (List.minOn?_mem hmin))
          simp only [Option.elim_some, minOn, h x List.mem_cons_self, hy]

namespace Matrix

variable {m n k : Matrix} {J : List Deletion} {is : List Nat} {d : Dimension} {i j r s : Nat}

/-- No active row has all columns of another one, unless one of them is dirty. -/
def IsCompared (m : Matrix) : Prop :=
  ∀ r ∈ m.active .row, ∀ s ∈ m.active .row, s ≠ r → m.line .row r ≠ [] →
    m.isDirty .row r = false → m.isDirty .row s = false → ¬m.line .row r ⊆ m.line .row s

theorem IsCompared.of_keepsClean (h : m.IsCompared) (hk : KeepsClean .row m k) :
    k.IsCompared := by
  intro r hr s hs hne hline hr' hs'
  obtain ⟨hmr, hcr, hlr⟩ := hk r hr hr'
  obtain ⟨hms, hcs, hls⟩ := hk s hs hs'
  rw [hlr] at hline
  rw [hlr, hls]
  exact h r hmr s hms hne hline hcr hcs

/-- No active row has all columns of another one. -/
def IsThin (m : Matrix) : Prop :=
  ∀ r ∈ m.active .row, ∀ s ∈ m.active .row, s ≠ r → m.line .row r ≠ [] →
    ¬m.line .row r ⊆ m.line .row s

theorem IsThin.isCompared (h : m.IsThin) : m.IsCompared := fun r hr s hs hne hline _ _ =>
  h r hr s hs hne hline

theorem IsThin.of_similar (h : m.IsThin) (hk : m.Similar k) : k.IsThin := by
  rw [IsThin, ← hk.active_eq, ← hk.line_eq]
  exact h

/-! ### The rows that are found -/

/-- The rows that have all columns of row `r`, whether they have been compared or not. -/
def containingRows (m : Matrix) (r : Nat) : List Nat :=
  match (m.line .row r).minOn? (m.count .column) with
  | none => []
  | some pivot =>
    (m.line .column pivot).filter fun s =>
      s != r && !m.isMarked .row s && m.count .row r ≤ m.count .row s && m.isSubline .row r s

namespace LooksLike

theorem minOn?_line_eq (h : m.LooksLike n) (hi : m.Seen d i) :
    (m.line d i).minOn? (m.count d.other) = (n.line d i).minOn? (n.count d.other) := by
  rw [← h.line_eq d i hi]
  exact minOn?_congr fun j hj => h.count_eq d.other j (.line hi hj)

theorem isSubline_eq (h : m.LooksLike n) (hi : m.Seen d i) (hj : m.Seen d j) :
    m.isSubline d i j = n.isSubline d i j := by
  rw [isSubline, isSubline, h.line_eq d i hi, h.line_eq d j hj]

end LooksLike

theorem containingRows_congr (h : m.LooksLike n) (hmarks : n.marks = m.marks)
    (hr : r ∈ m.active .row) : n.containingRows r = m.containingRows r := by
  have hr : m.Seen .row r := .active hr
  have hpivot := h.minOn?_line_eq hr
  dsimp only [Dimension.other] at hpivot
  rw [containingRows, containingRows, ← hpivot]
  split
  · rfl
  · rename_i pivot hmin
    have hseen : m.Seen .column pivot := .line hr (List.minOn?_mem hmin)
    rw [← h.line_eq .column pivot hseen]
    refine List.filter_congr fun s hs => ?_
    have hs : m.Seen .row s := .line hseen hs
    rw [isMarked, isMarked, hmarks, ← h.isSubline_eq hr hs, ← h.count_eq .row r hr,
      ← h.count_eq .row s hs]

/-- To pass over pairs of clean rows loses nothing. -/
theorem dominatedRows_eq_containingRows (hm : m.WellFormed J) (hc : m.IsCompared)
    (hr : r ∈ m.active .row) : m.dominatedRows r = m.containingRows r := by
  rw [dominatedRows, containingRows]
  cases hpivot : (m.line .row r).minOn? (m.count .column) with
  | none => rfl
  | some pivot =>
      have hmem := List.minOn?_mem hpivot
      refine List.filter_congr fun s hs => ?_
      have hactive := hm.mem_active_of_mem_line (hm.mem_active_of_mem_line hr hmem) hs
      have hdirty : s ≠ r → m.isSubline .row r s →
          (m.isDirty .row r || m.isDirty .row s) = true := by
        intro hne hsub
        by_contra hclean
        rw [Bool.not_eq_true, Bool.or_eq_false_iff] at hclean
        exact hc r hr s hactive hne (List.ne_nil_of_mem hmem) hclean.1 hclean.2
          fun c => mem_of_isSubline hsub
      by_cases hne : s = r
      · simp [hne]
      · cases hsub : m.isSubline .row r s with
        | false => simp
        | true => rw [hdirty hne hsub, Bool.and_true]

/-- The pass over two lines finds out whether one is contained in the other. -/
theorem Linked.isSubline_iff (hm : Linked J m) (hi : i < (m.headers.get d).size)
    (hj : j < (m.headers.get d).size) :
    m.isSubline d i j = true ↔ m.line d i ⊆ m.line d j := by
  constructor
  · intro h x hx
    exact mem_of_isSubline h hx
  · exact ascendingSubset_of_subset (hm.ascending d i hi) (hm.ascending d j hj)

theorem Linked.count_le_of_subset (hm : Linked J m) (hi : i < (m.headers.get d).size)
    (hj : j < (m.headers.get d).size) (hsub : m.line d i ⊆ m.line d j) :
    m.count d i ≤ m.count d j := by
  rw [hm.count_eq_length hi, hm.count_eq_length hj]
  exact (List.subperm_of_subset (hm.nodup_line hi) hsub).length_le

/-- Every row that has all columns of `r` is found, since it has the column where they are
sought. -/
theorem mem_containingRows (hm : m.WellFormed J) (hr : r ∈ m.active .row)
    (hs : s ∈ m.active .row) (hne : s ≠ r) (hmarked : m.isMarked .row s = false)
    (hline : m.line .row r ≠ []) (hsub : m.line .row r ⊆ m.line .row s) :
    s ∈ m.containingRows r := by
  have hlt := hm.lt_size_of_mem_active hr
  have hlt' := hm.lt_size_of_mem_active hs
  obtain ⟨pivot, hpivot⟩ := Option.isSome_iff_exists.1
    (List.isSome_minOn?_iff (f := m.count .column).2 hline)
  have hcount := hm.count_le_of_subset hlt hlt' hsub
  have hfound := (hm.isSubline_iff hlt hlt').2 hsub
  rw [containingRows, hpivot, List.mem_filter]
  refine ⟨hm.mem_line_other hs (hsub (List.minOn?_mem hpivot)), ?_⟩
  simp [hne, hmarked, hcount, hfound]

/-! ### Thinning the rows -/

/-- What is marked is deleted. -/
def MarksDeleted (d : Dimension) (m : Matrix) : Prop := ∀ i, m.isMarked d i → i ∉ m.active d

/-- Only rows were deleted, and marks were set for deleted rows only. -/
structure Narrows (m k : Matrix) : Prop where
  advances : m.Advances k
  line_eq : k.line .row = m.line .row
  isDirty_eq : k.isDirty .row = m.isDirty .row
  marksDeleted : m.MarksDeleted .row → k.MarksDeleted .row

namespace Narrows

theorem refl (m : Matrix) : Narrows m m := ⟨.refl m, rfl, rfl, id⟩

theorem trans (h : Narrows m n) (h' : Narrows n k) : Narrows m k :=
  ⟨h.advances.trans h'.advances, h'.line_eq.trans h.line_eq, h'.isDirty_eq.trans h.isDirty_eq,
    fun hm => h'.marksDeleted (h.marksDeleted hm)⟩

theorem keepsClean (h : Narrows m k) (hm : m.IsValid) : KeepsClean .row m k := by
  intro r hr hclean
  rw [h.isDirty_eq] at hclean
  exact ⟨h.advances.active_subset hm _ hr, hclean, by rw [h.line_eq]⟩

end Narrows

theorem isMarked_of_mark (h : (m.mark d i).isMarked d j) : j = i ∨ m.isMarked d j := by
  rw [isMarked, mark, PerDimension.get_modify_self, Marks.contains_insert, Bool.or_eq_true,
    decide_eq_true_eq] at h
  exact h.imp_left And.left

/-- A row or column that is marked when it is deleted. -/
theorem marksDeleted_of_delete (hm : m.IsValid) (hk : (m.mark d i).delete d i = .ok k) :
    (m.MarksDeleted d → k.MarksDeleted d) ∧ i ∉ k.active d := by
  have hmark := similar_mark m d i
  have hvalid : (m.mark d i).IsValid := hmark.wellFormed hm
  have hactive : ∀ j, j ∈ k.active d ↔ j ∈ m.active d ∧ j ≠ i := by
    intro j
    rw [(Trail.of_delete hk).mem_active_iff hvalid, ← hmark.active_eq]
    simp
  refine ⟨fun hmarks j hj hmem => ?_, fun hi => ((hactive i).1 hi).2 rfl⟩
  rw [isMarked, (deleted_of_delete hk).marks_eq] at hj
  obtain ⟨hmem, hne⟩ := (hactive j).1 hmem
  exact hmarks j ((isMarked_of_mark hj).resolve_left hne) hmem

theorem narrows_of_delete (hm : m.IsValid) (hk : (m.mark .row s).delete .row s = .ok k) :
    Narrows m k ∧ s ∉ k.active .row := by
  have hmark := similar_mark m .row s
  have hdeleted := deleted_of_delete hk
  obtain ⟨hmarks, hs⟩ := marksDeleted_of_delete hm hk
  refine ⟨⟨?_, ?_, ?_, hmarks⟩, hs⟩
  · exact ((deletes_of_delete hk).similar_left hmark.symm rfl).advances
  · funext j
    rw [hdeleted.line_self, hmark.line_eq]
  · funext j
    exact (isDirty_of_delete hk j).1

theorem narrows_of_dropRowsFor (hm : m.IsValid) (hk : (m.dropRowsFor r is).result = .ok k) :
    Narrows m k ∧ ∀ s ∈ is, s ∉ k.active .row := by
  induction is generalizing m with
  | nil =>
      cases hk
      exact ⟨.refl _, by simp⟩
  | cons s is ih =>
      simp only [dropRowsFor, Traced.result_bind, Traced.result_liftM, bind_eq_ok_iff] at hk
      obtain ⟨-, -, n, hn, hk⟩ := hk
      obtain ⟨hfirst, hs⟩ := narrows_of_delete hm hn
      have hvalid := hfirst.advances.isValid hm
      obtain ⟨hrest, hnot⟩ := ih hvalid hk
      refine ⟨hfirst.trans hrest, fun j hj => ?_⟩
      rcases List.mem_cons.1 hj with rfl | hj
      · exact fun hmem => hs (hrest.advances.active_subset hvalid _ hmem)
      · exact hnot j hj

/-- What holds while the rows `is` are still to be gone over. -/
structure Thinning (m : Matrix) (is : List Nat) : Prop where
  isValid : m.IsValid
  isCompared : m.IsCompared
  isOver : (m.marks.get .row).Over (m.headers.get .row).size
  mem_active_or : ∀ r ∈ is, r ∈ m.active .row ∨ m.isMarked .row r

namespace Thinning

theorem tail (h : Thinning m (r :: is)) : Thinning m is :=
  ⟨h.isValid, h.isCompared, h.isOver, fun s hs => h.mem_active_or s (List.mem_cons_of_mem r hs)⟩

theorem mem_active (h : Thinning m (r :: is)) (hr : ¬m.isMarked .row r) : r ∈ m.active .row :=
  (h.mem_active_or r List.mem_cons_self).resolve_right hr

/-- When it was the turn of a row, the others are still to be gone over. -/
theorem next (h : Thinning m (r :: is)) (hr : ¬m.isMarked .row r)
    (hn : (m.dropRowsFor r (m.dominatedRows r)).result = .ok n) : Thinning n is := by
  have hnarrows := (narrows_of_dropRowsFor h.isValid hn).1
  have hthins := thins_of_dropRowsFor h.isValid h.isOver (h.mem_active hr)
    (fun s hs => of_mem_dominatedRows hs) hn
  refine ⟨hnarrows.advances.isValid h.isValid,
    h.isCompared.of_keepsClean (hnarrows.keepsClean h.isValid), ?_,
    fun s hs => hthins.keepsAccount s (h.tail.mem_active_or s hs)⟩
  rw [hnarrows.advances.sameCells.size_eq]
  exact hthins.remarked.isOver h.isOver

end Thinning

/-- Of the rows that are gone over, none that is left is contained in another row that is left. -/
theorem narrows_of_thinRows {changed b : Bool} (hm : Thinning m is) (hmarks : m.MarksDeleted .row)
    (hk : (m.thinRows changed is).result = .ok (b, k)) :
    Narrows m k ∧ ∀ r ∈ is, r ∈ k.active .row → ∀ s ∈ k.active .row, s ≠ r →
      k.line .row r ≠ [] → ¬k.line .row r ⊆ k.line .row s := by
  induction is generalizing m changed with
  | nil =>
      cases hk
      exact ⟨.refl _, by simp⟩
  | cons r is ih =>
      rw [thinRows] at hk
      by_cases hmarked : m.isMarked .row r
      · rw [if_pos hmarked] at hk
        obtain ⟨hnarrows, hthin⟩ := ih hm.tail hmarks hk
        refine ⟨hnarrows, fun r' hr' hactive => ?_⟩
        rcases List.mem_cons.1 hr' with rfl | hr'
        · exact absurd (hnarrows.advances.active_subset hm.isValid _ hactive) (hmarks _ hmarked)
        · exact hthin r' hr' hactive
      · rw [if_neg hmarked] at hk
        simp only [Traced.result_bind, bind_eq_ok_iff] at hk
        obtain ⟨n, hn, hk⟩ := hk
        obtain ⟨hfirst, hdropped⟩ := narrows_of_dropRowsFor hm.isValid hn
        have hnext := hm.next hmarked hn
        obtain ⟨hrest, hthin⟩ := ih hnext (hfirst.marksDeleted hmarks) hk
        refine ⟨hfirst.trans hrest, fun r' hr' hactive s hs hne hline hsub => ?_⟩
        rcases List.mem_cons.1 hr' with rfl | hr'
        · -- what contains the row was found and deleted when it was its turn
          have hadvances := hfirst.advances.trans hrest.advances
          rw [(hfirst.trans hrest).line_eq] at hline hsub
          have hr := hm.mem_active hmarked
          have hs' := hadvances.active_subset hm.isValid _ hs
          have hunmarked : m.isMarked .row s = false :=
            Bool.eq_false_iff.2 fun h => hmarks s h hs'
          refine hdropped s ?_ (hrest.advances.active_subset hnext.isValid _ hs)
          rw [dominatedRows_eq_containingRows hm.isValid hm.isCompared hr]
          exact mem_containingRows hm.isValid hr hs' hne hunmarked hline hsub
        · exact hthin r' hr' hactive s hs hne hline hsub

theorem not_isMarked_of_unmarked (hm : m.Unmarked) (d : Dimension) (i : Nat) :
    m.isMarked d i = false := by
  rw [isMarked, hm d]
  apply Bool.eq_false_iff.2
  intro hmarked
  exact absurd ((Marks.over_unset _).mem_marked i hmarked) List.not_mem_nil

theorem marksDeleted_of_unmarked (hm : m.Unmarked) (d : Dimension) : m.MarksDeleted d :=
  fun i hi => absurd hi (Bool.eq_false_iff.1 (not_isMarked_of_unmarked hm d i))

theorem IsReady.thinning (hm : m.IsReady) (hc : m.IsCompared) :
    Thinning m (m.active .row) :=
  ⟨hm.isValid, hc, hm.unmarked .row ▸ Marks.over_unset _, fun _ => Or.inl⟩

/-- When the rows were thinned, no active row has all columns of another one. -/
theorem IsReady.isThin_of_dropDominatedRows {b : Bool} (hm : m.IsReady) (hc : m.IsCompared)
    (hk : m.dropDominatedRows.result = .ok (b, k)) : k.IsThin := by
  simp only [dropDominatedRows, Traced.result_bind, Traced.result_liftM, bind_eq_ok_iff] at hk
  obtain ⟨⟨b', n⟩, hn, n', hn', hk⟩ := hk
  cases hk
  obtain ⟨hnarrows, hthin⟩ :=
    narrows_of_thinRows (hm.thinning hc) (marksDeleted_of_unmarked hm.unmarked .row) hn
  have hsimilar := (similar_clearMarks n .row).trans (similar_of_cleanAll hn').1
  refine IsThin.of_similar (fun r hr => ?_) hsimilar
  exact hthin r (hnarrows.advances.active_subset hm.isValid _ hr) hr

/-- After its rows were thinned, a matrix is compared, whatever is recorded as clean. -/
theorem IsReady.isCompared_of_dropDominatedRows {b : Bool} (hm : m.IsReady) (hc : m.IsCompared)
    (hk : m.dropDominatedRows.result = .ok (b, k)) : k.IsCompared :=
  (hm.isThin_of_dropDominatedRows hc hk).isCompared

end Matrix

end SetCover
