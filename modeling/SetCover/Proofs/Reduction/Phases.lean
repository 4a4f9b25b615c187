import SetCover.Proofs.Marks
import SetCover.Proofs.Reduction.Steps

/-!
# The phases of a reduction

Each phase, and so each reduction, is a run of steps and leaves no mark behind.  A phase looks at
rows or columns that were active when it began.  What it has deleted since is marked, or cannot be
deleted again, and the lines that it compares have only lost what was deleted.
-/

namespace SetCover

theorem mem_of_ascendingSubset {as bs : List Nat} (h : ascendingSubset as bs) {x : Nat}
    (hx : x ∈ as) : x ∈ bs := by
  fun_induction ascendingSubset as bs with
  | case1 => exact absurd hx List.not_mem_nil
  | case2 => exact nomatch h
  | case3 a as b bs _ ih => exact List.mem_cons_of_mem b (ih h hx)
  | case4 as b bs _ ih =>
      rcases List.mem_cons.1 hx with rfl | hx
      · exact List.mem_cons_self
      · exact List.mem_cons_of_mem b (ih h hx)
  | case5 => exact nomatch h

namespace Matrix

variable {m n k : Matrix} {may : Comparator} {d : Dimension} {i c r s : Nat} {is : List Nat}

theorem mem_of_isSubline {j x : Nat} (h : m.isSubline d i j) (hx : x ∈ m.line d i) :
    x ∈ m.line d j :=
  mem_of_ascendingSubset h hx

/-! ### Flags -/

theorem similar_mark (m : Matrix) (d : Dimension) (i : Nat) : m.Similar (m.mark d i) :=
  ⟨rfl, rfl, rfl, fun _ => .refl _⟩

theorem similar_clearMarks (m : Matrix) (d : Dimension) : m.Similar (m.clearMarks d) :=
  ⟨rfl, rfl, rfl, fun _ => .refl _⟩

theorem similar_modify {l : HeaderRing} (hl : (m.headers.get d).Similar l) :
    m.Similar { m with headers := m.headers.modify d fun _ => l } := by
  refine ⟨rfl, rfl, rfl, fun e => ?_⟩
  rcases d.eq_or_eq_other e with rfl | rfl
  · rwa [PerDimension.get_modify_self]
  · rw [PerDimension.get_modify_other]
    exact .refl _

theorem similar_of_cleanAll (h : m.cleanAll d is = .ok k) :
    m.Similar k ∧ k.journal = m.journal ∧ k.marks = m.marks := by
  induction is generalizing m with
  | nil =>
      cases h
      exact ⟨.refl _, rfl, rfl⟩
  | cons i is ih =>
      rw [cleanAll, bind_eq_ok_iff] at h
      obtain ⟨headers, hheaders, h⟩ := h
      obtain ⟨l, hl, rfl⟩ := PerDimension.tryModify_eq_ok_iff_exists.1 hheaders
      obtain ⟨hsimilar, hjournal, hmarks⟩ := ih h
      exact ⟨(similar_modify (HeaderRing.similar_of_clean hl)).trans hsimilar, hjournal, hmarks⟩

/-- Marks of one dimension were set, and none of the other. -/
structure Remarked (d : Dimension) (m k : Matrix) : Prop where
  isOver : (m.marks.get d).Over (m.headers.get d).size → (k.marks.get d).Over (m.headers.get d).size
  other_eq : k.marks.get d.other = m.marks.get d.other

namespace Remarked

theorem of_marks_eq (h : k.marks = m.marks) : Remarked d m k :=
  ⟨fun hover => h ▸ hover, by rw [h]⟩

theorem trans (h : Remarked d m n) (h' : Remarked d n k)
    (hsize : (n.headers.get d).size = (m.headers.get d).size) : Remarked d m k :=
  ⟨fun hover => hsize ▸ h'.isOver (hsize.symm ▸ h.isOver hover), h'.other_eq.trans h.other_eq⟩

/-- After a phase that began without marks, clearing leaves none. -/
theorem marks_clearMarks (h : Remarked d m k) (hm : m.Unmarked) :
    (k.clearMarks d).marks = m.marks := by
  have hover := h.isOver (hm d ▸ Marks.over_unset _)
  apply PerDimension.ext_get
  intro e
  rcases d.eq_or_eq_other e with rfl | rfl
  · rw [clearMarks, PerDimension.get_modify_self, hover.clear, hm]
  · rw [clearMarks, PerDimension.get_modify_other, h.other_eq]

end Remarked

theorem remarked_mark (m : Matrix) (d : Dimension) (i : Nat) : Remarked d m (m.mark d i) := by
  refine ⟨fun hover => ?_, PerDimension.get_modify_other _ _ _⟩
  rw [mark, PerDimension.get_modify_self]
  exact hover.insert i

theorem isMarked_mark {j : Nat} (hover : (m.marks.get d).Over (m.headers.get d).size) :
    (m.mark d i).isMarked d j =
      (decide (j = i ∧ j < (m.headers.get d).size) || m.isMarked d j) := by
  rw [isMarked, mark, PerDimension.get_modify_self, Marks.contains_insert, hover.size_eq, isMarked]

/-! ### Dominated rows -/

theorem of_mem_dominatedRows (h : s ∈ m.dominatedRows r) :
    s ≠ r ∧ m.line .row r ≠ [] ∧ ∀ c ∈ m.line .row r, c ∈ m.line .row s := by
  rw [dominatedRows] at h
  split at h
  · exact absurd h List.not_mem_nil
  · rename_i hpivot
    simp only [List.mem_filter, Bool.and_eq_true, bne_iff_ne] at h
    exact ⟨h.2.1.1.1.1, List.ne_nil_of_mem (List.minOn?_mem hpivot),
      fun c hc => mem_of_isSubline h.2.2 hc⟩

/-- Every row that is active or marked in `m` is active or marked in `k`. -/
def KeepsAccount (m k : Matrix) : Prop :=
  ∀ j, j ∈ m.active .row ∨ m.isMarked .row j → j ∈ k.active .row ∨ k.isMarked .row j

/-- Marking and deleting a row keeps account of it. -/
theorem keepsAccount_of_delete (hm : m.IsValid)
    (hover : (m.marks.get .row).Over (m.headers.get .row).size)
    (hk : (m.mark .row s).delete .row s = .ok k) : KeepsAccount m k := by
  have hdeleted := deleted_of_delete hk
  have hvalid : (m.mark .row s).IsValid := (similar_mark m .row s).wellFormed hm
  have hs : s < (m.headers.get .row).size :=
    hvalid.lt_size_of_mem_active (hvalid.mem_active_of_deleted hdeleted)
  have hmarked : ∀ j, k.isMarked .row j = (m.mark .row s).isMarked .row j := fun j => by
    rw [isMarked, hdeleted.marks_eq, isMarked]
  intro j hj
  rw [hmarked, isMarked_mark hover, Bool.or_eq_true, decide_eq_true_eq]
  by_cases hjs : j = s
  · exact Or.inr (Or.inl ⟨hjs, hjs ▸ hs⟩)
  · rcases hj with hj | hj
    · refine Or.inl (((Trail.of_delete hk).mem_active_iff hvalid).2 ⟨?_, by simpa using hjs⟩)
      rwa [← (similar_mark m .row s).active_eq]
    · exact Or.inr (Or.inr hj)

/-- What a part of the phase that thins the rows does. -/
structure Thins (m k : Matrix) : Prop where
  reduces : ∀ may, Reduces may m [] k
  remarked : Remarked .row m k
  keepsAccount : KeepsAccount m k

theorem Thins.refl (m : Matrix) : Thins m m := ⟨fun _ => .refl, .of_marks_eq rfl, fun _ => id⟩

theorem Thins.trans (h : Thins m n) (h' : Thins n k) : Thins m k :=
  ⟨fun may => (h.reduces may).trans (h'.reduces may),
    h.remarked.trans h'.remarked ((h.reduces fun _ _ _ => true).advances.sameCells.size_eq _),
    fun j hj => h'.keepsAccount j (h.keepsAccount j hj)⟩

theorem thins_of_dropRowsFor (hm : m.IsValid)
    (hover : (m.marks.get .row).Over (m.headers.get .row).size) (hr : r ∈ m.active .row)
    (hss : ∀ s ∈ is, s ≠ r ∧ m.line .row r ≠ [] ∧ ∀ c ∈ m.line .row r, c ∈ m.line .row s)
    (hk : (m.dropRowsFor r is).result = .ok k) : Thins m k := by
  induction is generalizing m with
  | nil =>
      cases hk
      exact .refl _
  | cons s is ih =>
      simp only [dropRowsFor, Traced.result_bind, Traced.result_liftM, bind_eq_ok_iff] at hk
      obtain ⟨-, -, n, hn, hk⟩ := hk
      have hdeleted := deleted_of_delete hn
      have hmark := similar_mark m .row s
      have hvalid : (m.mark .row s).IsValid := hmark.wellFormed hm
      have hs := hvalid.mem_active_of_deleted hdeleted
      rw [← hmark.active_eq] at hs
      obtain ⟨hne, hline, hsub⟩ := hss s (by simp)
      have hstep : Thins m n := by
        refine ⟨fun may => (Step.dropRow hr hs hne hline hsub ?_).reduces,
          (remarked_mark m .row s).trans (.of_marks_eq hdeleted.marks_eq) rfl,
          keepsAccount_of_delete hm hover hn⟩
        exact (deletes_of_delete hn).similar_left hmark.symm rfl
      have hadvances := (hstep.reduces fun _ _ _ => true).advances
      have hlines : ∀ j, n.line .row j = m.line .row j := by
        intro j
        rw [hdeleted.line_self, hmark.line_eq]
      refine hstep.trans (ih (hadvances.isValid hm) ?_ ?_ ?_ hk)
      · rw [hadvances.sameCells.size_eq]
        exact hstep.remarked.isOver hover
      · rw [(Trail.of_delete hn).mem_active_iff hvalid, ← hmark.active_eq]
        exact ⟨hr, by simpa using hne.symm⟩
      · simp only [hlines]
        exact fun s' hs' => hss s' (List.mem_cons_of_mem s hs')

theorem thins_of_thinRows {changed b : Bool} (hm : m.IsValid)
    (hover : (m.marks.get .row).Over (m.headers.get .row).size)
    (hrs : ∀ r ∈ is, r ∈ m.active .row ∨ m.isMarked .row r)
    (hk : (m.thinRows changed is).result = .ok (b, k)) : Thins m k := by
  induction is generalizing m changed with
  | nil =>
      cases hk
      exact .refl _
  | cons r is ih =>
      rw [thinRows] at hk
      by_cases hmarked : m.isMarked .row r
      · rw [if_pos hmarked] at hk
        exact ih hm hover (fun r' hr' => hrs r' (List.mem_cons_of_mem r hr')) hk
      · rw [if_neg hmarked] at hk
        simp only [Traced.result_bind, bind_eq_ok_iff] at hk
        obtain ⟨n, hn, hk⟩ := hk
        have hr := (hrs r (by simp)).resolve_right hmarked
        have hstep := thins_of_dropRowsFor hm hover hr (fun s hs => of_mem_dominatedRows hs) hn
        have hadvances := (hstep.reduces fun _ _ _ => true).advances
        refine hstep.trans (ih (hadvances.isValid hm) ?_ ?_ hk)
        · rw [hadvances.sameCells.size_eq]
          exact hstep.remarked.isOver hover
        · exact fun r' hr' => hstep.keepsAccount r' (hrs r' (List.mem_cons_of_mem r hr'))

/-- Dropping dominated rows is a run of steps that leaves no mark. -/
theorem reduces_of_dropDominatedRows {b : Bool} (hm : m.IsReady)
    (hk : m.dropDominatedRows.result = .ok (b, k)) (may : Comparator) :
    Reduces may m [] k ∧ k.marks = m.marks := by
  simp only [dropDominatedRows, Traced.result_bind, Traced.result_liftM, bind_eq_ok_iff] at hk
  obtain ⟨⟨b', n⟩, hn, n', hn', hk⟩ := hk
  cases hk
  have hthins := thins_of_thinRows hm.isValid (hm.unmarked .row ▸ Marks.over_unset _)
    (fun r hr => Or.inl hr) hn
  obtain ⟨hsimilar, hjournal, hmarks⟩ := similar_of_cleanAll hn'
  have htouch := (similar_clearMarks n .row).trans hsimilar
  refine ⟨(hthins.reduces may).concat (.touch htouch hjournal), ?_⟩
  rw [hmarks, hthins.remarked.marks_clearMarks hm.unmarked]

/-! ### Dominated columns -/

theorem of_dominatingColumn?_isSome (hm : m.IsValid) (hc : c ∈ m.active .column)
    (h : (m.dominatingColumn? may c).isSome) : ∃ b ∈ m.active .column, b ≠ c ∧
      (∀ r ∈ m.line .column c, r ∈ m.line .column b) ∧ may m c b := by
  obtain ⟨b, hb⟩ := Option.isSome_iff_exists.1 h
  rw [dominatingColumn?] at hb
  split at hb
  · exact nomatch hb
  · rename_i pivot hpivot
    have hmem := List.mem_of_find?_eq_some hb
    have hsome := List.find?_some hb
    simp only [Bool.and_eq_true, bne_iff_ne] at hsome
    have hactive := hm.mem_active_of_mem_line hc (List.minOn?_mem hpivot)
    exact ⟨b, hm.mem_active_of_mem_line hactive hmem, hsome.1.1.1.1,
      fun r hr => mem_of_isSubline hsome.2 hr, hsome.1.2⟩

end Matrix

namespace Reduction

open SetCover.Matrix

variable {x y z : Reduction} {may : Comparator} {c : Nat} {cs : List Nat}

/-- A run of steps leads from `x` to `y`, which selects what the steps select. -/
def Reduces (may : Comparator) (x y : Reduction) : Prop :=
  ∃ N, y.selected = x.selected ++ N ∧ Matrix.Reduces may x.matrix N y.matrix

theorem Reduces.refl (may : Comparator) (x : Reduction) : Reduces may x x :=
  ⟨[], (List.append_nil _).symm, .refl⟩

theorem Reduces.trans (h : Reduces may x y) (h' : Reduces may y z) : Reduces may x z := by
  obtain ⟨N, hN, hrun⟩ := h
  obtain ⟨N', hN', hrun'⟩ := h'
  exact ⟨N ++ N', by rw [hN', hN, List.append_assoc], hrun.trans hrun'⟩

theorem Reduces.advances (h : Reduces may x y) : x.matrix.Advances y.matrix := by
  obtain ⟨N, -, hrun⟩ := h
  exact hrun.advances

/-- What a part of a phase that deletes columns does. -/
structure Passes (may : Comparator) (x y : Reduction) : Prop where
  reduces : Reduces may x y
  remarked : Remarked .column x.matrix y.matrix

theorem Passes.refl (may : Comparator) (x : Reduction) : Passes may x x :=
  ⟨.refl may x, .of_marks_eq rfl⟩

theorem Passes.trans (h : Passes may x y) (h' : Passes may y z) : Passes may x z :=
  ⟨h.reduces.trans h'.reduces,
    h.remarked.trans h'.remarked (h.reduces.advances.sameCells.size_eq _)⟩

/-- A phase that began without marks clears all that it set. -/
theorem Passes.clearMarks (h : Passes may x y) (hu : x.matrix.Unmarked) :
    Reduces may x (y.clearMarks .column) ∧
      (y.clearMarks .column).matrix.marks = x.matrix.marks := by
  refine ⟨h.reduces.trans ⟨[], (List.append_nil _).symm, ?_⟩, h.remarked.marks_clearMarks hu⟩
  exact (Step.touch (similar_clearMarks y.matrix .column) rfl).reduces

theorem drop_eq_ok_iff : x.drop c = .ok y ↔
    ∃ k, x.matrix.delete .column c = .ok k ∧ y = ⟨k, x.selected, x.dropped ++ [c]⟩ := by
  obtain ⟨m, selected, dropped⟩ := x
  simp only [drop, bind_eq_ok_iff]
  constructor
  · rintro ⟨k, hk, hy⟩
    cases hy
    exact ⟨k, hk, rfl⟩
  · rintro ⟨k, hk, rfl⟩
    exact ⟨k, hk, rfl⟩

theorem select_eq_ok_iff : (x.select c).result = .ok y ↔
    ∃ k, (x.matrix.select c).result = .ok k ∧ y = ⟨k, x.selected ++ [c], x.dropped⟩ := by
  obtain ⟨m, selected, dropped⟩ := x
  simp only [select, Traced.result_bind, bind_eq_ok_iff]
  constructor
  · rintro ⟨k, hk, hy⟩
    cases hy
    exact ⟨k, hk, rfl⟩
  · rintro ⟨k, hk, rfl⟩
    exact ⟨k, hk, rfl⟩

/-- A column that is marked and then selected. -/
theorem of_mark_select (h : ((x.mark .column c).select c).result = .ok z) :
    Deletes (x.matrix.selection c) x.matrix z.matrix ∧
      z.matrix.marks = (x.matrix.mark .column c).marks ∧ z.selected = x.selected ++ [c] ∧
      z.dropped = x.dropped := by
  obtain ⟨k, hk, rfl⟩ := select_eq_ok_iff.1 h
  have hmark := similar_mark x.matrix .column c
  obtain ⟨hdeletes, hmarks, -⟩ := deletes_of_select hk
  have hselection : (x.matrix.mark .column c).selection c = x.matrix.selection c := by
    rw [selection, selection, hmark.line_eq]
  exact ⟨hselection ▸ hdeletes.similar_left hmark.symm rfl, hmarks, rfl, rfl⟩

theorem passes_of_dropAll (hcs : ∀ c ∈ cs, x.matrix.line .column c = [])
    (hy : x.dropAll cs = .ok y) : Passes may x y := by
  induction cs generalizing x with
  | nil =>
      cases hy
      exact .refl _ _
  | cons c cs ih =>
      rw [dropAll, bind_eq_ok_iff] at hy
      obtain ⟨x', hx', hy⟩ := hy
      obtain ⟨k, hk, rfl⟩ := drop_eq_ok_iff.1 hx'
      have hdeleted := deleted_of_delete hk
      have hstep : Step may [] x.matrix k := .dropEmpty (hcs c (by simp)) (deletes_of_delete hk)
      have hfirst : Passes may x ⟨k, x.selected, x.dropped ++ [c]⟩ :=
        ⟨⟨[], (List.append_nil _).symm, hstep.reduces⟩, .of_marks_eq hdeleted.marks_eq⟩
      refine hfirst.trans (ih (fun c' hc' => ?_) hy)
      rw [hdeleted.line_self]
      exact hcs c' (List.mem_cons_of_mem c hc')

theorem passes_of_thinColumns {changed b : Bool} (hx : x.matrix.IsValid)
    (hy : (x.thinColumns may changed cs).result = .ok (b, y)) : Passes may x y := by
  induction cs generalizing x changed with
  | nil =>
      cases hy
      exact .refl _ _
  | cons c cs ih =>
      rw [thinColumns] at hy
      split at hy
      · rename_i hdominated
        rw [Bool.and_eq_true] at hdominated
        simp only [Traced.result_bind, Traced.result_liftM, bind_eq_ok_iff] at hy
        obtain ⟨-, -, x', hx', hy⟩ := hy
        obtain ⟨k, hk, rfl⟩ := drop_eq_ok_iff.1 hx'
        have hmark := similar_mark x.matrix .column c
        have hvalid : (x.matrix.mark .column c).IsValid := hmark.wellFormed hx
        have hdeleted := deleted_of_delete hk
        have hc := hvalid.mem_active_of_deleted hdeleted
        rw [← hmark.active_eq] at hc
        obtain ⟨b, hb, hne, hsub, hmay⟩ := of_dominatingColumn?_isSome hx hc hdominated.2
        have hstep : Step may [] x.matrix k := .dropDominated hc hb hne hsub hmay
          ((deletes_of_delete hk).similar_left hmark.symm rfl)
        have hfirst : Passes may x ⟨k, x.selected, x.dropped ++ [c]⟩ :=
          ⟨⟨[], (List.append_nil _).symm, hstep.reduces⟩,
            (remarked_mark x.matrix .column c).trans (.of_marks_eq hdeleted.marks_eq) rfl⟩
        exact hfirst.trans (ih (hstep.advances.isValid hx) hy)
      · exact ih hx hy

/-- Dropping columns is a run of steps that leaves no mark. -/
theorem reduces_of_dropDominatedColumns {b : Bool} (hx : x.matrix.IsReady)
    (hy : (x.dropDominatedColumns may).result = .ok (b, y)) :
    Reduces may x y ∧ y.matrix.marks = x.matrix.marks := by
  simp only [dropDominatedColumns, Traced.result_bind, Traced.result_liftM, bind_eq_ok_iff] at hy
  obtain ⟨x', hx', ⟨b', z⟩, hz, hy⟩ := hy
  cases hy
  have hempty : ∀ c ∈ (x.matrix.active .column).filter fun c => x.matrix.count .column c == 0,
      x.matrix.line .column c = [] := by
    intro c hc
    rw [List.mem_filter, beq_iff_eq] at hc
    have hcount := hx.isValid.count_eq_length_of_mem_active hc.1
    exact List.length_eq_zero_iff.1 (hcount.symm.trans hc.2)
  have hpasses : Passes may x x' := passes_of_dropAll hempty hx'
  have hvalid := hpasses.reduces.advances.isValid hx.isValid
  exact (hpasses.trans (passes_of_thinColumns hvalid hz)).clearMarks hx.unmarked

/-! ### Essential columns -/

theorem passes_of_selectSingletons {rs : List Nat} {changed b : Bool} (hx : x.matrix.IsValid)
    (hrs : ∀ r ∈ rs, r < x.matrix.numRows ∧
      (r ∈ x.matrix.active .row → (x.matrix.line .row r).length ≤ 1))
    (hy : (x.selectSingletons changed rs).result = .ok (b, y)) : Passes may x y := by
  induction rs generalizing x changed with
  | nil =>
      cases hy
      exact .refl _ _
  | cons r rs ih =>
      have hrest : ∀ r' ∈ rs, r' < x.matrix.numRows ∧
          (r' ∈ x.matrix.active .row → (x.matrix.line .row r').length ≤ 1) :=
        fun r' hr' => hrs r' (List.mem_cons_of_mem r hr')
      obtain ⟨hlt, hlength⟩ := hrs r (by simp)
      rw [selectSingletons] at hy
      split at hy
      · exact ih hx hrest hy
      · rename_i hdeleted
        have hr := (hx.isDeleted_iff hlt).1 (Bool.eq_false_iff.2 hdeleted)
        split at hy
        · exact ih hx hrest hy
        · rename_i c hhead
          split at hy
          · exact ih hx hrest hy
          · simp only [Traced.result_bind, bind_eq_ok_iff] at hy
            obtain ⟨-, -, x', hx', hy⟩ := hy
            obtain ⟨hdeletes, hmarks, hselected, -⟩ := of_mark_select hx'
            have hline : x.matrix.line .row r = [c] := by
              obtain ⟨cs, hcs⟩ := List.head?_eq_some_iff.1 hhead
              have hle := hlength hr
              rw [hcs, List.length_cons, Nat.succ_le_succ_iff, Nat.le_zero] at hle
              rw [hcs, List.length_eq_zero_iff.1 hle]
            have hstep : Step may [c] x.matrix x'.matrix := .select hr hline hdeletes
            have hadvances := hstep.advances
            have hfirst : Passes may x x' := ⟨⟨[c], hselected, hstep.reduces⟩,
              (remarked_mark x.matrix .column c).trans (.of_marks_eq hmarks) rfl⟩
            refine hfirst.trans (ih (hadvances.isValid hx) (fun r' hr' => ?_) hy)
            obtain ⟨hlt', hlength'⟩ := hrest r' hr'
            refine ⟨hadvances.sameCells.numRows_eq ▸ hlt', fun hactive => ?_⟩
            have hvalid := hadvances.isValid hx
            have hnodup := hvalid.nodup_line (hvalid.lt_size_of_mem_active hactive)
            have hsubset := hadvances.line_subset hx hactive
            exact (List.subperm_of_subset hnodup hsubset).length_le.trans
              (hlength' (hadvances.active_subset hx _ hactive))

/-- Selecting essential columns is a run of steps that leaves no mark. -/
theorem reduces_of_selectEssential {b : Bool} (hx : x.matrix.IsReady)
    (hy : x.selectEssential.result = .ok (b, y)) (may : Comparator) :
    Reduces may x y ∧ y.matrix.marks = x.matrix.marks := by
  simp only [selectEssential, Traced.result_bind, bind_eq_ok_iff] at hy
  obtain ⟨⟨b', z⟩, hz, hy⟩ := hy
  cases hy
  have hpasses : Passes may x z := by
    refine passes_of_selectSingletons hx.isValid (fun r hr => ?_) hz
    rw [List.mem_filter, beq_iff_eq] at hr
    have hlt := hx.isValid.lt_size_of_mem_active hr.1
    exact ⟨hlt, fun _ => ((hx.isValid.count_eq_length hlt).symm.trans hr.2).le⟩
  exact hpasses.clearMarks hx.unmarked

/-! ### Whole reductions -/

theorem reduces_of_dropDominatedRows {b : Bool} (hx : x.matrix.IsReady)
    (hy : x.dropDominatedRows.result = .ok (b, y)) (may : Comparator) :
    Reduces may x y ∧ y.matrix.marks = x.matrix.marks := by
  obtain ⟨m, selected, dropped⟩ := x
  simp only [dropDominatedRows, Traced.result_bind, bind_eq_ok_iff] at hy
  obtain ⟨⟨b', k⟩, hk, hy⟩ := hy
  cases hy
  obtain ⟨hreduces, hmarks⟩ := Matrix.reduces_of_dropDominatedRows hx hk may
  exact ⟨⟨[], (List.append_nil _).symm, hreduces⟩, hmarks⟩

/-- A pass over the three phases is a run of steps that leaves no mark. -/
theorem reduces_of_reduce {b : Bool} (hx : x.matrix.IsReady)
    (hy : (x.reduce may).result = .ok (b, y)) :
    Reduces may x y ∧ y.matrix.marks = x.matrix.marks := by
  simp only [reduce, Traced.result_bind, bind_eq_ok_iff] at hy
  obtain ⟨⟨b₁, x₁⟩, hx₁, ⟨b₂, x₂⟩, hx₂, ⟨b₃, x₃⟩, hx₃, hy⟩ := hy
  cases hy
  obtain ⟨h₁, hmarks₁⟩ := reduces_of_dropDominatedColumns hx hx₁
  have hready₁ := hx.advances h₁.advances hmarks₁
  obtain ⟨h₂, hmarks₂⟩ := reduces_of_selectEssential hready₁ hx₂ may
  have hready₂ := hready₁.advances h₂.advances hmarks₂
  obtain ⟨h₃, hmarks₃⟩ := reduces_of_dropDominatedRows hready₂ hx₃ may
  exact ⟨(h₁.trans h₂).trans h₃, (hmarks₃.trans hmarks₂).trans hmarks₁⟩

theorem reduces_of_reduceTimes {fuel : Nat} (hx : x.matrix.IsReady)
    (hy : (x.reduceTimes may fuel).result = .ok y) :
    Reduces may x y ∧ y.matrix.marks = x.matrix.marks := by
  induction fuel generalizing x with
  | zero =>
      cases hy
      exact ⟨.refl _ _, rfl⟩
  | succ fuel ih =>
      simp only [reduceTimes, Traced.result_bind, bind_eq_ok_iff] at hy
      obtain ⟨⟨changed, z⟩, hz, hy⟩ := hy
      obtain ⟨hreduces, hmarks⟩ := reduces_of_reduce hx hz
      cases changed with
      | false =>
          cases hy
          exact ⟨hreduces, hmarks⟩
      | true =>
          obtain ⟨hrest, hmarks'⟩ := ih (hx.advances hreduces.advances hmarks) hy
          exact ⟨hreduces.trans hrest, hmarks'.trans hmarks⟩

/-- Reducing until nothing changes is a run of steps that leaves no mark. -/
theorem reduces_of_reduceFully (hx : x.matrix.IsReady)
    (hy : (x.reduceFully may).result = .ok y) :
    Reduces may x y ∧ y.matrix.marks = x.matrix.marks :=
  reduces_of_reduceTimes hx hy

end Reduction

end SetCover
