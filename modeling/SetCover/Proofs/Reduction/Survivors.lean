import SetCover.Proofs.Reduction.Accounts

/-!
# What is left for what was deleted

Along a run of steps, a row that is left keeps an element if it had one, and a row that had none is
left; so the rows that no column covers stay the same.  Each row is answered for at the end: it has
a selected column, or a row is left whose columns are all among its own.  As long as no row is
deleted, each column that is not empty is answered for by a column that is left, covers all its rows
and does not cost more.  What answers for a row or column may be deleted later on; then something
answers for it in turn.
-/

namespace SetCover.Matrix

variable {m n k : Matrix} {may : Comparator} {N : List Nat}
variable {d : Dimension} {b c i j r : Nat}

theorem mem_selection_row : ⟨.row, r⟩ ∈ m.selection c ↔ r ∈ m.line .column c := by
  simp [selection]

theorem mem_selection_column : ⟨.column, b⟩ ∈ m.selection c ↔ b = c := by
  simp [selection]

/-- Of a single deletion, only one row or column is gone. -/
theorem Trail.eq_of_notMem_active (h : Trail m [⟨d, j⟩] n) (hm : m.IsValid) (hi : i ∈ m.active d)
    (hnot : i ∉ n.active d) : i = j := by
  by_contra hij
  exact hnot ((h.mem_active_iff hm).2 ⟨hi, by simpa⟩)

/-! ### Rows keep an element -/

/-- Selecting a column leaves a column in each row that is left, if there was one. -/
theorem Trail.line_ne_nil_of_select (h : Trail m (m.selection c) n) (hm : m.IsValid)
    (hr : r ∈ n.active .row) (hline : m.line .row r ≠ []) : n.line .row r ≠ [] := by
  obtain ⟨hactive, hkept⟩ := (h.mem_active_iff hm).1 hr
  obtain ⟨a, ha⟩ := List.exists_mem_of_ne_nil _ hline
  have hne : a ≠ c := by
    rintro rfl
    exact hkept (mem_selection_row.2 (hm.mem_line_other hactive ha))
  exact List.ne_nil_of_mem
    ((h.mem_line_iff hm hr).2 ⟨ha, fun hdeleted => hne (mem_selection_column.1 hdeleted)⟩)

/-- A step leaves a column in each row that is left, if there was one. -/
theorem Step.line_ne_nil (h : Step may N m n) (hm : m.IsValid) (hr : r ∈ n.active .row)
    (hline : m.line .row r ≠ []) : n.line .row r ≠ [] := by
  have hactive := h.advances.active_subset hm _ hr
  obtain ⟨a, ha⟩ := List.exists_mem_of_ne_nil _ hline
  have hmem : r ∈ m.line .column a := hm.mem_line_other hactive ha
  cases h with
  | touch hsimilar _ => rwa [← hsimilar.line_eq]
  | @dropEmpty _ _ c hempty hd =>
      have hne : a ≠ c := by
        rintro rfl
        rw [hempty] at hmem
        exact absurd hmem List.not_mem_nil
      exact List.ne_nil_of_mem ((hd.trail.mem_line_iff hm hr).2 ⟨ha, by simpa [Dimension.other]⟩)
  | @dropDominated _ _ c b _ hb hne hsub _ hd =>
      by_cases hac : a = c
      · -- the row loses this column, and keeps the one for which it was dropped
        have hb' : b ∈ m.line .row r := hm.mem_line_other hb (hsub r (hac ▸ hmem))
        exact List.ne_nil_of_mem
          ((hd.trail.mem_line_iff hm hr).2 ⟨hb', by simpa [Dimension.other]⟩)
      · exact List.ne_nil_of_mem ((hd.trail.mem_line_iff hm hr).2 ⟨ha, by simpa [Dimension.other]⟩)
  | select _ _ hd => exact hd.trail.line_ne_nil_of_select hm hr hline
  | dropRow _ _ _ _ _ hd =>
      exact List.ne_nil_of_mem ((hd.trail.mem_line_iff hm hr).2 ⟨ha, by simp [Dimension.other]⟩)

theorem Reduces.line_ne_nil (h : Reduces may m N n) (hm : m.IsValid) (hr : r ∈ n.active .row)
    (hline : m.line .row r ≠ []) : n.line .row r ≠ [] := by
  induction h with
  | refl => exact hline
  | concat hrun hstep ih =>
      have hvalid := hrun.advances.isValid hm
      exact hstep.line_ne_nil hvalid hr (ih (hstep.advances.active_subset hvalid _ hr))

/-! ### Rows that no column covers -/

/-- The active rows without an element. -/
def uncovered (m : Matrix) : List Nat := (m.active .row).filter fun r => m.line .row r = []

theorem mem_uncovered : r ∈ m.uncovered ↔ r ∈ m.active .row ∧ m.line .row r = [] := by
  rw [uncovered, List.mem_filter, decide_eq_true_eq]

theorem uncovered_eq_nil_iff : m.uncovered = [] ↔ ∀ r ∈ m.active .row, m.line .row r ≠ [] := by
  simp [List.eq_nil_iff_forall_not_mem, mem_uncovered]

theorem Covers.uncovered_eq_nil {S : Finset Nat} (h : m.Covers S) : m.uncovered = [] := by
  refine uncovered_eq_nil_iff.2 fun r hr => ?_
  obtain ⟨c, -, hline⟩ := h.exists_mem_line r hr
  exact List.ne_nil_of_mem hline

/-- A row without an element stays so on the way to any matrix in which it is active. -/
theorem Advances.mem_uncovered (h : m.Advances n) (hm : m.IsValid) (hr : r ∈ m.uncovered)
    (hactive : r ∈ n.active .row) : r ∈ n.uncovered := by
  have hline := h.line_subset hm hactive
  rw [(Matrix.mem_uncovered.1 hr).2] at hline
  exact Matrix.mem_uncovered.2 ⟨hactive, List.subset_nil.1 hline⟩

/-- If a row without an element is not deleted, and the other ones keep one, then the rows that no
column covers stay the same. -/
theorem Advances.uncovered_perm (h : m.Advances n) (hm : m.IsValid)
    (hkeeps : ∀ r ∈ m.uncovered, r ∈ n.active .row)
    (hline : ∀ r ∈ n.active .row, m.line .row r ≠ [] → n.line .row r ≠ []) :
    m.uncovered.Perm n.uncovered := by
  have hnodup : ∀ {k : Matrix}, k.IsValid → k.uncovered.Nodup := fun hk =>
    (WellFormed.nodup_active hk .row).filter _
  refine (List.perm_ext_iff_of_nodup (hnodup hm) (hnodup (h.isValid hm))).2 fun r => ?_
  constructor
  · exact fun hr => h.mem_uncovered hm hr (hkeeps r hr)
  · intro hr
    obtain ⟨hactive, hnone⟩ := Matrix.mem_uncovered.1 hr
    refine Matrix.mem_uncovered.2 ⟨h.active_subset hm _ hactive, ?_⟩
    by_contra hsome
    exact hline r hactive hsome hnone

/-- Selecting a column deletes no row that has no element. -/
theorem Trail.mem_active_of_select (h : Trail m (m.selection c) n) (hm : m.IsValid)
    (hc : c ∈ m.active .column) (hr : r ∈ m.uncovered) : r ∈ n.active .row := by
  obtain ⟨hactive, hnone⟩ := mem_uncovered.1 hr
  refine (h.mem_active_iff hm).2 ⟨hactive, fun hdeleted => ?_⟩
  have hmem : c ∈ m.line .row r := hm.mem_line_other hc (mem_selection_row.1 hdeleted)
  rw [hnone] at hmem
  exact List.not_mem_nil hmem

/-- A step deletes no row that has no element. -/
theorem Step.mem_active_of_uncovered (h : Step may N m n) (hm : m.IsValid) (hr : r ∈ m.uncovered) :
    r ∈ n.active .row := by
  obtain ⟨hactive, hnone⟩ := mem_uncovered.1 hr
  cases h with
  | touch hsimilar _ => exact hsimilar.active_eq ▸ hactive
  | dropEmpty _ hd => exact (hd.trail.mem_active_iff hm).2 ⟨hactive, by simp⟩
  | dropDominated _ _ _ _ _ hd => exact (hd.trail.mem_active_iff hm).2 ⟨hactive, by simp⟩
  | select hr' hline hd =>
      have hc := hm.mem_active_of_mem_line hr' (hline ▸ List.mem_singleton_self _)
      exact hd.trail.mem_active_of_select hm hc hr
  | @dropRow _ _ r' s _ _ _ hline hsub hd =>
      refine (hd.trail.mem_active_iff hm).2 ⟨hactive, fun hdeleted => ?_⟩
      obtain rfl : r = s := by simpa using hdeleted
      obtain ⟨a, ha⟩ := List.exists_mem_of_ne_nil _ hline
      exact List.not_mem_nil (hnone ▸ hsub a ha)

/-- The rows that no column covers stay the same along a run. -/
theorem Reduces.uncovered_perm (h : Reduces may m N n) (hm : m.IsValid) :
    m.uncovered.Perm n.uncovered := by
  induction h with
  | refl => exact .refl _
  | concat hrun hstep ih =>
      have hvalid := hrun.advances.isValid hm
      exact ih.trans (hstep.advances.uncovered_perm hvalid
        (fun r hr => hstep.mem_active_of_uncovered hvalid hr)
        fun r hr => hstep.line_ne_nil hvalid hr)

/-- They stay the same if a column is selected. -/
theorem Deletes.uncovered_perm_of_select (h : Deletes (m.selection c) m n) (hm : m.IsValid)
    (hc : c ∈ m.active .column) : m.uncovered.Perm n.uncovered :=
  h.advances.uncovered_perm hm (fun _ hr => h.trail.mem_active_of_select hm hc hr)
    fun _ hr => h.trail.line_ne_nil_of_select hm hr

/-! ### Rows that are answered for -/

/-- A row of `m` has one of the columns `N`, or a row that is left has no other columns than it. -/
def IsServed (N : List Nat) (m n : Matrix) (r : Nat) : Prop :=
  (∃ c ∈ N, c ∈ m.line .row r) ∨ ∃ s ∈ n.active .row, n.line .row s ⊆ m.line .row r

theorem isServed_of_mem_active (h : m.Advances n) (hm : m.IsValid) (hr : r ∈ n.active .row) :
    IsServed N m n r :=
  Or.inr ⟨r, hr, h.line_subset hm hr⟩

theorem Step.isServed (h : Step may N m n) (hm : m.IsValid) (hr : r ∈ m.active .row) :
    IsServed N m n r := by
  have hadvances := h.advances
  by_cases hactive : r ∈ n.active .row
  · exact isServed_of_mem_active hadvances hm hactive
  · cases h with
    | touch hsimilar _ => exact absurd (hsimilar.active_eq ▸ hr) hactive
    | dropEmpty _ hd =>
        exact absurd ((hd.trail.mem_active_iff hm).2 ⟨hr, by simp⟩) hactive
    | dropDominated _ _ _ _ _ hd =>
        exact absurd ((hd.trail.mem_active_iff hm).2 ⟨hr, by simp⟩) hactive
    | @select _ _ r' c hr' hline hd =>
        left
        refine ⟨c, List.mem_singleton_self c, ?_⟩
        by_contra hc
        apply hactive
        rw [hd.trail.mem_active_iff hm, mem_selection_row]
        refine ⟨hr, fun hmem => hc ?_⟩
        exact hm.mem_line_other (hm.mem_active_of_mem_line hr' (by simp [hline])) hmem
    | @dropRow _ _ r' s hr' hs hne _ hsub hd =>
        have hrs : r = s := hd.trail.eq_of_notMem_active hm hr hactive
        have hkept : r' ∈ n.active .row :=
          (hd.trail.mem_active_iff hm).2 ⟨hr', by simpa using hne.symm⟩
        right
        refine ⟨r', hkept, fun c hc => ?_⟩
        rw [hrs]
        exact hsub c (hadvances.line_subset hm hkept hc)

/-- Along a run, whatever answers for a row is answered for in turn. -/
theorem Reduces.isServed (h : Reduces may m N n) (hm : m.IsValid) (hr : r ∈ m.active .row) :
    IsServed N m n r := by
  induction h with
  | refl => exact isServed_of_mem_active (.refl m) hm hr
  | concat hrun hstep ih =>
      have hvalid := hrun.advances.isValid hm
      rcases ih with ⟨c, hc, hmem⟩ | ⟨s, hs, hsub⟩
      · exact Or.inl ⟨c, List.mem_append_left _ hc, hmem⟩
      · rcases hstep.isServed hvalid hs with ⟨c, hc, hmem⟩ | ⟨t, ht, hsub'⟩
        · exact Or.inl ⟨c, List.mem_append_right _ hc, hsub hmem⟩
        · exact Or.inr ⟨t, ht, List.Subset.trans hsub' hsub⟩

/-! ### Columns that are answered for -/

/-- A column of `m` is empty, or one that is left covers all its rows and does not cost more. -/
def IsReplaced (m n : Matrix) (c : Nat) : Prop :=
  m.line .column c = [] ∨ ∃ b ∈ n.active .column,
    m.costOf b ≤ m.costOf c ∧ m.line .column c ⊆ m.line .column b

theorem isReplaced_of_mem_active (hc : c ∈ n.active .column) : IsReplaced m n c :=
  Or.inr ⟨c, hc, le_rfl, List.Subset.refl _⟩

/-- As long as no row is deleted, a column that is left keeps all its rows. -/
theorem Advances.subset_line (h : m.Advances n) (hm : m.IsValid)
    (hrows : m.active .row ⊆ n.active .row) (hc : c ∈ n.active .column) :
    m.line .column c ⊆ n.line .column c := by
  obtain ⟨xs, hxs⟩ := h
  intro r hr
  have hactive := hm.mem_active_of_mem_line ((hxs.trail.mem_active_iff hm).1 hc).1 hr
  exact (hxs.trail.mem_line_iff hm hc).2
    ⟨hr, ((hxs.trail.mem_active_iff hm).1 (hrows hactive)).2⟩

/-- A step that deletes no row. -/
theorem Step.isReplaced (h : Step may N m n) (hm : m.IsValid) (hmay : m.Admits may)
    (hrows : m.active .row ⊆ n.active .row) (hc : c ∈ m.active .column) : IsReplaced m n c := by
  by_cases hactive : c ∈ n.active .column
  · exact isReplaced_of_mem_active hactive
  · cases h with
    | touch hsimilar _ => exact absurd (hsimilar.active_eq ▸ hc) hactive
    | @dropEmpty _ _ e hempty hd =>
        have hce : c = e := hd.trail.eq_of_notMem_active hm hc hactive
        exact Or.inl (hce ▸ hempty)
    | @dropDominated _ _ e b he hb hne hsub hdrop hd =>
        have hce : c = e := hd.trail.eq_of_notMem_active hm hc hactive
        right
        refine ⟨b, (hd.trail.mem_active_iff hm).2 ⟨hb, by simpa⟩, ?_⟩
        rw [hce]
        exact ⟨hmay.costOf_le e he b hb hdrop, fun r => hsub r⟩
    | @select _ _ r e hr hline hd =>
        have hmem : r ∈ m.line .column e := hm.mem_line_other hr (by simp [hline])
        exact absurd (mem_selection_row.2 hmem) ((hd.trail.mem_active_iff hm).1 (hrows hr)).2
    | dropRow _ hs _ _ _ hd =>
        exact absurd (List.mem_singleton_self _) ((hd.trail.mem_active_iff hm).1 (hrows hs)).2

/-- Along a run that deletes no row, whatever answers for a column is answered for in turn. -/
theorem Reduces.isReplaced (h : Reduces may m N n) (hm : m.IsValid) (hmay : m.Admits may)
    (hrows : m.active .row ⊆ n.active .row) (hc : c ∈ m.active .column) : IsReplaced m n c := by
  induction h with
  | refl => exact isReplaced_of_mem_active hc
  | concat hrun hstep ih =>
      have hadvances := hrun.advances
      have hvalid := hadvances.isValid hm
      have hrows' := List.Subset.trans hrows (hstep.advances.active_subset hvalid .row)
      have hrest := List.Subset.trans (hadvances.active_subset hm .row) hrows
      rcases ih hrows' with hempty | ⟨b, hb, hcost, hsub⟩
      · exact Or.inl hempty
      · have hkept := List.Subset.trans hsub (hadvances.subset_line hm hrows' hb)
        rcases hstep.isReplaced hvalid (hmay.advances hm hadvances) hrest hb with
          hempty | ⟨a, ha, hcost', hsub'⟩
        · rw [hempty] at hkept
          exact Or.inl (List.subset_nil.1 hkept)
        · have hactive := hstep.advances.active_subset hvalid _ ha
          rw [hadvances.costOf_eq] at hcost'
          have hcovers := List.Subset.trans (List.Subset.trans hkept hsub')
            (hadvances.line_subset hm hactive)
          exact Or.inr ⟨a, ha, hcost'.trans hcost, hcovers⟩

end SetCover.Matrix
