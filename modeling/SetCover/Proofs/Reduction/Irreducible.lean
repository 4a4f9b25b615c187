import SetCover.Proofs.Reduction.Accounts
import SetCover.Proofs.Reduction.InStep

/-!
# Reduced matrices

`m.IsReduced may` says that none of the three phases finds anything in `m`: no column is empty or
may be dropped for another one, no row has a single column, and no row has all columns of another
one.  A phase leaves nothing of its kind behind, although it goes over rows or columns that it
deletes on the way.  So a pass that changes nothing leaves a reduced matrix, and a pass over a
reduced matrix whose rows are clean leaves it as it is.
-/

namespace SetCover

/-- The comparator looks at costs and indices alone. -/
def Comparator.DependsOnCosts (may : Comparator) : Prop :=
  ∀ m n : Matrix, m.costs = n.costs → may m = may n

theorem DominanceRule.dependsOnCosts_comparator (rule : DominanceRule) :
    rule.comparator.DependsOnCosts := by
  intro m n h
  cases rule with
  | costAware => exact (Matrix.admits_costAware m).congr m n h
  | ignoreCost => rfl

namespace HeaderRing

variable {l k : HeaderRing} {i j : Nat}

theorem isDirty_of_clean (hi : i < l.headers.size) (h : l.clean i = .ok k) :
    k.isDirty j = (l.isDirty j && decide (j ≠ i)) := by
  simp only [clean, bind_eq_ok_iff, get_eq_ok_iff] at h
  obtain ⟨_, ⟨-, rfl⟩, h⟩ := h
  cases h
  rw [isDirty, header_set, isDirty]
  by_cases hj : j = i
  · simp [hj, hi]
  · simp [hj]

/-- Cleaning what is clean changes nothing. -/
theorem clean_eq_self (hi : i < l.size) (hclean : l.isDirty i = false) : l.clean i = .ok l := by
  have hheader : { l.header i with dirty := false } = l.header i := by
    rw [isDirty] at hclean
    rw [← hclean]
  have hset : l.headers.setIfInBounds i (l.header i) = l.headers := by
    apply Array.ext_getElem?
    intro j
    rw [Array.getElem?_setIfInBounds]
    by_cases hij : i = j
    · subst hij
      by_cases hlt : i < l.headers.size
      · simp [hlt, header]
      · simp [hlt]
    · simp [hij]
  rw [clean, get_eq_ok_iff.2 ⟨hi, rfl⟩]
  change Except.ok (l.set i { l.header i with dirty := false }) = _
  rw [hheader, set, hset]

end HeaderRing

namespace Matrix

variable {m n k : Matrix} {J : List Deletion} {may : Comparator} {d : Dimension}
variable {b c i j r s : Nat} {is : List Nat}

/-! ### Clean rows -/

theorem isDirty_of_cleanAll (his : ∀ i ∈ is, i < (m.headers.get d).headers.size)
    (h : m.cleanAll d is = .ok k) : k.isDirty d j = (m.isDirty d j && decide (j ∉ is)) := by
  induction is generalizing m with
  | nil =>
      cases h
      simp
  | cons i is ih =>
      rw [cleanAll, bind_eq_ok_iff] at h
      obtain ⟨headers, hheaders, h⟩ := h
      obtain ⟨l, hl, rfl⟩ := PerDimension.tryModify_eq_ok_iff_exists.1 hheaders
      have hsize := (HeaderRing.similar_of_clean hl).size_headers_eq
      rw [ih _ h, isDirty_eq, PerDimension.get_modify_self,
        HeaderRing.isDirty_of_clean (his i List.mem_cons_self) hl, ← isDirty_eq, Bool.and_assoc]
      · simp
      · intro i' hi'
        rw [PerDimension.get_modify_self, ← hsize]
        exact his i' (List.mem_cons_of_mem i hi')

theorem cleanAll_eq_self (his : ∀ i ∈ is, i < (m.headers.get d).size)
    (hclean : ∀ i ∈ is, m.isDirty d i = false) : m.cleanAll d is = .ok m := by
  induction is with
  | nil => rfl
  | cons i is ih =>
      have hi := HeaderRing.clean_eq_self (his i List.mem_cons_self) (hclean i List.mem_cons_self)
      have hheaders : m.headers.tryModify d (·.clean i) = .ok m.headers := by
        rw [PerDimension.tryModify_eq_ok_iff_exists]
        refine ⟨_, hi, PerDimension.ext_get fun e => ?_⟩
        rcases d.eq_or_eq_other e with rfl | rfl
        · rw [PerDimension.get_modify_self]
        · rw [PerDimension.get_modify_other]
      rw [cleanAll, hheaders]
      exact ih (fun i' hi' => his i' (List.mem_cons_of_mem i hi'))
        fun i' hi' => hclean i' (List.mem_cons_of_mem i hi')

/-- After the rows were thinned, all rows are clean. -/
theorem IsReady.isDirty_of_dropDominatedRows {b : Bool} (hm : m.IsReady)
    (hk : m.dropDominatedRows.result = .ok (b, k)) (hr : r ∈ k.active .row) :
    k.isDirty .row r = false := by
  obtain ⟨R, hR, -⟩ := exists_deletes_of_dropDominatedRows hk
  have hvalid := hR.advances.isValid hm.isValid
  simp only [dropDominatedRows, Traced.result_bind, Traced.result_liftM, bind_eq_ok_iff] at hk
  obtain ⟨⟨b', n⟩, -, n', hn', hk⟩ := hk
  cases hk
  obtain ⟨hsimilar, -, -⟩ := similar_of_cleanAll hn'
  rw [← hsimilar.active_eq] at hr
  rw [isDirty_of_cleanAll _ hn', decide_eq_false (not_not_intro hr), Bool.and_false]
  intro i hi
  rw [hsimilar.active_eq] at hi
  have hlt := (hvalid.isOrdered .row).lt_size_headers (hvalid.lt_size_of_mem_active hi)
  rwa [← (hsimilar.headers .row).size_headers_eq] at hlt

/-! ### Thin columns -/

/-- No active column is empty, and none may be dropped for another one that covers its rows. -/
structure HasThinColumns (may : Comparator) (m : Matrix) : Prop where
  line_ne_nil : ∀ c ∈ m.active .column, m.line .column c ≠ []
  not_may : ∀ c ∈ m.active .column, ∀ b ∈ m.active .column, b ≠ c →
    m.line .column c ⊆ m.line .column b → may m c b = false

theorem HasThinColumns.of_similar (h : m.HasThinColumns may) (hmay : may.DependsOnCosts)
    (hk : m.Similar k) : k.HasThinColumns may := by
  obtain ⟨hline, hnot⟩ := h
  rw [hk.active_eq, hk.line_eq] at hline hnot
  rw [hmay m k hk.costs_eq] at hnot
  exact ⟨hline, hnot⟩

/-- A column that may be dropped for another one is found, since the other one has the row where
it is sought. -/
theorem isSome_dominatingColumn? (hm : m.WellFormed J) (hc : c ∈ m.active .column)
    (hb : b ∈ m.active .column) (hne : b ≠ c) (hmarked : m.isMarked .column b = false)
    (hline : m.line .column c ≠ []) (hsub : m.line .column c ⊆ m.line .column b)
    (hmay : may m c b = true) : (m.dominatingColumn? may c).isSome = true := by
  have hlt := hm.lt_size_of_mem_active hc
  have hlt' := hm.lt_size_of_mem_active hb
  obtain ⟨pivot, hpivot⟩ := Option.isSome_iff_exists.1
    (List.isSome_minOn?_iff (f := m.count .row).2 hline)
  have hcount := hm.count_le_of_subset hlt hlt' hsub
  have hfound := (hm.isSubline_iff hlt hlt').2 hsub
  rw [dominatingColumn?, hpivot, List.find?_isSome]
  refine ⟨b, hm.mem_line_other hb (hsub (List.minOn?_mem hpivot)), ?_⟩
  simp [hne, hmarked, hcount, hmay, hfound]

/-- None of the three phases of a reduction finds anything. -/
structure IsReduced (may : Comparator) (m : Matrix) : Prop where
  hasThinColumns : m.HasThinColumns may
  length_ne_one : ∀ r ∈ m.active .row, (m.line .row r).length ≠ 1
  isThin : m.IsThin

/-! ### Passes that find nothing -/

theorem clearMarks_eq_self (hm : m.Unmarked) (d : Dimension) : m.clearMarks d = m := by
  have hmarks : (m.clearMarks d).marks = m.marks := (Remarked.of_marks_eq rfl).marks_clearMarks hm
  change { m with marks := (m.clearMarks d).marks } = m
  rw [hmarks]

theorem HasThinColumns.dominatingColumn?_eq_none (h : m.HasThinColumns may) (hm : m.IsValid)
    (hc : c ∈ m.active .column) : m.dominatingColumn? may c = none := by
  rw [← Option.not_isSome_iff_eq_none]
  intro hsome
  obtain ⟨b, hb, hne, hsub, hdrop⟩ := of_dominatingColumn?_isSome hm hc hsome
  rw [h.not_may c hc b hb hne hsub] at hdrop
  exact nomatch hdrop

theorem IsThin.dominatedRows_eq_nil (h : m.IsThin) (hm : m.IsValid) (hr : r ∈ m.active .row) :
    m.dominatedRows r = [] := by
  apply List.eq_nil_iff_forall_not_mem.2
  intro s hs
  have hactive := (InStep.nodup_dominatedRows hm hr).2 s hs
  obtain ⟨hne, hline, hsub⟩ := of_mem_dominatedRows hs
  exact h r hr s hactive hne hline hsub

theorem thinRows_eq_self {changed : Bool} (h : ∀ r ∈ is, m.dominatedRows r = []) :
    m.thinRows changed is = pure (changed, m) := by
  induction is with
  | nil => rfl
  | cons r is ih =>
      have hrest := ih fun s hs => h s (List.mem_cons_of_mem r hs)
      rw [thinRows, h r List.mem_cons_self]
      split
      · exact hrest
      · simp only [List.isEmpty_nil, Bool.not_true, Bool.or_false, dropRowsFor, pure_bind]
        exact hrest

/-- Thin rows that are clean are left as they are. -/
theorem IsThin.dropDominatedRows_eq_self (h : m.IsThin) (hm : m.IsReady)
    (hclean : ∀ r ∈ m.active .row, m.isDirty .row r = false) :
    m.dropDominatedRows = pure (false, m) := by
  have hrows : m.thinRows false (m.active .row) = pure (false, m) :=
    thinRows_eq_self fun r hr => h.dominatedRows_eq_nil hm.isValid hr
  have hcleaned : m.cleanAll .row (m.active .row) = .ok m :=
    cleanAll_eq_self (fun r hr => hm.isValid.lt_size_of_mem_active hr) hclean
  simp only [dropDominatedRows, hrows, pure_bind, clearMarks_eq_self hm.unmarked, hcleaned]
  rfl

end Matrix

namespace Reduction

open SetCover.Matrix

variable {x y z : Reduction} {may : Comparator} {c r : Nat} {cs rs D : List Nat} {changed b : Bool}

theorem Drops.line_eq (h : Drops D x y) : y.matrix.line .column = x.matrix.line .column :=
  h.deletes.trail.line_eq_of_map

theorem Drops.mem_active_iff (h : Drops D x y) (hx : x.matrix.IsValid) :
    c ∈ y.matrix.active .column ↔ c ∈ x.matrix.active .column ∧ c ∉ D := by
  rw [h.deletes.trail.mem_active_iff hx]
  simp

theorem marks_of_dropAll (h : x.dropAll cs = .ok y) : y.matrix.marks = x.matrix.marks := by
  induction cs generalizing x with
  | nil =>
      cases h
      rfl
  | cons c cs ih =>
      obtain ⟨x', hx', h⟩ := bind_eq_ok_iff.1 h
      obtain ⟨k, hk, rfl⟩ := drop_eq_ok_iff.1 hx'
      rw [ih h]
      exact (deleted_of_delete hk).marks_eq

/-- Of the columns that are gone over, none that is left may be dropped for another one that is
left. -/
theorem not_may_of_thinColumns (hx : x.matrix.IsValid) (hmay : may.DependsOnCosts)
    (hmarks : x.matrix.MarksDeleted .column)
    (hy : (x.thinColumns may changed cs).result = .ok (b, y)) :
    ∀ c ∈ cs, c ∈ y.matrix.active .column → ∀ b ∈ y.matrix.active .column, b ≠ c →
      y.matrix.line .column c ≠ [] → y.matrix.line .column c ⊆ y.matrix.line .column b →
        may y.matrix c b = false := by
  induction cs generalizing x changed with
  | nil => simp
  | cons c cs ih =>
      rw [thinColumns] at hy
      split at hy
      · simp only [Traced.result_bind, Traced.result_liftM, bind_eq_ok_iff] at hy
        obtain ⟨-, -, x', hx', hy⟩ := hy
        have hfirst := (drops_mark x .column c).trans (drops_of_drop hx')
        have hvalid := hfirst.deletes.advances.isValid hx
        obtain ⟨k, hk, rfl⟩ := drop_eq_ok_iff.1 hx'
        obtain ⟨hmarks', hc⟩ := marksDeleted_of_delete hx hk
        obtain ⟨D, hD, -⟩ := exists_drops_of_thinColumns hy
        intro a ha hactive
        rcases List.mem_cons.1 ha with rfl | ha
        · exact absurd ((hD.mem_active_iff hvalid).1 hactive).1 hc
        · exact ih hvalid (hmarks' hmarks) hy a ha hactive
      · rename_i hkept
        intro a ha
        rcases List.mem_cons.1 ha with rfl | ha
        · -- what covers the column was there when it was its turn
          obtain ⟨D, hD, -⟩ := exists_drops_of_thinColumns hy
          intro hactive b hb hne hline hsub
          rw [hD.mem_active_iff hx] at hactive hb
          rw [hD.line_eq] at hline hsub
          have hunmarked : ∀ e ∈ x.matrix.active .column, x.matrix.isMarked .column e = false :=
            fun e he => Bool.eq_false_iff.2 fun h => hmarks e h he
          rw [hmay _ _ hD.deletes.advances.costs_eq]
          by_contra hdrop
          apply hkept
          rw [hunmarked _ hactive.1, isSome_dominatingColumn? hx hactive.1 hb.1 hne
            (hunmarked b hb.1) hline hsub (Bool.eq_true_of_not_eq_false hdrop)]
          rfl
        · exact ih hx hmarks hy a ha

/-- One pass over the columns leaves thin columns, whatever was deleted on the way. -/
theorem hasThinColumns_of_dropDominatedColumns (hx : x.matrix.IsReady) (hmay : may.DependsOnCosts)
    (hy : (x.dropDominatedColumns may).result = .ok (b, y)) : y.matrix.HasThinColumns may := by
  simp only [dropDominatedColumns, Traced.result_bind, Traced.result_liftM, bind_eq_ok_iff] at hy
  obtain ⟨x', hx', ⟨b', z⟩, hz, hy⟩ := hy
  cases hy
  have hempty := drops_of_dropAll hx'
  have hmarks : x'.matrix.MarksDeleted .column := by
    apply marksDeleted_of_unmarked
    intro d
    rw [marks_of_dropAll hx', hempty.deletes.trail.sameCells.size_eq]
    exact hx.unmarked d
  have hvalid := hempty.deletes.advances.isValid hx.isValid
  obtain ⟨D, hD, -⟩ := exists_drops_of_thinColumns hz
  have hthin := not_may_of_thinColumns hvalid hmay hmarks hz
  have hsubset : ∀ c ∈ z.matrix.active .column, c ∈ x'.matrix.active .column :=
    fun c hc => ((hD.mem_active_iff hvalid).1 hc).1
  have hline : ∀ c ∈ z.matrix.active .column, z.matrix.line .column c ≠ [] := by
    intro c hc hnil
    obtain ⟨hactive, hnot⟩ := (hempty.mem_active_iff hx.isValid).1 (hsubset c hc)
    apply hnot
    rw [hD.line_eq, hempty.line_eq] at hnil
    have hcount := hx.isValid.count_eq_length_of_mem_active hactive
    rw [hnil] at hcount
    exact List.mem_filter.2 ⟨hactive, beq_iff_eq.2 hcount⟩
  refine HasThinColumns.of_similar ⟨hline, ?_⟩ hmay (similar_clearMarks z.matrix .column)
  intro c hc b hb hne hsub
  exact hthin c (hsubset c hc) hc b hb hne (hline c hc) hsub

/-- One pass over the rows leaves thin rows, all of them clean. -/
theorem isThin_of_dropDominatedRows (hx : x.matrix.IsReady) (hc : x.matrix.IsCompared)
    (hy : x.dropDominatedRows.result = .ok (b, y)) :
    y.matrix.IsThin ∧ ∀ r ∈ y.matrix.active .row, y.matrix.isDirty .row r = false := by
  obtain ⟨m, selected, dropped⟩ := x
  simp only [dropDominatedRows, Traced.result_bind, bind_eq_ok_iff] at hy
  obtain ⟨⟨b', k⟩, hk, hy⟩ := hy
  cases hy
  exact ⟨hx.isThin_of_dropDominatedRows hc hk, fun r hr => hx.isDirty_of_dropDominatedRows hk hr⟩

/-! ### Reduced matrices -/

theorem clearMarks_eq_self (hx : x.matrix.Unmarked) (d : Dimension) : x.clearMarks d = x := by
  obtain ⟨m, selected, dropped⟩ := x
  rw [clearMarks, Matrix.clearMarks_eq_self hx]

theorem thinColumns_eq_self (h : ∀ c ∈ cs, x.matrix.dominatingColumn? may c = none) :
    x.thinColumns may changed cs = pure (changed, x) := by
  induction cs with
  | nil => rfl
  | cons c cs ih =>
      rw [thinColumns, h c List.mem_cons_self, Option.isSome_none, Bool.and_false, if_neg (by simp)]
      exact ih fun c' hc' => h c' (List.mem_cons_of_mem c hc')

theorem dropDominatedColumns_eq_self (hx : x.matrix.IsReady) (h : x.matrix.HasThinColumns may) :
    x.dropDominatedColumns may = pure (false, x) := by
  have hempty : ((x.matrix.active .column).filter fun c => x.matrix.count .column c == 0) = [] := by
    rw [List.filter_eq_nil_iff]
    intro c hc hcount
    rw [beq_iff_eq, hx.isValid.count_eq_length_of_mem_active hc] at hcount
    exact h.line_ne_nil c hc (List.length_eq_zero_iff.1 hcount)
  have hthin : x.thinColumns may false (x.matrix.active .column) = pure (false, x) :=
    thinColumns_eq_self fun c hc => h.dominatingColumn?_eq_none hx.isValid hc
  have hdrop : (liftM (x.dropAll []) : Traced Reduction) = pure x := rfl
  simp only [dropDominatedColumns, hempty, hdrop, pure_bind, List.isEmpty_nil, Bool.not_true, hthin,
    clearMarks_eq_self hx.unmarked]

theorem selectEssential_eq_self (hx : x.matrix.IsReady)
    (h : ∀ r ∈ x.matrix.active .row, (x.matrix.line .row r).length ≠ 1) :
    x.selectEssential = pure (false, x) := by
  have hrows : ((x.matrix.active .row).filter fun r => x.matrix.count .row r == 1) = [] := by
    rw [List.filter_eq_nil_iff]
    intro r hr hcount
    rw [beq_iff_eq, hx.isValid.count_eq_length_of_mem_active hr] at hcount
    exact h r hr hcount
  simp only [selectEssential, hrows, selectSingletons, pure_bind, clearMarks_eq_self hx.unmarked]

/-- A pass over a reduced matrix leaves it as it is, if its rows are clean. -/
theorem reduce_eq_self (hx : x.matrix.IsReady) (h : x.matrix.IsReduced may)
    (hclean : ∀ r ∈ x.matrix.active .row, x.matrix.isDirty .row r = false) :
    x.reduce may = pure (false, x) := by
  have hrows : x.dropDominatedRows = pure (false, x) := by
    rw [dropDominatedRows, h.isThin.dropDominatedRows_eq_self hx hclean, pure_bind]
  simp only [reduce, dropDominatedColumns_eq_self hx h.hasThinColumns, pure_bind,
    selectEssential_eq_self hx h.length_ne_one, hrows, Bool.or_false]

end Reduction

end SetCover
