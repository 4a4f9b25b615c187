import SetCover.Proofs.Refinement

/-!
# Valid covers

The solvers only give valid covers: the columns are distinct and active, and each active row has an
element in one of them.  No lower bound, comparator, selector or condition can change that.

At the end of a run the cover is looked at once more, and this time every row that has an element
has to be covered, deleted or not.  If no row with an element is deleted, that is the same, so the
last look never finds anything wrong.
-/

namespace SetCover

/-! ### Flags -/

/-- The `n` flags are set for the numbers that have a property. -/
structure Flags (n : Nat) (P : Nat → Prop) (flags : Array Bool) : Prop where
  size_eq : flags.size = n
  getD_iff : ∀ i, flags.getD i false = true ↔ i < n ∧ P i

theorem flags_replicate (n : Nat) : Flags n (fun _ => False) (Array.replicate n false) where
  size_eq := Array.size_replicate
  getD_iff := by
    intro i
    by_cases hi : i < n
    · simp [hi]
    · simp [hi]

theorem Flags.congr {n : Nat} {P Q : Nat → Prop} {flags : Array Bool} (h : Flags n P flags)
    (hPQ : ∀ i, P i ↔ Q i) : Flags n Q flags where
  size_eq := h.size_eq
  getD_iff := by
    intro i
    rw [h.getD_iff, hPQ]

theorem Flags.set {n : Nat} {P : Nat → Prop} {flags : Array Bool} (h : Flags n P flags) (i : Nat) :
    Flags n (fun j => P j ∨ j = i) (flags.setIfInBounds i true) where
  size_eq := Array.size_setIfInBounds.trans h.size_eq
  getD_iff := by
    intro j
    have hset := Marks.contains_setIfInBounds flags [] i j true
    rw [Marks.contains, h.size_eq] at hset
    rw [hset]
    split_ifs with hj
    · exact iff_of_true rfl ⟨hj.1 ▸ hj.2, .inr hj.1⟩
    · rw [h.getD_iff, and_or_left, iff_self_or]
      intro hji
      exact absurd ⟨hji.2, hji.1⟩ hj

namespace Matrix

variable {m k : Matrix} {E : List (Nat × Nat)} {columns : List Nat}

/-- The flags of the columns of a list. -/
theorem exists_flags_eq_ok {n : Nat} {P : Nat → Prop} {flags : Array Bool}
    (hflags : Flags n P flags) (hcolumns : ∀ c ∈ columns, c < n) :
    ∃ selected, columns.foldlM (fun selected c =>
        if c < n then Except.ok (selected.setIfInBounds c true)
        else .error (Fault.unknownColumn c)) flags = .ok selected ∧
      Flags n (fun c => P c ∨ c ∈ columns) selected := by
  induction columns generalizing P flags with
  | nil => exact ⟨flags, rfl, hflags.congr fun c => by simp⟩
  | cons c columns ih =>
      obtain ⟨selected, hselected, h⟩ := ih (hflags.set c) fun b hb =>
        hcolumns b (List.mem_cons_of_mem c hb)
      refine ⟨selected, ?_, h.congr fun b => ?_⟩
      · rw [List.foldlM_cons, if_pos (hcolumns c List.mem_cons_self)]
        exact hselected
      · rw [List.mem_cons, or_assoc]

/-- The flags of the rows with an element in a selected column. -/
theorem flags_foldl_row {n : Nat} {P : Nat → Prop} {flags : Array Bool} (hflags : Flags n P flags)
    (selected : Array Bool) (es : List (PerDimension Nat)) :
    Flags n (fun r => P r ∨ ∃ e ∈ es, e.row = r ∧ selected.getD e.column false = true)
      (es.foldl (fun covered e =>
        if selected.getD e.column false then covered.setIfInBounds e.row true else covered)
        flags) := by
  induction es generalizing P flags with
  | nil => exact hflags.congr fun r => by simp
  | cons e es ih =>
      rw [List.foldl_cons]
      cases he : selected.getD e.column false with
      | true =>
          apply (ih (hflags.set e.row)).congr
          intro r
          simp only [List.exists_mem_cons_iff, he, and_true, or_assoc, eq_comm]
      | false =>
          apply (ih hflags).congr
          intro r
          simp only [List.exists_mem_cons_iff, he, Bool.false_eq_true, and_false, false_or]

/-- The last look at a cover finds nothing wrong if every row with an element has one in a column of
the cover. -/
theorem Layout.isCover_eq_ok_true_iff (h : m.Layout) (hcolumns : ∀ c ∈ columns, c < m.numColumns) :
    m.isCover columns = .ok true ↔
      ∀ e ∈ m.elements, ∃ e' ∈ m.elements, e'.row = e.row ∧ e'.column ∈ columns := by
  obtain ⟨selected, hselected, hflags⟩ :=
    exists_flags_eq_ok (flags_replicate m.numColumns) hcolumns
  have hcovered := flags_foldl_row (flags_replicate m.numRows) selected m.elements
  have hlt : ∀ e ∈ m.elements, ∀ d, e.get d < (m.headers.get d).size := by
    intro e he d
    exact h.lt_size_of_hasElement (hasElement_iff.2 ⟨e, he, rfl⟩)
  rw [isCover, hselected]
  change Except.ok _ = Except.ok true ↔ _
  rw [Except.ok.injEq, List.all_eq_true]
  apply forall₂_congr
  intro e he
  rw [coveredRows, hcovered.getD_iff]
  simp only [false_or, hflags.getD_iff]
  constructor
  · intro hrow
    obtain ⟨-, e', he', hrow, -, hcolumn⟩ := hrow
    exact ⟨e', he', hrow, hcolumn⟩
  · intro hrow
    obtain ⟨e', he', hrow, hcolumn⟩ := hrow
    exact ⟨hlt e he .row, e', he', hrow, hlt e' he' .column, hcolumn⟩

/-! ### What the solvers give -/

/-- Distinct active columns, in one of which every active row has an element. -/
structure IsCoverOf (E : List (Nat × Nat)) (m : Matrix) (columns : List Nat) : Prop where
  nodup : columns.Nodup
  mem_active : ∀ c ∈ columns, c ∈ m.active .column
  exists_mem : ∀ r ∈ m.active .row, ∃ c ∈ columns, (r, c) ∈ E

theorem CoversOnce.isCoverOf (h : m.CoversOnce columns) (hm : Reachable E m) :
    IsCoverOf E m columns := by
  obtain ⟨hactive, hhits⟩ := hm.covers_iff.1 h.covers
  simp only [List.mem_toFinset] at hactive hhits
  exact ⟨h.nodup, hactive, hhits⟩

/-- A matrix with an active row that is empty has no cover. -/
theorem CoversOnce.line_ne_nil (h : m.CoversOnce columns) :
    ∀ r ∈ m.active .row, m.line .row r ≠ [] := by
  intro r hr
  obtain ⟨c, -, hline⟩ := h.covers.exists_mem_line r hr
  exact List.ne_nil_of_mem hline

theorem CoversOnce.isCover (h : m.CoversOnce columns) (hm : Reachable E m)
    (hrows : ∀ r c, (r, c) ∈ E → r ∈ m.active .row) (hk : m.Resembles k) :
    k.isCover columns = .ok true := by
  have hholds := hm.holds
  have hready := hholds.grounded.isReady
  have hlayout := (hready.resembles hk).isValid.toLayout
  have hcover := h.isCoverOf hm
  have hcolumns : ∀ c ∈ columns, c < k.numColumns := by
    intro c hc
    rw [← hk.similar.sameCells.numColumns_eq]
    exact hready.isValid.lt_size_of_mem_active (hcover.mem_active c hc)
  apply (hlayout.isCover_eq_ok_true_iff hcolumns).2
  rw [← hk.similar.sameCells.elements_eq]
  intro e he
  have hactive := hrows e.row e.column ((hholds.mem_elements e).1 he)
  obtain ⟨c, hc, hmem⟩ := hcover.exists_mem e.row hactive
  exact ⟨⟨e.row, c⟩, (hholds.mem_elements _).2 hmem, rfl, hc⟩

end Matrix

end SetCover
