import SetCover.Proofs.Reduction.Phases

/-!
# What a reduction deletes

`Accounts xs x y` says that the deletions `xs` lead from `x` to `y`, and that each column among them
is listed once, as selected or as dropped.  A phase tells that something changed if and only if
there is such a deletion.  So a phase that changes something leaves fewer active rows and columns,
and this is why reducing until nothing changes comes to an end.

`Settles may x y` says that the passes over the three phases, made as long as one of them changes
something, lead from `x` to `y`.
-/

namespace SetCover

theorem append_ne_nil_iff {α : Type} {as bs : List α} : as ++ bs ≠ [] ↔ as ≠ [] ∨ bs ≠ [] := by
  rw [ne_eq, List.append_eq_nil_iff, not_and_or]

theorem not_isEmpty_iff {α : Type} {as : List α} : (!as.isEmpty) = true ↔ as ≠ [] := by
  rw [Bool.not_eq_true', List.isEmpty_eq_false_iff]

namespace Deletion

variable {d : Dimension} {xs ys : List Deletion} {is : List Nat} {i : Nat}

/-- The rows, or the columns, among some deletions. -/
def indices (d : Dimension) (xs : List Deletion) : List Nat :=
  (xs.filter (·.dimension = d)).map index

@[simp] theorem indices_nil (d : Dimension) : indices d [] = [] := rfl

@[simp] theorem indices_append (d : Dimension) (xs ys : List Deletion) :
    indices d (xs ++ ys) = indices d xs ++ indices d ys := by
  simp [indices]

@[simp] theorem indices_map (d : Dimension) (is : List Nat) :
    indices d (is.map fun i => ⟨d, i⟩) = is := by
  simp [indices, List.filter_map, Function.comp_def]

@[simp] theorem indices_map_other (d : Dimension) (is : List Nat) :
    indices d (is.map fun i => ⟨d.other, i⟩) = [] := by
  simp [indices, List.filter_map, Function.comp_def]

theorem mem_indices : i ∈ indices d xs ↔ ⟨d, i⟩ ∈ xs := by
  rw [indices, List.mem_map]
  constructor
  · rintro ⟨⟨e, j⟩, hmem, rfl⟩
    obtain ⟨hmem, he⟩ := List.mem_filter.1 hmem
    rwa [← of_decide_eq_true he]
  · intro hmem
    exact ⟨⟨d, i⟩, List.mem_filter.2 ⟨hmem, decide_eq_true rfl⟩, rfl⟩

theorem nodup_indices (h : xs.Nodup) (d : Dimension) : (indices d xs).Nodup := by
  apply List.Nodup.map_on _ (h.filter _)
  intro x hx y hy hindex
  have hx : x.dimension = d := of_decide_eq_true (List.mem_filter.1 hx).2
  have hy : y.dimension = d := of_decide_eq_true (List.mem_filter.1 hy).2
  cases x
  cases y
  simp_all

theorem length_indices (xs : List Deletion) :
    (indices .row xs).length + (indices .column xs).length = xs.length := by
  induction xs with
  | nil => rfl
  | cons x xs ih =>
      obtain ⟨d, i⟩ := x
      cases d <;> simp_all [indices] <;> omega

end Deletion

namespace Matrix

variable {m n k : Matrix} {J xs : List Deletion} {d : Dimension} {is : List Nat} {c i j r : Nat}

/-- What was active is what a trail deletes, each row or column once, and what is left. -/
theorem Trail.perm_active (h : Trail m xs n) (hm : m.WellFormed J) (d : Dimension) :
    (m.active d).Perm (Deletion.indices d xs ++ n.active d) := by
  have hwell := h.wellFormed hm
  obtain ⟨-, hnodup, hdisjoint⟩ := List.nodup_append'.1 hwell.nodup
  have hmem : ∀ i, ⟨d, i⟩ ∈ xs → i ∈ m.active d := by
    intro i hi
    rw [hm.mem_active, ← h.sameCells.hasElement_eq]
    exact ⟨hwell.hasElement d i (List.mem_append_right J hi), fun hJ => hdisjoint hJ hi⟩
  have hright : (Deletion.indices d xs ++ n.active d).Nodup := by
    apply (Deletion.nodup_indices hnodup d).append (hwell.nodup_active d)
    intro i hi hactive
    exact ((h.mem_active_iff hm).1 hactive).2 (Deletion.mem_indices.1 hi)
  apply (List.perm_ext_iff_of_nodup (hm.nodup_active d) hright).2
  intro i
  rw [List.mem_append, Deletion.mem_indices, h.mem_active_iff hm]
  by_cases hi : ⟨d, i⟩ ∈ xs
  · exact iff_of_true (hmem i hi) (Or.inl hi)
  · simp [hi]

/-- The deletions are as many as the rows and columns that are not active any more. -/
theorem Trail.numActive_eq (h : Trail m xs n) (hm : m.WellFormed J) :
    m.numActive .row + m.numActive .column =
      xs.length + (n.numActive .row + n.numActive .column) := by
  have hwell := h.wellFormed hm
  have hrow := (h.perm_active hm .row).length_eq
  have hcolumn := (h.perm_active hm .column).length_eq
  rw [List.length_append] at hrow hcolumn
  rw [hm.numActive_eq, hm.numActive_eq, hwell.numActive_eq, hwell.numActive_eq, hrow, hcolumn,
    ← Deletion.length_indices xs]
  omega

theorem Trail.similar_of_nil (h : Trail m [] n) : m.Similar n := by
  generalize hxs : ([] : List Deletion) = xs at h
  cases h with
  | nil hsimilar => exact hsimilar
  | concat _ _ _ => simp at hxs

/-- What is left of the line of an active row or column. -/
theorem Trail.mem_line_iff (h : Trail m xs n) (hm : m.WellFormed J) (hi : i ∈ n.active d) :
    j ∈ n.line d i ↔ j ∈ m.line d i ∧ ⟨d.other, j⟩ ∉ xs := by
  have hactive := ((h.mem_active_iff hm).1 hi).1
  rw [(h.wellFormed hm).mem_line_iff hi, hm.mem_line_iff hactive, h.sameCells.meets_eq,
    h.mem_active_iff hm, and_assoc]

/-- Deleting rows leaves the lines of the rows alone, and so for columns. -/
theorem Trail.line_eq_of_map (h : Trail m (is.map fun i => ⟨d, i⟩) n) : n.line d = m.line d := by
  generalize hxs : (is.map fun i => (⟨d, i⟩ : Deletion)) = xs at h
  induction h generalizing is with
  | nil hsimilar => exact hsimilar.line_eq ▸ rfl
  | @concat xs n n' k e i _ hdelete hsimilar ih =>
      obtain ⟨is, js, rfl, hinit, hlast⟩ := List.map_eq_append_iff.1 hxs
      obtain ⟨j, rfl, hj⟩ := List.map_eq_singleton_iff.1 hlast
      cases hj
      rw [← hsimilar.line_eq, ← ih hinit]
      funext j
      exact (deleted_of_delete hdelete).line_self j

/-! ### Rows -/

theorem deletes_of_dropRowsFor (h : (m.dropRowsFor r is).result = .ok k) :
    Deletes (is.map fun s => ⟨.row, s⟩) m k := by
  induction is generalizing m with
  | nil =>
      cases h
      exact (Similar.refl _).deletes rfl
  | cons s is ih =>
      simp only [dropRowsFor, Traced.result_bind, Traced.result_liftM, bind_eq_ok_iff] at h
      obtain ⟨-, -, n, hn, h⟩ := h
      have hfirst := (deletes_of_delete hn).similar_left (similar_mark m .row s).symm rfl
      exact hfirst.trans (ih h)

theorem exists_deletes_of_thinRows {changed b : Bool}
    (h : (m.thinRows changed is).result = .ok (b, k)) :
    ∃ R : List Nat, Deletes (R.map fun s => ⟨.row, s⟩) m k ∧
      (b = true ↔ changed = true ∨ R ≠ []) := by
  induction is generalizing m changed with
  | nil =>
      cases h
      exact ⟨[], (Similar.refl _).deletes rfl, by simp⟩
  | cons r is ih =>
      rw [thinRows] at h
      split at h
      · exact ih h
      · simp only [Traced.result_bind, bind_eq_ok_iff] at h
        obtain ⟨n, hn, h⟩ := h
        obtain ⟨R, hR, hb⟩ := ih h
        refine ⟨m.dominatedRows r ++ R, ?_, ?_⟩
        · rw [List.map_append]
          exact (deletes_of_dropRowsFor hn).trans hR
        · rw [hb, Bool.or_eq_true, not_isEmpty_iff, append_ne_nil_iff, or_assoc]

theorem exists_deletes_of_dropDominatedRows {b : Bool}
    (h : m.dropDominatedRows.result = .ok (b, k)) :
    ∃ R : List Nat, Deletes (R.map fun s => ⟨.row, s⟩) m k ∧ (b = true ↔ R ≠ []) := by
  simp only [dropDominatedRows, Traced.result_bind, Traced.result_liftM, bind_eq_ok_iff] at h
  obtain ⟨⟨b', n⟩, hn, n', hn', h⟩ := h
  cases h
  obtain ⟨R, hR, hb⟩ := exists_deletes_of_thinRows hn
  obtain ⟨hsimilar, hjournal, -⟩ := similar_of_cleanAll hn'
  have htouch := (similar_clearMarks n .row).trans hsimilar
  refine ⟨R, ?_, by simpa using hb⟩
  have hdeletes := hR.trans (htouch.deletes hjournal)
  rwa [List.append_nil] at hdeletes

end Matrix

namespace Reduction

open SetCover.Matrix

variable {x y z : Reduction} {may : Comparator} {xs ys : List Deletion} {c : Nat}
variable {cs rs : List Nat} {changed b : Bool}

/-- The deletions `xs` lead from `x` to `y`, and the columns among them are listed. -/
structure Accounts (xs : List Deletion) (x y : Reduction) : Prop where
  deletes : Deletes xs x.matrix y.matrix
  exists_perm : ∃ N D, y.selected = x.selected ++ N ∧ y.dropped = x.dropped ++ D ∧
    (Deletion.indices .column xs).Perm (N ++ D)

namespace Accounts

theorem of_similar (h : x.matrix.Similar y.matrix) (hjournal : y.matrix.journal = x.matrix.journal)
    (hselected : y.selected = x.selected) (hdropped : y.dropped = x.dropped) : Accounts [] x y :=
  ⟨h.deletes hjournal, [], [], by rw [hselected, List.append_nil],
    by rw [hdropped, List.append_nil], .refl _⟩

theorem refl (x : Reduction) : Accounts [] x x := of_similar (.refl _) rfl rfl rfl

theorem trans (h : Accounts xs x y) (h' : Accounts ys y z) : Accounts (xs ++ ys) x z := by
  obtain ⟨N, D, hN, hD, hperm⟩ := h.exists_perm
  obtain ⟨N', D', hN', hD', hperm'⟩ := h'.exists_perm
  refine ⟨h.deletes.trans h'.deletes, N ++ N', D ++ D', ?_, ?_, ?_⟩
  · rw [hN', hN, List.append_assoc]
  · rw [hD', hD, List.append_assoc]
  · have hswap : ((N ++ D) ++ (N' ++ D')).Perm ((N ++ N') ++ (D ++ D')) := by
      rw [List.append_assoc, List.append_assoc]
      exact (List.perm_append_comm_assoc D N' D').append_left N
    rw [Deletion.indices_append]
    exact (hperm.append hperm').trans hswap

end Accounts

theorem accounts_of_select (h : (x.select c).result = .ok y) :
    Accounts (x.matrix.selection c) x y := by
  obtain ⟨k, hk, rfl⟩ := select_eq_ok_iff.1 h
  refine ⟨(deletes_of_select hk).1, [c], [], rfl, (List.append_nil _).symm, ?_⟩
  have hrows := Deletion.indices_map_other .column (x.matrix.line .column c)
  rw [selection, Deletion.indices_append]
  simp_all [Dimension.other, Deletion.indices]

/-! ### Dropping columns -/

/-- The columns `D` are dropped, and nothing else happens. -/
structure Drops (D : List Nat) (x y : Reduction) : Prop where
  deletes : Deletes (D.map fun c => ⟨.column, c⟩) x.matrix y.matrix
  selected_eq : y.selected = x.selected
  dropped_eq : y.dropped = x.dropped ++ D

namespace Drops

variable {D D' : List Nat}

theorem of_similar (h : x.matrix.Similar y.matrix) (hjournal : y.matrix.journal = x.matrix.journal)
    (hselected : y.selected = x.selected) (hdropped : y.dropped = x.dropped) : Drops [] x y :=
  ⟨h.deletes hjournal, hselected, by rw [hdropped, List.append_nil]⟩

theorem refl (x : Reduction) : Drops [] x x := of_similar (.refl _) rfl rfl rfl

theorem trans (h : Drops D x y) (h' : Drops D' y z) : Drops (D ++ D') x z := by
  refine ⟨?_, h'.selected_eq.trans h.selected_eq, ?_⟩
  · rw [List.map_append]
    exact h.deletes.trans h'.deletes
  · rw [h'.dropped_eq, h.dropped_eq, List.append_assoc]

theorem accounts (h : Drops D x y) : Accounts (D.map fun c => ⟨.column, c⟩) x y := by
  refine ⟨h.deletes, [], D, ?_, h.dropped_eq, ?_⟩
  · rw [h.selected_eq, List.append_nil]
  · rw [Deletion.indices_map, List.nil_append]

end Drops

theorem drops_of_drop (h : x.drop c = .ok y) : Drops [c] x y := by
  obtain ⟨k, hk, rfl⟩ := drop_eq_ok_iff.1 h
  exact ⟨deletes_of_delete hk, rfl, rfl⟩

theorem drops_mark (x : Reduction) (d : Dimension) (i : Nat) : Drops [] x (x.mark d i) :=
  .of_similar (similar_mark x.matrix d i) rfl rfl rfl

theorem drops_clearMarks (x : Reduction) (d : Dimension) : Drops [] x (x.clearMarks d) :=
  .of_similar (similar_clearMarks x.matrix d) rfl rfl rfl

theorem drops_of_dropAll (h : x.dropAll cs = .ok y) : Drops cs x y := by
  induction cs generalizing x with
  | nil =>
      cases h
      exact .refl _
  | cons c cs ih =>
      obtain ⟨x', hx', h⟩ := bind_eq_ok_iff.1 h
      exact (drops_of_drop hx').trans (ih h)

theorem exists_drops_of_thinColumns (h : (x.thinColumns may changed cs).result = .ok (b, y)) :
    ∃ D, Drops D x y ∧ (b = true ↔ changed = true ∨ D ≠ []) := by
  induction cs generalizing x changed with
  | nil =>
      cases h
      exact ⟨[], .refl _, by simp⟩
  | cons c cs ih =>
      rw [thinColumns] at h
      split at h
      · simp only [Traced.result_bind, Traced.result_liftM, bind_eq_ok_iff] at h
        obtain ⟨-, -, x', hx', h⟩ := h
        obtain ⟨D, hD, hb⟩ := ih h
        have hfirst := (drops_mark x .column c).trans (drops_of_drop hx')
        exact ⟨c :: D, hfirst.trans hD, by simp [hb]⟩
      · exact ih h

theorem exists_drops_of_dropDominatedColumns
    (h : (x.dropDominatedColumns may).result = .ok (b, y)) :
    ∃ D, Drops D x y ∧ (b = true ↔ D ≠ []) := by
  simp only [dropDominatedColumns, Traced.result_bind, Traced.result_liftM, bind_eq_ok_iff] at h
  obtain ⟨x', hx', ⟨b', z⟩, hz, h⟩ := h
  cases h
  obtain ⟨D, hD, hb⟩ := exists_drops_of_thinColumns hz
  have hdrops := ((drops_of_dropAll hx').trans hD).trans (drops_clearMarks z .column)
  rw [List.append_nil] at hdrops
  exact ⟨_, hdrops, by rw [hb, not_isEmpty_iff, append_ne_nil_iff]⟩

/-! ### Whole reductions -/

theorem exists_accounts_of_selectSingletons
    (h : (x.selectSingletons changed rs).result = .ok (b, y)) :
    ∃ xs, Accounts xs x y ∧ (b = true ↔ changed = true ∨ xs ≠ []) := by
  induction rs generalizing x changed with
  | nil =>
      cases h
      exact ⟨[], .refl _, by simp⟩
  | cons r rs ih =>
      rw [selectSingletons] at h
      split at h
      · exact ih h
      · split at h
        · exact ih h
        · rename_i c _
          split at h
          · exact ih h
          · simp only [Traced.result_bind, bind_eq_ok_iff] at h
            obtain ⟨-, -, x', hx', h⟩ := h
            obtain ⟨xs, hxs, hb⟩ := ih h
            have hfirst := (drops_mark x .column c).accounts.trans (accounts_of_select hx')
            refine ⟨_, hfirst.trans hxs, ?_⟩
            simp [hb, selection]

theorem exists_accounts_of_selectEssential (h : x.selectEssential.result = .ok (b, y)) :
    ∃ xs, Accounts xs x y ∧ (b = true ↔ xs ≠ []) := by
  simp only [selectEssential, Traced.result_bind, bind_eq_ok_iff] at h
  obtain ⟨⟨b', z⟩, hz, h⟩ := h
  cases h
  obtain ⟨xs, hxs, hb⟩ := exists_accounts_of_selectSingletons hz
  have haccounts := hxs.trans (drops_clearMarks z .column).accounts
  rw [List.map_nil, List.append_nil] at haccounts
  exact ⟨xs, haccounts, by simpa using hb⟩

theorem exists_accounts_of_dropDominatedRows (h : x.dropDominatedRows.result = .ok (b, y)) :
    ∃ xs, Accounts xs x y ∧ (b = true ↔ xs ≠ []) := by
  obtain ⟨m, selected, dropped⟩ := x
  simp only [dropDominatedRows, Traced.result_bind, bind_eq_ok_iff] at h
  obtain ⟨⟨b', k⟩, hk, h⟩ := h
  cases h
  obtain ⟨R, hR, hb⟩ := exists_deletes_of_dropDominatedRows hk
  refine ⟨_, ⟨hR, [], [], by simp, by simp, ?_⟩, by simpa using hb⟩
  exact .of_eq (Deletion.indices_map_other .column R)

/-- A pass over the three phases tells whether it has deleted something. -/
theorem exists_accounts_of_reduce (h : (x.reduce may).result = .ok (b, y)) :
    ∃ xs, Accounts xs x y ∧ (b = true ↔ xs ≠ []) := by
  simp only [reduce, Traced.result_bind, bind_eq_ok_iff] at h
  obtain ⟨⟨b₁, x₁⟩, hx₁, ⟨b₂, x₂⟩, hx₂, ⟨b₃, x₃⟩, hx₃, h⟩ := h
  cases h
  obtain ⟨D, hD, hb₁⟩ := exists_drops_of_dropDominatedColumns hx₁
  obtain ⟨xs, hxs, hb₂⟩ := exists_accounts_of_selectEssential hx₂
  obtain ⟨ys, hys, hb₃⟩ := exists_accounts_of_dropDominatedRows hx₃
  refine ⟨_, (hD.accounts.trans hxs).trans hys, ?_⟩
  rw [Bool.or_eq_true, Bool.or_eq_true, hb₁, hb₂, hb₃, append_ne_nil_iff, append_ne_nil_iff,
    ne_eq (D.map _), List.map_eq_nil_iff]

/-! ### The end of a reduction -/

/-- The passes that are made as long as one of them changes something lead from `x` to `y`. -/
inductive Settles (may : Comparator) : Reduction → Reduction → Prop
  | done {x y : Reduction} : (x.reduce may).result = .ok (false, y) → Settles may x y
  | again {x y z : Reduction} :
      (x.reduce may).result = .ok (true, z) → Settles may z y → Settles may x y

theorem settles_of_reduceTimes {fuel : Nat} (hx : x.matrix.IsReady)
    (hfuel : x.matrix.numActive .row + x.matrix.numActive .column < fuel)
    (h : (x.reduceTimes may fuel).result = .ok y) : Settles may x y := by
  induction fuel generalizing x with
  | zero => exact absurd hfuel (Nat.not_lt_zero _)
  | succ fuel ih =>
      simp only [reduceTimes, Traced.result_bind, bind_eq_ok_iff] at h
      obtain ⟨⟨changed, z⟩, hz, h⟩ := h
      obtain ⟨hreduces, hmarks⟩ := reduces_of_reduce hx hz
      obtain ⟨xs, hxs, hchanged⟩ := exists_accounts_of_reduce hz
      cases changed with
      | false =>
          cases h
          exact .done hz
      | true =>
          have hnumber := hxs.deletes.trail.numActive_eq hx.isValid
          have hpos := List.length_pos_iff.2 (hchanged.1 rfl)
          exact .again hz (ih (hx.advances hreduces.advances hmarks) (by omega) h)

/-- Reducing comes to an end, since each pass but the last one deletes something. -/
theorem settles_of_reduceFully (hx : x.matrix.IsReady) (h : (x.reduceFully may).result = .ok y) :
    Settles may x y :=
  settles_of_reduceTimes hx (Nat.lt_succ_self _) h

theorem Settles.exists_accounts (h : Settles may x y) : ∃ xs, Accounts xs x y := by
  induction h with
  | done h =>
      obtain ⟨xs, hxs, -⟩ := exists_accounts_of_reduce h
      exact ⟨xs, hxs⟩
  | again h _ ih =>
      obtain ⟨xs, hxs, -⟩ := exists_accounts_of_reduce h
      obtain ⟨ys, hys⟩ := ih
      exact ⟨_, hxs.trans hys⟩

end Reduction

end SetCover
