import SetCover.Proofs.Covering

/-!
# Picking columns

`Picks N m k` says that the columns `N` were taken on the way from `m` to `k`.  They are distinct,
since a column that is taken is not active any more, and they complete every cover of `k` to one of
`m`.  So when no row is left, the columns that were taken cover `m`, each of them once.
-/

namespace SetCover.Matrix

variable {m n k : Matrix} {J : List Deletion} {N N' : List Nat} {c r s : Nat}

/-- The columns are distinct, and they cover the matrix. -/
structure CoversOnce (m : Matrix) (columns : List Nat) : Prop where
  nodup : columns.Nodup
  covers : m.Covers columns.toFinset

/-- The columns `N` are taken out of the active ones, and complete every cover of `k`. -/
structure Picks (N : List Nat) (m k : Matrix) : Prop where
  nodup : N.Nodup
  mem_active : ∀ c ∈ N, c ∈ m.active .column
  notMem_active : ∀ c ∈ N, c ∉ k.active .column
  active_subset : k.active .column ⊆ m.active .column
  completes : Completes N m k

namespace Picks

/-- If nothing is taken, only the covers matter. -/
theorem of_completes (hactive : k.active .column ⊆ m.active .column) (h : Completes [] m k) :
    Picks [] m k where
  nodup := List.nodup_nil
  mem_active := by simp
  notMem_active := by simp
  active_subset := hactive
  completes := h

theorem refl (m : Matrix) : Picks [] m m :=
  of_completes (List.Subset.refl _) (.refl m)

theorem trans (h : Picks N m n) (h' : Picks N' n k) : Picks (N ++ N') m k where
  nodup := by
    apply List.Nodup.append h.nodup h'.nodup
    intro c hc hc'
    exact h.notMem_active c hc (h'.mem_active c hc')
  mem_active := by
    intro c hc
    rcases List.mem_append.1 hc with hc | hc
    · exact h.mem_active c hc
    · exact h.active_subset (h'.mem_active c hc)
  notMem_active := by
    intro c hc hactive
    rcases List.mem_append.1 hc with hc | hc
    · exact h.notMem_active c hc (h'.active_subset hactive)
    · exact h'.notMem_active c hc hactive
  active_subset := fun c hc => h.active_subset (h'.active_subset hc)
  completes := h.completes.trans h'.completes

/-- When no row is left, what was taken covers the matrix. -/
theorem coversOnce (h : Picks N m k) (hk : k.WellFormed J) (hrows : k.numActive .row = 0) :
    m.CoversOnce N := by
  have hcovers := h.completes ∅ (hk.covers_empty hrows)
  rw [Finset.union_empty] at hcovers
  exact ⟨h.nodup, hcovers⟩

end Picks

theorem Similar.coversOnce_iff (h : m.Similar n) : n.CoversOnce N ↔ m.CoversOnce N := by
  constructor
  · intro hN
    exact ⟨hN.nodup, h.covers_iff.1 hN.covers⟩
  · intro hN
    exact ⟨hN.nodup, h.covers_iff.2 hN.covers⟩

theorem Similar.picks (h : m.Similar n) : Picks [] m n := by
  apply Picks.of_completes
  · rw [h.active_eq]
    exact List.Subset.refl _
  · exact h.reducesTo.completes

/-! ### Single deletions -/

theorem Trail.active_subset {xs : List Deletion} (h : Trail m xs n) (hm : m.WellFormed J)
    (d : Dimension) : n.active d ⊆ m.active d := by
  intro i hi
  exact ((h.mem_active_iff hm).1 hi).1

theorem Trail.picks_of_column (h : Trail m [⟨.column, c⟩] n) (hm : m.WellFormed J) :
    Picks [] m n :=
  .of_completes (h.active_subset hm _) (h.completes_of_column hm)

theorem Trail.picks_of_row (h : Trail m [⟨.row, s⟩] n) (hm : m.WellFormed J)
    (hr : r ∈ m.active .row) (hs : s ∈ m.active .row) (hne : s ≠ r)
    (hsub : ∀ c ∈ m.line .row r, c ∈ m.line .row s) : Picks [] m n :=
  .of_completes (h.active_subset hm _) (h.reducesTo_of_row hm hr hs hne hsub).completes

theorem Trail.picks_of_select (h : Trail m (m.selection c) n) (hm : m.WellFormed J)
    (hc : c ∈ m.active .column) : Picks [c] m n where
  nodup := List.nodup_singleton c
  mem_active := by
    intro b hb
    rwa [List.mem_singleton.1 hb]
  notMem_active := by
    intro b hb hactive
    rw [List.mem_singleton.1 hb] at hactive
    have hselected : ⟨.column, c⟩ ∈ m.selection c := by simp [selection]
    exact ((h.mem_active_iff hm).1 hactive).2 hselected
  active_subset := h.active_subset hm _
  completes := h.completes_of_select hm hc

end SetCover.Matrix
