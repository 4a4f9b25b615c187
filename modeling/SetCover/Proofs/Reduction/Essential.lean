import SetCover.Proofs.Reduction.Compared
import SetCover.Proofs.Reduction.Survivors

/-!
# Essential columns

The second phase of a reduction collects the rows with a single column and selects their columns one
after the other.  To select a column deletes it with its rows, so it is gone from no row that is
left: these keep their columns.  Hence no row comes to have a single column, and a row that has been
collected and is not deleted still waits for the same column.

So what is selected is known beforehand: the columns that were essential, each once, in the order of
the first rows that have no other column.
-/

namespace SetCover

namespace Matrix

variable {m n k : Matrix} {J : List Deletion} {N N' rs rs' : List Nat} {a b c r s : Nat}

/-! ### What a selection leaves -/

/-- The columns `N` and the rows that have one of them are deleted, no others, and the rows that are
left keep their columns. -/
structure Leaves (N : List Nat) (m n : Matrix) : Prop where
  advances : m.Advances n
  mem_active_column : ∀ c, c ∈ n.active .column ↔ c ∈ m.active .column ∧ c ∉ N
  mem_active_row : ∀ r, r ∈ n.active .row ↔ r ∈ m.active .row ∧ ∀ c ∈ N, c ∉ m.line .row r
  line_eq : ∀ r ∈ n.active .row, n.line .row r = m.line .row r

theorem Similar.leaves (h : m.Similar n) (hjournal : n.journal = m.journal) : Leaves [] m n :=
  ⟨(h.deletes hjournal).advances, by simp [h.active_eq], by simp [h.active_eq],
    fun r _ => by rw [h.line_eq]⟩

theorem Leaves.refl (m : Matrix) : Leaves [] m m := (Similar.refl m).leaves rfl

theorem Leaves.trans (h : Leaves N m n) (h' : Leaves N' n k) : Leaves (N ++ N') m k := by
  refine ⟨h.advances.trans h'.advances, fun c => ?_, fun r => ?_, fun r hr => ?_⟩
  · rw [h'.mem_active_column, h.mem_active_column, List.mem_append, not_or, and_assoc]
  · rw [h'.mem_active_row, List.forall_mem_append, ← and_assoc, ← h.mem_active_row]
    exact and_congr_right fun hr => by rw [h.line_eq r hr]
  · rw [h'.line_eq r hr, h.line_eq r ((h'.mem_active_row r).1 hr).1]

/-- The rows that are left when a column is selected did not have it. -/
theorem Deletes.leaves_of_select (h : Deletes (m.selection c) m n) (hm : m.IsValid)
    (hc : c ∈ m.active .column) : Leaves [c] m n := by
  have hrow : ∀ r, r ∈ n.active .row ↔ r ∈ m.active .row ∧ c ∉ m.line .row r := by
    intro r
    rw [h.trail.mem_active_iff hm, mem_selection_row]
    exact and_congr_right fun hr =>
      not_congr ⟨fun hmem => hm.mem_line_other hc hmem, fun hmem => hm.mem_line_other hr hmem⟩
  refine ⟨h.advances, fun b => ?_, fun r => ?_, fun r hr => ?_⟩
  · rw [h.trail.mem_active_iff hm, mem_selection_column, List.mem_singleton]
  · rw [hrow, List.forall_mem_singleton]
  · obtain ⟨hactive, hnot⟩ := (hrow r).1 hr
    have hn := h.advances.isValid hm
    refine List.Pairwise.eq_of_mem_iff (hn.ascending .row r (hn.lt_size_of_mem_active hr))
      (hm.ascending .row r (hm.lt_size_of_mem_active hactive)) fun b => ?_
    rw [h.trail.mem_line_iff hm hr]
    refine and_iff_left_of_imp fun hb hdeleted => hnot ?_
    rwa [← mem_selection_column.1 hdeleted]

/-! ### Rows with a single column -/

/-- Row `r` is active, and `c` is its only column. -/
def IsSingleton (m : Matrix) (r c : Nat) : Prop := r ∈ m.active .row ∧ m.line .row r = [c]

theorem IsSingleton.mem_line (h : m.IsSingleton r c) : c ∈ m.line .row r := by
  rw [h.2]
  exact List.mem_singleton_self c

theorem IsSingleton.mem_active (h : m.IsSingleton r c) (hm : m.IsValid) :
    c ∈ m.active .column :=
  hm.mem_active_of_mem_line h.1 h.mem_line

theorem IsSingleton.eq (h : m.IsSingleton r a) (h' : m.IsSingleton r b) : a = b :=
  List.singleton_inj.1 (h.2.symm.trans h'.2)

/-- A selection makes no row a singleton, and leaves those whose column is not selected. -/
theorem Leaves.isSingleton_iff (h : Leaves N m n) :
    n.IsSingleton r c ↔ m.IsSingleton r c ∧ c ∉ N := by
  constructor
  · rintro ⟨hr, hline⟩
    rw [h.line_eq r hr] at hline
    obtain ⟨hactive, hnot⟩ := (h.mem_active_row r).1 hr
    refine ⟨⟨hactive, hline⟩, fun hc => hnot c hc ?_⟩
    rw [hline]
    exact List.mem_singleton_self c
  · rintro ⟨⟨hactive, hline⟩, hc⟩
    have hr : r ∈ n.active .row := by
      refine (h.mem_active_row r).2 ⟨hactive, fun a ha hmem => hc ?_⟩
      rw [hline] at hmem
      rwa [← List.mem_singleton.1 hmem]
    exact ⟨hr, (h.line_eq r hr).trans hline⟩

theorem WellFormed.isEssential_eq (hm : m.WellFormed J) (hc : c ∈ m.active .column) :
    m.isEssential c = .ok ((m.line .column c).any fun r => m.count .row r == 1) := by
  have hheader := HeaderRing.get_eq_ok_iff.2 ⟨hm.lt_size_of_mem_active hc, rfl⟩
  rw [isEssential, getLine, getHeader, hheader]
  rfl

/-- A column is essential if it is the only one of some row. -/
theorem WellFormed.isEssential_iff (hm : m.WellFormed J) (hc : c ∈ m.active .column) :
    m.isEssential c = .ok true ↔ ∃ r, m.IsSingleton r c := by
  rw [hm.isEssential_eq hc, Except.ok.injEq, List.any_eq_true]
  constructor
  · rintro ⟨r, hr, hcount⟩
    have hactive : r ∈ m.active .row := hm.mem_active_of_mem_line hc hr
    have hmem : c ∈ m.line .row r := hm.mem_line_other hc hr
    rw [beq_iff_eq, hm.count_eq_length_of_mem_active hactive, List.length_eq_one_iff] at hcount
    obtain ⟨a, ha⟩ := hcount
    rw [ha] at hmem
    exact ⟨r, hactive, by rw [ha, List.mem_singleton.1 hmem]⟩
  · rintro ⟨r, hr⟩
    refine ⟨r, hm.mem_line_other hr.1 hr.mem_line, ?_⟩
    rw [beq_iff_eq, hm.count_eq_length_of_mem_active hr.1, hr.2, List.length_singleton]

/-- Row `r` is the first of the rows `rs` of which `c` is the only column. -/
structure IsFirstSingleton (m : Matrix) (rs : List Nat) (c r : Nat) : Prop where
  mem : r ∈ rs ∧ m.IsSingleton r c
  le : ∀ s, s ∈ rs ∧ m.IsSingleton s c → r ≤ s

theorem exists_isFirstSingleton (h : ∃ r ∈ rs, m.IsSingleton r c) :
    ∃ r, m.IsFirstSingleton rs c r := by
  classical
  exact ⟨Nat.find h, Nat.find_spec h, fun s hs => Nat.find_min' h hs⟩

theorem IsFirstSingleton.unique (h : m.IsFirstSingleton rs c r) (h' : m.IsFirstSingleton rs c s) :
    r = s :=
  le_antisymm (h.le s h'.mem) (h'.le r h.mem)

theorem IsFirstSingleton.congr (h : m.IsFirstSingleton rs c r)
    (hrs : ∀ s, s ∈ rs ∧ m.IsSingleton s c ↔ s ∈ rs' ∧ n.IsSingleton s c) :
    n.IsFirstSingleton rs' c r :=
  ⟨(hrs r).1 h.mem, fun s hs => h.le s ((hrs s).2 hs)⟩

/-- The first of the rows `rs` with the only column `a` is above the first one with the only column
`b`. -/
def Precedes (m : Matrix) (rs : List Nat) (a b : Nat) : Prop :=
  ∃ r s, m.IsFirstSingleton rs a r ∧ m.IsFirstSingleton rs b s ∧ r < s

theorem Precedes.ne (h : m.Precedes rs a b) : a ≠ b := by
  rintro rfl
  obtain ⟨r, s, hr, hs, hlt⟩ := h
  exact hlt.ne (hr.unique hs)

theorem Precedes.congr (h : m.Precedes rs a b)
    (ha : ∀ s, s ∈ rs ∧ m.IsSingleton s a ↔ s ∈ rs' ∧ n.IsSingleton s a)
    (hb : ∀ s, s ∈ rs ∧ m.IsSingleton s b ↔ s ∈ rs' ∧ n.IsSingleton s b) :
    n.Precedes rs' a b := by
  obtain ⟨r, s, hr, hs, hlt⟩ := h
  exact ⟨r, s, hr.congr ha, hs.congr hb, hlt⟩

/-- The rows `rs` wait to be gone over.  Each is a singleton unless it is deleted, and all that is
marked is deleted. -/
structure IsPending (rs : List Nat) (m : Matrix) : Prop where
  isValid : m.IsValid
  marksDeleted : m.MarksDeleted .column
  ascending : rs.Pairwise (· < ·)
  lt_numRows : ∀ r ∈ rs, r < m.numRows
  exists_line_eq : ∀ r ∈ rs, r ∈ m.active .row → ∃ c, m.line .row r = [c]

namespace IsPending

theorem tail (h : IsPending (r :: rs) m) : IsPending rs m :=
  ⟨h.isValid, h.marksDeleted, (List.pairwise_cons.1 h.ascending).2,
    (List.forall_mem_cons.1 h.lt_numRows).2, (List.forall_mem_cons.1 h.exists_line_eq).2⟩

/-- The first row is a singleton whose column can be selected, if an earlier selection has not
deleted it. -/
theorem exists_isSingleton (h : IsPending (r :: rs) m) (hr : m.isDeleted .row r ≠ true) :
    ∃ c, m.IsSingleton r c ∧ m.isMarked .column c = false := by
  have hactive : r ∈ m.active .row := (h.isValid.isDeleted_iff
    (h.lt_numRows r List.mem_cons_self)).1 (Bool.eq_false_iff.2 hr)
  obtain ⟨c, hc⟩ := h.exists_line_eq r List.mem_cons_self hactive
  have hsingleton : m.IsSingleton r c := ⟨hactive, hc⟩
  exact ⟨c, hsingleton, Bool.eq_false_iff.2 fun hmarked =>
    h.marksDeleted c hmarked (hsingleton.mem_active h.isValid)⟩

theorem not_isSingleton (h : IsPending (r :: rs) m) (hr : m.isDeleted .row r = true) (c : Nat) :
    ¬m.IsSingleton r c := by
  intro hc
  rw [(h.isValid.isDeleted_iff (h.lt_numRows r List.mem_cons_self)).2 hc.1] at hr
  exact Bool.false_ne_true hr

/-- A selection leaves the rows pending if it marks only what it selects. -/
theorem leaves (h : IsPending rs m) (hn : Leaves N m n)
    (hmarks : ∀ a, n.isMarked .column a → a ∈ N ∨ m.isMarked .column a) : IsPending rs n where
  isValid := hn.advances.isValid h.isValid
  marksDeleted := by
    intro a ha hactive
    obtain ⟨hbefore, hnot⟩ := (hn.mem_active_column a).1 hactive
    exact h.marksDeleted a ((hmarks a ha).resolve_left hnot) hbefore
  ascending := h.ascending
  lt_numRows := hn.advances.sameCells.numRows_eq ▸ h.lt_numRows
  exists_line_eq := by
    intro r hr hactive
    rw [hn.line_eq r hactive]
    exact h.exists_line_eq r hr ((hn.mem_active_row r).1 hactive).1

end IsPending

end Matrix

/-! ### The phase -/

namespace Reduction

open SetCover.Matrix

variable {x y z : Reduction} {N rs rs' : List Nat} {c r : Nat} {changed b : Bool}

/-- From `x` to `y` the columns `N` are selected, which are those of the singletons among the rows
`rs`, in the order of the first such row. -/
structure TakesSingletons (rs N : List Nat) (x y : Reduction) : Prop where
  selected_eq : y.selected = x.selected ++ N
  leaves : Leaves N x.matrix y.matrix
  mem_iff : ∀ c, c ∈ N ↔ ∃ r ∈ rs, x.matrix.IsSingleton r c
  ordered : N.Pairwise (x.matrix.Precedes rs)

namespace TakesSingletons

theorem nil (x : Reduction) : TakesSingletons [] [] x x :=
  ⟨(List.append_nil _).symm, .refl x.matrix, by simp, .nil⟩

/-- Only the singletons among the rows matter. -/
theorem congr_rows (h : TakesSingletons rs N x y)
    (hrs : ∀ c s, s ∈ rs ∧ x.matrix.IsSingleton s c ↔ s ∈ rs' ∧ x.matrix.IsSingleton s c) :
    TakesSingletons rs' N x y := by
  refine ⟨h.selected_eq, h.leaves, fun c => ?_, h.ordered.imp fun hab => hab.congr (hrs _) (hrs _)⟩
  rw [h.mem_iff]
  exact exists_congr (hrs c)

theorem skip (h : TakesSingletons rs N x y) (hr : ∀ c, ¬x.matrix.IsSingleton r c) :
    TakesSingletons (r :: rs) N x y := by
  refine h.congr_rows fun c s => and_congr_left fun hs => ?_
  refine (List.mem_cons.trans (or_iff_right ?_)).symm
  rintro rfl
  exact hr c hs

/-- The column of a singleton comes first, and leaves the others as they are. -/
theorem take (h : TakesSingletons rs N z y) (hselected : z.selected = x.selected ++ [c])
    (hleaves : Leaves [c] x.matrix z.matrix) (hr : x.matrix.IsSingleton r c)
    (hlt : ∀ s ∈ rs, r < s) : TakesSingletons (r :: rs) (c :: N) x y := by
  have hmem : ∀ a s, s ∈ rs ∧ z.matrix.IsSingleton s a ↔
      (s ∈ r :: rs ∧ x.matrix.IsSingleton s a) ∧ a ≠ c := by
    intro a s
    rw [hleaves.isSingleton_iff, List.mem_singleton, ← and_assoc]
    refine and_congr_left fun hne => and_congr_left fun hs => ?_
    refine (List.mem_cons.trans (or_iff_right ?_)).symm
    rintro rfl
    exact hne (hs.eq hr)
  have hne : ∀ a ∈ N, a ≠ c := by
    intro a ha
    obtain ⟨s, hs⟩ := (h.mem_iff a).1 ha
    exact ((hmem a s).1 hs).2
  have hkept : ∀ a ∈ N, ∀ s, s ∈ rs ∧ z.matrix.IsSingleton s a ↔
      s ∈ r :: rs ∧ x.matrix.IsSingleton s a :=
    fun a ha s => (hmem a s).trans (and_iff_left (hne a ha))
  refine ⟨?_, hleaves.trans h.leaves, fun a => ?_, List.pairwise_cons.2 ⟨fun a ha => ?_, ?_⟩⟩
  · rw [h.selected_eq, hselected, List.append_assoc, List.singleton_append]
  · rw [List.mem_cons, h.mem_iff]
    by_cases hac : a = c
    · subst hac
      exact iff_of_true (Or.inl rfl) ⟨r, List.mem_cons_self, hr⟩
    · rw [or_iff_right hac]
      exact exists_congr fun s => (hmem a s).trans (and_iff_left hac)
  · -- all other rows come behind `r`, the first of those with the column `a` among them
    obtain ⟨t, ht⟩ := exists_isFirstSingleton ((h.mem_iff a).1 ha)
    refine ⟨r, t, ⟨⟨List.mem_cons_self, hr⟩, ?_⟩, ht.congr (hkept a ha), hlt t ht.mem.1⟩
    rintro s ⟨hs, -⟩
    rcases List.mem_cons.1 hs with rfl | hs
    · exact le_rfl
    · exact (hlt s hs).le
  · exact h.ordered.imp_of_mem fun ha hb hab => hab.congr (hkept _ ha) (hkept _ hb)

end TakesSingletons

/-- Going over pending rows selects the columns of those that are singletons. -/
theorem exists_takes_of_selectSingletons (hx : IsPending rs x.matrix)
    (hy : (x.selectSingletons changed rs).result = .ok (b, y)) :
    ∃ N, TakesSingletons rs N x y ∧ (b = true ↔ changed = true ∨ N ≠ []) := by
  induction rs generalizing x changed with
  | nil =>
      cases hy
      exact ⟨[], .nil _, by simp⟩
  | cons r rs ih =>
      rw [selectSingletons] at hy
      split at hy
      case isTrue hdeleted =>
        obtain ⟨N, hN, hb⟩ := ih hx.tail hy
        exact ⟨N, hN.skip (hx.not_isSingleton hdeleted), hb⟩
      case isFalse hdeleted =>
        obtain ⟨c, hc, hunmarked⟩ := hx.exists_isSingleton hdeleted
        simp only [hc.2, List.head?_cons, hunmarked, Bool.false_eq_true, if_false,
          Traced.result_bind, bind_eq_ok_iff] at hy
        obtain ⟨-, -, z, hz, hy⟩ := hy
        obtain ⟨hdeletes, hmarks, hselected, -⟩ := of_mark_select hz
        have hleaves := hdeletes.leaves_of_select hx.isValid (hc.mem_active hx.isValid)
        have hpending : IsPending rs z.matrix := by
          refine hx.tail.leaves hleaves fun a ha => ?_
          rw [isMarked, hmarks] at ha
          exact (isMarked_of_mark ha).imp_left List.mem_singleton.2
        obtain ⟨N, hN, hb⟩ := ih hpending hy
        have hlt := (List.pairwise_cons.1 hx.ascending).1
        exact ⟨c :: N, hN.take hselected hleaves hc hlt, by simp [hb]⟩

theorem exists_takes_of_selectEssential (hx : x.matrix.IsReady)
    (hy : x.selectEssential.result = .ok (b, y)) :
    ∃ N, TakesSingletons (x.matrix.active .row) N x y ∧ (b = true ↔ N ≠ []) := by
  simp only [selectEssential, Traced.result_bind, bind_eq_ok_iff] at hy
  obtain ⟨⟨b', z⟩, hz, hy⟩ := hy
  cases hy
  have hrows : ∀ r, r ∈ (x.matrix.active .row).filter (fun r => x.matrix.count .row r == 1) ↔
      r ∈ x.matrix.active .row ∧ ∃ c, x.matrix.line .row r = [c] := by
    intro r
    rw [List.mem_filter, beq_iff_eq]
    refine and_congr_right fun hr => ?_
    rw [hx.isValid.count_eq_length_of_mem_active hr, List.length_eq_one_iff]
  have hpending : IsPending ((x.matrix.active .row).filter fun r => x.matrix.count .row r == 1)
      x.matrix :=
    ⟨hx.isValid, marksDeleted_of_unmarked hx.unmarked .column,
      (hx.isValid.isOrdered .row).ascending.filter _,
      fun r hr => hx.isValid.lt_size_of_mem_active ((hrows r).1 hr).1,
      fun r hr _ => ((hrows r).1 hr).2⟩
  obtain ⟨N, hN, hb⟩ := exists_takes_of_selectSingletons hpending hz
  have hleaves := hN.leaves.trans ((similar_clearMarks z.matrix .column).leaves rfl)
  rw [List.append_nil] at hleaves
  have htakes : TakesSingletons _ N x (z.clearMarks .column) :=
    ⟨hN.selected_eq, hleaves, hN.mem_iff, hN.ordered⟩
  refine ⟨N, htakes.congr_rows fun c s => and_congr_left fun hs => ?_, by simpa using hb⟩
  exact (hrows s).trans (and_iff_left ⟨c, hs.2⟩)

/-- What the phase has selected are the columns of singletons, so if it selects none there are
none. -/
theorem length_ne_one_of_selectEssential (hx : x.matrix.IsReady)
    (hy : x.selectEssential.result = .ok (false, y)) (hr : r ∈ x.matrix.active .row) :
    (x.matrix.line .row r).length ≠ 1 := by
  intro hlength
  obtain ⟨c, hc⟩ := List.length_eq_one_iff.1 hlength
  obtain ⟨N, hN, hb⟩ := exists_takes_of_selectEssential hx hy
  exact Bool.false_ne_true (hb.2 (List.ne_nil_of_mem ((hN.mem_iff c).2 ⟨r, hr, hr, hc⟩)))

end Reduction

end SetCover
