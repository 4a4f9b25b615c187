import Mathlib.Algebra.BigOperators.Group.Finset.Basic
import Mathlib.Algebra.GroupWithZero.Nat
import Mathlib.Algebra.Order.BigOperators.Group.Finset
import Mathlib.Order.Lattice.Nat
import SetCover.Proofs.Matrix.Lines

/-!
# Covers of the active rows

A set of active columns covers a matrix if every active row has an element in one of them.  The
optimum is the least price of such a set; a matrix with a row that no active column covers has none.

`m.ReducesTo N k` says that the covers of `m` and those of `k` are worth the same, if the columns
`N` are paid for in `m`: every cover of `k` covers `m` together with `N`, and every cover of `m`
leaves one of `k` that is cheaper by the price of `N`.  Single deletions reduce in this sense under
the conditions of the three reductions, and reductions can be composed.
-/

namespace SetCover

/-- A sum that is computed item by item is the mathematical one. -/
theorem Cost.eq_add_sum_of_foldlM {α : Type} {step : Nat → α → Except Fault Nat} {f : α → Nat}
    (hstep : ∀ sum x v, step sum x = .ok v → v = sum + f x ∧ v < limit) {xs : List α} {a b : Nat}
    (h : xs.foldlM step a = .ok b) : b = a + (xs.map f).sum ∧ (a < limit → b < limit) := by
  induction xs generalizing a with
  | nil =>
      cases h
      exact ⟨rfl, id⟩
  | cons x xs ih =>
      rw [List.foldlM_cons] at h
      obtain ⟨v, hv, h⟩ := bind_eq_ok_iff.1 h
      obtain ⟨rfl, hlt⟩ := hstep a x v hv
      obtain ⟨rfl, hb⟩ := ih h
      exact ⟨by rw [List.map_cons, List.sum_cons, Nat.add_assoc], fun _ => hb hlt⟩

/-- A sum that is less than the limit is computed. -/
theorem Cost.foldlM_eq_ok {α : Type} {step : Nat → α → Except Fault Nat} {f : α → Nat}
    {xs : List α} (hstep : ∀ x ∈ xs, ∀ sum, sum + f x < limit → step sum x = .ok (sum + f x))
    {a : Nat} (h : a + (xs.map f).sum < limit) :
    xs.foldlM step a = .ok (a + (xs.map f).sum) := by
  induction xs generalizing a with
  | nil => rfl
  | cons x xs ih =>
      rw [List.map_cons, List.sum_cons, ← Nat.add_assoc] at h ⊢
      have hx := hstep x (by simp) a ((Nat.le_add_right _ _).trans_lt h)
      rw [List.foldlM_cons, hx]
      exact ih (fun y hy => hstep y (List.mem_cons_of_mem x hy)) h

namespace Matrix

variable {m n k : Matrix} {J xs : List Deletion} {N : List Nat} {S T : Finset Nat}
variable {c p r s v w : Nat}

/-- What the columns of a set cost together. -/
def price (m : Matrix) (S : Finset Nat) : Nat := ∑ c ∈ S, m.costOf c

/-- The set consists of active columns, and every active row has an element in one of them. -/
structure Covers (m : Matrix) (S : Finset Nat) : Prop where
  subset_active : ∀ c ∈ S, c ∈ m.active .column
  exists_mem_line : ∀ r ∈ m.active .row, ∃ c ∈ S, c ∈ m.line .row r

/-- The least price of a cover. -/
def IsOptimum (m : Matrix) (v : Nat) : Prop := IsLeast {w | ∃ S, m.Covers S ∧ m.price S = w} v

/-! ### Prices -/

theorem price_empty (m : Matrix) : m.price ∅ = 0 := rfl

theorem price_insert_le (m : Matrix) (c : Nat) (S : Finset Nat) :
    m.price (insert c S) ≤ m.costOf c + m.price S := by
  by_cases hc : c ∈ S
  · rw [Finset.insert_eq_of_mem hc]
    exact Nat.le_add_left _ _
  · exact (Finset.sum_insert hc).le

theorem price_union_le (m : Matrix) (N : List Nat) (S : Finset Nat) :
    m.price (N.toFinset ∪ S) ≤ (N.map m.costOf).sum + m.price S := by
  induction N with
  | nil => simp
  | cons c N ih =>
      rw [List.toFinset_cons, Finset.insert_union, List.map_cons, List.sum_cons, Nat.add_assoc]
      exact (price_insert_le m c _).trans (Nat.add_le_add_left ih _)

theorem costOf_add_price_erase (hc : c ∈ S) : m.costOf c + m.price (S.erase c) = m.price S :=
  Finset.add_sum_erase S m.costOf hc

theorem price_erase_le (m : Matrix) (c : Nat) (S : Finset Nat) :
    m.price (S.erase c) ≤ m.price S :=
  Finset.sum_le_sum_of_subset (Finset.erase_subset c S)

theorem totalCost_eq_ok {columns : List Nat} (h : m.totalCost columns = .ok v) :
    v = (columns.map m.costOf).sum ∧ v < Cost.limit := by
  have hstep : ∀ sum c w, (do Cost.add sum (← m.getCost c)) = .ok w →
      w = sum + m.costOf c ∧ w < Cost.limit := by
    intro sum c w hw
    obtain ⟨cost, hcost, hw⟩ := bind_eq_ok_iff.1 hw
    rw [getCost] at hcost
    split_ifs at hcost
    cases hcost
    obtain ⟨rfl, hlt⟩ := Cost.add_eq_ok_iff.1 hw
    exact ⟨rfl, hlt⟩
  obtain ⟨hv, hlt⟩ := Cost.eq_add_sum_of_foldlM hstep h
  exact ⟨by rw [hv, Nat.zero_add], hlt (by decide)⟩

/-- Columns whose costs together are a cost have a price. -/
theorem totalCost_eq_ok_of_lt {columns : List Nat} (hcolumns : ∀ c ∈ columns, c < m.costs.size)
    (hlt : (columns.map m.costOf).sum < Cost.limit) :
    m.totalCost columns = .ok (columns.map m.costOf).sum := by
  have hstep : ∀ c ∈ columns, ∀ sum, sum + m.costOf c < Cost.limit →
      (do Cost.add sum (← m.getCost c)) = .ok (sum + m.costOf c) := by
    intro c hc sum hsum
    rw [getCost, if_pos (hcolumns c hc)]
    exact Cost.add_eq_ok_iff.2 ⟨rfl, hsum⟩
  have hsum := Cost.foldlM_eq_ok hstep (a := 0) (by rwa [Nat.zero_add])
  rwa [Nat.zero_add] at hsum

/-- A list of columns costs what its set does at least. -/
theorem price_toFinset_le (m : Matrix) (N : List Nat) :
    m.price N.toFinset ≤ (N.map m.costOf).sum := by
  have h := price_union_le m N ∅
  rwa [Finset.union_empty, m.price_empty, Nat.add_zero] at h

/-! ### Optima -/

theorem Covers.le_of_isOptimum (h : m.Covers S) (hv : m.IsOptimum v) : v ≤ m.price S :=
  hv.2 ⟨S, h, rfl⟩

theorem exists_isOptimum_iff : (∃ v, m.IsOptimum v) ↔ ∃ S, m.Covers S := by
  constructor
  · rintro ⟨v, ⟨S, hS, -⟩, -⟩
    exact ⟨S, hS⟩
  · rintro ⟨S, hS⟩
    have hne : {w | ∃ S, m.Covers S ∧ m.price S = w}.Nonempty := ⟨_, S, hS, rfl⟩
    exact ⟨_, Nat.sInf_mem hne, fun w hw => Nat.sInf_le hw⟩

/-! ### Reducing -/

/-- The columns `N` complete every cover of `k` to one of `m`. -/
def Completes (N : List Nat) (m k : Matrix) : Prop :=
  ∀ S, k.Covers S → m.Covers (N.toFinset ∪ S)

theorem Completes.refl (m : Matrix) : Completes [] m m := fun S hS => by simpa using hS

theorem Completes.trans {N' : List Nat} (h : Completes N m n) (h' : Completes N' n k) :
    Completes (N ++ N') m k := by
  intro S hS
  rw [List.toFinset_append, Finset.union_assoc]
  exact h _ (h' S hS)

/-- The covers of `k` are worth what those of `m` are, once the columns `N` are paid for. -/
structure ReducesTo (N : List Nat) (m k : Matrix) : Prop where
  costOf_eq : k.costOf = m.costOf
  completes : Completes N m k
  exists_covers : ∀ S, m.Covers S → ∃ T, k.Covers T ∧ (N.map m.costOf).sum + m.price T ≤ m.price S

namespace ReducesTo

theorem refl (m : Matrix) : ReducesTo [] m m := ⟨rfl, .refl m, fun S hS => ⟨S, hS, by simp⟩⟩

theorem price_eq (h : ReducesTo N m k) : k.price = m.price := by
  funext S
  rw [price, price, h.costOf_eq]

theorem trans {N' : List Nat} (h : ReducesTo N m n) (h' : ReducesTo N' n k) :
    ReducesTo (N ++ N') m k := by
  refine ⟨h'.costOf_eq.trans h.costOf_eq, h.completes.trans h'.completes, fun S hS => ?_⟩
  obtain ⟨T, hT, hle⟩ := h.exists_covers S hS
  obtain ⟨T', hT', hle'⟩ := h'.exists_covers T hT
  rw [h.price_eq, h.costOf_eq] at hle'
  refine ⟨T', hT', ?_⟩
  rw [List.map_append, List.sum_append, Nat.add_assoc]
  exact (Nat.add_le_add_left hle' _).trans hle

theorem exists_isOptimum_iff (h : ReducesTo N m k) :
    (∃ v, m.IsOptimum v) ↔ ∃ w, k.IsOptimum w := by
  rw [Matrix.exists_isOptimum_iff, Matrix.exists_isOptimum_iff]
  constructor
  · rintro ⟨S, hS⟩
    obtain ⟨T, hT, -⟩ := h.exists_covers S hS
    exact ⟨T, hT⟩
  · rintro ⟨S, hS⟩
    exact ⟨_, h.completes S hS⟩

theorem eq_of_isOptimum (h : ReducesTo N m k) (hv : m.IsOptimum v) (hw : k.IsOptimum w) :
    v = (N.map m.costOf).sum + w := by
  apply Nat.le_antisymm
  · obtain ⟨S, hS, rfl⟩ := hw.1
    rw [h.price_eq]
    exact ((h.completes S hS).le_of_isOptimum hv).trans (price_union_le m N S)
  · obtain ⟨S, hS, rfl⟩ := hv.1
    obtain ⟨T, hT, hle⟩ := h.exists_covers S hS
    rw [← congrFun h.price_eq T] at hle
    exact (Nat.add_le_add_left (hT.le_of_isOptimum hw) _).trans hle

end ReducesTo

/-! ### Covers after deletions -/

theorem WellFormed.covers_iff (hm : m.WellFormed J) : m.Covers S ↔
    (∀ c ∈ S, c ∈ m.active .column) ∧ ∀ r ∈ m.active .row, ∃ c ∈ S, m.Meets .row r c := by
  constructor
  · intro h
    refine ⟨h.subset_active, fun r hr => ?_⟩
    obtain ⟨c, hc, hline⟩ := h.exists_mem_line r hr
    exact ⟨c, hc, ((hm.mem_line_iff hr).1 hline).1⟩
  · rintro ⟨hsubset, hhits⟩
    refine ⟨hsubset, fun r hr => ?_⟩
    obtain ⟨c, hc, hmeets⟩ := hhits r hr
    exact ⟨c, hc, (hm.mem_line_iff hr).2 ⟨hmeets, hsubset c hc⟩⟩

/-- Nothing is needed to cover no row. -/
theorem WellFormed.covers_empty (hm : m.WellFormed J) (hrows : m.numActive .row = 0) :
    m.Covers ∅ := by
  rw [hm.numActive_eq] at hrows
  have hempty : m.active .row = [] := List.length_eq_zero_iff.1 hrows
  exact ⟨by simp, by simp [hempty]⟩

/-- The covers after some deletions, in terms of the matrix before. -/
theorem Trail.covers_iff (h : Trail m xs n) (hm : m.WellFormed J) : n.Covers S ↔
    (∀ c ∈ S, c ∈ m.active .column ∧ ⟨.column, c⟩ ∉ xs) ∧
      ∀ r ∈ m.active .row, ⟨.row, r⟩ ∉ xs → ∃ c ∈ S, m.Meets .row r c := by
  rw [(h.wellFormed hm).covers_iff, h.sameCells.meets_eq]
  simp only [h.mem_active_iff hm, and_imp]

theorem Similar.covers_iff (h : m.Similar n) : n.Covers S ↔ m.Covers S := by
  constructor
  · rintro ⟨hsubset, hhits⟩
    rw [← h.active_eq] at hsubset hhits
    rw [← h.line_eq] at hhits
    exact ⟨hsubset, hhits⟩
  · rintro ⟨hsubset, hhits⟩
    rw [h.active_eq] at hsubset hhits
    rw [h.line_eq] at hhits
    exact ⟨hsubset, hhits⟩

theorem Similar.reducesTo (h : m.Similar n) : ReducesTo [] m n := by
  refine ⟨h.costOf_eq.symm, fun S hS => ?_, fun S hS => ⟨S, h.covers_iff.2 hS, by simp⟩⟩
  simpa using h.covers_iff.1 hS

/-- The covers without column `c` are those that are left when it is deleted. -/
theorem Trail.covers_iff_of_column (h : Trail m [⟨.column, c⟩] n) (hm : m.WellFormed J) :
    n.Covers S ↔ m.Covers S ∧ c ∉ S := by
  rw [h.covers_iff hm, hm.covers_iff]
  simp only [List.mem_singleton, Deletion.mk.injEq, true_and, reduceCtorEq, false_and,
    not_false_eq_true, forall_const]
  constructor
  · rintro ⟨hsubset, hhits⟩
    exact ⟨⟨fun c' hc' => (hsubset c' hc').1, hhits⟩, fun hc => (hsubset c hc).2 rfl⟩
  · rintro ⟨⟨hsubset, hhits⟩, hc⟩
    exact ⟨fun c' hc' => ⟨hsubset c' hc', fun heq => hc (heq ▸ hc')⟩, hhits⟩

theorem Trail.completes_of_column (h : Trail m [⟨.column, c⟩] n) (hm : m.WellFormed J) :
    Completes [] m n := by
  intro S hS
  simpa using ((h.covers_iff_of_column hm).1 hS).1

/-- A column may go if what it covers can be covered without it for the same money. -/
theorem Trail.reducesTo_of_column (h : Trail m [⟨.column, c⟩] n) (hm : m.WellFormed J)
    (hexchange : ∀ S, m.Covers S → c ∈ S → ∃ T, m.Covers T ∧ c ∉ T ∧ m.price T ≤ m.price S) :
    ReducesTo [] m n := by
  refine ⟨h.costOf_eq, h.completes_of_column hm, fun S hS => ?_⟩
  by_cases hc : c ∈ S
  · obtain ⟨T, hT, hcT, hle⟩ := hexchange S hS hc
    exact ⟨T, (h.covers_iff_of_column hm).2 ⟨hT, hcT⟩, by simpa using hle⟩
  · exact ⟨S, (h.covers_iff_of_column hm).2 ⟨hS, hc⟩, by simp⟩

theorem Trail.reducesTo_of_empty (h : Trail m [⟨.column, c⟩] n) (hm : m.WellFormed J)
    (hempty : m.line .column c = []) : ReducesTo [] m n := by
  refine h.reducesTo_of_column hm fun S hS hc => ⟨S.erase c, ⟨fun c' hc' => ?_, fun r hr => ?_⟩,
    Finset.notMem_erase c S, price_erase_le m c S⟩
  · exact hS.subset_active c' (Finset.mem_of_mem_erase hc')
  · obtain ⟨c', hc', hline⟩ := hS.exists_mem_line r hr
    refine ⟨c', Finset.mem_erase.2 ⟨?_, hc'⟩, hline⟩
    rintro rfl
    have hmem := hm.mem_line_other hr hline
    rw [Dimension.other, hempty] at hmem
    exact List.not_mem_nil hmem

/-- A column can be exchanged for one that has all its rows. -/
theorem Covers.exchange (h : m.Covers S) (hm : m.WellFormed J) {b : Nat}
    (hb : b ∈ m.active .column) (hsub : ∀ r ∈ m.line .column c, r ∈ m.line .column b) :
    m.Covers (insert b (S.erase c)) := by
  refine ⟨fun c' hc' => ?_, fun r hr => ?_⟩
  · rcases Finset.mem_insert.1 hc' with rfl | hc'
    · exact hb
    · exact h.subset_active c' (Finset.mem_of_mem_erase hc')
  · -- the rows that `c` covered are covered by `b` now
    obtain ⟨c', hc', hline⟩ := h.exists_mem_line r hr
    by_cases heq : c' = c
    · subst heq
      exact ⟨b, Finset.mem_insert_self _ _, hm.mem_line_other hb
        (hsub r (hm.mem_line_other hr hline))⟩
    · exact ⟨c', Finset.mem_insert_of_mem (Finset.mem_erase.2 ⟨heq, hc'⟩), hline⟩

theorem notMem_insert_erase {b : Nat} (hne : b ≠ c) : c ∉ insert b (S.erase c) := by
  rw [Finset.mem_insert, not_or]
  exact ⟨hne.symm, Finset.notMem_erase c S⟩

theorem Trail.reducesTo_of_dominated (h : Trail m [⟨.column, c⟩] n) (hm : m.WellFormed J)
    {b : Nat} (hb : b ∈ m.active .column) (hne : b ≠ c)
    (hsub : ∀ r ∈ m.line .column c, r ∈ m.line .column b) (hcost : m.costOf b ≤ m.costOf c) :
    ReducesTo [] m n := by
  refine h.reducesTo_of_column hm fun S hS hc =>
    ⟨insert b (S.erase c), hS.exchange hm hb hsub, notMem_insert_erase hne, ?_⟩
  calc m.price (insert b (S.erase c))
      ≤ m.costOf b + m.price (S.erase c) := price_insert_le m b _
    _ ≤ m.costOf c + m.price (S.erase c) := Nat.add_le_add_right hcost _
    _ = m.price S := costOf_add_price_erase hc

/-- A row that has all columns of another row makes no difference to the covers. -/
theorem Trail.covers_iff_of_row (h : Trail m [⟨.row, s⟩] n) (hm : m.WellFormed J)
    (hr : r ∈ m.active .row) (hs : s ∈ m.active .row) (hne : s ≠ r)
    (hsub : ∀ c ∈ m.line .row r, c ∈ m.line .row s) : n.Covers S ↔ m.Covers S := by
  rw [h.covers_iff hm, hm.covers_iff]
  simp only [List.mem_singleton, Deletion.mk.injEq, true_and, reduceCtorEq, false_and,
    not_false_eq_true, and_true]
  refine and_congr_right fun hsubset => ⟨fun hhits q hq => ?_, fun hhits q hq _ => hhits q hq⟩
  by_cases hqs : q = s
  · obtain ⟨c, hc, hmeets⟩ := hhits r hr hne.symm
    have hline := hsub c ((hm.mem_line_iff hr).2 ⟨hmeets, hsubset c hc⟩)
    exact ⟨c, hc, hqs ▸ ((hm.mem_line_iff hs).1 hline).1⟩
  · exact hhits q hq hqs

theorem Trail.reducesTo_of_row (h : Trail m [⟨.row, s⟩] n) (hm : m.WellFormed J)
    (hr : r ∈ m.active .row) (hs : s ∈ m.active .row) (hne : s ≠ r)
    (hsub : ∀ c ∈ m.line .row r, c ∈ m.line .row s) : ReducesTo [] m n := by
  refine ⟨h.costOf_eq, fun S hS => ?_, fun S hS =>
    ⟨S, (h.covers_iff_of_row hm hr hs hne hsub).2 hS, by simp⟩⟩
  simpa using (h.covers_iff_of_row hm hr hs hne hsub).1 hS

/-! ### Selecting a column -/

/-- The covers after column `c` is selected are those that cover the other rows without it. -/
theorem Trail.covers_iff_of_select (h : Trail m (m.selection c) n) (hm : m.WellFormed J)
    (hc : c ∈ m.active .column) : n.Covers S ↔ c ∉ S ∧ m.Covers (insert c S) := by
  have hmem : ∀ r, r ∈ m.active .row → (⟨.row, r⟩ ∈ m.selection c ↔ m.Meets .row r c) := by
    intro r hr
    have hline := hm.mem_line_iff hc (j := r)
    simp only [selection, List.mem_append, List.mem_map, Deletion.mk.injEq, true_and,
      exists_eq_right, List.mem_singleton, reduceCtorEq, false_and, or_false]
    rw [hline, ← meets_other]
    exact ⟨And.left, fun hmeets => ⟨hmeets, hr⟩⟩
  have hcolumn : ∀ c', (⟨.column, c'⟩ : Deletion) ∈ m.selection c ↔ c' = c := by
    intro c'
    simp [selection]
  rw [h.covers_iff hm, hm.covers_iff]
  simp only [hcolumn]
  constructor
  · rintro ⟨hsubset, hhits⟩
    refine ⟨fun hcS => (hsubset c hcS).2 rfl, fun c' hc' => ?_, fun r hr => ?_⟩
    · rcases Finset.mem_insert.1 hc' with rfl | hc'
      · exact hc
      · exact (hsubset c' hc').1
    · by_cases hmeets : m.Meets .row r c
      · exact ⟨c, Finset.mem_insert_self c S, hmeets⟩
      · obtain ⟨c', hc', hmeets'⟩ := hhits r hr fun hsel => hmeets ((hmem r hr).1 hsel)
        exact ⟨c', Finset.mem_insert_of_mem hc', hmeets'⟩
  · rintro ⟨hcS, hsubset, hhits⟩
    refine ⟨fun c' hc' => ⟨hsubset c' (Finset.mem_insert_of_mem hc'), fun heq => hcS (heq ▸ hc')⟩,
      fun r hr hsel => ?_⟩
    obtain ⟨c', hc', hmeets⟩ := hhits r hr
    rcases Finset.mem_insert.1 hc' with rfl | hc'
    · exact absurd ((hmem r hr).2 hmeets) hsel
    · exact ⟨c', hc', hmeets⟩

/-- Of a cover that has column `c`, the other columns are left when `c` is selected. -/
theorem Covers.erase_of_select (h : m.Covers S) (hcS : c ∈ S) (ht : Trail m (m.selection c) n)
    (hm : m.WellFormed J) : n.Covers (S.erase c) := by
  rw [ht.covers_iff_of_select hm (h.subset_active c hcS), Finset.insert_erase hcS]
  exact ⟨Finset.notMem_erase c S, h⟩

theorem Trail.completes_of_select (h : Trail m (m.selection c) n) (hm : m.WellFormed J)
    (hc : c ∈ m.active .column) : Completes [c] m n := by
  intro S hS
  simpa using ((h.covers_iff_of_select hm hc).1 hS).2

/-- A column that some row has no other than may be selected. -/
theorem Trail.reducesTo_of_essential (h : Trail m (m.selection c) n) (hm : m.WellFormed J)
    (hr : r ∈ m.active .row) (hline : m.line .row r = [c]) : ReducesTo [c] m n := by
  have hc : c ∈ m.active .column := hm.mem_active_of_mem_line hr (by simp [hline])
  refine ⟨h.costOf_eq, h.completes_of_select hm hc, fun S hS => ?_⟩
  obtain ⟨c', hc', hmem⟩ := hS.exists_mem_line r hr
  rw [hline, List.mem_singleton] at hmem
  subst hmem
  exact ⟨S.erase c', hS.erase_of_select hc' h hm, by simp [costOf_add_price_erase hc']⟩

end Matrix

end SetCover
