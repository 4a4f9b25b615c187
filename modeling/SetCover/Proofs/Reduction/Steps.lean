import SetCover.Proofs.Picks
import SetCover.Reduction

/-!
# Steps of a reduction

`Step may N m n` is a single deletion, or the deletions of one selection, that the reductions may
make with a comparator `may`; `N` holds the column that is selected.  `Reduces may N m n` is a run
of such steps.  Steps only say what is deleted and why, so they also hold for comparators that do
not look at costs.

`m.Admits may` says that the comparator looks at costs and indices alone, and prefers no column of
`m` that costs more.  Under this condition the covers are worth the same after a run of steps.
-/

namespace SetCover.Matrix

variable {m n k : Matrix} {may : Comparator} {N N' : List Nat} {v w : Nat}

/-- A step of a reduction, with the columns that it selects. -/
inductive Step (may : Comparator) : List Nat → Matrix → Matrix → Prop
  /-- Dirty flags and marks may change at any time. -/
  | touch {m n : Matrix} : m.Similar n → n.journal = m.journal → Step may [] m n
  | dropEmpty {m n : Matrix} {c : Nat} : m.line .column c = [] →
      Deletes [⟨.column, c⟩] m n → Step may [] m n
  | dropDominated {m n : Matrix} {c b : Nat} : c ∈ m.active .column → b ∈ m.active .column →
      b ≠ c → (∀ r ∈ m.line .column c, r ∈ m.line .column b) → may m c b →
      Deletes [⟨.column, c⟩] m n → Step may [] m n
  | select {m n : Matrix} {r c : Nat} : r ∈ m.active .row → m.line .row r = [c] →
      Deletes (m.selection c) m n → Step may [c] m n
  | dropRow {m n : Matrix} {r s : Nat} : r ∈ m.active .row → s ∈ m.active .row → s ≠ r →
      m.line .row r ≠ [] → (∀ c ∈ m.line .row r, c ∈ m.line .row s) →
      Deletes [⟨.row, s⟩] m n → Step may [] m n

/-- A run of steps, with the columns that it selects. -/
inductive Reduces (may : Comparator) (m : Matrix) : List Nat → Matrix → Prop
  | refl : Reduces may m [] m
  | concat {N N' : List Nat} {n k : Matrix} :
      Reduces may m N n → Step may N' n k → Reduces may m (N ++ N') k

theorem Step.reduces (h : Step may N m n) : Reduces may m N n := .concat .refl h

theorem Reduces.trans (h : Reduces may m N n) (h' : Reduces may n N' k) :
    Reduces may m (N ++ N') k := by
  induction h' with
  | refl => rwa [List.append_nil]
  | concat _ hstep ih =>
      rw [← List.append_assoc]
      exact ih.concat hstep

theorem Step.advances (h : Step may N m n) : m.Advances n := by
  cases h with
  | touch hsimilar hjournal => exact (hsimilar.deletes hjournal).advances
  | dropEmpty _ hd => exact hd.advances
  | dropDominated _ _ _ _ _ hd => exact hd.advances
  | select _ _ hd => exact hd.advances
  | dropRow _ _ _ _ _ hd => exact hd.advances

theorem Reduces.advances (h : Reduces may m N n) : m.Advances n := by
  induction h with
  | refl => exact .refl m
  | concat _ hstep ih => exact ih.trans hstep.advances

/-! ### Covers along a run -/

theorem Step.picks (h : Step may N m n) (hm : m.IsValid) : Picks N m n := by
  cases h with
  | touch hsimilar _ => exact hsimilar.picks
  | dropEmpty _ hd => exact hd.trail.picks_of_column hm
  | dropDominated _ _ _ _ _ hd => exact hd.trail.picks_of_column hm
  | select hr hline hd =>
      exact hd.trail.picks_of_select hm (hm.mem_active_of_mem_line hr (by simp [hline]))
  | dropRow hr hs hne _ hsub hd => exact hd.trail.picks_of_row hm hr hs hne hsub

/-- Whatever the comparator allows, the selected columns complete a cover of what is left. -/
theorem Reduces.picks (h : Reduces may m N n) (hm : m.IsValid) : Picks N m n := by
  induction h with
  | refl => exact .refl m
  | concat hrun hstep ih => exact ih.trans (hstep.picks (hrun.advances.isValid hm))

/-- The comparator looks at costs and indices alone, and allows to drop a column of the matrix only
for one that does not cost more. -/
structure Admits (m : Matrix) (may : Comparator) : Prop where
  congr : ∀ n k : Matrix, n.costs = k.costs → may n = may k
  costOf_le : ∀ c ∈ m.active .column, ∀ b ∈ m.active .column, may m c b →
    m.costOf b ≤ m.costOf c

theorem Admits.advances (h : m.Admits may) (hm : m.IsValid) (hn : m.Advances n) :
    n.Admits may := by
  refine ⟨h.congr, fun c hc b hb hmay => ?_⟩
  rw [h.congr n m hn.costs_eq] at hmay
  rw [hn.costOf_eq]
  exact h.costOf_le c (hn.active_subset hm _ hc) b (hn.active_subset hm _ hb) hmay

theorem admits_costAware (m : Matrix) : m.Admits DominanceRule.costAware.comparator := by
  refine ⟨fun n k hcosts => ?_, fun c _ b _ hmay => of_decide_eq_true hmay⟩
  funext c b
  refine decide_eq_decide.2 ?_
  rw [costOf, costOf, costOf, costOf, hcosts]

/-- Costs need not be looked at if all columns cost the same. -/
theorem admits_ignoreCost
    (h : ∀ c ∈ m.active .column, ∀ b ∈ m.active .column, m.costOf c = m.costOf b) :
    m.Admits DominanceRule.ignoreCost.comparator :=
  ⟨fun _ _ _ => rfl, fun c hc b hb _ => (h b hb c hc).le⟩

theorem Step.reducesTo (h : Step may N m n) (hm : m.IsValid) (hmay : m.Admits may) :
    ReducesTo N m n := by
  cases h with
  | touch hsimilar hjournal => exact hsimilar.reducesTo
  | dropEmpty hempty hd => exact hd.trail.reducesTo_of_empty hm hempty
  | dropDominated hc hb hne hsub hcost hd =>
      exact hd.trail.reducesTo_of_dominated hm hb hne hsub (hmay.costOf_le _ hc _ hb hcost)
  | select hr hline hd => exact hd.trail.reducesTo_of_essential hm hr hline
  | dropRow hr hs hne _ hsub hd => exact hd.trail.reducesTo_of_row hm hr hs hne hsub

/-- A run of steps keeps the worth of all covers. -/
theorem Reduces.reducesTo (h : Reduces may m N n) (hm : m.IsValid) (hmay : m.Admits may) :
    ReducesTo N m n := by
  induction h with
  | refl => exact .refl m
  | concat hrun hstep ih =>
      exact ih.trans (hstep.reducesTo (hrun.advances.isValid hm)
        (hmay.advances hm hrun.advances))

end SetCover.Matrix
