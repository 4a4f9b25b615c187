import SetCover.Proofs.Compared
import SetCover.Proofs.Greedy.Run
import SetCover.Proofs.Search.Records

/-!
# The leftmost leaf

As long as a search has no incumbent, it selects what the greedy solver selects: both make the same
reductions and ask the same selector.  With bounds by independent rows no node is pruned on the way
to the leftmost leaf, if the active columns together cost less than the limit of the first search.
So either the search is stopped before it comes to a leaf, or the first incumbent that it records is
the greedy cover, with the columns in the same order.
-/

namespace SetCover

open SetCover.Matrix

variable {root m n k : Matrix} {S : Finset Nat} {N : List Nat} {J : List Deletion} {c : Nat}

/-! ### Prices of nodes -/

/-- What is taken and what covers the rest are different columns. -/
theorem Matrix.Picks.price_le (h : Picks N m k) (hm : m.WellFormed J) (hS : k.Covers S) :
    (N.map m.costOf).sum + m.price S ≤ ((m.active .column).map m.costOf).sum := by
  have hdisjoint : Disjoint N.toFinset S := by
    rw [Finset.disjoint_left]
    exact fun c hc hcS => h.notMem_active c (List.mem_toFinset.1 hc) (hS.subset_active c hcS)
  have hsubset : N.toFinset ∪ S ⊆ (m.active .column).toFinset := by
    intro c hc
    rw [List.mem_toFinset]
    rcases Finset.mem_union.1 hc with hc | hc
    · exact h.mem_active c (List.mem_toFinset.1 hc)
    · exact h.active_subset (hS.subset_active c hc)
  calc (N.map m.costOf).sum + m.price S
      = ∑ c ∈ N.toFinset ∪ S, m.costOf c := by
        rw [Finset.sum_union hdisjoint, List.sum_toFinset _ h.nodup, price]
    _ ≤ ∑ c ∈ (m.active .column).toFinset, m.costOf c := Finset.sum_le_sum_of_subset hsubset
    _ = ((m.active .column).map m.costOf).sum := List.sum_toFinset _ (hm.nodup_active _)

/-! ### Choosing a column -/

theorem Matrix.notMem_candidates (hm : m.WellFormed J) (hrows : m.numActive .row = 0) :
    c ∉ m.candidates := by
  intro hc
  obtain ⟨hactive, hcount⟩ := List.mem_filter.1 hc
  rw [decide_eq_true_eq, hm.count_eq_length_of_mem_active hactive] at hcount
  obtain ⟨r, hr⟩ := List.exists_mem_of_length_pos hcount
  have hmem := hm.mem_active_of_mem_line hactive hr
  rw [hm.numActive_eq, List.length_eq_zero_iff] at hrows
  exact List.not_mem_nil (hrows ▸ hmem)

namespace Matrix.InStep

theorem save_left (h : InStep True m n) : InStep True m.save n :=
  ⟨(similar_save m).sameElements.symm.trans h.sameElements, h.marks_eq, h.save.isValid_left,
    h.isValid_right, h.save.isCompared_left, h.isCompared_right, Or.inr trivial⟩

end Matrix.InStep

theorem Greedy.Ends.exists_reduce {g g' : Greedy} {x y : Reduction} (h : Ends g x g' y) :
    ∃ g₁ x₁, (g.reduce x).result = .ok (g₁, x₁) := by
  cases h with
  | done hreduce => exact ⟨_, _, hreduce⟩
  | choose hreduce => exact ⟨_, _, hreduce⟩

namespace SearchState

variable {x y z x₁ z' : SearchState} {r r₁ r₂ r' : Reduction} {g g₁ g' : Greedy}
variable {inherited depth fuel cost lower : Nat} {covers : List Cover} {selector : Selector}

/-- The search has come to the node `x` without an incumbent, as the greedy solver to `r`. -/
structure IsLeftmost (root : Matrix) (g : Greedy) (x : SearchState) (r : Reduction) : Prop where
  isNode : IsNode root x
  incumbent_eq : x.search.incumbent = none
  isIndependent : x.search.lowerBound.IsIndependent
  kind_eq : x.search.selector.kind = g.selector.kind
  dominance_eq : x.search.dominance = g.dominance
  abreast : Reduction.Abreast True ⟨x.matrix, x.chosen, []⟩ r
  exists_covers : ∃ S, x.matrix.Covers S

namespace IsLeftmost

theorem limit_eq (h : IsLeftmost root g x r) : x.search.limit = Cost.limit - 1 := by
  rw [Search.limit, h.incumbent_eq]

theorem abreast_of_evaluates (h : IsLeftmost root g x r)
    (hev : Evaluates x inherited depth z cost lower)
    (hreduce : (g.reduce r).result = .ok (g₁, r₁)) :
    Reduction.Abreast True ⟨z.matrix, z.chosen, []⟩ r₁ := by
  obtain ⟨x₁, bound, hx₁, -, hz, -⟩ := hev
  obtain ⟨⟨reduced, hmatrix, hselected, hreduced⟩, -⟩ := of_reduce hx₁
  obtain ⟨-, hmatrix', hchosen', -⟩ := of_estimate hz
  have hreduced' := (Greedy.of_reduce hreduce).1
  rw [← h.dominance_eq] at hreduced'
  have hsteps := h.abreast.reduceFully fun _ => x.search.dominance.isStable_comparator
  obtain ⟨b, hb, hab⟩ := hsteps.exists_of_result hreduced
  cases hb.symm.trans hreduced'
  rw [hmatrix', hchosen', ← hmatrix, ← hselected]
  exact ⟨⟨hab.matrix, hab.selected_eq⟩, hab.unmarked⟩

/-- The same happens at the node and in the greedy run, and the node is not pruned. -/
theorem evaluates (h : IsLeftmost root g x r) (hroot : root.IsValid)
    (hsum : ((root.active .column).map root.costOf).sum < Cost.limit - 1)
    (hinherited : inherited < Cost.limit - 1) (hev : Evaluates x inherited depth z cost lower)
    (hreduce : (g.reduce r).result = .ok (g₁, r₁)) :
    IsLeftmost root g₁ z r₁ ∧ lower < Cost.limit - 1 := by
  have hevaluated := hev.evaluated h.isNode.isReady
  have hnode := (h.isNode.of_evaluated hevaluated).1
  have halike := Greedy.alike_of_reduce hreduce
  obtain ⟨N, -, hreduces⟩ := hevaluated.exists_reduces
  obtain ⟨S, hS⟩ := h.exists_covers
  obtain ⟨T, hT⟩ := hreduces.exists_covers h.isNode.isReady.isValid hS
  obtain ⟨bound, hlower, hestimate⟩ := hevaluated.exists_bound
  obtain ⟨hindependent, hbound⟩ :=
    h.isIndependent.estimate_le_price hnode.isReady.isValid hestimate
  have hkind := congrArg Search.Settings.selector hev.settings_eq
  constructor
  · exact
      { isNode := hnode
        incumbent_eq := hev.agrees.incumbent_eq.trans h.incumbent_eq
        isIndependent := hindependent
        kind_eq := hkind.trans (h.kind_eq.trans halike.kind_eq.symm)
        dominance_eq :=
          hev.agrees.dominance_eq.trans (h.dominance_eq.trans halike.dominance_eq.symm)
        abreast := h.abreast_of_evaluates hev hreduce
        exists_covers := ⟨T, hT⟩ }
  · -- what is chosen and what covers the rest are active columns of the root
    obtain ⟨hcost, -⟩ := totalCost_eq_ok hevaluated.totalCost_eq
    have hle := (hbound T hT).trans_eq (hnode.price_eq T)
    have hprice := hnode.picks.price_le hroot hT
    rw [hnode.costOf_eq] at hcost
    omega

/-- The search branches on the column that the greedy solver chooses. -/
theorem branch (h : IsLeftmost root g x r) (hbranch : x.branchColumn = (some c, z'))
    (hselect : (z'.noteBranch.select c).result = .ok x₁)
    (hchoose : g.selector.select r.matrix = (some c, selector))
    (hselect' : (r.select c).result = .ok r₁) :
    IsLeftmost root ({ g with selector } : Greedy).countSelected x₁ r₁ ∧
      (x₁.matrix.active .column).length < (x.matrix.active .column).length := by
  have hnode := ((h.isNode.returns (returns_of_branchColumn hbranch)).select hselect).1
  obtain ⟨hcolumn, hmatrix, hchosen, hagrees, hbound⟩ := of_branchColumn hbranch
  obtain ⟨hselected, hchosen', hagrees', hbound'⟩ := of_select hselect
  obtain ⟨k, hk, rfl⟩ := Reduction.select_eq_ok_iff.1 hselect'
  have hselected : (x.matrix.save.select c).result = .ok x₁.matrix := hmatrix ▸ hselected
  have hc : c ∈ x.matrix.save.active .column := Selector.mem_active_of_select hcolumn
  obtain ⟨k', hk', hstep⟩ :=
    (h.abreast.matrix.save_left.select hc).exists_of_result hselected
  cases hk'.symm.trans hk
  obtain ⟨S, hS⟩ := h.exists_covers
  have hcovers := h.isNode.isReady.save.isValid.covers_of_select hselected
  have hkind : selector.kind = g.selector.kind := by
    have hkept := g.selector.kind_select r.matrix
    rwa [hchoose] at hkept
  have hnoted : z'.noteBranch.search.settings = z'.search.settings := rfl
  have hsettings := (settings_of_select hselect).trans
    (hnoted.trans (settings_of_branchColumn hbranch))
  have hselected_eq : r.selected ++ [c] = x₁.chosen := by
    rw [hchosen', h.abreast.selected_eq, ← hchosen]
    rfl
  constructor
  · exact
      { isNode := hnode.isNode
        incumbent_eq := hagrees'.incumbent_eq.trans (hagrees.incumbent_eq.trans h.incumbent_eq)
        isIndependent := hbound' ▸ hbound ▸ h.isIndependent
        kind_eq :=
          (congrArg Search.Settings.selector hsettings).trans (h.kind_eq.trans hkind.symm)
        dominance_eq := hagrees'.dominance_eq.trans (hagrees.dominance_eq.trans h.dominance_eq)
        abreast := ⟨⟨hstep, hselected_eq⟩, hnode.isNode.isReady.unmarked⟩
        exists_covers := ⟨_, hcovers.1 S ((similar_save _).covers_iff.2 hS)⟩ }
  · exact hcovers.2

/-- If the node is not a leaf, the first branch is the next choice of the greedy solver. -/
theorem descend (h : IsLeftmost root g x r) (hroot : root.IsValid)
    (hsum : ((root.active .column).map root.costOf).sum < Cost.limit - 1)
    (hinherited : inherited < Cost.limit - 1) (hends : Greedy.Ends g r g' r')
    (hev : Evaluates x inherited depth z cost lower) (hrows : z.matrix.numActive .row ≠ 0)
    (hbranch : z.branchColumn = (some c, z'))
    (hselect : (z'.noteBranch.select c).result = .ok x₁) :
    lower < Cost.limit - 1 ∧
      (x₁.matrix.active .column).length < (x.matrix.active .column).length ∧
      ∃ g₂ r₂, IsLeftmost root g₂ x₁ r₂ ∧ Greedy.Ends g₂ r₂ g' r' := by
  cases hends with
  | done hreduce _ hchoose =>
      obtain ⟨hz, -⟩ := h.evaluates hroot hsum hinherited hev hreduce
      obtain ⟨S, hS⟩ := hz.exists_covers
      have hnone := Selector.candidates_eq_nil hchoose
      rw [← hz.abreast.matrix.looksLike.candidates_eq] at hnone
      exact absurd (hS.numActive_row_eq_zero hz.isNode.isReady.isValid hnone) hrows
  | choose hreduce _ hchoose hselect' hends =>
      obtain ⟨hz, hlower⟩ := h.evaluates hroot hsum hinherited hev hreduce
      have hcolumn := (of_branchColumn hbranch).1
      rw [Selector.select_eq hz.abreast.matrix.looksLike hz.kind_eq, hchoose] at hcolumn
      cases hcolumn
      obtain ⟨hx₁, hlt⟩ := hz.branch hbranch hselect hchoose hselect'
      obtain ⟨N, -, hreduces⟩ := (hev.evaluated h.isNode.isReady).exists_reduces
      have hle := hreduces.advances.length_active_le (d := .column) h.isNode.isReady.isValid
      exact ⟨hlower, hlt.trans_le hle, _, _, hx₁, hends⟩

/-- At a leaf the greedy solver ends as well. -/
theorem leaf (h : IsLeftmost root g x r) (hroot : root.IsValid)
    (hsum : ((root.active .column).map root.costOf).sum < Cost.limit - 1)
    (hinherited : inherited < Cost.limit - 1) (hends : Greedy.Ends g r g' r')
    (hev : Evaluates x inherited depth z cost lower) (hrows : z.matrix.numActive .row = 0) :
    z.chosen = r'.selected ∧ cost = (r'.selected.map root.costOf).sum := by
  have hevaluated := hev.evaluated h.isNode.isReady
  obtain ⟨hcost, -⟩ := totalCost_eq_ok hevaluated.totalCost_eq
  rw [(h.isNode.of_evaluated hevaluated).1.costOf_eq] at hcost
  suffices hchosen : z.chosen = r'.selected from ⟨hchosen, hchosen ▸ hcost⟩
  cases hends with
  | done hreduce =>
      obtain ⟨hz, -⟩ := h.evaluates hroot hsum hinherited hev hreduce
      exact hz.abreast.selected_eq.symm
  | choose hreduce _ hchoose =>
      obtain ⟨hz, -⟩ := h.evaluates hroot hsum hinherited hev hreduce
      have hc := Selector.mem_candidates_of_select (congrArg Prod.fst hchoose)
      rw [← hz.abreast.matrix.looksLike.candidates_eq] at hc
      exact absurd hc (notMem_candidates hz.isNode.isReady.isValid hrows)

end IsLeftmost

/-- Unless it is stopped before, a search without an incumbent comes to the leaf that the greedy
solver comes to, and records it first. -/
theorem Visits.leftmost (h : Visits x inherited depth fuel y covers) (hroot : root.IsValid)
    (hsum : ((root.active .column).map root.costOf).sum < Cost.limit - 1)
    (hx : IsLeftmost root g x r) (hends : Greedy.Ends g r g' r')
    (hfuel : (x.matrix.active .column).length < fuel) (hinherited : inherited < Cost.limit - 1) :
    y.search.stopped = true ∧ covers = [] ∨
      covers.head? = some ⟨r'.selected, (r'.selected.map root.costOf).sum⟩ := by
  induction h generalizing g r with
  | exhausted => exact absurd hfuel (Nat.not_lt_zero _)
  | stopped => exact .inl ⟨rfl, rfl⟩
  | pruned hev hpruned =>
      obtain ⟨g₁, r₁, hreduce⟩ := hends.exists_reduce
      obtain ⟨hz, hlower⟩ := hx.evaluates hroot hsum hinherited hev hreduce
      rw [hz.limit_eq] at hpruned
      exact absurd hpruned (Nat.not_le_of_lt hlower)
  | leaf hopens hrows hoffer =>
      obtain ⟨hchosen, hcost⟩ := hx.leaf hroot hsum hinherited hends hopens.evaluates hrows
      rw [hopens.covers_eq hoffer, hchosen, hcost]
      exact .inr rfl
  | stuck hopens hrows hbranch =>
      obtain ⟨g₁, r₁, hreduce⟩ := hends.exists_reduce
      obtain ⟨hz, hlower⟩ := hx.evaluates hroot hsum hinherited hopens.evaluates hreduce
      obtain ⟨S, hS⟩ := hz.exists_covers
      have hnone := Selector.candidates_eq_nil (of_branchColumn hbranch).1
      exact absurd (hS.numActive_row_eq_zero hz.isNode.isReady.isValid hnone) hrows
  | branch hopens hrows hbranch hselect _ hback _ ih =>
      obtain ⟨hlower, hlt, g₂, r₂, hx₁, hends'⟩ :=
        hx.descend hroot hsum hinherited hends hopens.evaluates hrows hbranch hselect
      have hchild := ih hx₁ hends' (hlt.trans_le (Nat.le_of_lt_succ hfuel)) hlower
      rwa [← (of_backtrack hback).2.2.1.stopped_eq] at hchild
  | branchTwice hopens hrows hbranch hselect _ hback hgoes _ _ _ ih _ =>
      obtain ⟨hlower, hlt, g₂, r₂, hx₁, hends'⟩ :=
        hx.descend hroot hsum hinherited hends hopens.evaluates hrows hbranch hselect
      have hchild := ih hx₁ hends' (hlt.trans_le (Nat.le_of_lt_succ hfuel)) hlower
      rw [← (of_backtrack hback).2.2.1.stopped_eq, hgoes] at hchild
      have hhead := hchild.resolve_left fun h => nomatch h.1
      exact .inr (by rw [List.head?_append, hhead, Option.some_or])

end SearchState

end SetCover
