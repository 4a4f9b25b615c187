import SetCover.Proofs.Search.Optimal

/-!
# Incumbents

Whatever the comparator allows and whatever the lower bounds are, an incumbent covers the matrix
that the search started from, and its columns are distinct.  This holds wherever the search is
stopped, since an incumbent is only replaced at a leaf.
-/

namespace SetCover

open SetCover.Matrix

namespace SearchState

variable {root : Matrix} {x y z : SearchState} {s t : Search} {columns : List Nat}
variable {inherited depth fuel cost lower c : Nat}

/-- The incumbent, if there is one, is a cover of the root at its price. -/
def Offers (root : Matrix) (s : Search) : Prop :=
  ∀ cover, s.incumbent = some cover →
    root.CoversOnce cover.columns ∧ cover.cost = (cover.columns.map root.costOf).sum

theorem Offers.congr (h : Offers root s) (hincumbent : t.incumbent = s.incumbent) :
    Offers root t := by
  intro cover hcover
  exact h cover (hincumbent.symm.trans hcover)

theorem Offers.offer (h : Offers root s) (hcovers : root.CoversOnce columns)
    (hcost : cost = (columns.map root.costOf).sum) (ht : (s.offer columns cost).result = .ok t) :
    Offers root t := by
  rcases (of_search_offer ht).1 with ⟨-, hincumbent⟩ | ⟨-, hincumbent⟩
  · intro cover hcover
    rw [hincumbent, Option.some.injEq] at hcover
    subst hcover
    exact ⟨hcovers, hcost⟩
  · exact h.congr hincumbent

/-- A node below the root, and a search whose incumbent covers the root. -/
structure IsOffering (root : Matrix) (x : SearchState) : Prop where
  isNode : IsNode root x
  offers : Offers root x.search

theorem IsOffering.evaluates (h : IsOffering root x)
    (hev : Evaluates x inherited depth z cost lower) : IsOffering root z := by
  have hnode := (h.isNode.of_evaluated (hev.evaluated h.isNode.isReady)).1
  exact ⟨hnode, h.offers.congr hev.agrees.incumbent_eq⟩

theorem IsOffering.noteBranch (h : IsOffering root x) (hbranch : x.branchColumn = (some c, y)) :
    IsOffering root y.noteBranch := by
  have hagrees := (of_branchColumn hbranch).2.2.2.1
  exact ⟨h.isNode.returns (returns_of_branchColumn hbranch), h.offers.congr hagrees.incumbent_eq⟩

theorem IsOffering.select (h : IsOffering root x) (hy : (x.select c).result = .ok y) :
    IsOffering root y := by
  have hbranch := (h.isNode.select hy).1
  exact ⟨hbranch.isNode, h.offers.congr hbranch.agrees.incumbent_eq⟩

theorem IsOffering.reject (h : IsOffering root x) (hy : (x.reject c).result = .ok y) :
    IsOffering root y := by
  have hbranch := (h.isNode.reject hy).1
  exact ⟨hbranch.isNode, h.offers.congr hbranch.agrees.incumbent_eq⟩

/-- Backtracking from a branch leads to the node again, with the incumbent of the branch. -/
theorem IsOffering.backtrack (h : IsOffering root x) (hreturns : Returns x y)
    (hz : Offers root z.search) (hy : z.backtrack x.chosen.length = .ok y) :
    IsOffering root y :=
  ⟨h.isNode.returns hreturns, hz.congr (of_backtrack hy).2.2.1.incumbent_eq⟩

/-- Wherever a node ends, the incumbent covers the root. -/
theorem Explores.offers (h : Explores x inherited depth fuel y) (hx : IsOffering root x) :
    Offers root y.search := by
  induction h with
  | exhausted => exact hx.offers
  | stopped => exact hx.offers.congr rfl
  | pruned hev => exact (hx.evaluates hev).offers.congr rfl
  | leaf hev _ hrows hoffer =>
      have hz := hx.evaluates hev
      obtain ⟨-, -, hsearch, -⟩ := of_offer hoffer
      have hcost := (totalCost_eq_ok (hev.evaluated hx.isNode.isReady).totalCost_eq).1
      rw [hz.isNode.costOf_eq] at hcost
      exact hz.offers.offer (hz.isNode.coversOnce hrows) hcost hsearch
  | stuck hev _ hbranch =>
      have hagrees := (of_branchColumn hbranch).2.2.2.1
      exact (hx.evaluates hev).offers.congr hagrees.incumbent_eq
  | branch hev hbranch hselect _ hback _ ih =>
      have hw := (hx.evaluates hev).noteBranch hbranch
      have hagrees := (of_backtrack hback).2.2.1
      exact (ih (hw.select hselect)).congr hagrees.incumbent_eq
  | branchTwice hev hbranch hselect hchild hback _ hreject _ hback' ih ih' =>
      have hw := (hx.evaluates hev).noteBranch hbranch
      have hreturns := returns_of_explores hw.isNode.isReady (progress_of_select hselect)
        (fun hready => hchild.progress hready) hback
      have hy := hw.backtrack hreturns (ih (hw.select hselect)) hback
      have hagrees := (of_backtrack hback').2.2.1
      exact (ih' (hy.reject hreject)).congr hagrees.incumbent_eq

end SearchState

end SetCover
