import SetCover.Proofs.Bound.Admissible
import SetCover.Proofs.Reduction.Survivors
import SetCover.Proofs.Search.Explores

/-!
# Optimality

A node of the search stands for the covers that have the columns chosen so far.  What is inherited
is a lower bound on what these cost, and so is what is estimated; a branch that is left out, like a
node that is pruned, holds no cover below such a bound.  So when a node has been explored and the
search was not stopped, no cover of the node costs less than the incumbent, or than the greatest
cost if there is none.
-/

namespace SetCover

open SetCover.Matrix

variable {root m n : Matrix} {J xs : List Deletion} {S : Finset Nat} {N : List Nat}
variable {c v w cost : Nat}

/-! ### Choosing a column -/

namespace TieBreaker

variable {α β : Type} [LT β] [DecidableLT β] {score : α → β} {candidates : List α}

theorem isSome_best_consider (t : TieBreaker α β) (candidate : α) (value : β) :
    (t.consider candidate value).best.isSome := by
  unfold consider
  split
  · rfl
  · rename_i hbest
    split
    · rfl
    · rw [hbest]
      rfl

theorem isSome_best_foldl {t : TieBreaker α β} (ht : t.best.isSome) (score : α → β)
    (candidates : List α) :
    (candidates.foldl (fun t c => t.consider c (score c)) t).best.isSome := by
  induction candidates generalizing t with
  | nil => exact ht
  | cons c candidates ih => exact ih (isSome_best_consider t c (score c))

theorem eq_nil_of_selectBy {d : Direction} (h : selectBy d score candidates = none) :
    candidates = [] := by
  cases candidates with
  | nil => rfl
  | cons c candidates =>
      have hsome := isSome_best_foldl (isSome_best_consider { direction := d } c (score c))
        score candidates
      rw [selectBy, select, Option.map_eq_none_iff] at h
      rw [List.foldl_cons] at h
      rw [h] at hsome
      cases hsome

end TieBreaker

/-- A selector chooses a column if there is a candidate. -/
theorem Selector.candidates_eq_nil {s : Selector} (h : (s.select m).1 = none) :
    m.candidates = [] := by
  cases s with
  | naive => exact TieBreaker.eq_nil_of_selectBy h
  | weighted weights => exact TieBreaker.eq_nil_of_selectBy h
  | costSensitive charges => exact TieBreaker.eq_nil_of_selectBy h

/-- Without candidates no active row is covered. -/
theorem Matrix.WellFormed.uncovered_eq_active_row (hm : m.WellFormed J)
    (hnone : m.candidates = []) : m.uncovered = m.active .row := by
  refine List.filter_eq_self.2 fun r hr => decide_eq_true ?_
  refine List.eq_nil_iff_forall_not_mem.2 fun c hc => ?_
  have hactive : c ∈ m.active .column := hm.mem_active_of_mem_line hr hc
  have hcount := hm.count_eq_length_of_mem_active hactive
  have hcandidate : c ∈ m.candidates := by
    rw [candidates, List.mem_filter]
    exact ⟨hactive, decide_eq_true (hcount ▸ List.length_pos_of_mem (hm.mem_line_other hr hc))⟩
  rw [hnone] at hcandidate
  exact List.not_mem_nil hcandidate

theorem Matrix.Covers.numActive_row_eq_zero (h : m.Covers S) (hm : m.WellFormed J)
    (hnone : m.candidates = []) : m.numActive .row = 0 := by
  rw [hm.numActive_eq, ← hm.uncovered_eq_active_row hnone, h.uncovered_eq_nil, List.length_nil]

/-! ### The number of active columns -/

theorem Matrix.Advances.length_active_le {d : Dimension} (h : m.Advances n) (hm : m.IsValid) :
    (n.active d).length ≤ (m.active d).length :=
  (List.subperm_of_subset ((h.isValid hm).nodup_active d) (h.active_subset hm d)).length_le

theorem Matrix.Trail.length_active_lt {d : Dimension} (h : Trail m xs n) (hm : m.WellFormed J)
    (hc : c ∈ m.active d) (hmem : ⟨d, c⟩ ∈ xs) : (n.active d).length < (m.active d).length := by
  have hsub : n.active d ⊆ (m.active d).erase c := by
    intro i hi
    obtain ⟨hi, hnot⟩ := (h.mem_active_iff hm).1 hi
    refine (List.mem_erase_of_ne ?_).2 hi
    rintro rfl
    exact hnot hmem
  have hle := (List.subperm_of_subset ((h.wellFormed hm).nodup_active d) hsub).length_le
  rw [List.length_erase_of_mem hc] at hle
  have hpos := List.length_pos_of_mem hc
  omega

/-! ### Nodes -/

namespace SearchState

variable {x y z : SearchState} {inherited depth fuel lower : Nat}

/-- What the chosen columns cost together with the columns of a set. -/
def worth (root : Matrix) (x : SearchState) (S : Finset Nat) : Nat :=
  (x.chosen.map root.costOf).sum + root.price S

/-- No cover of the node is worth less than `v`. -/
def IsBound (root : Matrix) (x : SearchState) (v : Nat) : Prop :=
  ∀ S, x.matrix.Covers S → v ≤ x.worth root S

/-- The chosen columns are taken on the way from the root. -/
structure IsNode (root : Matrix) (x : SearchState) : Prop where
  isReady : x.matrix.IsReady
  costs_eq : x.matrix.costs = root.costs
  picks : Picks x.chosen root x.matrix

theorem IsBound.mono (h : IsBound root x v) (hw : w ≤ v) : IsBound root x w :=
  fun S hS => hw.trans (h S hS)

theorem IsNode.costOf_eq (h : IsNode root x) : x.matrix.costOf = root.costOf := by
  funext c
  rw [costOf, costOf, h.costs_eq]

theorem IsNode.price_eq (h : IsNode root x) (S : Finset Nat) : x.matrix.price S = root.price S := by
  rw [price, price, h.costOf_eq]

theorem worth_append (hN : y.chosen = x.chosen ++ N) (S : Finset Nat) :
    y.worth root S = (x.chosen.map root.costOf).sum + ((N.map root.costOf).sum + root.price S) := by
  rw [worth, hN, List.map_append, List.sum_append, Nat.add_assoc]

theorem IsNode.saved (h : IsNode root x) : IsNode root x.saved := by
  have hpicks := h.picks.trans (similar_save x.matrix).picks
  rw [List.append_nil] at hpicks
  exact ⟨h.isReady.save, h.costs_eq, hpicks⟩

/-- Taking columns leads to a node with the same bounds. -/
theorem IsNode.of_picks (h : IsNode root x) (hp : Progress x y)
    (hpicks : Picks N x.matrix y.matrix) (hN : y.chosen = x.chosen ++ N) :
    IsNode root y ∧ ∀ v, IsBound root x v → IsBound root y v := by
  refine ⟨⟨hp.isReady h.isReady, hp.advances.costs_eq.trans h.costs_eq, ?_⟩, fun v hv S hS => ?_⟩
  · rw [hN]
    exact h.picks.trans hpicks
  · rw [worth_append hN]
    exact (hv _ (hpicks.completes S hS)).trans (Nat.add_le_add_left (price_union_le root N S) _)

theorem IsNode.returns (h : IsNode root x) (hy : Returns x y) : IsNode root y :=
  (h.of_picks hy.progress hy.resembles.similar.picks
    (hy.chosen_eq.trans (List.append_nil _).symm)).1

/-- The reductions at a node lead to a node with the same bounds. -/
theorem IsNode.of_evaluated (h : IsNode root x) (hev : Evaluated x inherited z cost lower) :
    IsNode root z ∧ ∀ v, IsBound root x v → IsBound root z v := by
  obtain ⟨N, hN, hreduces⟩ := hev.exists_reduces
  exact h.of_picks hev.progress (hreduces.picks h.isReady.isValid) hN

theorem IsNode.isBound_of_reducesTo (h : IsNode root x) (hred : ReducesTo N x.matrix y.matrix)
    (hN : y.chosen = x.chosen ++ N) (hv : IsBound root y v) : IsBound root x v := by
  intro S hS
  obtain ⟨T, hT, hle⟩ := hred.exists_covers S hS
  have hworth := hv T hT
  rw [worth_append hN] at hworth
  rw [h.costOf_eq, h.price_eq, h.price_eq] at hle
  exact hworth.trans (Nat.add_le_add_left hle _)

/-- The leaf below a node covers the root, and its columns are chosen once each. -/
theorem IsNode.coversOnce (h : IsNode root x) (hrows : x.matrix.numActive .row = 0) :
    root.CoversOnce x.chosen :=
  h.picks.coversOnce h.isReady.isValid hrows

/-- A solver whose comparator and lower bounds lose no optimum below the root. -/
structure Fits (root : Matrix) (s : Search) : Prop where
  admits : root.Admits s.dominance.comparator
  isIndependent : s.lowerBound.IsIndependent

theorem Fits.congr {s t : Search} (h : Fits root s) (hdominance : t.dominance = s.dominance)
    (hbound : t.lowerBound.IsIndependent) : Fits root t :=
  ⟨hdominance ▸ h.admits, hbound⟩

theorem Fits.agrees (h : Fits root x.search) (hagrees : Agrees x y)
    (hbound : y.search.lowerBound = x.search.lowerBound) : Fits root y.search :=
  h.congr hagrees.dominance_eq (hbound ▸ h.isIndependent)

theorem Fits.offer {s t : Search} {columns : List Nat} (h : Fits root s)
    (ht : (s.offer columns cost).result = .ok t) : Fits root t ∧ t.limit = min s.limit cost := by
  obtain ⟨hincumbent, -, hdominance, hbound⟩ := of_search_offer ht
  refine ⟨h.congr hdominance (hbound ▸ h.isIndependent), ?_⟩
  rcases hincumbent with ⟨hlt, hincumbent⟩ | ⟨hge, hincumbent⟩
  · rw [Search.limit, hincumbent]
    exact (min_eq_right hlt.le).symm
  · rw [min_eq_left hge, Search.limit, Search.limit, hincumbent]

/-- The reductions and the estimate at a node lead to a node whose bounds are bounds of the first,
and find one of them. -/
theorem IsNode.evaluated (h : IsNode root x) (hs : Fits root x.search)
    (hev : Evaluates x inherited depth z cost lower) (hinherited : IsBound root x inherited) :
    IsNode root z ∧ Fits root z.search ∧ z.search.limit = x.search.limit ∧
      IsBound root z lower ∧ (∀ v, IsBound root z v → IsBound root x v) ∧
      cost = (z.chosen.map root.costOf).sum ∧
      (z.matrix.active .column).length ≤ (x.matrix.active .column).length := by
  have hevaluated := hev.evaluated h.isReady
  have hagrees := hev.agrees
  obtain ⟨N, hN, hreduces⟩ := hevaluated.exists_reduces
  have hvalid := h.isReady.isValid
  have hadmits : x.matrix.Admits x.search.dominance.comparator := by
    refine ⟨hs.admits.congr, fun c hc b hb hmay => ?_⟩
    rw [hs.admits.congr x.matrix root h.costs_eq] at hmay
    rw [h.costOf_eq]
    have hactive := h.picks.active_subset
    exact hs.admits.costOf_le c (hactive hc) b (hactive hb) hmay
  have hreducesTo := hreduces.reducesTo hvalid hadmits
  obtain ⟨hz, hbounds⟩ := h.of_evaluated hevaluated
  obtain ⟨hcost, -⟩ := totalCost_eq_ok hevaluated.totalCost_eq
  rw [hz.costOf_eq] at hcost
  obtain ⟨bound, hlower, hestimate⟩ := hevaluated.exists_bound
  obtain ⟨hindependent, hbound⟩ := hs.isIndependent.estimate_le_price hz.isReady.isValid hestimate
  have hfits := hs.congr (t := z.search) hagrees.dominance_eq hindependent
  refine ⟨hz, hfits, hagrees.limit_eq, fun S hS => ?_, fun v hv =>
    h.isBound_of_reducesTo hreducesTo hN hv, hcost, hreduces.advances.length_active_le hvalid⟩
  rw [hlower]
  refine max_le (hbounds inherited hinherited S hS) ?_
  rw [Nat.add_comm, hcost, worth, ← hz.price_eq]
  exact Nat.add_le_add_left (hbound S hS) _

theorem saved_covers_iff (x : SearchState) (S : Finset Nat) :
    x.saved.matrix.Covers S ↔ x.matrix.Covers S := (similar_save x.matrix).covers_iff

/-- A branch of a node, which has fewer active columns. -/
structure IsBranch (root : Matrix) (x y : SearchState) : Prop where
  isNode : IsNode root y
  isBound : ∀ v, IsBound root x v → IsBound root y v
  length_lt : (y.matrix.active .column).length < (x.matrix.active .column).length
  agrees : Agrees x y
  lowerBound_eq : y.search.lowerBound = x.search.lowerBound

/-- The branch that selects column `c` has the covers with this column. -/
theorem IsNode.select (h : IsNode root x) (hy : (x.select c).result = .ok y) :
    IsBranch root x y ∧
      ∀ v, IsBound root y v → ∀ S, x.matrix.Covers S → c ∈ S → v ≤ x.worth root S := by
  obtain ⟨hselect, hchosen, hagrees, hbound⟩ := of_select hy
  obtain ⟨hdeletes, -, hlt, hdeleted⟩ := deletes_of_select hselect
  have hvalid := h.saved.isReady.isValid
  have hc : c ∈ x.saved.matrix.active .column := (hvalid.isDeleted_iff hlt).1 hdeleted
  obtain ⟨hnode, hbounds⟩ := h.saved.of_picks (progress_of_select hy)
    (hdeletes.trail.picks_of_select hvalid hc) hchosen
  have hlength := hdeletes.trail.length_active_lt hvalid hc (by simp [selection])
  refine ⟨⟨hnode, fun v hv => hbounds v fun S hS => hv S ((saved_covers_iff x S).1 hS), hlength,
    hagrees, hbound⟩, fun v hv S hS hcS => ?_⟩
  have hle := hv _ (((saved_covers_iff x S).2 hS).erase_of_select hcS hdeletes.trail hvalid)
  rwa [worth_append hchosen, List.map_singleton, List.sum_singleton,
    costOf_add_price_erase hcS] at hle

/-- The branch that deletes column `c` has the covers without this column. -/
theorem IsNode.reject (h : IsNode root x) (hy : (x.reject c).result = .ok y) :
    IsBranch root x y ∧
      ∀ v, IsBound root y v → ∀ S, x.matrix.Covers S → c ∉ S → v ≤ x.worth root S := by
  obtain ⟨hdelete, hchosen, hagrees, hbound⟩ := of_reject hy
  have htrail := (deletes_of_delete hdelete).trail
  have hvalid := h.saved.isReady.isValid
  have hc := hvalid.mem_active_of_deleted (deleted_of_delete hdelete)
  have hchosen' : y.chosen = x.saved.chosen ++ [] := hchosen.trans (List.append_nil _).symm
  obtain ⟨hnode, hbounds⟩ := h.saved.of_picks (progress_of_reject hy)
    (htrail.picks_of_column hvalid) hchosen'
  have hlength := htrail.length_active_lt hvalid hc (by simp)
  refine ⟨⟨hnode, fun v hv => hbounds v fun S hS => hv S ((saved_covers_iff x S).1 hS), hlength,
    hagrees, hbound⟩, fun v hv S hS hcS => ?_⟩
  have hle := hv S ((htrail.covers_iff_of_column hvalid).2 ⟨(saved_covers_iff x S).2 hS, hcS⟩)
  rwa [worth, hchosen] at hle

theorem Returns.worth_eq (hy : Returns x y) (S : Finset Nat) : y.worth root S = x.worth root S := by
  rw [worth, hy.chosen_eq, worth]

theorem Returns.isBound_iff (hy : Returns x y) : IsBound root y v ↔ IsBound root x v := by
  rw [IsBound, IsBound]
  simp only [hy.resembles.similar.covers_iff, hy.worth_eq]

/-- Before a branch is made, only selector, condition and counters change. -/
theorem returns_of_branchColumn (h : x.branchColumn = (some c, y)) : Returns x y.noteBranch := by
  obtain ⟨-, hmatrix, hchosen, -⟩ := of_branchColumn h
  exact ⟨hmatrix ▸ .refl _, hchosen⟩

theorem Fits.branchColumn (hs : Fits root x.search) (h : x.branchColumn = (some c, y)) :
    Fits root y.noteBranch.search ∧ y.noteBranch.search.limit = x.search.limit := by
  obtain ⟨-, -, -, hagrees, hbound⟩ := of_branchColumn h
  have hfits := hs.agrees hagrees hbound
  exact ⟨hfits.congr rfl hfits.isIndependent, hagrees.limit_eq⟩

/-- A cover has column `c` or not. -/
theorem Returns.isBound_of_branches (hy : Returns x y)
    (hwith : ∀ S, x.matrix.Covers S → c ∈ S → v ≤ x.worth root S)
    (hwithout : ∀ S, y.matrix.Covers S → c ∉ S → v ≤ y.worth root S) : IsBound root x v := by
  intro S hS
  by_cases hcS : c ∈ S
  · exact hwith S hS hcS
  · rw [← hy.worth_eq]
    exact hwithout S (hy.resembles.similar.covers_iff.2 hS) hcS

/-- What is known of a search below the root when it has explored the node `x`. -/
structure Settled (root : Matrix) (x y : SearchState) : Prop where
  fits : Fits root y.search
  limit_le : y.search.limit ≤ x.search.limit
  isBound : y.search.stopped = false → IsBound root x y.search.limit

theorem Settled.backtrack {k : Nat} (h : Settled root x z) (hback : z.backtrack k = .ok y) :
    Settled root x y := by
  obtain ⟨-, -, hagrees, hbound⟩ := of_backtrack hback
  refine ⟨h.fits.agrees hagrees hbound, hagrees.limit_eq ▸ h.limit_le, fun hstopped => ?_⟩
  rw [hagrees.limit_eq]
  exact h.isBound (hagrees.stopped_eq ▸ hstopped)

/-- A branch is explored with one unit of fuel less. -/
theorem IsBranch.settled {k : Nat} (h : IsBranch root x z) (hs : Fits root x.search)
    (hfuel : (x.matrix.active .column).length < fuel + 1) (hlower : IsBound root x lower)
    (hexplore : IsNode root z → Fits root z.search → (z.matrix.active .column).length < fuel →
      IsBound root z lower → Settled root z y₁) (hback : y₁.backtrack k = .ok y) :
    Settled root z y ∧ y.search.limit ≤ x.search.limit := by
  have hsettled := (hexplore h.isNode (hs.agrees h.agrees h.lowerBound_eq)
    (Nat.lt_of_lt_of_le h.length_lt (Nat.le_of_lt_succ hfuel)) (h.isBound _ hlower)).backtrack hback
  exact ⟨hsettled, hsettled.limit_le.trans h.agrees.limit_eq.le⟩

/-- No cover of an explored node is worth less than the incumbent. -/
theorem Explores.settled (h : Explores x inherited depth fuel y) (hx : IsNode root x)
    (hs : Fits root x.search) (hfuel : (x.matrix.active .column).length < fuel)
    (hinherited : IsBound root x inherited) : Settled root x y := by
  induction h with
  | exhausted => exact absurd hfuel (Nat.not_lt_zero _)
  | stopped hmet => exact ⟨hs.congr rfl hs.isIndependent, Nat.le_refl _, nofun⟩
  | pruned hev hprune =>
      obtain ⟨-, hfits, hlimit, hlower, hbounds, -⟩ := hx.evaluated hs hev hinherited
      exact ⟨hfits.congr rfl hfits.isIndependent, hlimit.le,
        fun _ => hbounds _ (hlower.mono hprune)⟩
  | leaf hev hlower hrows hoffer =>
      obtain ⟨hz, hfits, hlimit, -, hbounds, hcost, -⟩ := hx.evaluated hs hev hinherited
      obtain ⟨-, -, hsearch, -⟩ := of_offer hoffer
      obtain ⟨hfits', hmin⟩ := hfits.offer hsearch
      refine ⟨hfits', ?_, fun _ => hbounds _ fun S _ => ?_⟩
      · exact hmin.le.trans ((min_le_left _ _).trans hlimit.le)
      · exact (hmin.le.trans (min_le_right _ _)).trans (hcost.le.trans (Nat.le_add_right _ _))
  | stuck hev hrows hbranch =>
      obtain ⟨hz, hfits, hlimit, -, hbounds, -⟩ := hx.evaluated hs hev hinherited
      obtain ⟨hnone, -, -, hagrees, hbound⟩ := of_branchColumn hbranch
      have hfits' := hfits.agrees hagrees hbound
      refine ⟨hfits', (hagrees.limit_eq.trans hlimit).le,
        fun _ => hbounds _ fun S hS => absurd ?_ hrows⟩
      exact hS.numActive_row_eq_zero hz.isReady.isValid (Selector.candidates_eq_nil hnone)
  | branch hev hbranch hselect hchild hback hskip ih =>
      obtain ⟨hz, hfits, hlimit, hlower, hbounds, -, hlength⟩ := hx.evaluated hs hev hinherited
      have hreturns := returns_of_branchColumn hbranch
      obtain ⟨hfits', hlimit'⟩ := hfits.branchColumn hbranch
      obtain ⟨hsettled, hle⟩ := ((hz.returns hreturns).select hselect).1.settled hfits'
        (hreturns.resembles.similar.active_eq ▸ hlength.trans_lt hfuel)
        (hreturns.isBound_iff.2 hlower) ih hback
      exact ⟨hsettled.fits, hle.trans (hlimit'.trans hlimit).le,
        fun hstopped => hbounds _ (hlower.mono (hskip hstopped))⟩
  | branchTwice hev hbranch hselect hchild hback hunstopped hreject hchild' hback' ih ih' =>
      obtain ⟨hz, hfits, hlimit, hlower, hbounds, -, hlength⟩ := hx.evaluated hs hev hinherited
      have hreturns := returns_of_branchColumn hbranch
      obtain ⟨hfits', hlimit'⟩ := hfits.branchColumn hbranch
      have hw := hz.returns hreturns
      have hlower' := hreturns.isBound_iff.2 hlower
      have hfuel' := hreturns.resembles.similar.active_eq ▸ hlength.trans_lt hfuel
      obtain ⟨hselected, hwith⟩ := hw.select hselect
      obtain ⟨hsettled, hle⟩ := hselected.settled hfits' hfuel' hlower' ih hback
      have hreturns' := returns_of_explores hw.isReady (progress_of_select hselect)
        (fun hready => hchild.progress hready) hback
      obtain ⟨hrejected, hwithout⟩ := (hw.returns hreturns').reject hreject
      obtain ⟨hsettled', hle'⟩ := hrejected.settled hsettled.fits
        (hreturns'.resembles.similar.active_eq ▸ hfuel')
        (hreturns'.isBound_iff.2 hlower') ih' hback'
      refine ⟨hsettled'.fits, hle'.trans (hle.trans (hlimit'.trans hlimit).le), fun hstopped => ?_⟩
      have hfirst := hwith _ ((hsettled.isBound hunstopped).mono hle')
      have hsecond := hwithout _ (hsettled'.isBound hstopped)
      exact hbounds _ (hreturns.isBound_iff.1 (hreturns'.isBound_of_branches hfirst hsecond))

end SearchState

end SetCover
