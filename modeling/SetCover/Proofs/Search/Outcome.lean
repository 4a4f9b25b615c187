import SetCover.Proofs.Search.Offers

/-!
# The outcome of a search

A run of the exact solver leaves the matrix as it was, up to dirty flags, and gives a cover of it,
whether the search found it or the greedy solver had to stand in.  If the search was not stopped,
this cover costs no more than any other.  A condition that is never met does not stop it.
-/

namespace SetCover

open SetCover.Matrix

variable {m n k : Matrix} {s t : Search} {condition : Condition} {outcome : Outcome}
variable {columns : List Nat} {S : Finset Nat} {v : Nat}

/-! ### Searches that nothing stops -/

namespace SearchState

variable {x y z : SearchState} {inherited depth fuel cost lower : Nat}

/-- If the condition is never met, it stays so, and the stop flag stays as it is. -/
def Persists (x y : SearchState) : Prop :=
  x.condition = .indefinite →
    y.condition = .indefinite ∧ y.search.stopped = x.search.stopped

theorem Persists.trans (h : Persists x y) (h' : Persists y z) : Persists x z := by
  intro hx
  obtain ⟨hy, hstopped⟩ := h hx
  obtain ⟨hz, hstopped'⟩ := h' hy
  exact ⟨hz, hstopped'.trans hstopped⟩

theorem Agrees.persists (h : Agrees x y) : Persists x y :=
  fun hx => ⟨h.condition_eq.trans hx, h.stopped_eq⟩

theorem persists_poll (x : SearchState) : Persists x x.poll := by
  intro hx
  refine ⟨?_, rfl⟩
  change x.condition.polled = _
  rw [hx]
  rfl

theorem persists_noteBranch (x : SearchState) : Persists x x.noteBranch := by
  intro hx
  refine ⟨?_, rfl⟩
  change x.condition.noteBranch = _
  rw [hx]
  rfl

theorem Evaluates.persists (h : Evaluates x inherited depth z cost lower) : Persists x z :=
  (persists_poll x).trans h.agrees.persists

theorem persists_of_offer (h : (x.offer cost).result = .ok y) : Persists x y := by
  obtain ⟨-, -, hsearch, hcondition⟩ := of_offer h
  exact fun hx => ⟨hcondition.trans hx, (of_search_offer hsearch).2.1⟩

theorem Explores.persists (h : Explores x inherited depth fuel y) : Persists x y := by
  induction h with
  | exhausted => exact fun hx => ⟨hx, rfl⟩
  | stopped hmet =>
      intro hx
      rw [hx] at hmet
      exact nomatch hmet
  | pruned hev => exact hev.persists
  | leaf hev _ _ hoffer =>
      have hpersists := persists_of_offer hoffer
      exact hev.persists.trans hpersists
  | stuck hev _ hbranch =>
      have hpersists := (of_branchColumn hbranch).2.2.2.1.persists
      exact hev.persists.trans hpersists
  | branch hev hbranch hselect _ hback _ ih =>
      have hbranch' := (of_branchColumn hbranch).2.2.2.1.persists.trans (persists_noteBranch _)
      have hchild := ((of_select hselect).2.2.1.persists.trans ih).trans
        (of_backtrack hback).2.2.1.persists
      exact (hev.persists.trans hbranch').trans hchild
  | branchTwice hev hbranch hselect _ hback _ hreject _ hback' ih ih' =>
      have hbranch' := (of_branchColumn hbranch).2.2.2.1.persists.trans (persists_noteBranch _)
      have hchild := ((of_select hselect).2.2.1.persists.trans ih).trans
        (of_backtrack hback).2.2.1.persists
      have hchild' := ((of_reject hreject).2.2.1.persists.trans ih').trans
        (of_backtrack hback').2.2.1.persists
      exact ((hev.persists.trans hbranch').trans hchild).trans hchild'

end SearchState

/-! ### Before and after the tree -/

namespace Search

open SearchState

theorem of_runGreedily (hm : m.IsReady) (h : (s.runGreedily m).result = .ok (columns, t, k)) :
    m.CoversOnce columns ∧ m.Resembles k ∧ t.incumbent = s.incumbent ∧
      t.stopped = s.stopped ∧ t.dominance = s.dominance ∧ t.lowerBound = s.lowerBound := by
  simp only [runGreedily, Traced.result_bind, bind_eq_ok_iff] at h
  obtain ⟨⟨columns', greedy, k'⟩, hgreedy, h⟩ := h
  cases h
  obtain ⟨hcovers, hresembles⟩ := Greedy.coversOnce_of_solveAndRestore hm hgreedy
  exact ⟨hcovers, hresembles, rfl, rfl, rfl, rfl⟩

/-- A warm start finds a cover of the matrix. -/
theorem of_warmUp (hm : m.IsReady) (h : (s.warmUp m).result = .ok (t, k)) :
    m.Resembles k ∧ t.stopped = s.stopped ∧ (Fits m s → Fits m t) ∧
      (Offers m s → Offers m t) := by
  rw [warmUp] at h
  split at h
  · simp only [Traced.result_bind, Traced.result_liftM, bind_eq_ok_iff] at h
    obtain ⟨⟨columns, s₁, k'⟩, hgreedy, cost, hcost, t', ht', h⟩ := h
    cases h
    obtain ⟨hcovers, hresembles, hincumbent, hstopped, hdominance, hbound⟩ :=
      of_runGreedily hm hgreedy
    obtain ⟨hcost, -⟩ := totalCost_eq_ok hcost
    rw [← hresembles.similar.costOf_eq] at hcost
    refine ⟨hresembles, (of_search_offer ht').2.1.trans hstopped, fun hfits => ?_,
      fun hoffers => (hoffers.congr hincumbent).offer hcovers hcost ht'⟩
    have hfits' := hfits.congr hdominance (hbound ▸ hfits.isIndependent)
    exact (hfits'.offer ht').1
  · cases h
    exact ⟨.refl m, rfl, id, id⟩

/-- The columns that are taken are a cover, and cost no more than the limit of the search, if they
have a price. -/
theorem of_takeIncumbent (hm : m.IsReady) (hn : m.Resembles n) (hs : Offers m s)
    (h : (s.takeIncumbent n).result = .ok (columns, t, k)) :
    m.Resembles k ∧ t.stopped = s.stopped ∧ m.CoversOnce columns ∧
      ((columns.map m.costOf).sum < Cost.limit → (columns.map m.costOf).sum ≤ s.limit) := by
  rw [takeIncumbent] at h
  split at h
  · rename_i cover hincumbent
    cases h
    obtain ⟨hcovers, hcost⟩ := hs cover hincumbent
    refine ⟨hn, rfl, hcovers, fun _ => ?_⟩
    rw [limit, hincumbent, ← hcost]
  · rename_i hincumbent
    obtain ⟨-, -, h⟩ := Traced.result_bind_eq_ok_iff.1 h
    obtain ⟨hcovers, hresembles, -, hstopped, -⟩ := of_runGreedily (hm.resembles hn) h
    rw [hn.similar.coversOnce_iff] at hcovers
    refine ⟨hn.trans hresembles, hstopped, hcovers, fun hlt => ?_⟩
    rw [limit, hincumbent]
    exact Nat.le_sub_one_of_lt hlt

/-- A run is a warm start, a tree, a way back, and a cover. -/
theorem of_solve (h : (s.solve m condition).result = .ok (outcome, t, k)) :
    ∃ s₁ m₁ found x m₂ columns, (s.reset.warmUp m).result = .ok (s₁, m₁) ∧
      (SearchState.explore { search := s₁, condition, matrix := m₁.save } 0 0
        (m₁.numActive .column + 1)).result = .ok (found, x) ∧
      x.matrix.restore = .ok m₂ ∧ (x.search.takeIncumbent m₂).result = .ok (columns, t, k) ∧
      k.totalCost columns = .ok outcome.cover.cost ∧ outcome.cover.columns = columns ∧
      outcome.isOptimal = !t.stopped := by
  simp only [solve, Traced.result_bind, Traced.result_liftM, bind_eq_ok_iff] at h
  obtain ⟨⟨s₁, m₁⟩, hwarm, ⟨found, x⟩, hexplore, m₂, hrestore, ⟨columns, t', k'⟩, htake, cover,
    hcover, h⟩ := h
  obtain ⟨cost, hcost, hcover⟩ := bind_eq_ok_iff.1 hcover
  cases hcover
  refine ⟨s₁, m₁, found, x, m₂, columns, hwarm, hexplore, hrestore, ?_⟩
  split at h
  · rename_i hstopped
    cases h
    exact ⟨htake, hcost, rfl, by rw [hstopped]; rfl⟩
  · rename_i hstopped
    cases h
    exact ⟨htake, hcost, rfl, by rw [Bool.eq_false_iff.2 hstopped]; rfl⟩

/-- Exploring from a checkpoint and going back to it changes dirty flags at most. -/
theorem resembles_of_explores {x : SearchState} {fuel : Nat} (hm : m.IsReady)
    (h : Explores { search := s, condition, matrix := m.save } 0 0 fuel x)
    (hk : x.matrix.restore = .ok k) : m.Resembles k := by
  obtain ⟨hprogress, -⟩ := h.progress hm.save
  exact hm.resembles_of_restore hprogress.advances hprogress.marks_eq hk

/-- The tree of a run starts at the matrix itself, with no column chosen. -/
structure IsRoot (m : Matrix) (s : Search) (condition : Condition) (x : SearchState) : Prop where
  isOffering : IsOffering m x
  similar : m.Similar x.matrix
  chosen_eq : x.chosen = []
  condition_eq : x.condition = condition
  stopped_eq : x.search.stopped = false
  fits : Fits m s → Fits m x.search

theorem isRoot_of_warmUp (hm : m.IsReady) (h : (s.reset.warmUp m).result = .ok (t, k))
    (condition : Condition) :
    IsRoot m s condition { search := t, condition, matrix := k.save } := by
  obtain ⟨hk, hstopped, hfits, hoffers⟩ := of_warmUp hm h
  have hsimilar : m.Similar k.save := hk.similar.trans (similar_save k)
  have hready : k.save.IsReady := (hm.resembles hk).save
  exact
    { isOffering := ⟨⟨hready, hsimilar.costs_eq.symm, hsimilar.picks⟩, hoffers nofun⟩
      similar := hsimilar
      chosen_eq := rfl
      condition_eq := rfl
      stopped_eq := hstopped
      fits := fun hs => hfits (hs.congr rfl hs.isIndependent) }

/-- What a run gives, in terms of the tree that it explores. -/
structure Ran (m : Matrix) (outcome : Outcome) (k : Matrix) (x : SearchState) : Prop where
  resembles : m.Resembles k
  coversOnce : m.CoversOnce outcome.cover.columns
  cost_eq : outcome.cover.cost = (outcome.cover.columns.map m.costOf).sum
  cost_le : outcome.cover.cost ≤ x.search.limit
  isOptimal_eq : outcome.isOptimal = !x.search.stopped

/-- A run explores the tree below the matrix, and gives a cover of it. -/
theorem exists_ran_of_solve (hm : m.IsReady)
    (h : (s.solve m condition).result = .ok (outcome, t, k)) :
    ∃ start x, IsRoot m s condition start ∧
      Explores start 0 0 (start.matrix.numActive .column + 1) x ∧ Ran m outcome k x := by
  obtain ⟨s₁, m₁, found, x, m₂, columns, hwarm, hexplore, hrestore, htake, hcost, hcolumns,
    hstopped⟩ := of_solve h
  have hexplores := explores_of_explore hexplore
  have hroot := isRoot_of_warmUp hm hwarm condition
  have hm₁ := (of_warmUp hm hwarm).1
  have hm₂ := hm₁.trans (resembles_of_explores (hm.resembles hm₁) hexplores hrestore)
  have hoffers := hexplores.offers hroot.isOffering
  obtain ⟨hk, hstopped', hcovers, hle⟩ := of_takeIncumbent hm hm₂ hoffers htake
  obtain ⟨hsum, hlt⟩ := totalCost_eq_ok hcost
  rw [← hk.similar.costOf_eq] at hsum
  refine ⟨_, x, hroot, hexplores, hk, hcolumns ▸ hcovers, hcolumns ▸ hsum, ?_, ?_⟩
  · rw [hsum] at hlt ⊢
    exact hle hlt
  · rw [hstopped, hstopped']

/-- A run leaves the matrix as it was. -/
theorem resembles_of_solve (hm : m.IsReady)
    (h : (s.solve m condition).result = .ok (outcome, t, k)) : m.Resembles k := by
  obtain ⟨start, x, -, -, hran⟩ := exists_ran_of_solve hm h
  exact hran.resembles

/-- Whatever the solver and the condition are, a run gives a cover. -/
theorem coversOnce_of_solve (hm : m.IsReady)
    (h : (s.solve m condition).result = .ok (outcome, t, k)) :
    m.CoversOnce outcome.cover.columns := by
  obtain ⟨start, x, -, -, hran⟩ := exists_ran_of_solve hm h
  exact hran.coversOnce

/-- A run that nothing stops proves its cover optimal. -/
theorem isOptimal_of_indefinite (hm : m.IsReady)
    (h : (s.solve m .indefinite).result = .ok (outcome, t, k)) : outcome.isOptimal = true := by
  obtain ⟨start, x, hroot, hexplores, hran⟩ := exists_ran_of_solve hm h
  obtain ⟨-, hpersists⟩ := hexplores.persists hroot.condition_eq
  rw [hran.isOptimal_eq, hpersists, hroot.stopped_eq]
  rfl

/-- A cover that is proved optimal costs what the cheapest covers cost. -/
theorem isOptimum_of_solve (hm : m.IsReady) (hmay : m.Admits s.dominance.comparator)
    (hbound : s.lowerBound.IsIndependent)
    (h : (s.solve m condition).result = .ok (outcome, t, k)) (hoptimal : outcome.isOptimal = true) :
    m.IsOptimum outcome.cover.cost := by
  obtain ⟨start, x, hroot, hexplores, hran⟩ := exists_ran_of_solve hm h
  have hstopped := hran.isOptimal_eq
  rw [hoptimal, eq_comm, Bool.not_eq_true'] at hstopped
  have hnode := hroot.isOffering.isNode
  have hfuel : (start.matrix.active .column).length < start.matrix.numActive .column + 1 := by
    rw [hnode.isReady.isValid.numActive_eq]
    exact Nat.lt_succ_self _
  have hsettled := hexplores.settled hnode (hroot.fits ⟨hmay, hbound⟩) hfuel
    fun S _ => Nat.zero_le _
  have hlimit : ∀ S, m.Covers S → outcome.cover.cost ≤ m.price S := by
    intro S hS
    have hle := hsettled.isBound hstopped S (hroot.similar.covers_iff.2 hS)
    rw [worth, hroot.chosen_eq, List.map_nil, List.sum_nil, Nat.zero_add] at hle
    exact hran.cost_le.trans hle
  have hcovers := hran.coversOnce.covers
  have hprice := price_toFinset_le m outcome.cover.columns
  rw [← hran.cost_eq] at hprice
  refine ⟨⟨outcome.cover.columns.toFinset, hcovers, hprice.antisymm (hlimit _ hcovers)⟩, ?_⟩
  rintro w ⟨S, hS, rfl⟩
  exact hlimit S hS

end Search

end SetCover
