import SetCover.Proofs.Reuse
import SetCover.Proofs.Search.Leftmost

/-!
# The exact solver and the greedy one

The exact solver is never worse than the greedy one if it starts from its cover, or if its lower
bounds are by independent rows and the active columns together cost less than the greatest cost.
In the second case the first incumbent is the greedy cover, found by the search itself.  In any case
each incumbent is cheaper than those before, and the last one is the cover that the run gives; a
run without any gives the greedy cover.
-/

namespace SetCover

open SetCover.Matrix

variable {m n k k' : Matrix} {E : List (Nat × Nat)} {o : Options} {s t : Search}
variable {g g' h h' : Greedy} {columns columns' : List Nat} {covers covers' : List Cover}
variable {condition : Condition} {outcome outcome' : Outcome} {cover greedy : Cover}

/-! ### Prices -/

namespace Matrix

/-- Columns at their price. -/
def priced (m : Matrix) (columns : List Nat) : Cover := ⟨columns, (columns.map m.costOf).sum⟩

theorem eq_priced (hcolumns : cover.columns = columns)
    (hcost : cover.cost = (columns.map m.costOf).sum) : cover = m.priced columns := by
  cases cover
  cases hcolumns
  exact congrArg (Cover.mk _) hcost

theorem Reachable.totalCost_eq_ok (hm : Reachable E m)
    (hactive : ∀ c ∈ columns, c ∈ m.active .column)
    (hlt : (columns.map m.costOf).sum < Cost.limit) :
    m.totalCost columns = .ok (columns.map m.costOf).sum := by
  refine totalCost_eq_ok_of_lt (fun c hc => ?_) hlt
  rw [hm.size_costs_eq]
  exact hm.holds.grounded.isValid.lt_size_of_mem_active (hactive c hc)

theorem Reachable.coverOf_eq_ok (hm : Reachable E m) (hactive : ∀ c ∈ columns, c ∈ m.active .column)
    (hlt : (columns.map m.costOf).sum < Cost.limit) :
    m.coverOf columns = .ok (m.priced columns) := by
  rw [coverOf, hm.totalCost_eq_ok hactive hlt]
  rfl

theorem CoversOnce.price_le (h : m.CoversOnce columns) (hm : m.IsValid) :
    (columns.map m.costOf).sum ≤ ((m.active .column).map m.costOf).sum := by
  rw [← List.sum_toFinset _ h.nodup, ← List.sum_toFinset _ (hm.nodup_active _)]
  refine Finset.sum_le_sum_of_subset fun c hc => ?_
  exact List.mem_toFinset.2 (h.covers.subset_active c hc)

end Matrix

/-! ### Greedy covers -/

/-- Alike solvers select the same columns, whether they go back to the matrix or not. -/
theorem Greedy.Alike.columns_eq (hgh : Alike g h) (hmn : InStep True m n) (hm : m.Unmarked)
    (hsolve : (g.solve m).result = .ok (columns, g', k))
    (hrestore : (h.solveAndRestore n).result = .ok (columns', h', k')) : columns' = columns := by
  simp only [Greedy.solveAndRestore, Traced.result_bind, Traced.result_liftM,
    bind_eq_ok_iff] at hrestore
  obtain ⟨⟨columns₁, h₁, n₁⟩, hsolve', k₁, -, heq⟩ := hrestore
  cases heq
  obtain ⟨b, hb, hcolumns, -⟩ := (hgh.solve hmn.symm.save_left.symm hm).exists_of_result hsolve
  cases hb.symm.trans hsolve'
  exact hcolumns

namespace Search

/-- The exact solver uses the selector and the dominance rule of the greedy solver `g`, and falls
back on such a solver. -/
structure Mirrors (g : Greedy) (s : Search) : Prop where
  greedy : Greedy.Alike g s.greedy
  kind_eq : s.selector.kind = g.selector.kind
  dominance_eq : s.dominance = g.dominance

theorem Mirrors.congr (h : Mirrors g s) (ht : t.settings = s.settings) : Mirrors g t := by
  have hgreedy : Greedy.Alike s.greedy t.greedy :=
    ⟨congrArg Settings.greedySelector ht, congrArg Settings.greedyDominance ht⟩
  exact ⟨h.greedy.trans hgreedy, (congrArg Settings.selector ht).trans h.kind_eq,
    (congrArg Settings.dominance ht).trans h.dominance_eq⟩

theorem Used.mirrors (hs : Used o s) : Mirrors (.ofKinds o.selector o.dominance) s := by
  have hsettings := hs.settings_eq
  have hkind := Selector.kind_ofKind o.selector
  exact ⟨⟨(congrArg Settings.greedySelector hsettings).trans hkind.symm,
    congrArg Settings.greedyDominance hsettings⟩,
    (congrArg Settings.selector hsettings).trans hkind.symm,
    congrArg Settings.dominance hsettings⟩

/-! ### Incumbents and the cover of a run -/

/-- Every recorded incumbent is cheaper than those before, and the last one is the cover of the run,
or else the greedy cover is. -/
structure Settles (greedy : Cover) (outcome : Outcome) (covers : List Cover) : Prop where
  pairwise : (covers.map Cover.cost).Pairwise (· > ·)
  cover_eq : outcome.cover = covers.getLast?.getD greedy

namespace Settles

theorem cost_le_of_mem (h : Settles greedy outcome covers) (hcover : cover ∈ covers) :
    outcome.cover.cost ≤ cover.cost := by
  cases hlast : covers.getLast? with
  | none => exact absurd (List.getLast?_eq_none_iff.1 hlast) (List.ne_nil_of_mem hcover)
  | some last =>
      rw [h.cover_eq, hlast]
      exact Cover.cost_le_of_getLast? h.pairwise hlast hcover

theorem cost_le (h : Settles greedy outcome covers)
    (hfirst : ∀ first ∈ covers.head?, first.cost ≤ greedy.cost) :
    outcome.cover.cost ≤ greedy.cost := by
  cases covers with
  | nil => exact (congrArg Cover.cost h.cover_eq).le
  | cons first covers => exact (h.cost_le_of_mem (by simp)).trans (hfirst first rfl)

/-- A run that records what another one records, and maybe more, gives no cover that costs more,
if its first incumbent costs no more than the greedy cover. -/
theorem cost_le_of_isPrefix (h : Settles greedy outcome covers)
    (h' : Settles greedy outcome' covers') (hbegin : covers <+: covers')
    (hfirst : ∀ first ∈ covers'.head?, first.cost ≤ greedy.cost) :
    outcome'.cover.cost ≤ outcome.cover.cost := by
  rw [h.cover_eq]
  cases hlast : covers.getLast? with
  | none => exact h'.cost_le hfirst
  | some last => exact h'.cost_le_of_mem (hbegin.subset (List.mem_of_getLast? hlast))

end Settles

/-- The way back from the tree leads to a matrix in step with the one before. -/
theorem inStep_of_restore {x : SearchState} (hstep : InStep True m m) (hm : m.Unmarked)
    (hx : (s.tree m condition).Finds x covers) (hn : x.matrix.restore = .ok n) :
    InStep True m n ∧ m.Resembles n := by
  obtain ⟨events, hevents, -⟩ := hx
  have htree : Traced.Follows False _ (SearchState.Grown Eq m) _ _ :=
    Alike.tree (Eq.refl s.settings) hstep hm Condition.isKept_eq (Eq.refl condition)
  obtain ⟨y, hy, hgrown⟩ := htree.value x events hevents And.left
  cases hevents.symm.trans hy
  obtain ⟨a, b, ha, hb, hab, -, hresembles⟩ := hgrown.restore
  cases ha.symm.trans hn
  cases hb.symm.trans hn
  exact ⟨.of_resembles hresembles hstep hab, hresembles⟩

theorem eq_priced_of_coverOf (h : m.coverOf columns = .ok cover) : cover = m.priced columns := by
  obtain ⟨cost, hcost, hcover⟩ := bind_eq_ok_iff.1 h
  cases hcover
  exact eq_priced rfl (totalCost_eq_ok hcost).1

/-- The exact solver explores a tree below the matrix on which the greedy solver finds the
columns. -/
structure Contest (g : Greedy) (columns : List Nat) (m : Matrix) (s : Search)
    (condition : Condition) (x : SearchState) (covers : List Cover) : Prop where
  isReady : m.IsReady
  inStep : InStep True m m
  mirrors : Mirrors g s
  exists_solve : ∃ g' k, (g.solve m).result = .ok (columns, g', k)
  finds : (s.tree m condition).Finds x covers

namespace Contest

variable {x : SearchState}

/-- Wherever the solvers find the greedy cover, the columns are the same. -/
theorem columns_eq (h : Contest g columns m s condition x covers) (ht : t.settings = s.settings)
    (hmn : InStep True m n)
    (hrestore : (t.greedy.solveAndRestore n).result = .ok (columns', g', k)) :
    columns' = columns := by
  obtain ⟨g₁, k₁, hsolve⟩ := h.exists_solve
  exact (h.mirrors.congr ht).greedy.columns_eq hmn h.isReady.unmarked hsolve hrestore

/-- What is taken after the tree is the last incumbent, or else the greedy cover. -/
theorem settles (h : Contest g columns m s condition x covers)
    (hend : x.finish.Finds (outcome, t, k) []) : Settles (m.priced columns) outcome covers := by
  have hrecords := records_of_tree h.finds
  have hincumbent := hrecords.incumbent_eq
  rw [reset, Option.or_none] at hincumbent
  obtain ⟨s₁, k₁, warm, rest, hwarm, hvisits, -⟩ := exists_visits_of_tree h.finds
  have hoffers := hvisits.explores.offers
    (isRoot_of_warmUp h.isReady hwarm.result_eq condition).isOffering
  obtain ⟨-, n, taken, hn, htake, hcover, -⟩ := SearchState.of_finish hend
  obtain ⟨hmn, hresembles⟩ := inStep_of_restore h.inStep h.isReady.unmarked h.finds hn
  have hk := (of_takeIncumbent h.isReady hresembles hoffers htake).1
  have hpriced : outcome.cover = m.priced taken := by
    rw [eq_priced_of_coverOf hcover, priced, priced, hk.similar.costOf_eq]
  refine ⟨hrecords.pairwise, hpriced.trans ?_⟩
  rw [takeIncumbent] at htake
  split at htake
  · rename_i cover hlast
    cases htake
    obtain ⟨-, hcost⟩ := hoffers cover hlast
    rw [← hincumbent, hlast]
    exact (eq_priced rfl hcost).symm
  · rename_i hnone
    obtain ⟨-, -, hgreedy⟩ := Traced.result_bind_eq_ok_iff.1 htake
    obtain ⟨hrestore, -⟩ := solveAndRestore_of_runGreedily hgreedy
    rw [← hincumbent, hnone, h.columns_eq (settings_of_tree h.finds) hmn hrestore]
    rfl

/-- After a warm start no incumbent costs more than the greedy cover. -/
theorem first_le_of_warmStart (h : Contest g columns m s condition x covers)
    (hwarmStart : s.warmStart = true) :
    ∀ first ∈ covers.head?, first.cost ≤ (m.priced columns).cost := by
  have hrecords := records_of_tree h.finds
  obtain ⟨s₁, k, warm, rest, hwarm, -, hsplit⟩ := exists_visits_of_tree h.finds
  obtain ⟨taken, g₁, cost, hrestore, hcost, hcovers⟩ := (records_of_warmUp hwarm).2.2 hwarmStart
  have hk := (of_warmUp h.isReady hwarm.result_eq).1
  have hprice := (totalCost_eq_ok hcost).1
  rw [← hk.similar.costOf_eq, h.columns_eq (t := s.reset) rfl h.inStep hrestore] at hprice
  subst hsplit
  intro first hfirst
  by_cases hlt : cost < s.reset.limit
  · rw [if_pos hlt] at hcovers
    subst hcovers
    cases hfirst
    exact hprice.le
  · have hmem := hrecords.cost_lt first (List.mem_of_mem_head? hfirst)
    exact (hmem.trans_le (Nat.le_of_not_lt hlt)).le.trans hprice.le

/-- Without a warm start the first incumbent is the greedy cover. -/
theorem first_eq_of_isIndependent (h : Contest g columns m s condition x covers)
    (hwarmStart : s.warmStart = false) (hbound : s.lowerBound.IsIndependent)
    (hsum : ((m.active .column).map m.costOf).sum < Cost.limit - 1) :
    ∀ first ∈ covers.head?, first = m.priced columns := by
  obtain ⟨hm, hstep, hs, ⟨g', k', hg⟩, hx⟩ := h
  obtain ⟨s₁, k, warm, rest, hwarm, hvisits, rfl⟩ := exists_visits_of_tree hx
  obtain ⟨rfl, rfl, rfl⟩ := (records_of_warmUp hwarm).2.1 hwarmStart
  have hnode := (isRoot_of_warmUp hm hwarm.result_eq condition).isOffering.isNode
  have hcovers := (Greedy.coversOnce_of_solve hm hg).1.covers
  obtain ⟨y, hends, rfl⟩ := Greedy.ends_of_solve hm hg
  have hleftmost : SearchState.IsLeftmost k g
      { search := s.reset, condition, matrix := k.save } { matrix := k } :=
    { isNode := hnode
      incumbent_eq := rfl
      isIndependent := hbound
      kind_eq := hs.kind_eq
      dominance_eq := hs.dominance_eq
      abreast := ⟨⟨hstep.save_left, rfl⟩, hm.save.unmarked⟩
      exists_covers := ⟨_, (similar_save k).covers_iff.2 hcovers⟩ }
  have hfuel : (k.save.active .column).length < k.numActive .column + 1 := by
    rw [hm.isValid.numActive_eq]
    exact Nat.lt_succ_self _
  have hfirst := hvisits.leftmost hm.isValid hsum hleftmost hends hfuel (by decide)
  rw [List.nil_append]
  intro first hhead
  rcases hfirst with ⟨-, rfl⟩ | hfirst
  · exact nomatch hhead
  · rw [hfirst] at hhead
    exact (Option.some.inj hhead).symm

end Contest

/-- The conditions under which no incumbent costs more than the greedy cover. -/
def Improves (m : Matrix) (s : Search) : Prop :=
  s.warmStart = true ∨ s.lowerBound.IsIndependent ∧
    ((m.active .column).map m.costOf).sum < Cost.limit - 1

theorem Improves.first_le {x : SearchState} (hs : Improves m s)
    (h : Contest g columns m s condition x covers) :
    ∀ first ∈ covers.head?, first.cost ≤ (m.priced columns).cost := by
  cases hwarmStart : s.warmStart with
  | true => exact h.first_le_of_warmStart hwarmStart
  | false =>
      obtain ⟨hbound, hsum⟩ := hs.resolve_left (by rw [hwarmStart]; exact nofun)
      intro first hfirst
      rw [h.first_eq_of_isIndependent hwarmStart hbound hsum first hfirst]

end Search

namespace Search.Used

theorem warmStart_eq (hs : Used o s) : s.warmStart = o.warmStart :=
  congrArg Settings.warmStart hs.settings_eq

theorem isIndependent (hs : Used o s) (ho : .split ∉ o.lowerBounds) :
    s.lowerBound.IsIndependent := by
  have hkinds : s.lowerBound.kinds = o.lowerBounds := congrArg Settings.lowerBounds hs.settings_eq
  exact LowerBound.isIndependent_iff.2 (hkinds ▸ ho)

end Search.Used

namespace Matrix

/-- The incumbents that a run records get cheaper and cheaper, and the last one is the cover that it
gives, or else the cover of a new greedy solver is.  With a warm start, or with bounds by
independent rows, this costs no more than the greedy cover, which is the first incumbent if there is
no warm start.  Since the run gives a cover, every row has an element. -/
theorem Reachable.cost_le_greedy {events : List Event} (hm : Reachable E m)
    (hsum : ((m.active .column).map m.costOf).sum < Cost.limit - 1) (hs : Search.Used o s)
    (h : s.solve m condition = .ok ((outcome, t, k), events)) :
    ∃ (greedy : Cover) (g : Greedy) (n : Matrix),
      ((Greedy.ofKinds o.selector o.dominance).solve m).result = .ok (greedy.columns, g, n) ∧
      m.coverOf greedy.columns = .ok greedy ∧
      ((Event.incumbents events).map Cover.cost).Pairwise (· > ·) ∧
      outcome.cover = (Event.incumbents events).getLast?.getD greedy ∧
      (o.warmStart = true ∨ .split ∉ o.lowerBounds → outcome.cover.cost ≤ greedy.cost) ∧
      (o.warmStart = false → .split ∉ o.lowerBounds →
        ∀ first ∈ (Event.incumbents events).head?, first = greedy) := by
  have hready := hm.holds.grounded.isReady
  have hcovers := (Search.coversOnce_of_solve hready (congrArg Traced.result h)).covers
  obtain ⟨columns, g, n, hg⟩ := Greedy.exists_solve_eq_ok (.ofKinds o.selector o.dominance) hready
    hm.isCompared hcovers
  have honce := (Greedy.coversOnce_of_solve hready hg).1
  obtain ⟨x, hx, hend⟩ := Search.exists_tree_of_solve ⟨events, h, rfl⟩
  have hcontest : Search.Contest (.ofKinds o.selector o.dominance) columns m s condition x
      (Event.incumbents events) := ⟨hready, hm.inStep_refl, hs.mirrors, ⟨g, n, hg⟩, hx⟩
  have hsettles := hcontest.settles hend
  have hpriced := hm.coverOf_eq_ok (fun c hc => honce.covers.subset_active c (by simpa using hc))
    ((honce.price_le hready.isValid).trans_lt (hsum.trans_le (Nat.sub_le _ _)))
  refine ⟨m.priced columns, g, n, hg, hpriced, hsettles.pairwise, hsettles.cover_eq,
    fun ho => hsettles.cost_le ?_, fun hcold ho => ?_⟩
  · have himproves : Search.Improves m s :=
      ho.imp hs.warmStart_eq.trans fun ho => ⟨hs.isIndependent ho, hsum⟩
    exact himproves.first_le hcontest
  · exact hcontest.first_eq_of_isIndependent (hs.warmStart_eq.trans hcold) (hs.isIndependent ho)
      hsum

/-- If each of four rows has two of four columns, the greedy cover has the expensive column, and the
search comes to the cheapest cover in three steps. -/
theorem cost_le_greedy_square : ∃ m s outcome t k events,
    ofElements 4 [1, 1, 1, 3]
      [(0, 0), (0, 1), (1, 0), (1, 2), (2, 1), (2, 3), (3, 2), (3, 3)] = .ok m ∧
    Search.ofOptions { lowerBounds := [.mis], selector := .naive, warmStart := false } = .ok s ∧
    s.solve m .indefinite = .ok ((outcome, t, k), events) ∧ outcome = .optimal ⟨[1, 2], 2⟩ ∧
    Event.incumbents events = [⟨[0, 3], 4⟩, ⟨[0, 1, 2], 3⟩, ⟨[1, 2], 2⟩] ∧
    ∃ greedy : Cover, greedy = ⟨[0, 3], 4⟩ ∧ m.coverOf greedy.columns = .ok greedy ∧
      outcome.cover.cost ≤ greedy.cost := by
  obtain ⟨s, hs, hrun⟩ : ∃ s,
      Search.ofOptions { lowerBounds := [.mis], selector := .naive, warmStart := false } = .ok s ∧
      (do
        let m ← ofElements 4 [1, 1, 1, 3]
          [(0, 0), (0, 1), (1, 0), (1, 2), (2, 1), (2, 3), (3, 2), (3, 3)]
        let run ← s.solve m .indefinite
        return (((m.active .column).map m.costOf).sum, run.1.1, Event.incumbents run.2) :
          Except Fault (Nat × Outcome × List Cover)) =
        .ok (6, .optimal ⟨[1, 2], 2⟩, [⟨[0, 3], 4⟩, ⟨[0, 1, 2], 3⟩, ⟨[1, 2], 2⟩]) :=
    ⟨_, rfl, by decide +kernel⟩
  obtain ⟨m, hm, hrun⟩ := bind_eq_ok_iff.1 hrun
  obtain ⟨⟨⟨outcome, t, k⟩, events⟩, hsolve, hrun⟩ := bind_eq_ok_iff.1 hrun
  obtain ⟨hsum, houtcome, hincumbents⟩ :
      ((m.active .column).map m.costOf).sum = 6 ∧ outcome = .optimal ⟨[1, 2], 2⟩ ∧
        Event.incumbents events = [⟨[0, 3], 4⟩, ⟨[0, 1, 2], 3⟩, ⟨[1, 2], 2⟩] := by
    simpa using Except.ok.inj hrun
  have hreachable := Reachable.ofElements (by decide) hm
  obtain ⟨greedy, g, n, -, hgreedy, -, -, hle, hfirst⟩ :=
    hreachable.cost_le_greedy (hsum ▸ by decide) (.fresh hs) hsolve
  refine ⟨m, s, outcome, t, k, events, hm, hs, hsolve, houtcome, hincumbents, greedy, ?_, hgreedy,
    hle (.inr (by decide))⟩
  exact (hfirst rfl (by decide) _ (by rw [hincumbents]; rfl)).symm

end Matrix

end SetCover
