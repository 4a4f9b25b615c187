import SetCover.Proofs.Greedy.InStep
import SetCover.Proofs.Search.Settings

/-!
# Searches side by side

Two searches with the same options explore the same tree of matrices in step, whatever their tables
hold, and report the same.  If the condition of the first is met before that of the second, the
second explores the tree further: what the first reports is what the second reports first.
-/

namespace SetCover

open SetCover.Matrix

/-! ### Conditions -/

/-- A relation between conditions that is kept while a search runs.  If the second is met, so is the
first; the converse is only required unless `lax`. -/
structure Condition.IsKept (lax : Prop) (C : Condition → Condition → Prop) : Prop where
  polled : ∀ c d, C c d → C c.polled d.polled
  noteBranch : ∀ c d, C c d → C c.noteBranch d.noteBranch
  isMet_eq_false : ∀ c d, C c d → c.isMet = false → d.isMet = false
  isMet_eq_true : ∀ c d, C c d → c.isMet = true → lax ∨ d.isMet = true

theorem Condition.isKept_eq : IsKept False Eq where
  polled := by
    rintro c _ rfl
    rfl
  noteBranch := by
    rintro c _ rfl
    rfl
  isMet_eq_false := by
    rintro c _ rfl
    exact id
  isMet_eq_true := by
    rintro c _ rfl
    exact Or.inr

/-! ### Solvers -/

namespace Search

variable {s t : Search}

/-- The solvers differ in tables and in the counters of their greedy solvers at most. -/
structure Alike (s t : Search) : Prop where
  settings_eq : t.settings = s.settings
  incumbent_eq : t.incumbent = s.incumbent
  stopped_eq : t.stopped = s.stopped
  statistics_eq : t.statistics = s.statistics

namespace Alike

theorem kinds_eq (h : Alike s t) : t.lowerBound.kinds = s.lowerBound.kinds :=
  congrArg Settings.lowerBounds h.settings_eq

theorem kind_eq (h : Alike s t) : t.selector.kind = s.selector.kind :=
  congrArg Settings.selector h.settings_eq

theorem dominance_eq (h : Alike s t) : t.dominance = s.dominance :=
  congrArg Settings.dominance h.settings_eq

theorem greedy (h : Alike s t) : Greedy.Alike s.greedy t.greedy :=
  ⟨congrArg Settings.greedySelector h.settings_eq, congrArg Settings.greedyDominance h.settings_eq⟩

theorem warmStart_eq (h : Alike s t) : t.warmStart = s.warmStart :=
  congrArg Settings.warmStart h.settings_eq

theorem limit_eq (h : Alike s t) : t.limit = s.limit := by
  rw [limit, limit, h.incumbent_eq]

theorem count (h : Alike s t) (f : SearchStatistics → SearchStatistics) :
    Alike (s.count f) (t.count f) :=
  ⟨h.settings_eq, h.incumbent_eq, h.stopped_eq, congrArg f h.statistics_eq⟩

theorem offer (h : Alike s t) (columns : List Nat) (cost : Nat) :
    Traced.Together Alike (s.offer columns cost) (t.offer columns cost) := by
  rw [Search.offer, Search.offer, h.limit_eq]
  split
  · refine (Traced.Together.emit _).bind fun _ _ _ _ => .pure (Alike.count ?_ _)
    exact ⟨h.settings_eq, rfl, h.stopped_eq, h.statistics_eq⟩
  · exact .pure h

end Alike

end Search

/-! ### States of a search -/

namespace SearchState

variable {x y z z' : SearchState} {C : Condition → Condition → Prop} {lax : Prop} {c n : Nat}

/-- Alike solvers are at work on matrices in step, with the same columns chosen. -/
structure Abreast (C : Condition → Condition → Prop) (x y : SearchState) : Prop where
  search : Search.Alike x.search y.search
  condition : C x.condition y.condition
  matrix : InStep True x.matrix y.matrix
  unmarked : x.matrix.Unmarked
  chosen_eq : y.chosen = x.chosen

namespace Abreast

theorem isReady_left (h : Abreast C x y) : x.matrix.IsReady := ⟨h.matrix.isValid_left, h.unmarked⟩

theorem isReady_right (h : Abreast C x y) : y.matrix.IsReady :=
  ⟨h.matrix.isValid_right, h.matrix.unmarked h.unmarked⟩

theorem numActive_eq (h : Abreast C x y) (d : Dimension) :
    y.matrix.numActive d = x.matrix.numActive d :=
  congrFun h.matrix.looksLike.numActive_eq.symm d

theorem count (h : Abreast C x y) (f : SearchStatistics → SearchStatistics) :
    Abreast C (x.count f) (y.count f) :=
  ⟨h.search.count f, h.condition, h.matrix, h.unmarked, h.chosen_eq⟩

theorem keep (h : Abreast C x y) (n : Nat) : Abreast C (x.keep n) (y.keep n) :=
  ⟨h.search, h.condition, h.matrix, h.unmarked, congrArg (List.take n) h.chosen_eq⟩

theorem poll (h : Abreast C x y) (hC : Condition.IsKept lax C) : Abreast C x.poll y.poll :=
  ⟨h.search, hC.polled _ _ h.condition, h.matrix, h.unmarked, h.chosen_eq⟩

theorem noteBranch (h : Abreast C x y) (hC : Condition.IsKept lax C) :
    Abreast C x.noteBranch y.noteBranch := by
  have hnoted : Abreast C { x with condition := x.condition.noteBranch }
      { y with condition := y.condition.noteBranch } :=
    ⟨h.search, hC.noteBranch _ _ h.condition, h.matrix, h.unmarked, h.chosen_eq⟩
  exact hnoted.count _

theorem stop (h : Abreast C x y) :
    Abreast C { x with search := { x.search with stopped := true } }
      { y with search := { y.search with stopped := true } } :=
  ⟨⟨h.search.settings_eq, h.search.incumbent_eq, rfl, h.search.statistics_eq⟩, h.condition,
    h.matrix, h.unmarked, h.chosen_eq⟩

theorem reduce (h : Abreast C x y) : Traced.Together (Abreast C) x.reduce y.reduce := by
  have hreduction : Reduction.Abreast True (Reduction.mk x.matrix x.chosen [])
      (Reduction.mk y.matrix y.chosen []) :=
    ⟨⟨h.matrix, h.chosen_eq⟩, h.unmarked⟩
  rw [SearchState.reduce, SearchState.reduce, h.search.dominance_eq]
  refine (hreduction.reduceFully fun _ => x.search.dominance.isStable_comparator).bind ?_
  intro a b _ hab
  rw [h.chosen_eq, hab.selected_eq]
  have hnext : Abreast C { x with matrix := a.matrix, chosen := a.selected }
      { y with matrix := b.matrix, chosen := a.selected } :=
    ⟨h.search, h.condition, hab.matrix, hab.unmarked, rfl⟩
  exact .pure (hnext.count _)

theorem estimate (h : Abreast C x y) :
    Traced.Follows lax (fun _ => False) (fun a b => b.1 = a.1 ∧ Abreast C a.2 b.2)
      (liftM x.estimate) (liftM y.estimate) := by
  rw [SearchState.estimate, SearchState.estimate,
    ← LowerBound.estimate_eq h.matrix.looksLike h.search.kinds_eq.symm]
  cases hestimate : x.search.lowerBound.estimate x.matrix with
  | error e => exact .error e
  | ok p =>
      refine .of_together (.lift (.ok ⟨rfl, ?_⟩))
      have hsettings : ({ y.search with lowerBound := p.2 } : Search).settings =
          ({ x.search with lowerBound := p.2 } : Search).settings :=
        congrArg (fun s : Search.Settings => { s with lowerBounds := p.2.kinds })
          h.search.settings_eq
      exact ⟨⟨hsettings, h.search.incumbent_eq, h.search.stopped_eq, h.search.statistics_eq⟩,
        h.condition, h.matrix, h.unmarked, h.chosen_eq⟩

theorem branchColumn (h : Abreast C x y) :
    y.branchColumn.1 = x.branchColumn.1 ∧ Abreast C x.branchColumn.2 y.branchColumn.2 := by
  have hselect := Selector.select_eq h.matrix.looksLike h.search.kind_eq.symm
  rw [SearchState.branchColumn, SearchState.branchColumn, ← hselect]
  have hsettings : ∀ selector, ({ y.search with selector } : Search).settings =
      ({ x.search with selector } : Search).settings :=
    fun selector => congrArg (fun s : Search.Settings => { s with selector := selector.kind })
      h.search.settings_eq
  exact ⟨rfl, ⟨hsettings _, h.search.incumbent_eq, h.search.stopped_eq, h.search.statistics_eq⟩,
    h.condition, h.matrix, h.unmarked, h.chosen_eq⟩

theorem offer (h : Abreast C x y) (cost : Nat) :
    Traced.Together (Abreast C) (x.offer cost) (y.offer cost) := by
  rw [SearchState.offer, SearchState.offer, h.chosen_eq]
  refine (h.search.offer x.chosen cost).bind fun a b _ hab => .pure ?_
  exact ⟨hab, h.condition, h.matrix, h.unmarked, rfl⟩

theorem select (h : Abreast C x y) (hc : c ∈ x.matrix.active .column) :
    Traced.Together (Abreast C) (x.select c) (y.select c) := by
  rw [SearchState.select, SearchState.select, h.chosen_eq]
  refine (h.matrix.save.select (c := c) hc).bind fun a b ha hab => .pure ?_
  obtain ⟨hdeletes, hmarks, -⟩ := deletes_of_select ha
  have hready := h.isReady_left.save.advances hdeletes.advances hmarks
  exact ⟨h.search, h.condition, hab, hready.unmarked, rfl⟩

theorem reject (h : Abreast C x y) (hc : c ∈ x.matrix.active .column) :
    Traced.Together (Abreast C) (x.reject c) (y.reject c) := by
  rw [SearchState.reject, SearchState.reject]
  refine (Traced.Together.lift (h.matrix.save.delete (i := c) hc)).bind fun a b ha hab => .pure ?_
  rw [Traced.result_liftM] at ha
  have hready := h.isReady_left.save.advances (deletes_of_delete ha).advances
    (deleted_of_delete ha).marks_eq
  exact ⟨h.search, h.condition, hab, hready.unmarked, h.chosen_eq⟩

/-- Going back from states abreast to checkpoints that were set abreast. -/
theorem backtrack (h : Abreast C x y) (hz : Abreast C z z') (hprogress : Progress x.saved z)
    (hprogress' : Progress y.saved z') : Together (fun a b => Abreast C a b ∧ Returns x a)
      (z.backtrack x.chosen.length) (z'.backtrack x.chosen.length) := by
  obtain ⟨a, b, ha, hb, hab, hresembles⟩ := h.matrix.restore h.unmarked hz.matrix
    hprogress.advances hprogress'.advances hprogress.marks_eq
  rw [SearchState.backtrack, SearchState.backtrack, ha, hb, hz.chosen_eq]
  refine .ok ⟨⟨hz.search, hz.condition, hab, (h.isReady_left.resembles hresembles).unmarked, rfl⟩,
    hresembles, ?_⟩
  exact hprogress.keep.2

/-- Going back from branches that were explored in step. -/
theorem backtrack_of_explore {w w' : SearchState} {inherited depth fuel : Nat} {found found' : Bool}
    (h : Abreast C x y) (hz : Progress x.saved z) (hz' : Progress y.saved z')
    (hw : (z.explore inherited depth fuel).result = .ok (found, w))
    (hw' : (z'.explore inherited depth fuel).result = .ok (found', w')) (hww : Abreast C w w') :
    Together (fun a b => Abreast C a b ∧ Returns x a) (w.backtrack x.chosen.length)
      (w'.backtrack x.chosen.length) := by
  have hready := hz.isReady h.isReady_left.save
  have hready' := hz'.isReady h.isReady_right.save
  exact h.backtrack hww (hz.trans ((explores_of_explore hw).progress hready).1)
    (hz'.trans ((explores_of_explore hw').progress hready').1)

end Abreast

theorem stopped_of_backtrack (h : z.backtrack n = .ok x) (hz : z.search.stopped = true) :
    x.search.stopped = true := by
  rw [(of_backtrack h).2.2.1.stopped_eq, hz]

/-- What one search explores, the other one explores as well, as far as it is not stopped. -/
theorem Abreast.explore (h : Abreast C x y) (hC : Condition.IsKept lax C)
    (inherited depth fuel : Nat) :
    Traced.Follows lax (fun a => a.2.search.stopped = true)
      (fun a b => b.1 = a.1 ∧ Abreast C a.2 b.2) (x.explore inherited depth fuel)
      (y.explore inherited depth fuel) := by
  induction fuel generalizing x y inherited depth with
  | zero => exact .of_together (.pure ⟨rfl, h⟩)
  | succ fuel ih =>
      rw [SearchState.explore, SearchState.explore]
      have hpoll := h.poll hC
      cases hmet : x.condition.isMet with
      | true =>
        rcases hC.isMet_eq_true _ _ h.condition hmet with hlax | hmet'
        · exact .of_cut hlax rfl
        · rw [hmet']
          exact .of_together (.pure ⟨rfl, hpoll.stop⟩)
      | false =>
        rw [hC.isMet_eq_false _ _ h.condition hmet]
        refine .bind_together (hpoll.count _).reduce fun x₁ y₁ _ _ h₁ => ?_
        have hcost : y₁.matrix.totalCost y₁.chosen = x₁.matrix.totalCost x₁.chosen := by
          rw [h₁.chosen_eq]
          exact (totalCost_congr h₁.matrix.sameElements.costs_eq _).symm
        rw [hcost]
        refine .bind_lift fun cost => ?_
        refine h₁.estimate.bind ?_ fun _ _ _ _ (hcut : False) => hcut.elim
        rintro ⟨-, x₂⟩ ⟨bound, y₂⟩ - - ⟨rfl, h₂⟩
        refine .bind_lift fun sum => ?_
        dsimp only
        generalize max inherited sum = lower
        rw [h.chosen_eq, h₂.search.limit_eq, h₂.numActive_eq]
        by_cases hpruned : x₂.search.limit ≤ lower
        · rw [if_pos hpruned, if_pos hpruned]
          refine .of_together ((Traced.Together.emit _).bind fun _ _ _ _ => .pure ⟨rfl, ?_⟩)
          exact (h₂.count _).keep _
        rw [if_neg hpruned, if_neg hpruned]
        by_cases hrows : x₂.matrix.numActive .row = 0
        · rw [if_pos hrows, if_pos hrows]
          exact .of_together ((h₂.offer cost).bind fun _ _ _ hab => .pure ⟨rfl, hab.keep _⟩)
        rw [if_neg hrows, if_neg hrows]
        obtain ⟨hcolumn, h₃⟩ := h₂.branchColumn
        cases hbranch : x₂.branchColumn with
        | mk column x₃ =>
        cases hbranch' : y₂.branchColumn with
        | mk column' y₃ =>
        rw [hbranch, hbranch'] at hcolumn h₃
        dsimp only at h₃
        obtain rfl : column' = column := hcolumn
        cases column' with
        | none => exact .of_together (.pure ⟨rfl, h₃.keep _⟩)
        | some c =>
          have hc : c ∈ x₃.matrix.active .column := by
            obtain ⟨hselect, hmatrix, -⟩ := of_branchColumn hbranch
            rw [hmatrix]
            exact Selector.mem_active_of_select hselect
          have h₄ := h₃.noteBranch hC
          dsimp only
          rw [h₄.chosen_eq]
          refine .bind_together (.emit _) fun _ _ _ _ _ => ?_
          refine .bind_together (h₄.select hc) fun x₅ y₅ hx₅ hy₅ h₅ => ?_
          refine (ih h₅ _ _).bind ?_ ?_
          · rintro ⟨-, x₆⟩ ⟨found, y₆⟩ hx₆ hy₆ ⟨rfl, h₆⟩
            have hback := h₄.backtrack_of_explore (progress_of_select hx₅)
              (progress_of_select hy₅) hx₆ hy₆ h₆
            refine .bind_together (.lift hback) ?_
            rintro x₇ y₇ - - ⟨h₇, hreturns⟩
            dsimp only
            rw [h₇.search.stopped_eq, h₇.search.limit_eq]
            by_cases hagain : (!x₇.search.stopped && decide (lower < x₇.search.limit)) = true
            · rw [if_pos hagain, if_pos hagain]
              have hc' : c ∈ x₇.matrix.active .column := by
                rwa [← hreturns.resembles.similar.active_eq]
              refine .bind_together (.emit _) fun _ _ _ _ _ => ?_
              refine .bind_together (h₇.reject hc') fun x₈ y₈ hx₈ hy₈ h₈ => ?_
              refine (ih h₈ _ _).bind ?_ ?_
              · rintro ⟨-, x₉⟩ ⟨found', y₉⟩ hx₉ hy₉ ⟨rfl, h₉⟩
                have hback := h₇.backtrack_of_explore (progress_of_reject hx₈)
                  (progress_of_reject hy₈) hx₉ hy₉ h₉
                rw [hreturns.chosen_eq] at hback
                refine .bind_together (.lift hback) ?_
                rintro x y - - ⟨hxy, -⟩
                exact .of_together (.pure ⟨rfl, hxy.keep _⟩)
              · rintro - ⟨found', x₉⟩ a events hstopped h
                obtain ⟨x, before, after, hx, hend, rfl⟩ := Traced.bind_eq_ok_iff.1 h
                obtain ⟨hback, rfl⟩ := Traced.eq_of_liftM hx
                have hstopped := stopped_of_backtrack hback hstopped
                cases hend
                exact ⟨hstopped, rfl⟩
            · rw [if_neg hagain, if_neg hagain]
              exact .of_together (.pure ⟨rfl, h₇.keep _⟩)
          -- A search that was stopped goes back to the root without a word.
          · rintro - ⟨found, x₆⟩ a events hstopped h
            obtain ⟨x₇, before, after, hx₇, hend, rfl⟩ := Traced.bind_eq_ok_iff.1 h
            obtain ⟨hback, rfl⟩ := Traced.eq_of_liftM hx₇
            have hstopped := stopped_of_backtrack hback hstopped
            rw [hstopped] at hend
            cases hend
            exact ⟨hstopped, rfl⟩

/-! ### Runs -/

/-- The way back from the tree to the matrix, and the cover that was found. -/
def finish (x : SearchState) : Traced (Outcome × Search × Matrix) := do
  let m ← x.matrix.restore
  let (columns, s, m) ← x.search.takeIncumbent m
  let cover ← m.coverOf columns
  if s.stopped then
    Traced.emit (.stopped cover.cost)
    return (.feasible cover, s, m)
  else
    Traced.emit (.provedOptimal cover.cost)
    return (.optimal cover, s, m)

/-- States at the end of trees that were explored in step, with roots in step at matrices like
`m`. -/
structure Grown (C : Condition → Condition → Prop) (m : Matrix) (x y : SearchState) : Prop
    extends Abreast C x y where
  exists_root : ∃ k k', m.Resembles k ∧ InStep True k k' ∧ k.Unmarked ∧
    k.save.Advances x.matrix ∧ k'.save.Advances y.matrix ∧ x.matrix.marks = k.marks

end SearchState

namespace Search

open SearchState

variable {s t : Search} {m n : Matrix} {C : Condition → Condition → Prop} {lax : Prop}
variable {condition condition' : Condition}

/-- The tree of a run, with the warm start that comes first. -/
def tree (s : Search) (m : Matrix) (condition : Condition) : Traced SearchState := do
  let (s, m) ← s.reset.warmUp m
  let start : SearchState := { search := s, condition, matrix := m.save }
  let (_, x) ← start.explore 0 0 (m.numActive .column + 1)
  return x

theorem solve_eq (s : Search) (m : Matrix) (condition : Condition) :
    s.solve m condition = s.tree m condition >>= finish := by
  rw [tree, bind_assoc]
  refine bind_congr fun p => ?_
  rw [bind_assoc]
  exact bind_congr fun q => (pure_bind q.2 finish).symm

theorem alike_reset (h : t.settings = s.settings) : Alike s.reset t.reset := ⟨h, rfl, rfl, rfl⟩

namespace Alike

theorem runGreedily (h : Alike s t) (hm : InStep True m n) (hunmarked : m.Unmarked) :
    Traced.Follows lax (fun _ => False)
      (fun a b => b.1 = a.1 ∧ Alike a.2.1 b.2.1 ∧ InStep True a.2.2 b.2.2 ∧ m.Resembles a.2.2)
      (s.runGreedily m) (t.runGreedily n) := by
  rw [Search.runGreedily, Search.runGreedily]
  refine (h.greedy.solveAndRestore hm hunmarked).bind ?_ fun _ _ _ _ (hcut : False) => hcut.elim
  rintro ⟨-, g, k⟩ ⟨columns, g', k'⟩ - - ⟨rfl, hg, hk⟩
  refine .of_together (.pure ⟨rfl, ⟨?_, h.incumbent_eq, h.stopped_eq, h.statistics_eq⟩, hk⟩)
  dsimp only at hg
  rw [settings, settings, h.kinds_eq, h.kind_eq, h.dominance_eq, h.warmStart_eq, hg.kind_eq,
    hg.dominance_eq]

theorem warmUp (h : Alike s t) (hm : InStep True m n) (hunmarked : m.Unmarked) :
    Traced.Follows lax (fun _ => False)
      (fun a b => Alike a.1 b.1 ∧ InStep True a.2 b.2 ∧ m.Resembles a.2)
      (s.warmUp m) (t.warmUp n) := by
  rw [Search.warmUp, Search.warmUp, h.warmStart_eq]
  split
  · refine (h.runGreedily hm hunmarked).bind ?_ fun _ _ _ _ (hcut : False) => hcut.elim
    rintro ⟨-, s', k⟩ ⟨columns, t', k'⟩ - - ⟨rfl, hst, hk, hresembles⟩
    dsimp only at hst hk hresembles ⊢
    rw [← totalCost_congr hk.sameElements.costs_eq]
    refine .bind_lift fun cost => .of_together ?_
    exact (hst.offer columns cost).bind fun a b _ hab => .pure ⟨hab, hk, hresembles⟩
  · exact .of_together (.pure ⟨h, hm, .refl m⟩)

theorem takeIncumbent (h : Alike s t) (hm : InStep True m n) (hunmarked : m.Unmarked) :
    Traced.Follows lax (fun _ => False)
      (fun a b => b.1 = a.1 ∧ Alike a.2.1 b.2.1 ∧ InStep True a.2.2 b.2.2 ∧ m.Resembles a.2.2)
      (s.takeIncumbent m) (t.takeIncumbent n) := by
  rw [Search.takeIncumbent, Search.takeIncumbent, h.incumbent_eq]
  cases s.incumbent with
  | none => exact .bind_together (.emit _) fun _ _ _ _ _ => h.runGreedily hm hunmarked
  | some cover =>
      refine .of_together (.pure ⟨rfl, ⟨?_, rfl, h.stopped_eq, h.statistics_eq⟩, hm, .refl m⟩)
      exact h.settings_eq

/-- Alike solvers grow the same tree, as far as they are not stopped. -/
theorem tree (h : t.settings = s.settings) (hm : InStep True m n) (hunmarked : m.Unmarked)
    (hC : Condition.IsKept lax C) (hcondition : C condition condition') :
    Traced.Follows lax (fun x => x.search.stopped = true) (Grown C m)
      (s.tree m condition) (t.tree n condition') := by
  rw [Search.tree, Search.tree]
  refine ((alike_reset h).warmUp hm hunmarked).bind ?_ fun _ _ _ _ (hcut : False) => hcut.elim
  rintro ⟨s₁, k⟩ ⟨t₁, k'⟩ - - ⟨halike, hk, hresembles⟩
  dsimp only at halike hk hresembles ⊢
  have hready : m.IsReady := ⟨hm.isValid_left, hunmarked⟩
  have hkready := hready.resembles hresembles
  have hkready' : k'.IsReady := ⟨hk.isValid_right, hk.unmarked hkready.unmarked⟩
  have hstart : SearchState.Abreast C { search := s₁, condition, matrix := k.save }
      { search := t₁, condition := condition', matrix := k'.save } :=
    ⟨halike, hcondition, hk.save, hkready.unmarked, rfl⟩
  rw [← hk.looksLike.numActive_eq]
  refine (hstart.explore hC _ _ _).bind ?_ ?_
  · rintro ⟨-, x⟩ ⟨found, y⟩ hx hy ⟨rfl, hxy⟩
    obtain ⟨hprogress, -⟩ := (explores_of_explore hx).progress hkready.save
    obtain ⟨hprogress', -⟩ := (explores_of_explore hy).progress hkready'.save
    exact .of_together (.pure ⟨hxy, k, k', hresembles, hk, hkready.unmarked, hprogress.advances,
      hprogress'.advances, hprogress.marks_eq⟩)
  · rintro - ⟨found, x⟩ a events hstopped hend
    cases hend
    exact ⟨hstopped, rfl⟩

end Alike

end Search

/-- The way back from trees that were explored in step leads to matrices in step. -/
theorem SearchState.Grown.restore {x y : SearchState} {m : Matrix}
    {C : Condition → Condition → Prop} (h : Grown C m x y) :
    Together (fun a b => InStep True a b ∧ a.Unmarked ∧ m.Resembles a) x.matrix.restore
      y.matrix.restore := by
  obtain ⟨k, k', hresembles, hk, hunmarked, hadvances, hadvances', hmarks⟩ := h.exists_root
  obtain ⟨a, b, ha, hb, hab, hto⟩ :=
    hk.restore hunmarked h.matrix hadvances hadvances' hmarks
  have hready : k.IsReady := ⟨hk.isValid_left, hunmarked⟩
  exact ⟨a, b, ha, hb, hab, (hready.resembles hto).unmarked, hresembles.trans hto⟩

/-- Runs in step find the same cover at the end. -/
theorem SearchState.Grown.finish {x y : SearchState} {m : Matrix} {lax : Prop}
    {C : Condition → Condition → Prop} (h : Grown C m x y) :
    Traced.Follows lax (fun _ => False)
      (fun a b => b.1 = a.1 ∧ Search.Alike a.2.1 b.2.1 ∧ InStep True a.2.2 b.2.2 ∧
        m.Resembles a.2.2)
      x.finish y.finish := by
  rw [SearchState.finish, SearchState.finish]
  refine .bind_together (.lift h.restore) ?_
  rintro m₁ n₁ - - ⟨hm₁, hunmarked, hresembles₁⟩
  refine (h.search.takeIncumbent hm₁ hunmarked).bind ?_ fun _ _ _ _ (hcut : False) => hcut.elim
  rintro ⟨-, s, m₂⟩ ⟨columns, t, n₂⟩ - - ⟨rfl, halike, hm₂, hresembles₂⟩
  dsimp only at halike hm₂ hresembles₂ ⊢
  have hto := hresembles₁.trans hresembles₂
  rw [← coverOf_congr hm₂.sameElements.costs_eq, halike.stopped_eq]
  refine .bind_lift fun cover => ?_
  split
  · exact .of_together ((Traced.Together.emit _).bind fun _ _ _ _ => .pure ⟨rfl, halike, hm₂, hto⟩)
  · exact .of_together ((Traced.Together.emit _).bind fun _ _ _ _ => .pure ⟨rfl, halike, hm₂, hto⟩)

/-- Solvers with the same settings do the same to matrices in step. -/
theorem Search.Alike.solve {s t : Search} {m n : Matrix} (h : t.settings = s.settings)
    (hm : InStep True m n) (hunmarked : m.Unmarked) (condition : Condition) :
    Traced.Follows False (fun _ => False)
      (fun a b => b.1 = a.1 ∧ Search.Alike a.2.1 b.2.1 ∧ InStep True a.2.2 b.2.2 ∧
        m.Resembles a.2.2)
      (s.solve m condition) (t.solve n condition) := by
  rw [Search.solve_eq, Search.solve_eq]
  exact (Search.Alike.tree h hm hunmarked Condition.isKept_eq rfl).bind
    (fun _ _ _ _ hgrown => hgrown.finish) fun hlax => hlax.elim

end SetCover
