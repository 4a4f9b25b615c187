import SetCover.Proofs.Matrix.Insertion
import SetCover.Proofs.Search.Outcome
import SetCover.Solve

/-!
# Reachable matrices

An `Action` is an operation that only deletes: the deletions themselves, the reductions and the
solvers.  Every action records its deletions and leaves no mark.

`Reachable E m` says that `m` is built from a matrix with some elements by adding elements,
checkpoints, rollbacks and actions, none of which ends in a fault; `E` holds all elements that were
added.  Whatever happened, what the journal of a reachable matrix records is a trail from a matrix
without deletions.
-/

namespace SetCover.Matrix

variable {m n k : Matrix} {E es : List (Nat × Nat)} {J : List Deletion} {S : Finset Nat}

/-! ### Actions -/

/-- An operation that only deletes makes `k` of `m`. -/
inductive Action : Matrix → Matrix → Prop
  | delete {m k : Matrix} {d : Dimension} {i : Nat} : m.delete d i = .ok k → Action m k
  | select {m k : Matrix} {c : Nat} : (m.select c).result = .ok k → Action m k
  | dropDominatedColumns {x y : Reduction} {may : Comparator} {b : Bool} :
      (x.dropDominatedColumns may).result = .ok (b, y) → Action x.matrix y.matrix
  | selectEssential {x y : Reduction} {b : Bool} :
      x.selectEssential.result = .ok (b, y) → Action x.matrix y.matrix
  | dropDominatedRows {x y : Reduction} {b : Bool} :
      x.dropDominatedRows.result = .ok (b, y) → Action x.matrix y.matrix
  | reduce {x y : Reduction} {may : Comparator} {b : Bool} :
      (x.reduce may).result = .ok (b, y) → Action x.matrix y.matrix
  | reduceFully {x y : Reduction} {may : Comparator} :
      (x.reduceFully may).result = .ok y → Action x.matrix y.matrix
  | greedy {m k : Matrix} {g g' : Greedy} {columns : List Nat} :
      (g.solve m).result = .ok (columns, g', k) → Action m k
  | greedyAndRestore {m k : Matrix} {g g' : Greedy} {columns : List Nat} :
      (g.solveAndRestore m).result = .ok (columns, g', k) → Action m k
  | search {m k : Matrix} {s s' : Search} {condition : Condition} {outcome : Outcome} :
      (s.solve m condition).result = .ok (outcome, s', k) → Action m k
  | solve {m k : Matrix} {o : Options} {run : Traced (Outcome × Matrix)} {outcome : Outcome} :
      solve m o = .ok run → run.result = .ok (outcome, k) → Action m k

theorem coverOf_eq_ok {columns : List Nat} {cover : Cover} (h : m.coverOf columns = .ok cover) :
    cover.columns = columns := by
  rw [coverOf] at h
  obtain ⟨cost, -, h⟩ := bind_eq_ok_iff.1 h
  cases h
  rfl

/-- A run is one of the greedy solver or one of the exact solver. -/
theorem of_start {o : Options} {s : Search} {run : Run}
    (h : (Run.start m o s).result = .ok run) :
    (∃ g g' columns, (Greedy.solveAndRestore g m).result = .ok (columns, g', run.matrix) ∧
      run.finding = .columns columns) ∨
    ∃ s' outcome, (s.solve m o.condition).result = .ok (outcome, s', run.matrix) ∧
      run.finding = .outcome outcome := by
  rw [Run.start] at h
  split at h
  all_goals
    simp only [Traced.result_bind, bind_eq_ok_iff] at h
    first
      | obtain ⟨-, -, -, -, h⟩ := h
      | obtain ⟨-, -, h⟩ := h
    split at h
    · simp only [Traced.result_bind, bind_eq_ok_iff] at h
      obtain ⟨⟨columns, g', k⟩, hgreedy, h⟩ := h
      cases h
      exact Or.inl ⟨_, g', columns, hgreedy, rfl⟩
    · simp only [Traced.result_bind, bind_eq_ok_iff] at h
      obtain ⟨⟨outcome, s', k⟩, hsearch, h⟩ := h
      cases h
      exact Or.inr ⟨s', outcome, hsearch, rfl⟩

/-- A run leaves the matrix as it was, and what it finds is a cover. -/
structure Delivers (m : Matrix) (run : Run) : Prop where
  resembles : m.Resembles run.matrix
  coversOnce : ∀ outcome, run.outcome = .ok outcome → m.CoversOnce outcome.cover.columns

theorem delivers_of_start {o : Options} {s : Search} {run : Run} (hm : m.IsReady)
    (h : (Run.start m o s).result = .ok run) : Delivers m run := by
  rcases of_start h with ⟨g, g', columns, hgreedy, hfinding⟩ | ⟨s', outcome, hsearch, hfinding⟩
  · obtain ⟨hcovers, hresembles⟩ := Greedy.coversOnce_of_solveAndRestore hm hgreedy
    refine ⟨hresembles, fun outcome houtcome => ?_⟩
    rw [Run.outcome, hfinding] at houtcome
    obtain ⟨cover, hcover, houtcome⟩ := bind_eq_ok_iff.1 houtcome
    cases houtcome
    rwa [Outcome.cover, coverOf_eq_ok hcover]
  · refine ⟨Search.resembles_of_solve hm hsearch, fun outcome' houtcome => ?_⟩
    rw [Run.outcome, hfinding] at houtcome
    cases houtcome
    exact Search.coversOnce_of_solve hm hsearch

theorem finish_eq_ok {run : Run} {outcome : Outcome} (h : run.finish = .ok (outcome, k)) :
    k = run.matrix := by
  rw [Run.finish] at h
  obtain ⟨outcome', -, h⟩ := bind_eq_ok_iff.1 h
  obtain ⟨isCover, -, h⟩ := bind_eq_ok_iff.1 h
  split at h
  · cases h
    rfl
  · cases h

/-- To solve a matrix is to start a run on it. -/
theorem exists_start_of_solve {o : Options} {run : Traced (Outcome × Matrix)} {outcome : Outcome}
    (hrun : solve m o = .ok run) (h : run.result = .ok (outcome, k)) :
    ∃ s run, (Run.start m o s).result = .ok run ∧ k = run.matrix := by
  cases hsearch : Search.ofOptions o with
  | error e =>
      rw [solve, hsearch] at hrun
      exact nomatch hrun
  | ok search =>
      rw [solve, hsearch] at hrun
      cases hrun
      simp only [Traced.result_bind, Traced.result_liftM, bind_eq_ok_iff] at h
      obtain ⟨run, hstart, h⟩ := h
      exact ⟨search, run, hstart, finish_eq_ok h⟩

/-- Solving leaves the matrix as it was. -/
theorem resembles_of_solve {o : Options} {run : Traced (Outcome × Matrix)} {outcome : Outcome}
    (hm : m.IsReady) (hrun : solve m o = .ok run) (h : run.result = .ok (outcome, k)) :
    m.Resembles k := by
  obtain ⟨s, run, hstart, rfl⟩ := exists_start_of_solve hrun h
  exact (delivers_of_start hm hstart).resembles

/-- Every action records its deletions and leaves no mark. -/
theorem Action.advances (h : Action m k) (hm : m.IsReady) :
    m.Advances k ∧ k.marks = m.marks := by
  cases h with
  | delete h => exact ⟨(deletes_of_delete h).advances, (deleted_of_delete h).marks_eq⟩
  | select h =>
      obtain ⟨hdeletes, hmarks, -⟩ := deletes_of_select h
      exact ⟨hdeletes.advances, hmarks⟩
  | dropDominatedColumns h =>
      obtain ⟨hreduces, hmarks⟩ := Reduction.reduces_of_dropDominatedColumns hm h
      exact ⟨hreduces.advances, hmarks⟩
  | selectEssential h =>
      obtain ⟨hreduces, hmarks⟩ := Reduction.reduces_of_selectEssential hm h fun _ _ _ => true
      exact ⟨hreduces.advances, hmarks⟩
  | dropDominatedRows h =>
      obtain ⟨hreduces, hmarks⟩ := Reduction.reduces_of_dropDominatedRows hm h fun _ _ _ => true
      exact ⟨hreduces.advances, hmarks⟩
  | reduce h =>
      obtain ⟨hreduces, hmarks⟩ := Reduction.reduces_of_reduce hm h
      exact ⟨hreduces.advances, hmarks⟩
  | reduceFully h =>
      obtain ⟨hreduces, hmarks⟩ := Reduction.reduces_of_reduceFully hm h
      exact ⟨hreduces.advances, hmarks⟩
  | greedy h => exact (Greedy.coversOnce_of_solve hm h).2
  | greedyAndRestore h =>
      have hresembles := (Greedy.coversOnce_of_solveAndRestore hm h).2
      exact ⟨hresembles.advances, hresembles.marks_eq⟩
  | search h =>
      have hresembles := Search.resembles_of_solve hm h
      exact ⟨hresembles.advances, hresembles.marks_eq⟩
  | solve hrun h =>
      have hresembles := resembles_of_solve hm hrun h
      exact ⟨hresembles.advances, hresembles.marks_eq⟩

/-! ### Reachable matrices -/

/-- The matrix `m` can be reached, and `E` are the elements that were added. -/
inductive Reachable : List (Nat × Nat) → Matrix → Prop
  | ofElements {rows : Nat} {costs : List Nat} {E : List (Nat × Nat)} {m : Matrix} :
      (∀ c ∈ costs, c < Cost.limit) → ofElements rows costs E = .ok m → Reachable E m
  | addElement {E : List (Nat × Nat)} {m k : Matrix} {row column : Nat} {isNew : Bool} :
      Reachable E m → m.addElement row column = .ok (isNew, k) → Reachable (E ++ [(row, column)]) k
  | addElements {E es : List (Nat × Nat)} {m k : Matrix} {added : Nat} :
      Reachable E m → m.addElements es = .ok (added, k) → Reachable (E ++ es) k
  | save {E : List (Nat × Nat)} {m : Matrix} : Reachable E m → Reachable E m.save
  | restore {E : List (Nat × Nat)} {m k : Matrix} :
      Reachable E m → m.restore = .ok k → Reachable E k
  | act {E : List (Nat × Nat)} {m k : Matrix} : Reachable E m → Action m k → Reachable E k

/-- The matrix has the elements `E`, and its journal can be gone back. -/
structure Holds (E : List (Nat × Nat)) (m : Matrix) : Prop where
  grounded : m.Grounded
  mem_elements : ∀ a : PerDimension Nat, a ∈ m.elements ↔ (a.row, a.column) ∈ E

theorem Holds.advances (h : Holds E m) (hk : m.Advances k) (hmarks : k.marks = m.marks) :
    Holds E k := by
  refine ⟨h.grounded.advances hk hmarks, fun a => ?_⟩
  rw [hk.sameCells.elements_eq]
  exact h.mem_elements a

theorem deletions_eq_nil_of_checkJournal {u : Unit} (h : m.checkJournal = .ok u) :
    m.journal.deletions = [] := by
  rw [checkJournal] at h
  split at h
  · rename_i hempty
    exact Journal.deletions_of_isEmpty hempty
  · cases h

/-- Elements can only be added while nothing is deleted. -/
theorem Holds.extended (h : Holds E m) (hk : k.WellFormed []) (hes : Extended es m k)
    (hm : m.journal.deletions = []) : Holds (E ++ es) k := by
  refine ⟨⟨⟨k, hk, ?_⟩, fun d => ?_⟩, fun a => ?_⟩
  · rw [hes.journal_eq, hm]
    exact .refl k
  · rw [hes.marks_eq, hes.size_eq]
    exact h.grounded.unmarked d
  · rw [hes.mem_elements, h.mem_elements, List.mem_append]

theorem Holds.wellFormed (h : Holds E m) (hm : m.journal.deletions = []) : m.WellFormed [] :=
  hm ▸ h.grounded.isValid

theorem Holds.addElement {row column : Nat} {isNew : Bool} (h : Holds E m)
    (hk : m.addElement row column = .ok (isNew, k)) :
    Holds (E ++ [(row, column)]) k ∧ Extended [(row, column)] m k := by
  obtain ⟨_, hcheck, -⟩ := bind_eq_ok_iff.1 hk
  have hempty := deletions_eq_nil_of_checkJournal hcheck
  obtain ⟨hwell, hextended⟩ := (h.wellFormed hempty).addElement hk
  exact ⟨h.extended hwell hextended hempty, hextended⟩

theorem Holds.addElements {added : Nat} (h : Holds E m)
    (hk : m.addElements es = .ok (added, k)) : Holds (E ++ es) k ∧ Extended es m k := by
  obtain ⟨_, hcheck, -⟩ := bind_eq_ok_iff.1 hk
  have hempty := deletions_eq_nil_of_checkJournal hcheck
  obtain ⟨hwell, hextended⟩ := (h.wellFormed hempty).addElements hk
  exact ⟨h.extended hwell hextended hempty, hextended⟩

theorem Initial.holds {rows : Nat} {costs : List Nat} (h : Initial rows costs m) : Holds [] m := by
  refine ⟨⟨⟨m, h.wellFormed, ?_⟩, fun d => ?_⟩, fun a => ?_⟩
  · rw [h.journal_eq]
    exact .refl m
  · rw [h.marks_eq]
    cases d
    · exact congrArg Marks.unset h.numRows_eq.symm
    · exact congrArg Marks.unset h.numColumns_eq.symm
  · rw [h.elements_eq]
    exact iff_of_false List.not_mem_nil List.not_mem_nil

/-- What is known of every reachable matrix. -/
theorem Reachable.holds (h : Reachable E m) : Holds E m := by
  induction h with
  | ofElements _ hm =>
      obtain ⟨m₀, hm₀, hm⟩ := bind_eq_ok_iff.1 hm
      obtain ⟨⟨added, k⟩, hk, hm⟩ := bind_eq_ok_iff.1 hm
      cases hm
      exact ((initial_of_zero hm₀).holds.addElements hk).1
  | addElement _ hk ih => exact (ih.addElement hk).1
  | addElements _ hk ih => exact (ih.addElements hk).1
  | save _ ih => exact ⟨ih.grounded.save, ih.mem_elements⟩
  | restore _ hk ih =>
      obtain ⟨hgrounded, hcells, -⟩ := ih.grounded.restore hk
      refine ⟨hgrounded, fun a => ?_⟩
      rw [hcells.elements_eq]
      exact ih.mem_elements a
  | act _ haction ih =>
      obtain ⟨hadvances, hmarks⟩ := haction.advances ih.grounded.isReady
      exact ih.advances hadvances hmarks

/-- The numbers of rows and columns and the costs are those that the matrix was made with. -/
theorem Reachable.exists_zero (h : Reachable E m) : ∃ rows costs m₀,
    zero rows costs = .ok m₀ ∧ (∀ c ∈ costs, c < Cost.limit) ∧ m.costs = m₀.costs ∧
      ∀ d, (m.headers.get d).size = (m₀.headers.get d).size := by
  induction h with
  | ofElements hcosts hm =>
      obtain ⟨m₀, hm₀, hm⟩ := bind_eq_ok_iff.1 hm
      obtain ⟨⟨added, k⟩, hk, hm⟩ := bind_eq_ok_iff.1 hm
      cases hm
      have hextended := ((initial_of_zero hm₀).holds.addElements hk).2
      exact ⟨_, _, m₀, hm₀, hcosts, hextended.costs_eq, hextended.size_eq⟩
  | addElement hm hk ih =>
      obtain ⟨rows, costs, m₀, hm₀, hlt, hcosts, hsize⟩ := ih
      have hextended := (hm.holds.addElement hk).2
      exact ⟨rows, costs, m₀, hm₀, hlt, hextended.costs_eq.trans hcosts,
        fun d => (hextended.size_eq d).trans (hsize d)⟩
  | addElements hm hk ih =>
      obtain ⟨rows, costs, m₀, hm₀, hlt, hcosts, hsize⟩ := ih
      have hextended := (hm.holds.addElements hk).2
      exact ⟨rows, costs, m₀, hm₀, hlt, hextended.costs_eq.trans hcosts,
        fun d => (hextended.size_eq d).trans (hsize d)⟩
  | save _ ih => exact ih
  | restore hm hk ih =>
      obtain ⟨rows, costs, m₀, hm₀, hlt, hcosts, hsize⟩ := ih
      obtain ⟨-, hcells, hcosts'⟩ := hm.holds.grounded.restore hk
      exact ⟨rows, costs, m₀, hm₀, hlt, hcosts'.trans hcosts,
        fun d => (hcells.size_eq d).trans (hsize d)⟩
  | act hm haction ih =>
      obtain ⟨rows, costs, m₀, hm₀, hlt, hcosts, hsize⟩ := ih
      obtain ⟨hadvances, -⟩ := haction.advances hm.holds.grounded.isReady
      exact ⟨rows, costs, m₀, hm₀, hlt, hadvances.costs_eq.trans hcosts,
        fun d => (hadvances.sameCells.size_eq d).trans (hsize d)⟩

/-- The rows, columns and costs of a reachable matrix are words. -/
theorem Reachable.fitsWords (h : Reachable E m) : m.FitsWords := by
  obtain ⟨rows, costs, m₀, hm₀, hlt, hcosts, hsize⟩ := h.exists_zero
  exact (fitsWords_of_zero hlt hm₀).of_eq hcosts hsize

/-- Every column has a cost. -/
theorem Reachable.size_costs_eq (h : Reachable E m) : m.costs.size = m.numColumns := by
  obtain ⟨rows, costs, m₀, hm₀, -, hcosts, hsize⟩ := h.exists_zero
  have hinitial := initial_of_zero hm₀
  rw [hcosts, hinitial.costs_eq, List.size_toArray, ← hinitial.numColumns_eq]
  exact (hsize .column).symm

end SetCover.Matrix
