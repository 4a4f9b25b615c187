import SetCover.Proofs.Compared

/-!
# Solvers that are used again

A solver keeps its tables, its counters and the incumbent of a stopped run, and a matrix keeps the
dirty flags that a run left.  None of this makes a difference: the next run ends as the first run of
a new solver on a matrix that no solver has seen, and a lower bound or a selector that was used
before gives what a new one gives.
-/

namespace SetCover

variable {o : Options} {s t : Search} {m n : Matrix} {E : List (Nat × Nat)}

/-! ### Used solvers -/

/-- The settings that some options ask for. -/
def Options.settings (o : Options) : Search.Settings where
  lowerBounds := o.lowerBounds
  selector := o.selector
  dominance := o.dominance
  greedySelector := o.selector
  greedyDominance := o.dominance
  warmStart := o.warmStart

/-- A solver for some options, after any runs on reachable matrices that did not end in a fault. -/
inductive Search.Used (o : Options) : Search → Prop
  | fresh {s : Search} : Search.ofOptions o = .ok s → Used o s
  | solve {s t : Search} {E : List (Nat × Nat)} {m k : Matrix} {condition : Condition}
      {outcome : Outcome} : Used o s → m.Reachable E →
      (s.solve m condition).result = .ok (outcome, t, k) → Used o t

theorem Search.settings_of_ofOptions (h : Search.ofOptions o = .ok s) :
    s.settings = o.settings := by
  rw [ofOptions, Options.check] at h
  split at h
  · exact nomatch h
  · cases h
    simp [settings, Options.settings, Greedy.ofKinds]

theorem Search.Used.settings_eq (h : Search.Used o s) : s.settings = o.settings := by
  induction h with
  | fresh h => exact settings_of_ofOptions h
  | solve _ _ hsolve ih => exact (settings_of_solve hsolve).trans ih

namespace Matrix

/-- Earlier runs, of any solvers under any conditions, make `n` of `m`. -/
inductive Resolved (m : Matrix) : Matrix → Prop
  | refl : Resolved m m
  | solve {n k : Matrix} {s t : Search} {condition : Condition} {outcome : Outcome} :
      Resolved m n → (s.solve n condition).result = .ok (outcome, t, k) → Resolved m k

theorem Resolved.reachable (h : Resolved m n) (hm : Reachable E m) :
    Reachable E n ∧ m.Resembles n := by
  induction h with
  | refl => exact ⟨hm, .refl m⟩
  | solve _ hsolve ih =>
      obtain ⟨hn, hresembles⟩ := ih
      have hk := Search.resembles_of_solve hn.holds.grounded.isReady hsolve
      exact ⟨.act hn (.search hsolve), hresembles.trans hk⟩

/-- Runs leave a matrix that is in step with the one before. -/
theorem Resolved.inStep (h : Resolved m n) (hm : Reachable E m) : InStep True n m := by
  obtain ⟨hn, hresembles⟩ := h.reachable hm
  exact (InStep.of_resembles hresembles hm.inStep_refl hn.inStep_refl).symm

end Matrix

/-! ### The next run -/

theorem Traced.Follows.map_result_eq {α β γ : Type} {R : α → β → Prop} {cut : α → Prop}
    {x : Traced α} {y : Traced β} {f : α → γ} {g : β → γ} (h : Follows False cut R x y)
    (hR : ∀ a b, R a b → f a = g b) : x.result.map f = y.result.map g := by
  cases hx : x with
  | error e =>
      rw [(h.fault e hx).resolve_left id]
      rfl
  | ok p =>
      obtain ⟨a, events⟩ := p
      obtain ⟨b, hy, hab⟩ := h.value a events hx And.left
      rw [hy]
      exact congrArg Except.ok (hR a b hab)

/-- What a run tells: the outcome and the counters. -/
def Search.answer (run : Outcome × Search × Matrix) : Outcome × SearchStatistics :=
  (run.1, run.2.1.statistics)

theorem Search.answer_eq (h : t.settings = s.settings) (hm : Matrix.InStep True m n)
    (hunmarked : m.Unmarked) (condition : Condition) :
    (s.solve m condition).result.map answer = (t.solve n condition).result.map answer := by
  refine (Alike.solve h hm hunmarked condition).map_result_eq ?_
  rintro a b ⟨houtcome, halike, -⟩
  rw [answer, answer, houtcome, halike.statistics_eq]

namespace Matrix

/-- A solver that was used before ends the next run as a new one does, with the same outcome and
counters or the same fault, even if the matrix went through other runs; and so do lower bounds and
selectors. -/
theorem Reachable.answer_eq_of_used (hm : Reachable E m) (hs : Search.Used o s)
    (ht : Search.ofOptions o = .ok t) (hn : Resolved m n) :
    (∀ condition : Condition, (s.solve n condition).result.map Search.answer =
      (t.solve m condition).result.map Search.answer) ∧
    (∀ scan : IndependentScan, scan.estimate m = IndependentScan.estimate {} m) ∧
    (∀ queue : IndependentQueue, queue.estimate m = IndependentQueue.estimate {} m) ∧
    ∀ selector : Selector,
      (selector.select m).1 = ((Selector.ofKind selector.kind).select m).1 := by
  have hready := (hn.reachable hm).1.holds.grounded.isReady
  have hsettings : t.settings = s.settings :=
    (Search.settings_of_ofOptions ht).trans hs.settings_eq.symm
  refine ⟨Search.answer_eq hsettings (hn.inStep hm) hready.unmarked, fun scan => ?_,
    fun queue => ?_, fun selector => ?_⟩
  · exact IndependentScan.estimate_eq (.refl m) scan {}
  · exact IndependentQueue.estimate_eq (.refl m) queue {}
  · rw [Selector.select_eq (.refl m) (Selector.kind_ofKind selector.kind).symm]

/-- The first run is stopped before its first branch, and the second run is made by the same solver
on the matrix that the first one left. -/
theorem answer_eq_triangle : ∃ m s t k outcome,
    ofElements 3 [1, 1, 1] [(0, 0), (0, 1), (1, 1), (1, 2), (2, 2), (2, 0)] = .ok m ∧
    Search.ofOptions { lowerBounds := [.mis], selector := .naive } = .ok s ∧
    (s.solve m (.ofBranches 0)).result = .ok (.feasible outcome, t, k) ∧
    ∀ condition : Condition, (t.solve k condition).result.map Search.answer =
      (s.solve m condition).result.map Search.answer := by
  obtain ⟨s, hs, hrun⟩ : ∃ s,
      Search.ofOptions { lowerBounds := [.mis], selector := .naive } = .ok s ∧ (do
        let m ← ofElements 3 [1, 1, 1] [(0, 0), (0, 1), (1, 1), (1, 2), (2, 2), (2, 0)]
        (s.solve m (.ofBranches 0)).result.map Prod.fst) = .ok (.feasible ⟨[0, 2], 2⟩) :=
    ⟨_, rfl, by decide +kernel⟩
  obtain ⟨m, hm, hrun⟩ := bind_eq_ok_iff.1 hrun
  have hreachable : Reachable [(0, 0), (0, 1), (1, 1), (1, 2), (2, 2), (2, 0)] m :=
    .ofElements (by decide) hm
  cases hresult : (s.solve m (.ofBranches 0)).result with
  | error e =>
      rw [hresult] at hrun
      exact nomatch hrun
  | ok r =>
      rw [hresult] at hrun
      obtain ⟨outcome, t, k⟩ := r
      cases hrun
      have hused : Search.Used { lowerBounds := [.mis], selector := .naive } t :=
        .solve (.fresh hs) hreachable hresult
      have hanswer := hreachable.answer_eq_of_used hused hs (.solve .refl hresult)
      exact ⟨m, s, t, k, _, hm, hs, hresult, hanswer.1⟩

end Matrix

end SetCover
