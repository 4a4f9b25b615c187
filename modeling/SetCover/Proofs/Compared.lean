import SetCover.Proofs.Matrix.Dirty
import SetCover.Proofs.Reachable
import SetCover.Proofs.Search.InStep

/-!
# Reachable matrices are compared

The first matrix has no active row, so nothing is to be compared.  New elements, deletions and
rollbacks keep what is clean; reductions, and the solvers that are made of them, compare the rows
before they make them clean.  So in a reachable matrix no clean row has all columns of another one,
and a reachable matrix is in step with itself.
-/

namespace SetCover

variable {α β : Type} {R : α → β → Prop} {a : α}

theorem Traced.Together.exists_of_result {x : Traced α} {y : Traced β} (h : Together R x y)
    (hx : x.result = .ok a) : ∃ b, y.result = .ok b ∧ R a b := by
  obtain ⟨a', b, events, rfl, rfl, hab⟩ := h
  cases hx
  exact ⟨b, rfl, hab⟩

theorem Traced.Follows.exists_of_result {x : Traced α} {y : Traced β} {cut : α → Prop}
    (h : Follows False cut R x y) (hx : x.result = .ok a) : ∃ b, y.result = .ok b ∧ R a b := by
  cases x with
  | error e => exact nomatch hx
  | ok p =>
      obtain ⟨a', events⟩ := p
      cases hx
      obtain ⟨b, rfl, hab⟩ := h.value a' events rfl And.left
      exact ⟨b, rfl, hab⟩

namespace Matrix

variable {m k : Matrix} {E : List (Nat × Nat)}

theorem IsReady.inStep_refl (hm : m.IsReady) (hc : m.IsCompared) : InStep True m m :=
  SetCover.Matrix.inStep_refl hm.isValid hc

/-- What a solver leaves is compared again. -/
theorem isCompared_of_solveAndRestore {g g' : Greedy} {columns : List Nat} (hm : m.IsReady)
    (hc : m.IsCompared) (h : (g.solveAndRestore m).result = .ok (columns, g', k)) :
    k.IsCompared := by
  have hstep := hm.inStep_refl hc
  obtain ⟨b, -, -, -, hk, -⟩ :=
    ((Greedy.Alike.refl g).solveAndRestore hstep hm.unmarked).exists_of_result h
  exact hk.isCompared_left

theorem isCompared_of_solve {s s' : Search} {condition : Condition} {outcome : Outcome}
    (hm : m.IsReady) (hc : m.IsCompared)
    (h : (s.solve m condition).result = .ok (outcome, s', k)) : k.IsCompared := by
  have hsteps := Search.Alike.solve (Eq.refl s.settings) (hm.inStep_refl hc) hm.unmarked condition
  obtain ⟨b, -, -, -, hk, -⟩ := hsteps.exists_of_result h
  exact hk.isCompared_left

theorem isCompared_of_start {o : Options} {s : Search} {run : Run} (hm : m.IsReady)
    (hc : m.IsCompared) (h : (Run.start m o s).result = .ok run) : run.matrix.IsCompared := by
  rcases of_start h with ⟨g, g', columns, hgreedy, -⟩ | ⟨s', outcome, hsearch, -⟩
  · exact isCompared_of_solveAndRestore hm hc hgreedy
  · exact isCompared_of_solve hm hc hsearch

theorem Action.isCompared (h : Action m k) (hm : m.IsReady) (hc : m.IsCompared) :
    k.IsCompared := by
  have hx : ∀ {x : Reduction}, x.matrix.IsReady → x.matrix.IsCompared →
      Reduction.Abreast False x x := Reduction.abreast_refl
  have hmay : ∀ {may : Comparator}, False → may.IsStable := False.elim
  cases h with
  | delete h => exact hc.of_keepsClean (hm.isValid.keepsClean_of_delete h _)
  | select h =>
      obtain ⟨-, -, hlt, hdeleted⟩ := deletes_of_select h
      have hactive := (hm.isValid.isDeleted_iff hlt).1 hdeleted
      obtain ⟨b, -, hk⟩ := ((hm.inStep_refl hc).select hactive).exists_of_result h
      exact hk.isCompared_left
  | dropDominatedColumns h =>
      obtain ⟨b, -, -, hk⟩ := ((hx hm hc).dropDominatedColumns hmay).exists_of_result h
      exact hk.matrix.isCompared_left
  | selectEssential h =>
      obtain ⟨b, -, -, hk⟩ := ((hx hm hc).selectEssential).exists_of_result h
      exact hk.matrix.isCompared_left
  | dropDominatedRows h =>
      obtain ⟨b, -, -, hk⟩ := ((hx hm hc).dropDominatedRows).exists_of_result h
      exact hk.matrix.isCompared_left
  | reduce h =>
      obtain ⟨b, -, -, hk⟩ := ((hx hm hc).reduce hmay).exists_of_result h
      exact hk.matrix.isCompared_left
  | reduceFully h =>
      obtain ⟨b, -, hk⟩ := ((hx hm hc).reduceFully hmay).exists_of_result h
      exact hk.matrix.isCompared_left
  | greedy h =>
      have hstep := hm.inStep_refl hc
      obtain ⟨b, -, -, -, hk⟩ :=
        ((Greedy.Alike.refl _).solve hstep hm.unmarked).exists_of_result h
      exact hk.isCompared_left
  | greedyAndRestore h => exact isCompared_of_solveAndRestore hm hc h
  | search h => exact isCompared_of_solve hm hc h
  | solve hrun h =>
      obtain ⟨s, run, hstart, rfl⟩ := exists_start_of_solve hrun h
      exact isCompared_of_start hm hc hstart

theorem Initial.isCompared {rows : Nat} {costs : List Nat} (h : Initial rows costs m) :
    m.IsCompared := by
  intro r hr
  have helement := ((wellFormed_nil_iff.1 h.wellFormed).2 .row r).1 hr
  obtain ⟨a, ha, -⟩ := hasElement_iff.1 helement
  rw [h.elements_eq] at ha
  exact absurd ha List.not_mem_nil

/-- In a reachable matrix no clean row has all columns of another clean row. -/
theorem Reachable.isCompared (h : Reachable E m) : m.IsCompared := by
  induction h with
  | ofElements _ hm =>
      obtain ⟨m₀, hm₀, hm⟩ := bind_eq_ok_iff.1 hm
      obtain ⟨⟨added, k⟩, hk, hm⟩ := bind_eq_ok_iff.1 hm
      cases hm
      have hinitial := initial_of_zero hm₀
      exact hinitial.isCompared.of_keepsClean (hinitial.wellFormed.keepsClean_of_addElements hk _)
  | addElement hm hk ih =>
      obtain ⟨_, hcheck, -⟩ := bind_eq_ok_iff.1 hk
      have hwell := hm.holds.wellFormed (deletions_eq_nil_of_checkJournal hcheck)
      exact ih.of_keepsClean (hwell.keepsClean_of_addElement hk _)
  | addElements hm hk ih =>
      obtain ⟨_, hcheck, -⟩ := bind_eq_ok_iff.1 hk
      have hwell := hm.holds.wellFormed (deletions_eq_nil_of_checkJournal hcheck)
      exact ih.of_keepsClean (hwell.keepsClean_of_addElements hk _)
  | save _ ih => exact ih.of_keepsClean (.of_headers_eq (similar_save _) rfl)
  | restore hm hk ih => exact ih.of_keepsClean (hm.holds.grounded.keepsClean_of_restore hk _)
  | act hm haction ih => exact haction.isCompared hm.holds.grounded.isReady ih

theorem Reachable.inStep_refl (h : Reachable E m) : InStep True m m :=
  h.holds.grounded.isReady.inStep_refl h.isCompared

end Matrix

end SetCover
