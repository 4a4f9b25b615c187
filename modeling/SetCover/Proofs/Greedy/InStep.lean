import SetCover.Proofs.Greedy
import SetCover.Proofs.Reduction.InStep
import SetCover.Proofs.Tables

/-!
# Greedy covers side by side

On matrices in step, greedy solvers of one kind select the same columns in the same order.  Neither
what their tables hold nor the dirty flags make a difference.  If the matrix has no cover, both fail
alike.
-/

namespace SetCover

open SetCover.Matrix

variable {m n k k' : Matrix} {x y : Reduction} {c : Nat} {p : Prop}

namespace TieBreaker

variable {α β : Type} [LT β] [DecidableLT β] {score : α → β} {candidates : List α}

theorem mem_of_best_foldl {t : TieBreaker α β} {a : α} {v : β}
    (h : (candidates.foldl (fun t c => t.consider c (score c)) t).best = some (a, v)) :
    a ∈ candidates ∨ t.best = some (a, v) := by
  induction candidates generalizing t with
  | nil => exact Or.inr h
  | cons c candidates ih =>
      rcases ih h with hmem | hbest
      · exact Or.inl (List.mem_cons_of_mem c hmem)
      · dsimp only [consider] at hbest
        split at hbest
        · cases hbest
          exact Or.inl List.mem_cons_self
        · split at hbest
          · cases hbest
            exact Or.inl List.mem_cons_self
          · exact Or.inr hbest

/-- What is chosen was a candidate. -/
theorem mem_of_selectBy {d : Direction} {a : α} (h : selectBy d score candidates = some a) :
    a ∈ candidates := by
  obtain ⟨⟨b, v⟩, hbest, rfl⟩ := Option.map_eq_some_iff.1 h
  exact (mem_of_best_foldl hbest).resolve_right nofun

end TieBreaker

/-- A selector chooses a candidate. -/
theorem Selector.mem_candidates_of_select {s : Selector} (h : (s.select m).1 = some c) :
    c ∈ m.candidates := by
  cases s with
  | naive => exact TieBreaker.mem_of_selectBy h
  | weighted weights => exact TieBreaker.mem_of_selectBy h
  | costSensitive charges => exact TieBreaker.mem_of_selectBy h

theorem Selector.mem_active_of_select {s : Selector} (h : (s.select m).1 = some c) :
    c ∈ m.active .column :=
  mem_active_of_mem_candidates (mem_candidates_of_select h)

namespace Matrix.InStep

theorem save (h : InStep p m n) : InStep p m.save n.save := by
  have hvalid : ∀ {k : Matrix}, k.IsValid → k.save.IsValid := by
    intro k hk
    have hjournal : k.save.journal.deletions = k.journal.deletions :=
      Journal.deletions_checkpoint k.journal
    rw [IsValid, hjournal]
    exact (similar_save k).wellFormed hk
  refine ⟨((similar_save m).sameElements.symm.trans h.sameElements).trans
    (similar_save n).sameElements, h.marks_eq,
    hvalid h.isValid_left, hvalid h.isValid_right,
    h.isCompared_left.of_keepsClean (.of_headers_eq (similar_save m) rfl),
    h.isCompared_right.of_keepsClean (.of_headers_eq (similar_save n) rfl),
    h.eq_or.imp_left ?_⟩
  rintro rfl
  rfl

/-- Going back to checkpoints that were set on matrices in step leads to matrices in step. -/
theorem restore (h : InStep p m n) (hm : m.Unmarked) (hk : InStep p k k')
    (hadvances : m.save.Advances k) (hadvances' : n.save.Advances k')
    (hmarks : k.marks = m.marks) :
    Together (fun a b => InStep p a b ∧ m.Resembles a) k.restore k'.restore := by
  obtain ⟨a, ha, -⟩ := hadvances.exists_restore_eq_ok h.isValid_left
  obtain ⟨b, hb, -⟩ := hadvances'.exists_restore_eq_ok h.isValid_right
  have hready : m.IsReady := ⟨h.isValid_left, hm⟩
  have hready' : n.IsReady := ⟨h.isValid_right, h.unmarked hm⟩
  have hresembles := hready.resembles_of_restore hadvances hmarks ha
  have hresembles' := hready'.resembles_of_restore hadvances'
    (by rw [hk.marks_eq, hmarks, h.marks_eq]) hb
  refine ⟨a, b, ha, hb, ⟨?_, ?_, ?_, ?_, ?_, ?_, ?_⟩, hresembles⟩
  · exact (hresembles.similar.sameElements.symm.trans h.sameElements).trans
      hresembles'.similar.sameElements
  · rw [hresembles'.marks_eq, hresembles.marks_eq, h.marks_eq]
  · exact hresembles.advances.isValid h.isValid_left
  · exact hresembles'.advances.isValid h.isValid_right
  · exact hk.isCompared_left.of_keepsClean (hadvances.keepsClean_of_restore h.isValid_left ha _)
  · exact hk.isCompared_right.of_keepsClean
      (hadvances'.keepsClean_of_restore h.isValid_right hb _)
  · refine hk.eq_or.imp_left ?_
    rintro rfl
    exact Except.ok.inj (ha.symm.trans hb)

end Matrix.InStep

namespace Greedy

variable {g h : Greedy} {lax : Prop}

/-- The solvers differ in tables and counters at most. -/
structure Alike (g h : Greedy) : Prop where
  kind_eq : h.selector.kind = g.selector.kind
  dominance_eq : h.dominance = g.dominance

theorem Alike.refl (g : Greedy) : Alike g g := ⟨rfl, rfl⟩

theorem Alike.trans {i : Greedy} (hgh : Alike g h) (hhi : Alike h i) : Alike g i :=
  ⟨hhi.kind_eq.trans hgh.kind_eq, hhi.dominance_eq.trans hgh.dominance_eq⟩

/-- Solvers that go on alike, with reductions abreast. -/
structure Abreast (a b : Greedy × Reduction) : Prop where
  alike : Alike a.1 b.1
  reductions : Reduction.Abreast True a.2 b.2

namespace Alike

theorem reduce (hg : Alike g h) (hx : Reduction.Abreast True x y) :
    Traced.Together Abreast (g.reduce x) (h.reduce y) := by
  rw [Greedy.reduce, Greedy.reduce, hg.dominance_eq]
  refine (hx.reduceFully fun _ => g.dominance.isStable_comparator).bind fun a b _ hab => ?_
  exact .pure ⟨⟨hg.kind_eq, hg.dominance_eq⟩, hab⟩

theorem select (hx : Reduction.Abreast True x y) (hc : c ∈ x.matrix.active .column) :
    Traced.Together (Reduction.Abreast True) (x.select c) (y.select c) := by
  refine (hx.toInStep.select hc).imp fun a b ha hab => ⟨hab, ?_⟩
  obtain ⟨k, hk, rfl⟩ := Reduction.select_eq_ok_iff.1 ha
  obtain ⟨hdeletes, hmarks, -⟩ := deletes_of_select hk
  exact (hx.isReady.advances hdeletes.advances hmarks).unmarked

theorem extend (hg : Alike g h) (hx : Reduction.Abreast True x y) (fuel : Nat) :
    Traced.Together Abreast (g.extend x fuel) (h.extend y fuel) := by
  induction fuel generalizing g h x y with
  | zero => exact .pure ⟨hg, hx⟩
  | succ fuel ih =>
      have hselect := Selector.select_eq hx.matrix.looksLike hg.kind_eq.symm
      have hkind := g.selector.kind_select x.matrix
      rw [Greedy.extend, Greedy.extend, ← hselect]
      cases hcolumn : g.selector.select x.matrix with
      | mk column selector =>
          rw [hcolumn] at hkind
          cases column with
          | none => exact .pure ⟨⟨rfl, hg.dominance_eq⟩, hx⟩
          | some c =>
              have hc : c ∈ x.matrix.active .column :=
                Selector.mem_active_of_select (congrArg Prod.fst hcolumn)
              refine (Traced.Together.emit _).bind fun _ _ _ _ => ?_
              refine (select hx hc).bind fun a b _ hab => ?_
              have hg' : Alike ({ g with selector } : Greedy).countSelected
                  ({ h with selector } : Greedy).countSelected := ⟨rfl, hg.dominance_eq⟩
              exact (hg'.reduce hab).bind fun a b _ hab => ih hab.alike hab.reductions

/-- Alike solvers on matrices in step select the same columns, or fail alike. -/
theorem solve (hg : Alike g h) (hm : InStep True m n) (hunmarked : m.Unmarked) :
    Traced.Follows lax (fun _ => False)
      (fun a b => b.1 = a.1 ∧ Alike a.2.1 b.2.1 ∧ InStep True a.2.2 b.2.2)
      (g.solve m) (h.solve n) := by
  have hx : Reduction.Abreast True { matrix := m } { matrix := n } := ⟨⟨hm, rfl⟩, hunmarked⟩
  rw [Greedy.solve, Greedy.solve]
  refine .bind_together (hg.reduce hx) ?_
  rintro ⟨g₁, x₁⟩ ⟨h₁, y₁⟩ - - ⟨hg₁, hx₁⟩
  dsimp only
  rw [← hx₁.matrix.looksLike.numActive_eq]
  refine .bind_together (hg₁.extend hx₁ _) ?_
  rintro ⟨g₂, x₂⟩ ⟨h₂, y₂⟩ - - ⟨hg₂, hx₂⟩
  dsimp only
  rw [← hx₂.matrix.looksLike.numActive_eq]
  by_cases hzero : x₂.matrix.numActive .row = 0
  · rw [if_pos hzero, if_pos hzero]
    exact .of_together (.pure ⟨hx₂.selected_eq, hg₂, hx₂.matrix⟩)
  · rw [if_neg hzero, if_neg hzero]
    exact .error _

/-- Alike solvers on matrices in step find the same cover, or fail alike. -/
theorem solveAndRestore (hg : Alike g h) (hm : InStep True m n) (hunmarked : m.Unmarked) :
    Traced.Follows lax (fun _ => False)
      (fun a b => b.1 = a.1 ∧ Alike a.2.1 b.2.1 ∧ InStep True a.2.2 b.2.2 ∧ m.Resembles a.2.2)
      (g.solveAndRestore m) (h.solveAndRestore n) := by
  have hready : m.IsReady := ⟨hm.isValid_left, hunmarked⟩
  have hready' : n.IsReady := ⟨hm.isValid_right, hm.unmarked hunmarked⟩
  rw [Greedy.solveAndRestore, Greedy.solveAndRestore]
  refine (hg.solve hm.save hunmarked).bind ?_ fun _ _ _ _ hcut => hcut.elim
  rintro ⟨columns, g', k⟩ ⟨columns', h', k'⟩ hk hk' ⟨hcolumns, hg', hkk⟩
  obtain ⟨-, hadvances, hmarks⟩ := coversOnce_of_solve hready.save hk
  obtain ⟨-, hadvances', -⟩ := coversOnce_of_solve hready'.save hk'
  have hrestore := hm.restore hunmarked hkk hadvances hadvances' hmarks
  dsimp only
  refine .of_together ((Traced.Together.lift hrestore).bind fun a b _ hab => ?_)
  exact .pure ⟨hcolumns, hg', hab⟩

end Alike

/-! ### What a solver keeps -/

variable {g' : Greedy} {columns : List Nat}

theorem alike_of_reduce (hy : (g.reduce x).result = .ok (g', y)) : Alike g g' := by
  simp only [Greedy.reduce, Traced.result_bind, bind_eq_ok_iff] at hy
  obtain ⟨z, -, hy⟩ := hy
  cases hy
  exact ⟨rfl, rfl⟩

theorem alike_of_extend {fuel : Nat} (hy : (g.extend x fuel).result = .ok (g', y)) :
    Alike g g' := by
  induction fuel generalizing g x with
  | zero =>
      cases hy
      exact .refl _
  | succ fuel ih =>
      have hkind := g.selector.kind_select x.matrix
      rw [extend] at hy
      split at hy
      · rename_i selector hselect
        rw [hselect] at hkind
        cases hy
        exact ⟨hkind, rfl⟩
      · rename_i c selector hselect
        rw [hselect] at hkind
        simp only [Traced.result_bind, bind_eq_ok_iff] at hy
        obtain ⟨-, -, x₁, -, ⟨g₂, x₂⟩, hreduce, hy⟩ := hy
        have hselected : Alike g ({ g with selector } : Greedy).countSelected := ⟨hkind, rfl⟩
        exact (hselected.trans (alike_of_reduce hreduce)).trans (ih hy)

theorem alike_of_solve (hk : (g.solve m).result = .ok (columns, g', k)) : Alike g g' := by
  simp only [solve, Traced.result_bind, bind_eq_ok_iff] at hk
  obtain ⟨⟨g₁, x⟩, hx, ⟨g₂, y⟩, hy, hk⟩ := hk
  by_cases hleft : y.matrix.numActive .row = 0
  · rw [if_pos hleft] at hk
    cases hk
    exact (alike_of_reduce hx).trans (alike_of_extend hy)
  · rw [if_neg hleft] at hk
    cases hk

theorem alike_of_solveAndRestore (hk : (g.solveAndRestore m).result = .ok (columns, g', k)) :
    Alike g g' := by
  simp only [solveAndRestore, Traced.result_bind, Traced.result_liftM, bind_eq_ok_iff] at hk
  obtain ⟨⟨columns', g₁, n⟩, hn, k', -, hk⟩ := hk
  cases hk
  exact alike_of_solve hn

end Greedy

end SetCover
