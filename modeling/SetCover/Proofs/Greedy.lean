import SetCover.Greedy
import SetCover.Proofs.Reduction.Phases

/-!
# Greedy covers

What the greedy solver selects is a cover, whatever the comparator allows, since each of its steps
takes active columns that complete every cover of what is left.  Its deletions are recorded, so they
can be undone.
-/

namespace SetCover

open SetCover.Matrix

variable {m n k : Matrix} {x y z : Reduction} {c : Nat} {columns : List Nat} {g g' : Greedy}

namespace Reduction

/-- Columns are taken that complete every cover of what is left, and deletions are recorded. -/
structure Selects (x y : Reduction) : Prop where
  exists_selected : ∃ N, y.selected = x.selected ++ N ∧ Picks N x.matrix y.matrix
  advances : x.matrix.Advances y.matrix
  marks_eq : y.matrix.marks = x.matrix.marks

theorem Selects.refl (x : Reduction) : Selects x x :=
  ⟨⟨[], (List.append_nil _).symm, .refl _⟩, .refl _, rfl⟩

theorem Selects.trans (h : Selects x y) (h' : Selects y z) : Selects x z := by
  obtain ⟨N, hN, hpicks⟩ := h.exists_selected
  obtain ⟨N', hN', hpicks'⟩ := h'.exists_selected
  exact ⟨⟨N ++ N', by rw [hN', hN, List.append_assoc], hpicks.trans hpicks'⟩,
    h.advances.trans h'.advances, h'.marks_eq.trans h.marks_eq⟩

theorem Selects.isReady (h : Selects x y) (hx : x.matrix.IsReady) : y.matrix.IsReady :=
  hx.advances h.advances h.marks_eq

theorem selects_of_reduceFully {may : Comparator} (hx : x.matrix.IsReady)
    (hy : (x.reduceFully may).result = .ok y) : Selects x y := by
  obtain ⟨⟨N, hN, hrun⟩, hmarks⟩ := reduces_of_reduceFully hx hy
  exact ⟨⟨N, hN, hrun.picks hx.isValid⟩, hrun.advances, hmarks⟩

theorem selects_of_select (hx : x.matrix.IsReady) (hy : (x.select c).result = .ok y) :
    Selects x y := by
  obtain ⟨k, hk, rfl⟩ := select_eq_ok_iff.1 hy
  obtain ⟨hdeletes, hmarks, hlt, hdeleted⟩ := deletes_of_select hk
  have hc := (hx.isValid.isDeleted_iff hlt).1 hdeleted
  exact ⟨⟨[c], rfl, hdeletes.trail.picks_of_select hx.isValid hc⟩, hdeletes.advances, hmarks⟩

end Reduction

namespace Greedy

open Reduction

theorem selects_of_reduce (hx : x.matrix.IsReady) (hy : (g.reduce x).result = .ok (g', y)) :
    Selects x y := by
  simp only [Greedy.reduce, Traced.result_bind, bind_eq_ok_iff] at hy
  obtain ⟨z, hz, hy⟩ := hy
  cases hy
  exact selects_of_reduceFully hx hz

theorem selects_of_extend {fuel : Nat} (hx : x.matrix.IsReady)
    (hy : (g.extend x fuel).result = .ok (g', y)) : Selects x y := by
  induction fuel generalizing g x with
  | zero =>
      cases hy
      exact .refl _
  | succ fuel ih =>
      rw [extend] at hy
      split at hy
      · cases hy
        exact .refl _
      · simp only [Traced.result_bind, bind_eq_ok_iff] at hy
        obtain ⟨-, -, x₁, hx₁, ⟨g₂, x₂⟩, hx₂, hy⟩ := hy
        have hselect := selects_of_select hx hx₁
        have hreduce := selects_of_reduce (hselect.isReady hx) hx₂
        exact (hselect.trans hreduce).trans (ih ((hselect.trans hreduce).isReady hx) hy)

/-- The greedy solver selects a cover. -/
theorem coversOnce_of_solve (hm : m.IsReady) (h : (g.solve m).result = .ok (columns, g', k)) :
    m.CoversOnce columns ∧ m.Advances k ∧ k.marks = m.marks := by
  simp only [solve, Traced.result_bind, bind_eq_ok_iff] at h
  obtain ⟨⟨g₁, x⟩, hx, ⟨g₂, y⟩, hy, h⟩ := h
  by_cases hleft : y.matrix.numActive .row = 0
  · rw [if_pos hleft] at h
    cases h
    have hselects : Selects { matrix := m } x := selects_of_reduce hm hx
    have hselects' := hselects.trans (selects_of_extend (hselects.isReady hm) hy)
    obtain ⟨N, hN, hpicks⟩ := hselects'.exists_selected
    have hcovers := hpicks.coversOnce (hselects'.isReady hm).isValid hleft
    rw [← List.nil_append N, ← hN] at hcovers
    exact ⟨hcovers, hselects'.advances, hselects'.marks_eq⟩
  · rw [if_neg hleft] at h
    exact nomatch h

/-- The greedy solver selects a cover, and what it did is undone. -/
theorem coversOnce_of_solveAndRestore (hm : m.IsReady)
    (h : (g.solveAndRestore m).result = .ok (columns, g', k)) :
    m.CoversOnce columns ∧ m.Resembles k := by
  simp only [solveAndRestore, Traced.result_bind, Traced.result_liftM, bind_eq_ok_iff] at h
  obtain ⟨⟨columns', g₁, n⟩, hn, k', hk', h⟩ := h
  cases h
  obtain ⟨hcovers, hadvances, hmarks⟩ := coversOnce_of_solve hm.save hn
  exact ⟨(similar_save m).coversOnce_iff.1 hcovers, hm.resembles_of_restore hadvances hmarks hk'⟩

end Greedy

end SetCover
