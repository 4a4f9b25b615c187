import SetCover.Proofs.Compared

/-!
# Pairs of rows that are passed over

A pass over the rows does not compare two rows that are clean.  `dropContainingRows` is the pass
that compares all pairs; it does not look at dirty flags.  On a reachable matrix both delete the
same rows in the same order and report the same, and what they leave is the same matrix.
-/

namespace SetCover

/-- What is done with a value need only be the same for the value that there is. -/
theorem Traced.bind_congr {α β : Type} {x : Traced α} {f g : α → Traced β}
    (h : ∀ a, x.result = .ok a → f a = g a) : x >>= f = x >>= g := by
  change Traced.bind x f = Traced.bind x g
  cases x with
  | error e => rfl
  | ok p =>
      obtain ⟨a, events⟩ := p
      have hfg : f a = g a := h a rfl
      simp only [Traced.bind, hfg]

namespace Matrix

variable {m k : Matrix} {E : List (Nat × Nat)} {is : List Nat}

/-- Deletes the rows that have all columns of one of some rows, and tells whether there was one.
All pairs are compared. -/
def thinContainingRows (m : Matrix) (changed : Bool) : List Nat → Traced (Bool × Matrix)
  | [] => pure (changed, m)
  | r :: rest =>
    if m.isMarked .row r then m.thinContainingRows changed rest
    else do
      let dominated := m.containingRows r
      let m ← m.dropRowsFor r dominated
      m.thinContainingRows (changed || !dominated.isEmpty) rest

/-- Deletes each row that has all columns of another row, and tells whether there was one.  All
pairs are compared. -/
def dropContainingRows (m : Matrix) : Traced (Bool × Matrix) := do
  let (changed, m) ← m.thinContainingRows false (m.active .row)
  let m := m.clearMarks .row
  let m ← m.cleanAll .row (m.active .row)
  return (changed, m)

theorem thinRows_eq_thinContainingRows (hm : Thinning m is) (changed : Bool) :
    m.thinRows changed is = m.thinContainingRows changed is := by
  induction is generalizing m changed with
  | nil => rfl
  | cons r is ih =>
      rw [thinRows, thinContainingRows]
      by_cases hmarked : m.isMarked .row r
      · rw [if_pos hmarked, if_pos hmarked]
        exact ih hm.tail changed
      · rw [if_neg hmarked, if_neg hmarked]
        have heq := dominatedRows_eq_containingRows hm.isValid hm.isCompared (hm.mem_active hmarked)
        dsimp only
        rw [← heq]
        apply Traced.bind_congr
        intro n hn
        exact ih (hm.next hmarked hn) _

/-- To pass over pairs of clean rows changes nothing. -/
theorem IsReady.dropDominatedRows_eq (hm : m.IsReady) (hc : m.IsCompared) :
    m.dropDominatedRows = m.dropContainingRows := by
  rw [dropDominatedRows, dropContainingRows, thinRows_eq_thinContainingRows (hm.thinning hc)]

/-- On a reachable matrix, the pass that leaves out pairs of clean rows deletes the same rows in the
same order as the pass that compares all pairs, and says the same.  It has left out nothing: no
clean row with an element has all its columns in another clean row. -/
theorem Reachable.dropDominatedRows_eq_dropContainingRows (hm : Reachable E m) :
    m.dropDominatedRows = m.dropContainingRows ∧
    (∃ changed k, m.dropDominatedRows.result = .ok (changed, k)) ∧
    ∀ r ∈ m.active .row, ∀ s ∈ m.active .row, s ≠ r → m.line .row r ≠ [] →
      m.isDirty .row r = false → m.isDirty .row s = false →
        ¬m.line .row r ⊆ m.line .row s := by
  refine ⟨hm.holds.grounded.isReady.dropDominatedRows_eq hm.isCompared, ?_, hm.isCompared⟩
  obtain ⟨p, _, _, h, -⟩ := hm.inStep_refl.dropDominatedRows hm.holds.grounded.isReady.unmarked
  exact ⟨p.1, p.2, congrArg Traced.result h⟩

/-- A row is deleted and comes back dirty, and another one gets an element.  Both are compared with
the rows that are still clean, and two rows are deleted. -/
theorem dropDominatedRows_eq_four_by_three : ∃ n m, (do
    let m ← ofElements 4 [1, 1, 1] [(0, 0), (1, 0), (1, 1), (2, 2), (3, 1)]
    m.save.dropDominatedRows.result) = .ok (true, n) ∧
      (do
        let (_, m) ← (← n.restore).addElement 2 1
        return m) = .ok m ∧
      (m.active .row).map (m.isDirty .row) = [false, true, true, false] ∧
      m.dropDominatedRows = m.dropContainingRows ∧
      ∃ k, m.dropDominatedRows.result = .ok (true, k) ∧ k.active .row = [0, 3] := by
  obtain ⟨p, hp, hchanged, m, hm, hdirty, hk⟩ : ∃ p, (do
      let m ← ofElements 4 [1, 1, 1] [(0, 0), (1, 0), (1, 1), (2, 2), (3, 1)]
      m.save.dropDominatedRows.result) = .ok p ∧ p.1 = true ∧ ∃ m, (do
        let (_, m) ← (← p.2.restore).addElement 2 1
        return m) = .ok m ∧
      (m.active .row).map (m.isDirty .row) = [false, true, true, false] ∧
      m.dropDominatedRows.result.map (fun q => (q.1, q.2.active .row)) = .ok (true, [0, 3]) :=
    ⟨_, rfl, rfl, _, rfl, by decide +kernel, by decide +kernel⟩
  obtain ⟨changed, n⟩ := p
  obtain ⟨m₀, hm₀, hn⟩ := bind_eq_ok_iff.1 hp
  have hrows : (Reduction.mk m₀.save [] []).dropDominatedRows.result =
      .ok (changed, ⟨n, [], []⟩) := by
    simp only [Reduction.dropDominatedRows, Traced.result_bind, hn]
    rfl
  obtain ⟨n', hn', hm'⟩ := bind_eq_ok_iff.1 hm
  obtain ⟨⟨isNew, k⟩, hadd, hm'⟩ := bind_eq_ok_iff.1 hm'
  cases hm'
  have hreachable : Reachable [(0, 0), (1, 0), (1, 1), (2, 2), (3, 1), (2, 1)] m :=
    .addElement (.restore (.act (.save (.ofElements (by decide) hm₀))
      (.dropDominatedRows hrows)) hn') hadd
  obtain ⟨heq, ⟨changed', k, hresult⟩, -⟩ := hreachable.dropDominatedRows_eq_dropContainingRows
  rw [hresult] at hk
  obtain ⟨rfl, hactive⟩ := Prod.mk.inj (Except.ok.inj hk)
  cases hchanged
  exact ⟨n, m, hp, hm, hdirty, heq, k, hresult, hactive⟩

end Matrix

end SetCover
