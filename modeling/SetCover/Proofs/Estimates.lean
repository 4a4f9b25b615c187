import SetCover.Proofs.Bound.Admissible
import SetCover.Proofs.Bound.Share
import SetCover.Proofs.Refinement

/-!
# Estimates of reachable matrices

An estimate must not exceed what any cover costs.  The bounds by independent rows never do, whatever
their tables were used for before.  The bound by cost shares does not as long as a cover costs
little for the number of rows; for great costs the slack does not make up for the roundings.
-/

namespace SetCover.Matrix

variable {m : Matrix} {E : List (Nat × Nat)} {S : Finset Nat}

/-- The bounds by independent rows are at most what the columns of a cover cost. -/
theorem Reachable.independent_le_price (hm : Reachable E m)
    (hactive : ∀ c ∈ S, c ∈ m.active .column) (hhits : ∀ r ∈ m.active .row, ∃ c ∈ S, (r, c) ∈ E) :
    (∀ (s t : IndependentScan) (b : Nat), s.estimate m = .ok (b, t) → b ≤ m.price S) ∧
      ∀ (s t : IndependentQueue) (b : Nat), s.estimate m = .ok (b, t) → b ≤ m.price S := by
  have hvalid := hm.holds.grounded.isValid
  have hcovers := hm.covers_iff.2 ⟨hactive, hhits⟩
  constructor
  · intro s t b h
    exact IndependentScan.estimate_le_price hvalid hcovers h
  · intro s t b h
    exact IndependentQueue.estimate_le_price hvalid hcovers h

/-- Of three rows in a chain the outer ones are taken, and two columns cover all rows at the cost
of these.  The tables are used a second time. -/
theorem independent_le_price_chain : ∃ m s t q u b,
    ofElements 3 [2, 2, 1, 3] [(0, 0), (0, 1), (1, 1), (1, 2), (2, 2), (2, 3)] = .ok m ∧
    IndependentScan.estimate {} m = .ok (3, s) ∧ s.estimate m = .ok (b, t) ∧ b ≤ m.price {1, 2} ∧
    IndependentQueue.estimate {} m = .ok (3, q) ∧ q.estimate m = .ok (b, u) ∧
      m.price {1, 2} = 3 := by
  have hrun : (do
      let m ← ofElements 3 [2, 2, 1, 3] [(0, 0), (0, 1), (1, 1), (1, 2), (2, 2), (2, 3)]
      let s ← IndependentScan.estimate {} m
      let t ← s.2.estimate m
      let q ← IndependentQueue.estimate {} m
      let u ← q.2.estimate m
      return ([s.1, t.1, q.1, u.1, m.price {1, 2}], m.active .row, m.active .column)) =
        .ok ([3, 3, 3, 3, 3], [0, 1, 2], [0, 1, 2, 3]) := by decide +kernel
  obtain ⟨m, hm, hrun⟩ := bind_eq_ok_iff.1 hrun
  obtain ⟨s, hs, hrun⟩ := bind_eq_ok_iff.1 hrun
  obtain ⟨t, ht, hrun⟩ := bind_eq_ok_iff.1 hrun
  obtain ⟨q, hq, hrun⟩ := bind_eq_ok_iff.1 hrun
  obtain ⟨u, hu, hrun⟩ := bind_eq_ok_iff.1 hrun
  have heq := Except.ok.inj hrun
  simp only [Prod.mk.injEq, List.cons.injEq, and_true] at heq
  obtain ⟨⟨hs₁, ht₁, hq₁, hu₁, hprice⟩, hrows, hcolumns⟩ := heq
  have hreachable : Reachable [(0, 0), (0, 1), (1, 1), (1, 2), (2, 2), (2, 3)] m :=
    .ofElements (by decide) hm
  have hactive : ∀ c ∈ ({1, 2} : Finset Nat), c ∈ m.active .column := by
    rw [hcolumns]
    decide
  have hhits : ∀ r ∈ m.active .row, ∃ c ∈ ({1, 2} : Finset Nat),
      (r, c) ∈ [(0, 0), (0, 1), (1, 1), (1, 2), (2, 2), (2, 3)] := by
    rw [hrows]
    decide
  have hle := (hreachable.independent_le_price hactive hhits).1 s.2 t.2 t.1 ht
  refine ⟨m, s.2, t.2, q.2, u.2, t.1, hm, ?_, ht, hle, ?_, ?_, hprice⟩
  · rw [hs, ← hs₁]
  · rw [hq, ← hq₁]
  · rw [hu, ht₁, ← hu₁]

/-- The bound by cost shares exceeds what the columns of a cover cost by its roundings at most, and
not at all if this is small for the number of active rows. -/
theorem Reachable.shareBound_le_price (hm : Reachable E m)
    (hactive : ∀ c ∈ S, c ∈ m.active .column) (hhits : ∀ r ∈ m.active .row, ∃ c ∈ S, (r, c) ∈ E)
    (hprice : m.price S < Cost.limit) :
    m.shareBound ≤ ⌈(m.price S : ℚ) * (1 + 1 / 2 ^ 53) ^ (m.numActive .row + 2)⌉₊ ∧
      ((m.numActive .row + 2) * m.price S ≤ 9000000 → m.shareBound ≤ m.price S) := by
  have hvalid := hm.holds.grounded.isValid
  have hcovers := hm.covers_iff.2 ⟨hactive, hhits⟩
  have hlength := length_active_lt_two_pow hvalid hm.fitsWords .row
  have hrows : m.numActive .row = (m.active .row).length := hvalid.numActive_eq .row
  obtain ⟨a, z, hbound, hz, hle⟩ := exists_shareBound_eq hvalid hm.fitsWords hcovers hprice
  rw [← hrows] at hle hlength
  rw [hbound]
  constructor
  · exact (Share.roundUp_le_ceil hz).trans (Nat.ceil_mono hle)
  · intro hsmall
    have hfactor : m.price S ≤ (m.numActive .row + 2) * m.price S :=
      Nat.le_mul_of_pos_left _ (Nat.succ_pos _)
    have hslack := Share.mul_roundingFactor_pow_le (n := m.numActive .row + 2) (by omega) hsmall
    exact Share.roundUp_le_of_le hz (by omega) (hle.trans hslack)

/-- Of three rows, each of two columns, two columns cover all at the cost of 2, and the shares sum
up to 1.5. -/
theorem shareBound_le_price_triangle : ∃ m,
    ofElements 3 [1, 1, 1] [(0, 0), (0, 1), (1, 1), (1, 2), (2, 2), (2, 0)] = .ok m ∧
    m.price {0, 1} = 2 ∧ m.shareBound = 2 ∧ (m.numActive .row + 2) * m.price {0, 1} ≤ 9000000 ∧
    m.shareBound ≤ ⌈(m.price {0, 1} : ℚ) * (1 + 1 / 2 ^ 53) ^ (m.numActive .row + 2)⌉₊ ∧
    m.shareBound ≤ m.price {0, 1} := by
  have hrun : (do
      let m ← ofElements 3 [1, 1, 1] [(0, 0), (0, 1), (1, 1), (1, 2), (2, 2), (2, 0)]
      return ([m.price {0, 1}, m.shareBound, m.numActive .row], m.active .row, m.active .column)) =
        .ok ([2, 2, 3], [0, 1, 2], [0, 1, 2]) := by decide +kernel
  obtain ⟨m, hm, hrun⟩ := bind_eq_ok_iff.1 hrun
  have heq := Except.ok.inj hrun
  simp only [Prod.mk.injEq, List.cons.injEq, and_true] at heq
  obtain ⟨⟨hprice, hbound, hnum⟩, hrows, hcolumns⟩ := heq
  have hreachable : Reachable [(0, 0), (0, 1), (1, 1), (1, 2), (2, 2), (2, 0)] m :=
    .ofElements (by decide) hm
  have hactive : ∀ c ∈ ({0, 1} : Finset Nat), c ∈ m.active .column := by
    rw [hcolumns]
    decide
  have hhits : ∀ r ∈ m.active .row, ∃ c ∈ ({0, 1} : Finset Nat),
      (r, c) ∈ [(0, 0), (0, 1), (1, 1), (1, 2), (2, 2), (2, 0)] := by
    rw [hrows]
    decide
  have hlimit : m.price {0, 1} < Cost.limit := by
    rw [hprice]
    decide
  have hsmall : (m.numActive .row + 2) * m.price {0, 1} ≤ 9000000 := by
    rw [hnum, hprice]
    decide
  have hle := hreachable.shareBound_le_price hactive hhits hlimit
  exact ⟨m, hm, hprice, hbound, hsmall, hle.1, hle.2 hsmall⟩

/-- The only column of one row is a cover.  Its cost has 54 bits, and its share is rounded up to the
next even number. -/
theorem price_lt_shareBound_single : ∃ m, ofElements 1 [9007199254740995] [(0, 0)] = .ok m ∧
    Reachable [(0, 0)] m ∧ (∀ c ∈ ({0} : Finset Nat), c ∈ m.active .column) ∧
    (∀ r ∈ m.active .row, ∃ c ∈ ({0} : Finset Nat), (r, c) ∈ [(0, 0)]) ∧
    m.price {0} < Cost.limit ∧ m.price {0} = 9007199254740995 ∧
    m.shareBound = 9007199254740996 := by
  have hrun : (do
      let m ← ofElements 1 [9007199254740995] [(0, 0)]
      return ([m.price {0}, m.shareBound], m.active .row, m.active .column)) =
        .ok ([9007199254740995, 9007199254740996], [0], [0]) := by decide +kernel
  obtain ⟨m, hm, hrun⟩ := bind_eq_ok_iff.1 hrun
  have heq := Except.ok.inj hrun
  simp only [Prod.mk.injEq, List.cons.injEq, and_true] at heq
  obtain ⟨⟨hprice, hbound⟩, hrows, hcolumns⟩ := heq
  have hreachable : Reachable [(0, 0)] m := .ofElements (by decide) hm
  refine ⟨m, hm, hreachable, ?_, ?_, ?_, hprice, hbound⟩
  · rw [hcolumns]
    decide
  · rw [hrows]
    decide
  · rw [hprice]
    decide

end SetCover.Matrix
