import SetCover.Proofs.Compared

/-!
# Faults of the matrix operations

On a reachable matrix, an operation fails only if it is called for something that cannot be done: a
row or column that does not exist or is deleted is deleted or selected, a rollback lacks its
checkpoint, an element lies outside, or elements are added while something can be undone.  The
checks that guard the representation of the matrix never fail, and reductions do not fail at all.
-/

namespace SetCover.Matrix

variable {m k : Matrix} {E : List (Nat × Nat)}

/-! ### Labels -/

theorem IsLabelled.advances (h : m.IsLabelled) (hk : m.Advances k) : k.IsLabelled := by
  obtain ⟨xs, hxs⟩ := hk
  exact fun d => (hxs.trail.dimension_eq d).trans (h d)

theorem IsLabelled.restore (h : m.IsLabelled) (hm : m.Grounded) (hk : m.restore = .ok k) :
    k.IsLabelled := by
  obtain ⟨m₀, n, xs, -, -, hn, hsimilar, -⟩ := hm.exists_trail_of_restore hk
  exact fun d =>
    ((hsimilar.headers d).dimension_eq.trans (hn.dimension_eq d).symm).trans (h d)

theorem IsLabelled.addElement (h : m.IsLabelled) (hm : Linked [] m) {row column : Nat}
    {isNew : Bool} (hk : m.addElement row column = .ok (isNew, k)) : k.IsLabelled := by
  simp only [Matrix.addElement, bind_eq_ok_iff] at hk
  obtain ⟨-, -, ⟨isNew', n⟩, hn, hk⟩ := hk
  have hlabels : n.IsLabelled := fun d =>
    ((of_insertElement hn).1 d).dimension_eq.symm.trans (h d)
  cases isNew' with
  | false =>
      cases hk
      exact hlabels
  | true =>
      obtain ⟨n₁, hn₁, hk⟩ := bind_eq_ok_iff.1 hk
      obtain ⟨n₂, hn₂, hk⟩ := bind_eq_ok_iff.1 hk
      cases hk
      obtain ⟨hlinked, hrow⟩ := (hm.insertElement hn).1.activate hn₁
      exact (hlabels.of_activated hrow).of_activated (hlinked.activate hn₂).2

theorem IsLabelled.addElements (h : m.IsLabelled) (hm : Linked [] m) {es : List (Nat × Nat)}
    {added : Nat} (hk : m.addElements es = .ok (added, k)) : k.IsLabelled := by
  simp only [Matrix.addElements, bind_eq_ok_iff] at hk
  obtain ⟨-, -, ⟨added', n⟩, hn, n₁, hn₁, n₂, hn₂, hk⟩ := hk
  cases hk
  have hlabels : n.IsLabelled := fun d => (dimension_of_insertElements hn d).trans (h d)
  obtain ⟨hlinked, hrow⟩ := (hm.insertElements hn).1.activateAll hn₁
  exact (hlabels.of_activated hrow).of_activated (hlinked.activateAll hn₂).2

theorem isLabelled_of_zero {rows : Nat} {costs : List Nat} (h : zero rows costs = .ok m) :
    m.IsLabelled := by
  rw [zero, bind_eq_ok_iff] at h
  obtain ⟨n, hn, hm⟩ := h
  intro d
  rw [(prefixed_of_pushSentinels hm).headers_eq, (prefixed_of_pushSentinels hn).headers_eq]
  cases d <;> rfl

theorem Reachable.isLabelled (h : Reachable E m) : m.IsLabelled := by
  induction h with
  | ofElements _ hm =>
      obtain ⟨m₀, hm₀, hm⟩ := bind_eq_ok_iff.1 hm
      obtain ⟨⟨added, k⟩, hk, hm⟩ := bind_eq_ok_iff.1 hm
      cases hm
      exact (isLabelled_of_zero hm₀).addElements (initial_of_zero hm₀).wellFormed.toLinked hk
  | addElement hm hk ih =>
      obtain ⟨_, hcheck, -⟩ := bind_eq_ok_iff.1 hk
      have hwell := hm.holds.wellFormed (deletions_eq_nil_of_checkJournal hcheck)
      exact ih.addElement hwell.toLinked hk
  | addElements hm hk ih =>
      obtain ⟨_, hcheck, -⟩ := bind_eq_ok_iff.1 hk
      have hwell := hm.holds.wellFormed (deletions_eq_nil_of_checkJournal hcheck)
      exact ih.addElements hwell.toLinked hk
  | save _ ih => exact ih
  | restore hm hk ih => exact ih.restore hm.holds.grounded hk
  | act hm haction ih => exact ih.advances (haction.advances hm.holds.grounded.isReady).1

/-! ### Operations -/

theorem Reachable.abreast_refl {x : Reduction} (hx : Reachable E x.matrix) :
    Reduction.Abreast False x x :=
  Reduction.abreast_refl hx.holds.grounded.isReady hx.isCompared

/-- On a reachable matrix, a reduction does not fail, whatever the comparator is. -/
theorem Reachable.exists_reduced {x : Reduction} (hx : Reachable E x.matrix) (may : Comparator) :
    (∃ b y, (x.dropDominatedColumns may).result = .ok (b, y)) ∧
    (∃ b y, x.selectEssential.result = .ok (b, y)) ∧
    (∃ b y, x.dropDominatedRows.result = .ok (b, y)) ∧
    (∃ b y, (x.reduce may).result = .ok (b, y)) ∧
    ∃ y, (x.reduceFully may).result = .ok y := by
  have hmay : False → may.IsStable := False.elim
  obtain ⟨p₁, _, _, h₁, -⟩ := hx.abreast_refl.dropDominatedColumns hmay
  obtain ⟨p₂, _, _, h₂, -⟩ := hx.abreast_refl.selectEssential
  obtain ⟨p₃, _, _, h₃, -⟩ := hx.abreast_refl.dropDominatedRows
  obtain ⟨p₄, _, _, h₄, -⟩ := hx.abreast_refl.reduce hmay
  obtain ⟨y, _, _, h₅, -⟩ := hx.abreast_refl.reduceFully hmay
  exact ⟨⟨p₁.1, p₁.2, congrArg Traced.result h₁⟩, ⟨p₂.1, p₂.2, congrArg Traced.result h₂⟩,
    ⟨p₃.1, p₃.2, congrArg Traced.result h₃⟩, ⟨p₄.1, p₄.2, congrArg Traced.result h₄⟩,
    y, congrArg Traced.result h₅⟩

end SetCover.Matrix
