import Mathlib.Algebra.Order.Group.Int
import Mathlib.Logic.Equiv.Basic
import SetCover.Heap

/-!
# Order in a heap

The values of the first `n` positions are `Ordered` when none exceeds the value of its parent, so
none exceeds the value of the first position.

While a value moves, the order is disturbed around the position `p` where it is:
`OrderedAround v n p` says that the values are in order but for what is between `p` and its
parent and between `p` and its children, and that the children do not exceed the parent of `p`.
Exchanging the value with that of the parent or of the greatest child moves the disturbance.
-/

namespace SetCover.Heap

variable {v : Nat → Int} {h : Heap} {c n p q : Nat}

/-- The position above `p`. -/
def parent (p : Nat) : Nat := (p - 1) / 2

theorem parent_lt (hp : 0 < p) : parent p < p := by
  rw [parent]
  omega

theorem parent_eq_iff (hq : 0 < q) : parent q = p ↔ q = 2 * p + 1 ∨ q = 2 * p + 2 := by
  rw [parent]
  omega

theorem ne_of_parent_eq (hq : 0 < q) (hp : parent q = p) : q ≠ p := by
  have hlt := parent_lt hq
  omega

/-- No value exceeds that of its parent. -/
def Ordered (v : Nat → Int) (n : Nat) : Prop := ∀ q < n, 0 < q → v q ≤ v (parent q)

/-- No child exceeds the value at position `p`. -/
def BoundsChildren (v : Nat → Int) (n p : Nat) : Prop :=
  ∀ q < n, 0 < q → parent q = p → v q ≤ v p

/-- The values are in order, whatever the value at position `p` is compared with others. -/
structure OrderedAround (v : Nat → Int) (n p : Nat) : Prop where
  le_parent : ∀ q < n, 0 < q → q ≠ p → parent q ≠ p → v q ≤ v (parent q)
  le_grandparent : 0 < p → ∀ q < n, 0 < q → parent q = p → v q ≤ v (parent p)

/-- The first position has the greatest value. -/
theorem Ordered.le_first (hv : Ordered v n) : ∀ q < n, v q ≤ v 0 := by
  intro q
  induction q using Nat.strongRecOn with
  | ind q ih =>
      intro hq
      rcases Nat.eq_zero_or_pos q with rfl | hpos
      · exact le_refl _
      · have hlt := parent_lt hpos
        exact (hv q hq hpos).trans (ih _ hlt (hlt.trans hq))

theorem Ordered.orderedAround (hv : Ordered v n) (hp : p < n) : OrderedAround v n p := by
  refine ⟨fun q hq hpos _ _ => hv q hq hpos, fun hp0 q hq hpos hparent => ?_⟩
  have hle := hv q hq hpos
  rw [hparent] at hle
  exact hle.trans (hv p hp hp0)

theorem OrderedAround.ordered (hv : OrderedAround v n p) (hchildren : BoundsChildren v n p)
    (hp : 0 < p → v p ≤ v (parent p)) : Ordered v n := by
  intro q hq hpos
  by_cases hqp : q = p
  · subst hqp
    exact hp hpos
  · by_cases hparent : parent q = p
    · rw [hparent]
      exact hchildren q hq hpos hparent
    · exact hv.le_parent q hq hpos hqp hparent

/-- Another value at one position disturbs the order around it only. -/
theorem OrderedAround.congr {v' : Nat → Int} (hv : OrderedAround v n p)
    (heq : ∀ q < n, q ≠ p → v' q = v q) : OrderedAround v' n p := by
  refine ⟨fun q hq hpos hqp hparent => ?_, fun hp q hq hpos hparent => ?_⟩
  · have hlt := parent_lt hpos
    rw [heq q hq hqp, heq _ (hlt.trans hq) hparent]
    exact hv.le_parent q hq hpos hqp hparent
  · have hlt := parent_lt hpos
    have hlt' := parent_lt hp
    rw [heq q hq (by omega), heq _ (by omega) (Nat.ne_of_lt hlt')]
    exact hv.le_grandparent hp q hq hpos hparent

theorem Ordered.congr {v' : Nat → Int} (hv : Ordered v n) (heq : ∀ q < n, v' q = v q) :
    Ordered v' n := by
  intro q hq hpos
  rw [heq q hq, heq _ ((parent_lt hpos).trans hq)]
  exact hv q hq hpos

/-- The last position is given up. -/
theorem OrderedAround.of_succ (hv : OrderedAround v (n + 1) p) : OrderedAround v n p :=
  ⟨fun q hq => hv.le_parent q (Nat.lt_succ_of_lt hq),
    fun hp q hq => hv.le_grandparent hp q (Nat.lt_succ_of_lt hq)⟩

/-- Disorder behind the last position is none. -/
theorem OrderedAround.ordered_of_le (hv : OrderedAround v n p) (hp : n ≤ p) : Ordered v n := by
  intro q hq hpos
  have hlt := parent_lt hpos
  exact hv.le_parent q hq hpos (by omega) (by omega)

/-- A value is added behind the last position, where it has no children. -/
theorem Ordered.orderedAround_last (hv : Ordered v n) :
    OrderedAround v (n + 1) n ∧ BoundsChildren v (n + 1) n := by
  have hnone : ∀ q < n + 1, 0 < q → parent q ≠ n := by
    intro q hq hpos
    have hlt := parent_lt hpos
    omega
  refine ⟨⟨fun q hq hpos hqn _ => hv q (by omega) hpos, fun _ q hq hpos hparent => ?_⟩,
    fun q hq hpos hparent => ?_⟩
  · exact absurd hparent (hnone q hq hpos)
  · exact absurd hparent (hnone q hq hpos)

/-- A greater value at a position disturbs the order above it only. -/
theorem Ordered.around_of_le {v' : Nat → Int} (hv : Ordered v n) (hp : p < n)
    (heq : ∀ q < n, q ≠ p → v' q = v q) (hle : v p ≤ v' p) :
    OrderedAround v' n p ∧ BoundsChildren v' n p := by
  refine ⟨(hv.orderedAround hp).congr heq, fun q hq hpos hparent => ?_⟩
  have hchild := hv q hq hpos
  rw [hparent] at hchild
  rw [heq q hq (ne_of_parent_eq hpos hparent)]
  exact hchild.trans hle

/-! ### Moving a value -/

theorem swap_parent_apply (hq : q ≠ parent c) (hqc : q ≠ c) :
    (v ∘ Equiv.swap (parent c) c) q = v q :=
  congrArg v (Equiv.swap_apply_of_ne_of_ne hq hqc)

theorem swap_parent_left : (v ∘ Equiv.swap (parent c) c) (parent c) = v c :=
  congrArg v (Equiv.swap_apply_left _ _)

theorem swap_parent_right : (v ∘ Equiv.swap (parent c) c) c = v (parent c) :=
  congrArg v (Equiv.swap_apply_right _ _)

theorem OrderedAround.le_of_sibling (hv : OrderedAround v n c) (hc : 0 < c) (hq : q < n)
    (hpos : 0 < q) (hparent : parent q = parent c) (hqc : q ≠ c) : v q ≤ v (parent c) := by
  have hle := hv.le_parent q hq hpos hqc (by rw [hparent]; exact Nat.ne_of_lt (parent_lt hc))
  rwa [hparent] at hle

/-- A value that exceeds its parent moves up. -/
theorem OrderedAround.swap_up (hv : OrderedAround v n c) (hchildren : BoundsChildren v n c)
    (hc : 0 < c) (hcn : c < n) (hlt : v (parent c) < v c) :
    OrderedAround (v ∘ Equiv.swap (parent c) c) n (parent c) ∧
      BoundsChildren (v ∘ Equiv.swap (parent c) c) n (parent c) := by
  have hpc := parent_lt hc
  refine ⟨⟨fun q hq hpos hqp hparent => ?_, fun hp q hq hpos hparent => ?_⟩,
    fun q hq hpos hparent => ?_⟩
  · have hqc : q ≠ c := fun heq => hparent (heq ▸ rfl)
    rw [swap_parent_apply hqp hqc]
    by_cases hqchild : parent q = c
    · rw [hqchild, swap_parent_right]
      exact hv.le_grandparent hc q hq hpos hqchild
    · rw [swap_parent_apply hparent hqchild]
      exact hv.le_parent q hq hpos hqc hqchild
  · have hgrand := parent_lt hp
    have habove : v (parent c) ≤ v (parent (parent c)) :=
      hv.le_parent _ (hpc.trans hcn) hp (Nat.ne_of_lt hpc) (Nat.ne_of_lt (hgrand.trans hpc))
    rw [swap_parent_apply (Nat.ne_of_lt hgrand) (Nat.ne_of_lt (hgrand.trans hpc))]
    by_cases hqc : q = c
    · subst hqc
      rwa [swap_parent_right]
    · rw [swap_parent_apply (ne_of_parent_eq hpos hparent) hqc]
      exact (hv.le_of_sibling hc hq hpos hparent hqc).trans habove
  · rw [swap_parent_left]
    by_cases hqc : q = c
    · subst hqc
      rw [swap_parent_right]
      exact le_of_lt hlt
    · rw [swap_parent_apply (ne_of_parent_eq hpos hparent) hqc]
      exact (hv.le_of_sibling hc hq hpos hparent hqc).trans (le_of_lt hlt)

/-- A value that is exceeded by a child moves down to the greatest child, and the order above it is
restored. -/
theorem OrderedAround.swap_down (hv : OrderedAround v n (parent c)) (hc : 0 < c) (hcn : c < n)
    (hlt : v (parent c) < v c) (hgreatest : ∀ q < n, 0 < q → parent q = parent c → v q ≤ v c) :
    OrderedAround (v ∘ Equiv.swap (parent c) c) n c ∧
      (v ∘ Equiv.swap (parent c) c) c ≤ (v ∘ Equiv.swap (parent c) c) (parent c) := by
  have hpc := parent_lt hc
  refine ⟨⟨fun q hq hpos hqc hparent => ?_, fun _ q hq hpos hparent => ?_⟩, ?_⟩
  · by_cases hqp : q = parent c
    · subst hqp
      have hgrand := parent_lt hpos
      rw [swap_parent_left,
        swap_parent_apply (Nat.ne_of_lt hgrand) (Nat.ne_of_lt (hgrand.trans hpc))]
      exact hv.le_grandparent hpos c hcn hc rfl
    · rw [swap_parent_apply hqp hqc]
      by_cases hsibling : parent q = parent c
      · rw [hsibling, swap_parent_left]
        exact hgreatest q hq hpos hsibling
      · rw [swap_parent_apply hsibling hparent]
        exact hv.le_parent q hq hpos hqp hsibling
  · have hqp := parent_lt hpos
    rw [hparent] at hqp
    rw [swap_parent_apply (Nat.ne_of_gt (hpc.trans hqp)) (Nat.ne_of_gt hqp), swap_parent_left]
    have hle := hv.le_parent q hq hpos (Nat.ne_of_gt (hpc.trans hqp))
      (by rw [hparent]; exact Nat.ne_of_gt hpc)
    rwa [hparent] at hle
  · rw [swap_parent_left, swap_parent_right]
    exact le_of_lt hlt

/-! ### The greatest of a position and its children -/

/-- A position that is exceeded by none of its children. -/
theorem boundsChildren_of_greatest (heq : h.greatest n p = p) : BoundsChildren h.value n p := by
  intro q hq hpos hparent
  rw [parent_eq_iff hpos] at hparent
  grind [greatest]

/-- A child that exceeds its parent and its sibling. -/
theorem of_greatest_ne (hne : h.greatest n p ≠ p) :
    0 < h.greatest n p ∧ parent (h.greatest n p) = p ∧ h.value p < h.value (h.greatest n p) ∧
      ∀ q < n, 0 < q → parent q = p → h.value q ≤ h.value (h.greatest n p) := by
  have hpos : 0 < h.greatest n p :=
    Nat.zero_lt_of_lt ((h.greatest_eq_or_lt n p).resolve_left hne).1
  refine ⟨hpos, ?_, ?_, fun q hq hq0 hparent => ?_⟩
  · rw [parent_eq_iff hpos]
    grind [greatest]
  · grind [greatest]
  · rw [parent_eq_iff hq0] at hparent
    grind [greatest]

end SetCover.Heap
