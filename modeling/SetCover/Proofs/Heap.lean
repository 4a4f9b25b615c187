import SetCover.Buffer
import SetCover.Proofs.Heap.Order

/-!
# The keys of a heap

In a well-formed heap the tables of positions and of keys are inverse to each other.  Moving values
up or down exchanges positions within the heap, so it keeps the keys that are in it, and the value
of each key.  Every operation leaves the values that are in the heap ordered.
-/

namespace SetCover.Heap

variable {g h k : Heap} {key n p q u : Nat} {value : Int}

/-- The number of keys, whether they are in the heap or were taken out. -/
def length (h : Heap) : Nat := h.keyAt.size

/-- The position of a key. -/
def position (h : Heap) (key : Nat) : Nat := h.positionOf.slots.getD key 0

/-- The key at a position. -/
def keyOf (h : Heap) (p : Nat) : Nat := h.keyAt.getD p 0

/-- The value of a key. -/
def valueOf (h : Heap) (key : Nat) : Int := h.value (h.position key)

/-- The values in the heap are ordered. -/
def IsHeap (h : Heap) : Prop := Ordered h.value h.size

/-- The tables have an entry for each key, and positions and keys correspond to each other. -/
structure WellFormed (h : Heap) : Prop where
  size_positionOf : h.positionOf.slots.size = h.length
  size_values : h.values.size = h.length
  size_le : h.size ≤ h.length
  position_lt : ∀ u < h.length, h.position u < h.length
  keyOf_lt : ∀ p < h.length, h.keyOf p < h.length
  keyOf_position : ∀ u < h.length, h.keyOf (h.position u) = u
  position_keyOf : ∀ p < h.length, h.position (h.keyOf p) = p

theorem WellFormed.contains_iff (hh : h.WellFormed) :
    h.contains u = true ↔ u < h.length ∧ h.position u < h.size := by
  rw [contains, position, Array.getD_eq_getD_getElem?]
  by_cases hu : u < h.positionOf.slots.size
  · simp [hu, ← hh.size_positionOf]
  · simp [hu, ← hh.size_positionOf]

/-- Another heap with the same keys in it. -/
structure SameKeys (h k : Heap) : Prop where
  wellFormed : k.WellFormed
  size_eq : k.size = h.size
  length_eq : k.length = h.length
  contains_eq : ∀ u, k.contains u = h.contains u

theorem SameKeys.refl (hh : h.WellFormed) : SameKeys h h := ⟨hh, rfl, rfl, fun _ => rfl⟩

theorem SameKeys.trans (hk : SameKeys g h) (hk' : SameKeys h k) : SameKeys g k :=
  ⟨hk'.1, hk'.2.trans hk.2, hk'.3.trans hk.3, fun u => (hk'.4 u).trans (hk.4 u)⟩

/-- Another heap with the same keys in it, and with the same values. -/
structure Rearranged (h k : Heap) : Prop extends SameKeys h k where
  valueOf_eq : ∀ u < h.length, k.valueOf u = h.valueOf u

theorem Rearranged.refl (hh : h.WellFormed) : Rearranged h h := ⟨.refl hh, fun _ _ => rfl⟩

theorem Rearranged.trans (hk : Rearranged g h) (hk' : Rearranged h k) : Rearranged g k :=
  ⟨hk.1.trans hk'.1, fun u hu => (hk'.2 u (hk.length_eq ▸ hu)).trans (hk.2 u hu)⟩

/-! ### Exchanging positions -/

theorem swap_lt (hp : p < n) (hq : q < n) (hu : u < n) : Equiv.swap p q u < n := by
  rw [Equiv.swap_apply_def]
  split_ifs
  · exact hq
  · exact hp
  · exact hu

theorem getD_swap {α : Type} {xs : Array α} (hp : p < xs.size) (hq : q < xs.size) (d : α)
    (u : Nat) : (xs.swap p q hp hq).getD u d = xs.getD (Equiv.swap p q u) d := by
  rw [Array.getD_eq_getD_getElem?, Array.getElem?_swap, Equiv.swap_apply_def]
  by_cases hup : u = p
  · subst hup
    by_cases huq : u = q
    · simp [huq, hq]
    · simp [hq, Ne.symm huq]
  · by_cases huq : u = q
    · subst huq
      simp [hp, hup]
    · simp [hup, huq, Ne.symm hup, Ne.symm huq]

theorem getD_swapIfInBounds {α : Type} {xs : Array α} (hp : p < xs.size) (hq : q < xs.size) (d : α)
    (u : Nat) : (xs.swapIfInBounds p q).getD u d = xs.getD (Equiv.swap p q u) d := by
  rw [Array.swapIfInBounds_def, dif_pos hp, dif_pos hq]
  exact getD_swap hp hq d u

/-- The heap after what is at two positions was exchanged. -/
structure Swapped (p q : Nat) (h k : Heap) : Prop where
  wellFormed : k.WellFormed
  size_eq : k.size = h.size
  length_eq : k.length = h.length
  position_eq : ∀ u < h.length, k.position u = Equiv.swap p q (h.position u)
  value_eq : k.value = h.value ∘ Equiv.swap p q

theorem Swapped.valueOf_eq (hs : Swapped p q h k) (u : Nat) (hu : u < h.length) :
    k.valueOf u = h.valueOf u := by
  rw [valueOf, hs.position_eq u hu, hs.value_eq, Function.comp_apply, Equiv.swap_apply_self,
    valueOf]

theorem WellFormed.position_swap (hh : h.WellFormed) (hp : p < h.length) (hq : q < h.length)
    (hu : u < h.length) :
    h.position (Equiv.swap (h.keyOf p) (h.keyOf q) u) = Equiv.swap p q (h.position u) := by
  rw [Equiv.swap_apply_def, Equiv.swap_apply_def]
  by_cases hup : u = h.keyOf p
  · rw [if_pos hup, hup, hh.position_keyOf p hp, if_pos rfl, hh.position_keyOf q hq]
  · have hup' : h.position u ≠ p := fun heq => hup (by rw [← heq, hh.keyOf_position u hu])
    rw [if_neg hup, if_neg hup']
    by_cases huq : u = h.keyOf q
    · rw [if_pos huq, huq, hh.position_keyOf q hq, if_pos rfl, hh.position_keyOf p hp]
    · have huq' : h.position u ≠ q := fun heq => huq (by rw [← heq, hh.keyOf_position u hu])
      rw [if_neg huq, if_neg huq']

theorem WellFormed.exists_swap_eq_ok (hh : h.WellFormed) (hp : p < h.length) (hq : q < h.length) :
    ∃ k, h.swap p q = .ok k ∧ Swapped p q h k := by
  by_cases hpq : p = q
  · subst hpq
    exact ⟨h, by rw [swap, if_pos rfl], hh, rfl, rfl, fun _ _ => by simp, by simp⟩
  · have hp' : h.keyOf p < h.positionOf.slots.size := hh.size_positionOf ▸ hh.keyOf_lt p hp
    have hq' : h.keyOf q < h.positionOf.slots.size := hh.size_positionOf ▸ hh.keyOf_lt q hq
    obtain ⟨k, hk⟩ : ∃ k : Heap, k = ⟨h.values.swapIfInBounds p q,
        ⟨h.positionOf.slots.swap (h.keyOf p) (h.keyOf q) hp' hq'⟩,
        h.keyAt.swapIfInBounds p q, h.size⟩ := ⟨_, rfl⟩
    have hswap : h.swap p q = .ok k := by
      rw [swap, if_neg hpq, hk]
      simp only [Arena.swap]
      rw [dif_pos (show h.keyAt.getD p 0 < h.positionOf.slots.size from hp'),
        dif_pos (show h.keyAt.getD q 0 < h.positionOf.slots.size from hq')]
      rfl
    have hlength : k.length = h.length := by simp [hk, length]
    have hkeyOf : ∀ u, k.keyOf u = h.keyOf (Equiv.swap p q u) := by
      intro u
      rw [hk]
      exact getD_swapIfInBounds hp hq 0 u
    have hposition : ∀ u < h.length, k.position u = Equiv.swap p q (h.position u) := by
      intro u hu
      rw [← hh.position_swap hp hq hu, hk]
      exact getD_swap hp' hq' 0 u
    have hvalue : k.value = h.value ∘ Equiv.swap p q := by
      have hp'' : p < h.values.size := hh.size_values ▸ hp
      have hq'' : q < h.values.size := hh.size_values ▸ hq
      funext u
      rw [hk]
      exact getD_swapIfInBounds hp'' hq'' 0 u
    refine ⟨k, hswap, ⟨?_, ?_, ?_, ?_, ?_, ?_, ?_⟩, by rw [hk], hlength, hposition, hvalue⟩
    · rw [hlength, ← hh.size_positionOf, hk, Array.size_swap]
    · rw [hlength, ← hh.size_values, hk, Array.size_swapIfInBounds]
    · rw [hlength, hk]
      exact hh.size_le
    · intro u hu
      rw [hlength] at hu ⊢
      rw [hposition u hu]
      exact swap_lt hp hq (hh.position_lt u hu)
    · intro u hu
      rw [hlength] at hu ⊢
      rw [hkeyOf]
      exact hh.keyOf_lt _ (swap_lt hp hq hu)
    · intro u hu
      rw [hlength] at hu
      rw [hkeyOf, hposition u hu, Equiv.swap_apply_self, hh.keyOf_position u hu]
    · intro u hu
      rw [hlength] at hu
      have hlt := swap_lt hp hq hu
      rw [hkeyOf, hposition _ (hh.keyOf_lt _ hlt), hh.position_keyOf _ hlt, Equiv.swap_apply_self]

/-- An exchange within the heap keeps the keys that are in it. -/
theorem Swapped.rearranged (hs : Swapped p q h k) (hh : h.WellFormed) (hp : p < h.size)
    (hq : q < h.size) : Rearranged h k := by
  refine ⟨⟨hs.wellFormed, hs.size_eq, hs.length_eq, fun u => Bool.eq_iff_iff.2 ?_⟩, hs.valueOf_eq⟩
  rw [hs.wellFormed.contains_iff, hh.contains_iff, hs.length_eq, hs.size_eq]
  refine and_congr_right fun hu => ?_
  rw [hs.position_eq u hu]
  refine ⟨fun hlt => ?_, swap_lt hp hq⟩
  have := swap_lt hp hq hlt
  rwa [Equiv.swap_apply_self] at this

/-! ### Operations -/

/-- A value that may exceed its parent moves up until the values are ordered. -/
theorem exists_siftUp_eq_ok (hh : h.WellFormed) (hp : p < h.size) :
    ∃ k, h.siftUp p = .ok k ∧ Rearranged h k ∧
      (OrderedAround h.value h.size p → BoundsChildren h.value h.size p → k.IsHeap) := by
  fun_induction siftUp h p with
  | case1 h p hpos up hle => exact ⟨h, rfl, .refl hh, fun hv hc => hv.ordered hc fun _ => hle⟩
  | case2 h p hpos up hle ih =>
      have hup : up < h.size := (parent_lt hpos).trans hp
      obtain ⟨k, hk, hswapped⟩ := hh.exists_swap_eq_ok (Nat.lt_of_lt_of_le hup hh.size_le)
        (Nat.lt_of_lt_of_le hp hh.size_le)
      have hkeys := hswapped.rearranged hh hup hp
      obtain ⟨k', hk', hkeys', hheap⟩ := ih k hkeys.wellFormed (hkeys.size_eq ▸ hup)
      rw [hswapped.value_eq, hswapped.size_eq] at hheap
      refine ⟨k', by rw [hk]; exact hk', hkeys.trans hkeys', fun hv hc => ?_⟩
      obtain ⟨hv', hc'⟩ := hv.swap_up hc hpos hp (Int.not_le.1 hle)
      exact hheap hv' hc'
  | case3 h p hpos => exact ⟨h, rfl, .refl hh, fun hv hc => hv.ordered hc (absurd · hpos)⟩

/-- A value that may be exceeded by its children moves down.  If there was no other disorder, the
values are ordered then, and otherwise no child exceeds the value at its old position. -/
theorem exists_siftDown_eq_ok (hh : h.WellFormed) (hn : n ≤ h.size) (hp : p < n) :
    ∃ k, siftDown n h p = .ok k ∧ Rearranged h k ∧ (OrderedAround h.value n p →
      OrderedAround k.value n p ∧ BoundsChildren k.value n p ∧
        ((0 < p → h.value p ≤ h.value (parent p)) → Ordered k.value n)) := by
  fun_induction siftDown n h p with
  | case1 h p heq =>
      have hc := boundsChildren_of_greatest heq
      exact ⟨h, rfl, .refl hh, fun hv => ⟨hv, hc, hv.ordered hc⟩⟩
  | case2 h p heq ih =>
      have hgreatest := ((h.greatest_eq_or_lt n p).resolve_left heq).2
      obtain ⟨hpos, hparent, hlt, hmax⟩ := of_greatest_ne heq
      obtain ⟨k, hk, hswapped⟩ := hh.exists_swap_eq_ok
        (Nat.lt_of_lt_of_le (Nat.lt_of_lt_of_le hp hn) hh.size_le)
        (Nat.lt_of_lt_of_le (Nat.lt_of_lt_of_le hgreatest hn) hh.size_le)
      have hkeys := hswapped.rearranged hh (Nat.lt_of_lt_of_le hp hn)
        (Nat.lt_of_lt_of_le hgreatest hn)
      obtain ⟨k', hk', hkeys', hheap⟩ := ih k hkeys.wellFormed (hkeys.size_eq ▸ hn) hgreatest
      refine ⟨k', by rw [hk]; exact hk', hkeys.trans hkeys', fun hv => ?_⟩
      rw [hswapped.value_eq] at hheap
      generalize h.greatest n p = c at *
      subst hparent
      obtain ⟨hv', hle⟩ := hv.swap_down hpos hgreatest hlt hmax
      obtain ⟨-, -, hordered⟩ := hheap hv'
      have hk := hordered fun _ => hle
      exact ⟨hk.orderedAround hp, fun q hq hq0 hqp => hqp ▸ hk q hq hq0, fun _ => hk⟩

theorem WellFormed.get_positionOf (hh : h.WellFormed) (hu : u < h.length) :
    h.positionOf.get u = .ok (h.position u) := by
  have hlt : u < h.positionOf.slots.size := hh.size_positionOf ▸ hu
  rw [Arena.get, position, Array.getD_eq_getD_getElem?, Array.getElem?_eq_getElem hlt]
  rfl

theorem WellFormed.position_inj (hh : h.WellFormed) (hu : u < h.length) (hkey : key < h.length) :
    h.position u = h.position key ↔ u = key := by
  refine ⟨fun heq => ?_, fun heq => heq ▸ rfl⟩
  rw [← hh.keyOf_position u hu, heq, hh.keyOf_position key hkey]

/-- A heap without one of the keys. -/
structure Erased (key : Nat) (h k : Heap) : Prop where
  wellFormed : k.WellFormed
  size_eq : k.size = h.size - if h.contains key then 1 else 0
  length_eq : k.length = h.length
  contains_iff : ∀ u, k.contains u = true ↔ h.contains u = true ∧ u ≠ key
  valueOf_eq : ∀ u < h.length, k.valueOf u = h.valueOf u

/-- The last position of the heap is given up for a key that was brought there. -/
theorem Swapped.erased (hs : Swapped (h.position key) (h.size - 1) h k) (hh : h.WellFormed)
    (hkey : key < h.length) (hp : h.position key < h.size) :
    Erased key h { k with size := h.size - 1 } := by
  have hk := hs.wellFormed
  have hlength : k.length = h.length := hs.length_eq
  have hshrunk : WellFormed { k with size := h.size - 1 } :=
    ⟨hk.1, hk.2, Nat.le_trans (Nat.sub_le _ _) (hs.size_eq ▸ hk.3), hk.4, hk.5, hk.6, hk.7⟩
  have hcontains : h.contains key = true := hh.contains_iff.2 ⟨hkey, hp⟩
  refine ⟨hshrunk, by rw [hcontains, if_pos rfl], hlength, fun u => ?_, hs.valueOf_eq⟩
  rw [hshrunk.contains_iff, hh.contains_iff, and_assoc]
  change u < k.length ∧ k.position u < h.size - 1 ↔ _
  rw [hlength]
  refine and_congr_right fun hu => ?_
  rw [hs.position_eq u hu, Equiv.swap_apply_def]
  rw [Ne, ← hh.position_inj hu hkey]
  split_ifs <;> omega

/-- The order is disturbed only around the position that was filled from behind. -/
theorem Swapped.orderedAround (hs : Swapped p (h.size - 1) h k) (ho : h.IsHeap) (hp : p < h.size) :
    OrderedAround k.value (h.size - 1) p := by
  have hsize : h.size - 1 + 1 = h.size := by omega
  have hv := ho.orderedAround hp
  rw [← hsize] at hv
  refine hv.of_succ.congr fun q hq hqp => ?_
  rw [hs.value_eq, Function.comp_apply, Equiv.swap_apply_of_ne_of_ne hqp (Nat.ne_of_lt hq)]

theorem exists_erase_eq_ok (hh : h.WellFormed) (key : Nat) :
    ∃ k, h.erase key = .ok k ∧ Erased key h k ∧ (h.IsHeap → k.IsHeap) := by
  by_cases hkey : h.contains key = true
  · obtain ⟨hlt, hp⟩ := hh.contains_iff.1 hkey
    have hlast : h.size - 1 < h.size := by omega
    obtain ⟨k, hk, hswapped⟩ := hh.exists_swap_eq_ok (Nat.lt_of_lt_of_le hp hh.size_le)
      (Nat.lt_of_lt_of_le hlast hh.size_le)
    have herased := hswapped.erased hh hlt hp
    rw [erase, if_pos hkey, hh.get_positionOf hlt]
    change ∃ k', (do
      let h' := { ← h.swap (h.position key) (h.size - 1) with size := h.size - 1 }
      if h.position key < h.size - 1 then
        (← siftDown (h.size - 1) h' (h.position key)).siftUp (h.position key)
      else return h') = Except.ok k' ∧ Erased key h k' ∧ (h.IsHeap → k'.IsHeap)
    rw [hk]
    by_cases hinner : h.position key < h.size - 1
    · obtain ⟨k₁, hk₁, hkeys₁, horder₁⟩ :=
        exists_siftDown_eq_ok herased.wellFormed (Nat.le_refl _) hinner
      obtain ⟨k₂, hk₂, hkeys₂, horder₂⟩ := exists_siftUp_eq_ok (p := h.position key)
        hkeys₁.wellFormed (by rw [hkeys₁.size_eq]; exact hinner)
      have hkeys := hkeys₁.trans hkeys₂
      refine ⟨k₂, ?_, ⟨hkeys.wellFormed, ?_, ?_, fun u => ?_, fun u hu => ?_⟩, fun ho => ?_⟩
      · change (if h.position key < h.size - 1 then _ else _) = _
        rw [if_pos hinner, hk₁]
        exact hk₂
      · rw [hkeys.size_eq, herased.size_eq]
      · rw [hkeys.length_eq, herased.length_eq]
      · rw [hkeys.contains_eq, herased.contains_iff]
      · rw [hkeys.valueOf_eq u (herased.length_eq.symm ▸ hu), herased.valueOf_eq u hu]
      · obtain ⟨hv, hc, -⟩ := horder₁ (hswapped.orderedAround ho hp)
        rw [hkeys₁.size_eq] at horder₂
        exact horder₂ hv hc
    · refine ⟨_, ?_, herased, fun ho => ?_⟩
      · change (if h.position key < h.size - 1 then _ else _) = _
        rw [if_neg hinner]
        rfl
      · exact (hswapped.orderedAround ho hp).ordered_of_le (Nat.le_of_not_lt hinner)
  · refine ⟨h, by rw [erase, if_neg hkey], ⟨hh, by simp [hkey], rfl, fun u => ⟨fun hu => ⟨hu, ?_⟩,
      And.left⟩, fun _ _ => rfl⟩, id⟩
    rintro rfl
    exact hkey hu

/-- The first position holds a key that is in the heap, with its value. -/
theorem WellFormed.of_peek? (hh : h.WellFormed) (hpeek : h.peek? = some (key, value)) :
    h.contains key = true ∧ h.position key = 0 ∧ value = h.valueOf key := by
  rw [peek?] at hpeek
  split at hpeek
  · cases hpeek
  · rename_i hempty
    cases hpeek
    have hsize : 0 < h.size := by
      rw [isEmpty, beq_iff_eq] at hempty
      omega
    have hlength := Nat.lt_of_lt_of_le hsize hh.size_le
    have hposition : h.position (h.keyAt.getD 0 0) = 0 := hh.position_keyOf 0 hlength
    refine ⟨hh.contains_iff.2 ⟨hh.keyOf_lt 0 hlength, ?_⟩, hposition, ?_⟩
    · rwa [hposition]
    · rw [valueOf, hposition]

theorem IsHeap.valueOf_le (ho : h.IsHeap) (hh : h.WellFormed) (hu : h.contains u = true) :
    h.valueOf u ≤ h.value 0 :=
  ho.le_first _ (hh.contains_iff.1 hu).2

theorem contains_eq_false_of_size (hh : h.WellFormed) (hsize : h.size = 0) :
    h.contains u = false := by
  refine Bool.eq_false_iff.2 fun hu => ?_
  have hlt := (hh.contains_iff.1 hu).2
  omega

/-- Nothing is at the top exactly of an empty heap. -/
theorem peek?_eq_none_iff (hh : h.WellFormed) :
    h.peek? = none ↔ ∀ u, h.contains u = false := by
  constructor
  · intro hpeek u
    refine contains_eq_false_of_size hh ?_
    rw [peek?, isEmpty] at hpeek
    by_contra hsize
    simp [hsize] at hpeek
  · intro hnone
    cases hpeek : h.peek? with
    | none => rfl
    | some top =>
        obtain ⟨key, value⟩ := top
        have hcontains := (hh.of_peek? hpeek).1
        rw [hnone] at hcontains
        cases hcontains

/-- The key at the top is taken out, and nothing of an empty heap. -/
theorem exists_pop_eq_ok (hh : h.WellFormed) : ∃ k, h.pop = .ok (h.peek?.map Prod.fst, k) ∧
    (h.peek? = none → k = h) ∧
      ∀ key value, h.peek? = some (key, value) → Erased key h k ∧ (h.IsHeap → k.IsHeap) := by
  rw [pop]
  cases hpeek : h.peek? with
  | none => exact ⟨h, rfl, fun _ => rfl, by simp⟩
  | some top =>
      obtain ⟨k, hk, herased⟩ := exists_erase_eq_ok hh top.1
      refine ⟨k, ?_, by simp, fun key value heq => ?_⟩
      · dsimp only
        rw [hk]
        rfl
      · cases heq
        exact herased

/-- The key that is taken out was in the heap. -/
theorem WellFormed.contains_of_pop (hh : h.WellFormed) (hk : h.pop = .ok (some key, k)) :
    h.contains key = true ∧ Erased key h k := by
  obtain ⟨k', hk', -, herased⟩ := exists_pop_eq_ok hh
  obtain ⟨hkey, rfl⟩ := Prod.mk.inj (Except.ok.inj (hk.symm.trans hk'))
  obtain ⟨⟨_, value⟩, hpeek, rfl⟩ := Option.map_eq_some_iff.1 hkey.symm
  exact ⟨(hh.of_peek? hpeek).1, (herased _ value hpeek).1⟩

theorem addValues_eq_ok_iff {a b c : Int} : addValues a b = .ok c ↔
    c = a + b ∧ -9223372036854775808 ≤ a + b ∧ a + b < 9223372036854775808 := by
  rw [addValues]
  split_ifs with hfits
  · simp [hfits, eq_comm]
  · simp [hfits]

/-- A heap in which something was added to the value of a key. -/
structure Increased (key : Nat) (amount : Int) (h k : Heap) : Prop extends SameKeys h k where
  valueOf_eq : ∀ u < h.length, k.valueOf u = h.valueOf u + if u = key then amount else 0

theorem WellFormed.value_setIfInBounds (hh : h.WellFormed) (hp : p < h.length) (value : Int)
    (q : Nat) : ({ h with values := h.values.setIfInBounds p value } : Heap).value q =
      if q = p then value else h.value q :=
  getD_setIfInBounds (hh.size_values ▸ hp) value 0 q

theorem WellFormed.increased (hh : h.WellFormed) (hkey : key < h.length) (amount : Int) :
    Increased key amount h
      { h with values := h.values.setIfInBounds (h.position key) (h.valueOf key + amount) } := by
  refine ⟨⟨⟨hh.1, ?_, hh.3, hh.4, hh.5, hh.6, hh.7⟩, rfl, rfl, fun _ => rfl⟩, fun u hu => ?_⟩
  · rw [Array.size_setIfInBounds, hh.size_values]
    rfl
  · refine (hh.value_setIfInBounds (hh.position_lt key hkey) _ (h.position u)).trans ?_
    by_cases hukey : u = key
    · rw [if_pos (hukey ▸ rfl), if_pos hukey, hukey]
    · rw [if_neg (mt (hh.position_inj hu hkey).1 hukey), if_neg hukey, Int.add_zero]
      rfl

theorem exists_increase_eq_ok (hh : h.WellFormed) (hkey : key < h.length) (amount : Int)
    (hle : -9223372036854775808 ≤ h.valueOf key + amount)
    (hlt : h.valueOf key + amount < 9223372036854775808) :
    ∃ k, h.increase key amount = .ok k ∧ Increased key amount h k ∧
      (0 ≤ amount → h.IsHeap → k.IsHeap) := by
  have hincreased := hh.increased hkey amount
  have hsum : addValues (h.value (h.position key)) amount = .ok (h.valueOf key + amount) :=
    addValues_eq_ok_iff.2 ⟨rfl, hle, hlt⟩
  have hvalue := hh.value_setIfInBounds (hh.position_lt key hkey) (h.valueOf key + amount)
  rw [increase, hh.get_positionOf hkey, ok_bind, hsum, ok_bind]
  dsimp only
  split_ifs with hcontains
  · have hp := (hh.contains_iff.1 hcontains).2
    obtain ⟨k, hk, hkeys, horder⟩ :=
      exists_siftUp_eq_ok (p := h.position key) hincreased.wellFormed hp
    refine ⟨k, hk, ⟨hincreased.toSameKeys.trans hkeys.toSameKeys, fun u hu => ?_⟩,
      fun hamount ho => ?_⟩
    · rw [hkeys.valueOf_eq u hu, hincreased.valueOf_eq u hu]
    · have hgrows : h.value (h.position key) ≤ h.valueOf key + amount :=
        Int.le_add_of_nonneg_right hamount
      obtain ⟨hv, hc⟩ := ho.around_of_le hp (fun q _ hq => (hvalue q).trans (if_neg hq))
        (by rwa [hvalue, if_pos rfl])
      exact horder hv hc
  · refine ⟨_, rfl, hincreased, fun _ ho => ho.congr fun q hq => ?_⟩
    rw [hvalue, if_neg]
    rintro rfl
    exact hcontains (hh.contains_iff.2 ⟨hkey, hq⟩)

theorem WellFormed.increased_of_increase {amount : Int} (hh : h.WellFormed)
    (hk : h.increase key amount = .ok k) : Increased key amount h k := by
  by_cases hkey : key < h.length
  · have hgiven := hk
    rw [increase, hh.get_positionOf hkey, ok_bind] at hk
    obtain ⟨v, hv, -⟩ := bind_eq_ok_iff.1 hk
    obtain ⟨-, hle, hlt⟩ := addValues_eq_ok_iff.1 hv
    obtain ⟨k', hk', hincreased, -⟩ := exists_increase_eq_ok hh hkey amount hle hlt
    cases hk'.symm.trans hgiven
    exact hincreased
  · have hnone : h.positionOf.slots[key]? = none :=
      Array.getElem?_eq_none (hh.size_positionOf ▸ Nat.le_of_not_lt hkey)
    rw [increase, Arena.get, hnone] at hk
    cases hk

theorem getD_push {α : Type} {xs : Array α} (d v : α) (u : Nat) :
    (xs.push v).getD u d = if u = xs.size then v else xs.getD u d := by
  rw [Array.getD_eq_getD_getElem?, Array.getElem?_push, Array.getD_eq_getD_getElem?]
  split_ifs <;> rfl

/-- The heap with one more key, behind those in the heap and those that were taken out. -/
def grow (h : Heap) (value : Int) : Heap :=
  ⟨h.values.push value, ⟨h.positionOf.slots.push h.values.size⟩, h.keyAt.push h.length, h.size⟩

theorem length_grow (h : Heap) (value : Int) : (h.grow value).length = h.length + 1 := by
  simp [grow, length]

theorem WellFormed.position_grow (hh : h.WellFormed) (value : Int) (u : Nat) :
    (h.grow value).position u = if u = h.length then h.length else h.position u := by
  rw [grow, position, getD_push, hh.size_positionOf, hh.size_values, position]

theorem WellFormed.grow (hh : h.WellFormed) (value : Int) : (h.grow value).WellFormed := by
  have hkeyOf : ∀ p, (h.grow value).keyOf p = if p = h.length then h.length else h.keyOf p := by
    intro p
    rw [Heap.grow, keyOf, getD_push]
    rfl
  have hcases : ∀ u < h.length + 1, u = h.length ∨ u ≠ h.length ∧ u < h.length := by omega
  refine ⟨?_, ?_, ?_, ?_, ?_, ?_, ?_⟩ <;> rw [length_grow]
  · rw [Heap.grow, Array.size_push, hh.size_positionOf]
  · rw [Heap.grow, Array.size_push, hh.size_values]
  · exact Nat.le_succ_of_le hh.size_le
  · intro u hu
    rw [hh.position_grow]
    rcases hcases u hu with rfl | ⟨hne, hlt⟩
    · rwa [if_pos rfl]
    · rw [if_neg hne]
      exact Nat.lt_succ_of_lt (hh.position_lt u hlt)
  · intro p hp
    rw [hkeyOf]
    rcases hcases p hp with rfl | ⟨hne, hlt⟩
    · rwa [if_pos rfl]
    · rw [if_neg hne]
      exact Nat.lt_succ_of_lt (hh.keyOf_lt p hlt)
  · intro u hu
    rw [hh.position_grow, hkeyOf]
    rcases hcases u hu with rfl | ⟨hne, hlt⟩
    · rw [if_pos rfl, if_pos rfl]
    · rw [if_neg hne, if_neg (Nat.ne_of_lt (hh.position_lt u hlt)), hh.keyOf_position u hlt]
  · intro p hp
    rw [hh.position_grow, hkeyOf]
    rcases hcases p hp with rfl | ⟨hne, hlt⟩
    · rw [if_pos rfl, if_pos rfl]
    · rw [if_neg hne, if_neg (Nat.ne_of_lt (hh.keyOf_lt p hlt)), hh.position_keyOf p hlt]

theorem WellFormed.valueOf_grow (hh : h.WellFormed) (value : Int) (hu : u < h.length + 1) :
    (h.grow value).valueOf u = if u = h.length then value else h.valueOf u := by
  have hsize := hh.size_values
  rw [valueOf, hh.position_grow, Heap.grow, Heap.value, getD_push, hsize]
  by_cases hlast : u = h.length
  · rw [if_pos hlast, if_pos hlast, if_pos rfl]
  · have hlt := hh.position_lt u (by omega)
    rw [if_neg hlast, if_neg hlast, if_neg (Nat.ne_of_lt hlt)]
    rfl

/-- A heap with one more key, the next one, and its value. -/
structure Added (value : Int) (h k : Heap) : Prop where
  wellFormed : k.WellFormed
  length_eq : k.length = h.length + 1
  contains_iff : ∀ u, k.contains u = true ↔ h.contains u = true ∨ u = h.length
  valueOf_eq : ∀ u < h.length + 1, k.valueOf u = if u = h.length then value else h.valueOf u

/-- The heap takes in the key that was brought to the position behind it. -/
theorem Swapped.added {value : Int} (hs : Swapped h.size h.length (h.grow value) k)
    (hh : h.WellFormed) : Added value h { k with size := h.size + 1 } := by
  have hk := hs.wellFormed
  have hlength : k.length = h.length + 1 := hs.length_eq.trans (length_grow h value)
  have hgrown : WellFormed { k with size := h.size + 1 } :=
    ⟨hk.1, hk.2, hlength ▸ Nat.succ_le_succ hh.size_le, hk.4, hk.5, hk.6, hk.7⟩
  refine ⟨hgrown, hlength, fun u => ?_, fun u hu => ?_⟩
  · rw [hgrown.contains_iff, hh.contains_iff]
    change u < k.length ∧ k.position u < h.size + 1 ↔ _
    rw [hlength]
    by_cases hu : u < h.length + 1
    · have hlt := hh.position_lt u
      have hle := hh.size_le
      rw [hs.position_eq u ((length_grow h value).symm ▸ hu), hh.position_grow,
        Equiv.swap_apply_def]
      split_ifs <;> omega
    · omega
  · exact (hs.valueOf_eq u ((length_grow h value).symm ▸ hu)).trans (hh.valueOf_grow value hu)

/-- Keys are added in order. -/
theorem exists_insert_eq_ok (hh : h.WellFormed) (value : Int) :
    ∃ k, h.insert h.length value = .ok k ∧ Added value h k ∧ (h.IsHeap → k.IsHeap) := by
  have hsize : h.size < (h.grow value).length := by
    rw [length_grow]
    exact Nat.lt_succ_of_le hh.size_le
  have hlength : h.length < (h.grow value).length := by
    rw [length_grow]
    exact Nat.lt_succ_self _
  obtain ⟨k, hk, hswapped⟩ := (hh.grow value).exists_swap_eq_ok hsize hlength
  have hadded := hswapped.added hh
  obtain ⟨k', hk', hkeys, horder⟩ :=
    exists_siftUp_eq_ok hadded.wellFormed (Nat.lt_succ_self h.size)
  refine ⟨k', ?_, ⟨hkeys.wellFormed, hkeys.length_eq.trans hadded.length_eq, fun u => ?_,
    fun u hu => ?_⟩, fun ho => ?_⟩
  · rw [← hh.size_values] at hk
    have hinsert : h.insert h.length value = (do
        let h' := { ← (h.grow value).swap h.size h.values.size with size := h.size + 1 }
        h'.siftUp (h'.size - 1)) := rfl
    rw [hinsert, hk]
    exact hk'
  · rw [hkeys.contains_eq, hadded.contains_iff]
  · rw [hkeys.valueOf_eq u (hadded.length_eq.symm ▸ hu), hadded.valueOf_eq u hu]
  · have hordered : Ordered k.value h.size := ho.congr fun q hq => by
      have hle := hh.size_le
      rw [hswapped.value_eq, Function.comp_apply,
        Equiv.swap_apply_of_ne_of_ne (Nat.ne_of_lt hq) (by omega), Heap.grow, Heap.value, getD_push,
        if_neg (by rw [hh.size_values]; omega)]
      rfl
    exact horder hordered.orderedAround_last.1 hordered.orderedAround_last.2

theorem wellFormed_clear (h : Heap) : h.clear.WellFormed ∧ h.clear.length = 0 := by
  have hlength : h.clear.length = 0 := by simp [clear, length]
  refine ⟨⟨?_, ?_, ?_, ?_, ?_, ?_, ?_⟩, hlength⟩ <;> rw [hlength]
  · rfl
  · simp [clear]
  · exact Nat.le_refl 0
  all_goals exact fun u hu => absurd hu (Nat.not_lt_zero u)

theorem isHeap_clear (h : Heap) : h.clear.IsHeap := fun u hu => absurd hu (Nat.not_lt_zero u)

end SetCover.Heap
