import Mathlib.Data.List.GetD
import Mathlib.Tactic.Tauto
import SetCover.Proofs.Heap

/-!
# Heaps as priority queues

A history is what was done to a heap, with the latest action in front.  It tells which keys were
added since the heap was last cleared, which of them were erased, and what value each key has: the
one it was added with, and all that was added to it since, also while it was not in the heap.

`run past` makes a heap by carrying out a history.  It succeeds if the history is `Admissible`, and
the heap then holds what the history says.  The key that is taken out is one of greatest value.
-/

namespace SetCover.Heap

variable {h k : Heap} {key n u : Nat} {value amount : Int}

/-! ### Taking out the greatest -/

/-- The keys of `h` in an order in which they can be taken out. -/
structure Descends (h : Heap) (keys : List Nat) : Prop where
  nodup : keys.Nodup
  mem_iff : ∀ u, u ∈ keys ↔ h.contains u = true
  pairwise : keys.Pairwise fun u v => h.valueOf v ≤ h.valueOf u

/-- Taking keys out until there is none yields each key once, and no key before one of greater
value. -/
theorem exists_popTimes_eq_ok (hh : h.WellFormed) (ho : h.IsHeap) :
    ∃ keys, (∀ n, h.size ≤ n → h.popTimes n = .ok keys) ∧ Descends h keys := by
  induction hsize : h.size generalizing h with
  | zero =>
      have hnone : ∀ u, h.contains u = false := fun u => contains_eq_false_of_size hh hsize
      refine ⟨[], fun n _ => ?_, by simp, fun u => by simp [hnone], by simp⟩
      cases n with
      | zero => rfl
      | succ n =>
          rw [popTimes, pop, (peek?_eq_none_iff hh).2 hnone]
          rfl
  | succ s ih =>
      obtain ⟨k, hpop, -, hpopped⟩ := exists_pop_eq_ok hh
      obtain ⟨⟨key, value⟩, hpeek⟩ : ∃ top, h.peek? = some top := by
        rw [peek?, isEmpty, hsize]
        exact ⟨_, rfl⟩
      obtain ⟨hcontains, hposition, hvalue⟩ := hh.of_peek? hpeek
      obtain ⟨herased, hheap⟩ := hpopped key value hpeek
      have hsize' : k.size = s := by
        rw [herased.size_eq, hcontains, hsize, if_pos rfl, Nat.add_sub_cancel]
      obtain ⟨keys, hkeys, hdescends⟩ := ih herased.wellFormed (hheap ho) hsize'
      have hmem : ∀ u, u ∈ keys ↔ h.contains u = true ∧ u ≠ key := fun u =>
        (hdescends.mem_iff u).trans (herased.contains_iff u)
      have hvalueOf : ∀ u ∈ keys, k.valueOf u = h.valueOf u := fun u hu =>
        herased.valueOf_eq u (hh.contains_iff.1 ((hmem u).1 hu).1).1
      refine ⟨key :: keys, fun n hn => ?_, ?_, fun u => ?_, ?_⟩
      · obtain ⟨n, rfl⟩ := Nat.exists_eq_add_of_lt (Nat.lt_of_lt_of_le (Nat.succ_pos s) hn)
        rw [Nat.zero_add, popTimes, hpop, hpeek]
        change (do return key :: (← k.popTimes n)) = _
        rw [hkeys n (by omega)]
        rfl
      · exact List.nodup_cons.2 ⟨fun hkey => ((hmem key).1 hkey).2 rfl, hdescends.nodup⟩
      · rw [List.mem_cons, hmem]
        by_cases hu : u = key
        · simp [hu, hcontains]
        · simp [hu]
      · refine List.pairwise_cons.2 ⟨fun u hu => ?_, hdescends.pairwise.imp_of_mem ?_⟩
        · rw [valueOf, valueOf, hposition]
          exact ho.valueOf_le hh ((hmem u).1 hu).1
        · intro u v hu hv hle
          rwa [hvalueOf u hu, hvalueOf v hv] at hle

/-! ### Histories -/

/-- What is done to a heap. -/
inductive Action
  /-- Adds the next key. -/
  | grow (value : Int)
  | increase (key : Nat) (amount : Int)
  | erase (key : Nat)
  | pop
  | clear

/-- The values with which keys were added since the heap was last cleared, that of key 0 first. -/
def grown : List Action → List Int
  | [] => []
  | .grow value :: past => grown past ++ [value]
  | .increase _ _ :: past => grown past
  | .erase _ :: past => grown past
  | .pop :: past => grown past
  | .clear :: _ => []

/-- What was added to the value of a key since the heap was last cleared. -/
def gained (key : Nat) : List Action → Int
  | [] => 0
  | .grow _ :: past => gained key past
  | .increase u amount :: past => gained key past + if key = u then amount else 0
  | .erase _ :: past => gained key past
  | .pop :: past => gained key past
  | .clear :: _ => 0

/-- The value that a key has by a history. -/
def recorded (past : List Action) (key : Nat) : Int := (grown past).getD key 0 + gained key past

/-- The keys that were erased since the heap was last cleared.  A key that is yet to be added cannot
be erased. -/
def erased : List Action → List Nat
  | [] => []
  | .grow _ :: past => erased past
  | .increase _ _ :: past => erased past
  | .erase key :: past => if key < (grown past).length then key :: erased past else erased past
  | .pop :: past => erased past
  | .clear :: _ => []

/-- Whether a number is a signed 64-bit integer. -/
def FitsValue (value : Int) : Prop := -9223372036854775808 ≤ value ∧ value < 9223372036854775808

/-- The values are 64-bit integers, and only keys that were added gain something. -/
def Admissible : List Action → Prop
  | [] => True
  | .grow value :: past => FitsValue value ∧ Admissible past
  | .increase key amount :: past =>
    key < (grown past).length ∧ 0 ≤ amount ∧ FitsValue (recorded past key + amount) ∧
      Admissible past
  | .erase _ :: past => Admissible past
  | .pop :: past => Admissible past
  | .clear :: past => Admissible past

instance decidableAdmissible : (past : List Action) → Decidable (Admissible past)
  | [] => .isTrue trivial
  | .grow _ :: past =>
    have := decidableAdmissible past
    inferInstanceAs (Decidable ((_ ∧ _) ∧ Admissible past))
  | .increase key amount :: past =>
    have := decidableAdmissible past
    inferInstanceAs (Decidable (key < _ ∧ 0 ≤ amount ∧ (_ ∧ _) ∧ Admissible past))
  | .erase _ :: past => decidableAdmissible past
  | .pop :: past => decidableAdmissible past
  | .clear :: past => decidableAdmissible past

/-- Carries out an action on a heap to which `n` keys were added since it was last cleared, and
notes the keys that are taken out as the greatest. -/
def act (n : Nat) (h : Heap) (popped : List Nat) : Action → Except Fault (Heap × List Nat)
  | .grow value => do return (← h.insert n value, popped)
  | .increase key amount => do return (← h.increase key amount, popped)
  | .erase key => do return (← h.erase key, popped)
  | .pop => do
    let (top, h) ← h.pop
    return (h, top.toList ++ popped)
  | .clear => .ok (h.clear, [])

/-- Carries out a history on an empty heap.  The keys that were taken out as the greatest since the
heap was last cleared come with it. -/
def run : List Action → Except Fault (Heap × List Nat)
  | [] => .ok ({}, [])
  | action :: past => do
    let (h, popped) ← run past
    h.act (grown past).length popped action

theorem lt_of_mem_erased {past : List Action} (hkey : key ∈ erased past) :
    key < (grown past).length := by
  induction past with
  | nil => cases hkey
  | cons action past ih =>
      cases action with
      | grow value =>
          rw [grown, List.length_append]
          exact Nat.lt_add_right _ (ih hkey)
      | increase u amount => exact ih hkey
      | erase u =>
          rw [erased] at hkey
          split_ifs at hkey with hu
          · rcases List.mem_cons.1 hkey with rfl | hkey
            · exact hu
            · exact ih hkey
          · exact ih hkey
      | pop => exact ih hkey
      | clear => cases hkey

/-- A key that is yet to be added has gained nothing. -/
theorem gained_eq_zero {past : List Action} (hpast : Admissible past)
    (hkey : (grown past).length ≤ key) : gained key past = 0 := by
  induction past with
  | nil => rfl
  | cons action past ih =>
      cases action with
      | grow value =>
          rw [grown, List.length_append] at hkey
          exact ih hpast.2 (Nat.le_of_add_right_le hkey)
      | increase u amount =>
          obtain ⟨hu, -, -, hpast⟩ := hpast
          rw [gained, ih hpast hkey, if_neg (Nat.ne_of_gt (Nat.lt_of_lt_of_le hu hkey))]
          rfl
      | erase u => exact ih hpast hkey
      | pop => exact ih hpast hkey
      | clear => rfl

/-! ### Heaps that follow a history -/

/-- The heap holds the keys that a history has added and left, with their values. -/
structure Follows (past : List Action) (h : Heap) (popped : List Nat) : Prop where
  wellFormed : h.WellFormed
  isHeap : h.IsHeap
  length_eq : h.length = (grown past).length
  popped_lt : ∀ u ∈ popped, u < (grown past).length
  contains_iff : ∀ u, h.contains u = true ↔
    u < (grown past).length ∧ u ∉ erased past ∧ u ∉ popped
  valueOf_eq : ∀ u < (grown past).length, h.valueOf u = recorded past u

theorem follows_empty : Follows [] {} [] := by
  refine ⟨⟨rfl, rfl, Nat.le_refl 0, ?_, ?_, ?_, ?_⟩, ?_, rfl, ?_, fun u => ?_, ?_⟩
  · exact fun u hu => absurd hu (Nat.not_lt_zero u)
  · exact fun u hu => absurd hu (Nat.not_lt_zero u)
  · exact fun u hu => absurd hu (Nat.not_lt_zero u)
  · exact fun u hu => absurd hu (Nat.not_lt_zero u)
  · exact fun u hu => absurd hu (Nat.not_lt_zero u)
  · simp
  · simp [contains, grown]
  · exact fun u hu => absurd hu (Nat.not_lt_zero u)

namespace Follows

variable {past : List Action} {popped : List Nat}

theorem grow (hf : Follows past h popped) (hpast : Admissible past) (value : Int) :
    ∃ k, h.insert (grown past).length value = .ok k ∧ Follows (.grow value :: past) k popped := by
  obtain ⟨k, hk, hadded, hheap⟩ := exists_insert_eq_ok hf.wellFormed value
  have hlength : (grown (.grow value :: past)).length = h.length + 1 := by
    rw [grown, List.length_append, hf.length_eq]
    rfl
  have herased : h.length ∉ erased past := fun hmem =>
    Nat.ne_of_lt (lt_of_mem_erased hmem) hf.length_eq
  have hpopped : h.length ∉ popped := fun hmem =>
    Nat.ne_of_lt (hf.popped_lt _ hmem) hf.length_eq
  rw [hf.length_eq] at hk
  refine ⟨k, hk, hadded.wellFormed, hheap hf.isHeap, hadded.length_eq.trans hlength.symm,
    fun u hu => ?_, fun u => ?_, fun u hu => ?_⟩
  · rw [hlength, hf.length_eq]
    exact Nat.lt_succ_of_lt (hf.popped_lt u hu)
  · rw [hadded.contains_iff, hf.contains_iff, hlength, erased]
    by_cases hu : u = h.length
    · simp [hu, herased, hpopped]
    · rw [← hf.length_eq, Nat.lt_succ_iff_lt_or_eq]
      simp [hu]
  · rw [hlength] at hu
    rw [hadded.valueOf_eq u hu, recorded, grown, gained]
    by_cases hlast : u = h.length
    · rw [if_pos hlast, gained_eq_zero hpast (Nat.le_of_eq (hf.length_eq.symm.trans hlast.symm)),
        hlast, hf.length_eq]
      simp
    · have hlt : u < (grown past).length := by
        rw [← hf.length_eq]
        omega
      rw [if_neg hlast, hf.valueOf_eq u hlt, recorded, List.getD_append _ _ _ _ hlt]

theorem increase (hf : Follows past h popped) (hkey : key < (grown past).length)
    (hamount : 0 ≤ amount) (hfits : FitsValue (recorded past key + amount)) :
    ∃ k, h.increase key amount = .ok k ∧ Follows (.increase key amount :: past) k popped := by
  rw [← hf.valueOf_eq key hkey] at hfits
  obtain ⟨k, hk, hincreased, hheap⟩ := exists_increase_eq_ok hf.wellFormed
    (hf.length_eq.symm ▸ hkey) amount hfits.1 hfits.2
  refine ⟨k, hk, hincreased.wellFormed, hheap hamount hf.isHeap,
    hincreased.length_eq.trans hf.length_eq, hf.popped_lt, fun u => ?_, fun u hu => ?_⟩
  · rw [hincreased.contains_eq]
    exact hf.contains_iff u
  · rw [hincreased.valueOf_eq u (hf.length_eq.symm ▸ hu), hf.valueOf_eq u hu, recorded, recorded,
      gained, Int.add_assoc]
    rfl

theorem erase (hf : Follows past h popped) (key : Nat) :
    ∃ k, h.erase key = .ok k ∧ Follows (.erase key :: past) k popped := by
  obtain ⟨k, hk, hwithout, hheap⟩ := exists_erase_eq_ok hf.wellFormed key
  refine ⟨k, hk, hwithout.wellFormed, hheap hf.isHeap, hwithout.length_eq.trans hf.length_eq,
    hf.popped_lt, fun u => ?_, fun u hu => ?_⟩
  · rw [hwithout.contains_iff, hf.contains_iff, erased]
    change _ ↔ u < (grown past).length ∧ _
    by_cases hkey : key < (grown past).length
    · rw [if_pos hkey, List.mem_cons]
      tauto
    · rw [if_neg hkey]
      constructor
      · exact fun h => h.1
      · exact fun h => ⟨h, fun heq => hkey (heq ▸ h.1)⟩
  · exact (hwithout.valueOf_eq u (hf.length_eq.symm ▸ hu)).trans (hf.valueOf_eq u hu)

theorem pop (hf : Follows past h popped) :
    ∃ k, h.pop = .ok (h.peek?.map Prod.fst, k) ∧
      Follows (.pop :: past) k ((h.peek?.map Prod.fst).toList ++ popped) := by
  obtain ⟨k, hk, hsame, hwithout⟩ := exists_pop_eq_ok hf.wellFormed
  refine ⟨k, hk, ?_⟩
  cases hpeek : h.peek? with
  | none =>
      obtain rfl := hsame hpeek
      exact ⟨hf.wellFormed, hf.isHeap, hf.length_eq, hf.popped_lt, hf.contains_iff, hf.valueOf_eq⟩
  | some top =>
      obtain ⟨key, value⟩ := top
      have hcontains := (hf.wellFormed.of_peek? hpeek).1
      obtain ⟨hwithout, hheap⟩ := hwithout key value hpeek
      refine ⟨hwithout.wellFormed, hheap hf.isHeap, hwithout.length_eq.trans hf.length_eq,
        fun u hu => ?_, fun u => ?_, fun u hu => ?_⟩
      · rcases List.mem_cons.1 hu with rfl | hu
        · exact ((hf.contains_iff _).1 hcontains).1
        · exact hf.popped_lt u hu
      · rw [hwithout.contains_iff, hf.contains_iff]
        change _ ↔ u < (grown past).length ∧ u ∉ erased past ∧ u ∉ key :: popped
        rw [List.mem_cons]
        tauto
      · exact (hwithout.valueOf_eq u (hf.length_eq.symm ▸ hu)).trans (hf.valueOf_eq u hu)

theorem clear (h : Heap) (past : List Action) : Follows (.clear :: past) h.clear [] := by
  obtain ⟨hwellFormed, hlength⟩ := wellFormed_clear h
  refine ⟨hwellFormed, fun u hu => absurd hu (Nat.not_lt_zero u), hlength, by simp, fun u => ?_,
    fun u hu => absurd hu (Nat.not_lt_zero u)⟩
  rw [contains_eq_false_of_size hwellFormed rfl]
  simp [grown]

end Follows

/-- A history that is admissible can be carried out. -/
theorem exists_run_eq_ok {past : List Action} (hpast : Admissible past) :
    ∃ h popped, run past = .ok (h, popped) ∧ Follows past h popped := by
  induction past with
  | nil => exact ⟨{}, [], rfl, follows_empty⟩
  | cons action past ih =>
      have hpast' : Admissible past := by
        cases action with
        | grow value => exact hpast.2
        | increase key amount => exact hpast.2.2.2
        | erase key => exact hpast
        | pop => exact hpast
        | clear => exact hpast
      obtain ⟨h, popped, hrun, hf⟩ := ih hpast'
      rw [run, hrun, ok_bind]
      dsimp only
      cases action with
      | grow value =>
          obtain ⟨k, hk, hf'⟩ := hf.grow hpast' value
          exact ⟨k, popped, by rw [act, hk]; rfl, hf'⟩
      | increase key amount =>
          obtain ⟨k, hk, hf'⟩ := hf.increase hpast.1 hpast.2.1 hpast.2.2.1
          exact ⟨k, popped, by rw [act, hk]; rfl, hf'⟩
      | erase key =>
          obtain ⟨k, hk, hf'⟩ := hf.erase key
          exact ⟨k, popped, by rw [act, hk]; rfl, hf'⟩
      | pop =>
          obtain ⟨k, hk, hf'⟩ := hf.pop
          exact ⟨k, _, by rw [act, hk]; rfl, hf'⟩
      | clear => exact ⟨h.clear, [], rfl, .clear h past⟩

/-- An admissible history can be carried out.  The keys in the heap are those that were added and
neither erased nor taken out, and each key has the value it was added with and all that it gained.
The key that stands at the top, and that is taken out next, is one of greatest value.  Taking keys
out until there is none yields each key in the heap once, and no key before one of greater value. -/
theorem run_isQueue {past : List Action} (hpast : Admissible past) :
    ∃ h popped, run past = .ok (h, popped) ∧
      (∀ u, h.contains u = true ↔ u < (grown past).length ∧ u ∉ erased past ∧ u ∉ popped) ∧
      (∀ u < (grown past).length, h.valueOf u = (grown past).getD u 0 + gained u past) ∧
      (h.peek? = none ↔ ∀ u, h.contains u = false) ∧
      (∀ key value, h.peek? = some (key, value) → h.contains key = true ∧ value = h.valueOf key ∧
        ∀ u, h.contains u = true → h.valueOf u ≤ value) ∧
      (∃ k, h.pop = .ok (h.peek?.map Prod.fst, k)) ∧
      ∃ keys, (∀ n, h.size ≤ n → h.popTimes n = .ok keys) ∧ keys.Nodup ∧
        (∀ u, u ∈ keys ↔ h.contains u = true) ∧
        keys.Pairwise fun u v => h.valueOf v ≤ h.valueOf u := by
  obtain ⟨h, popped, hrun, hf⟩ := exists_run_eq_ok hpast
  obtain ⟨keys, hkeys, hdescends⟩ := exists_popTimes_eq_ok hf.wellFormed hf.isHeap
  obtain ⟨k, hpop, -⟩ := hf.pop
  refine ⟨h, popped, hrun, hf.contains_iff, hf.valueOf_eq, peek?_eq_none_iff hf.wellFormed,
    fun key value hpeek => ?_, ⟨k, hpop⟩, keys, hkeys, hdescends.nodup, hdescends.mem_iff,
    hdescends.pairwise⟩
  obtain ⟨hcontains, hposition, rfl⟩ := hf.wellFormed.of_peek? hpeek
  refine ⟨hcontains, rfl, fun u hu => ?_⟩
  rw [valueOf, valueOf, hposition]
  exact hf.isHeap.valueOf_le hf.wellFormed hu

/-- A key that was erased gains as well, but is not taken out before one that is in the heap. -/
theorem run_isQueue_three_keys :
    ∃ h popped, run [.increase 1 100, .erase 1, .pop, .grow 5, .grow 4, .grow 9] = .ok (h, popped) ∧
      h.valueOf 1 = 104 ∧ (∀ u, h.contains u = true ↔ u < 3 ∧ u ∉ [1] ∧ u ∉ popped) ∧
      ∃ keys, (∀ n, h.size ≤ n → h.popTimes n = .ok keys) ∧ keys.Nodup ∧
        ∀ u, u ∈ keys ↔ h.contains u = true := by
  have hpast : Admissible [.increase 1 100, .erase 1, .pop, .grow 5, .grow 4, .grow 9] := by decide
  obtain ⟨h, popped, hrun, hcontains, hvalue, -, -, -, keys, hkeys, hnodup, hmem, -⟩ :=
    run_isQueue hpast
  exact ⟨h, popped, hrun, hvalue 1 (by decide), hcontains, keys, hkeys, hnodup, hmem⟩

end SetCover.Heap
