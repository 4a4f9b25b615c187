import SetCover.Bound.LowerBound
import SetCover.Proofs.Bound.ConflictGraph
import SetCover.Proofs.Heap

/-!
# Bounds by independent rows

Both collections of rows are independent: when a vertex is taken, all that are recorded to be in
conflict with it are removed, and what was removed is not taken later.  So the sum of their cheapest
columns is at most the price of a cover.  The degrees decide only which rows are taken.
-/

namespace SetCover

open SetCover.Matrix ConflictGraph

variable {m : Matrix} {J : List Deletion} {S : Finset Nat} {v b fuel : Nat}
variable {vs remaining : List Nat}

/-! ### By a scan -/

namespace IndependentScan

variable {s t u : IndependentScan} {newlyRemoved : List Nat}

/-- The vertices `vs` are removed. -/
structure Removes (vs : List Nat) (s t : IndependentScan) : Prop where
  graph_eq : t.graph = s.graph
  size_eq : t.removed.size = s.removed.size
  isRemoved_iff : ∀ v < s.removed.size, t.isRemoved v = true ↔ s.isRemoved v = true ∨ v ∈ vs

theorem Removes.trans {ws : List Nat} (h : Removes vs s t) (h' : Removes ws t u) :
    Removes (vs ++ ws) s u := by
  refine ⟨h'.1.trans h.1, h'.2.trans h.2, fun v hv => ?_⟩
  rw [h'.isRemoved_iff v (h.size_eq ▸ hv), h.isRemoved_iff v hv, List.mem_append, or_assoc]

theorem removes_remove (s : IndependentScan) (v : Nat) : Removes [v] s (s.remove v) := by
  refine ⟨rfl, Array.size_setIfInBounds, fun w hw => ?_⟩
  rw [isRemoved, remove, isRemoved, Array.getD_eq_getD_getElem?, Array.getElem?_setIfInBounds,
    Array.getD_eq_getD_getElem?, List.mem_singleton]
  by_cases hvw : v = w
  · subst hvw
    simp [hw]
  · simp [hvw, Ne.symm hvw]

theorem removes_removeAll (s : IndependentScan) (newlyRemoved vs : List Nat) :
    Removes vs s (s.removeAll newlyRemoved vs).2 := by
  induction vs generalizing s newlyRemoved with
  | nil => exact ⟨rfl, rfl, fun v _ => by simp [removeAll]⟩
  | cons v vs ih =>
      rw [removeAll]
      split
      · rename_i hremoved
        obtain ⟨hgraph, hsize, hiff⟩ := ih s newlyRemoved
        refine ⟨hgraph, hsize, fun w hw => ?_⟩
        rw [hiff w hw, List.mem_cons]
        refine ⟨Or.imp_right Or.inr, ?_⟩
        rintro (hs | rfl | hmem)
        · exact .inl hs
        · exact .inl hremoved
        · exact .inr hmem
      · exact (removes_remove s v).trans (ih _ _)

theorem removes_of_lowerDegrees (h : s.lowerDegrees vs = .ok t) : Removes [] s t := by
  induction vs generalizing s with
  | nil =>
      cases h
      exact ⟨rfl, rfl, by simp⟩
  | cons v vs ih =>
      rw [lowerDegrees, bind_eq_ok_iff] at h
      obtain ⟨s', hs', h⟩ := h
      rw [lowerDegree] at hs'
      split_ifs at hs' <;> cases hs'
      · exact ih h
      · obtain ⟨hgraph, hsize, hiff⟩ := ih h
        exact ⟨hgraph, hsize, hiff⟩

/-- What is taken was not removed before, and is independent. -/
theorem areIndependent_of_pick (hremaining : ∀ v ∈ remaining, v < s.removed.size)
    (h : s.pick remaining fuel = .ok (vs, t)) :
    (∀ v ∈ vs, v ∈ remaining ∧ s.isRemoved v = false) ∧ s.graph.AreIndependent vs ∧
      t.graph = s.graph := by
  induction fuel generalizing s remaining vs t with
  | zero =>
      cases h
      exact ⟨by simp, .nil, rfl⟩
  | succ fuel ih =>
      rw [pick] at h
      dsimp only at h
      split at h
      · cases h
        exact ⟨by simp, .nil, rfl⟩
      · rename_i v hmin
        obtain ⟨s₁, hs₁, h⟩ := bind_eq_ok_iff.1 h
        obtain ⟨⟨vs', t'⟩, hpick, h⟩ := bind_eq_ok_iff.1 h
        cases h
        obtain ⟨hv, hkept⟩ := List.mem_filter.1 (List.minOn?_mem hmin)
        rw [Bool.not_eq_true'] at hkept
        have hgone := ((removes_remove s v).trans (removes_removeAll _ [v] _)).trans
          (removes_of_lowerDegrees hs₁)
        have hrest : ∀ w ∈ remaining.filter (!s.isRemoved ·), w < s₁.removed.size := fun w hw =>
          hgone.size_eq ▸ hremaining w (List.mem_of_mem_filter hw)
        obtain ⟨hsub, hindependent, hgraph⟩ := ih hrest hpick
        rw [hgone.graph_eq] at hindependent hgraph
        have hlater : ∀ w ∈ vs', w ∈ remaining ∧ s.isRemoved w = false ∧ v ≠ w ∧
            w ∉ s.graph.neighboursOf v := by
          intro w hw
          obtain ⟨hmem, hnot⟩ := hsub w hw
          have hmem' := List.mem_of_mem_filter hmem
          have hiff := (hgone.isRemoved_iff w (hremaining w hmem')).not
          simp only [hnot, Bool.false_eq_true, not_false_eq_true, true_iff, List.append_nil,
            List.mem_append, List.mem_singleton, not_or, Bool.not_eq_true] at hiff
          exact ⟨hmem', hiff.1, Ne.symm hiff.2.1, hiff.2.2⟩
        refine ⟨fun w hw => ?_,
          List.pairwise_cons.2 ⟨fun w hw => (hlater w hw).2.2, hindependent⟩, hgraph⟩
        rcases List.mem_cons.1 hw with rfl | hw
        · exact ⟨hv, hkept⟩
        · exact ⟨(hlater w hw).1, (hlater w hw).2.1⟩

theorem estimate_le_price (hm : m.WellFormed J) (hS : m.Covers S)
    (h : s.estimate m = .ok (b, t)) : b ≤ m.price S := by
  rw [estimate, bind_eq_ok_iff] at h
  obtain ⟨⟨vs, s'⟩, hchoose, h⟩ := h
  obtain ⟨b', hb, h⟩ := bind_eq_ok_iff.1 h
  cases h
  have hsize : (s.start m).removed.size = (s.start m).graph.size := by simp [start]
  obtain ⟨hsub, hindependent, hgraph⟩ := areIndependent_of_pick (fun v hv => by
    rw [hsize]
    exact List.mem_range.1 hv) hchoose
  rw [hgraph] at hb
  exact weight_le_price (represents_refresh s.graph hm) hindependent
    (fun v hv => List.mem_range.1 (hsub v hv).1) hb hS

end IndependentScan

/-! ### By a heap -/

namespace IndependentQueue

open Heap

variable {s t : IndependentQueue} {g : ConflictGraph} {heap heap' : Heap}
variable {newlyRemoved ws : List Nat}

/-- The vertices `vs` are taken out of the heap. -/
structure Removes (vs : List Nat) (heap heap' : Heap) : Prop where
  wellFormed : heap'.WellFormed
  length_eq : heap'.length = heap.length
  contains_iff : ∀ v, heap'.contains v = true ↔ heap.contains v = true ∧ v ∉ vs
  valueOf_eq : ∀ v < heap.length, heap'.valueOf v = heap.valueOf v
  isHeap : heap.IsHeap → heap'.IsHeap

/-- Taking vertices out of the heap succeeds, and lists those that were in it. -/
theorem exists_removeAll_eq_ok (hheap : heap.WellFormed) (newlyRemoved vs : List Nat) :
    ∃ ws heap', removeAll heap newlyRemoved vs = .ok (ws, heap') ∧ Removes vs heap heap' ∧
      (vs.Nodup → ws = newlyRemoved ++ vs.filter heap.contains) := by
  induction vs generalizing heap newlyRemoved with
  | nil => exact ⟨_, heap, rfl, ⟨hheap, rfl, by simp, fun _ _ => rfl, id⟩, by simp⟩
  | cons v vs ih =>
      rw [removeAll]
      by_cases hv : heap.contains v = true
      · obtain ⟨heap₁, hheap₁, herased, horder⟩ := exists_erase_eq_ok hheap v
        obtain ⟨ws, heap', heq, hremoves, hws⟩ := ih herased.wellFormed (newlyRemoved ++ [v])
        refine ⟨ws, heap', by rw [if_pos hv, hheap₁]; exact heq,
          ⟨hremoves.wellFormed, hremoves.length_eq.trans herased.length_eq, fun w => ?_,
            fun w hw => ?_, fun ho => hremoves.isHeap (horder ho)⟩, fun hnodup => ?_⟩
        · rw [hremoves.contains_iff, herased.contains_iff, List.mem_cons, not_or, and_assoc]
        · rw [hremoves.valueOf_eq w (herased.length_eq.symm ▸ hw), herased.valueOf_eq w hw]
        · rw [List.nodup_cons] at hnodup
          have hsame : vs.filter heap₁.contains = vs.filter heap.contains := by
            refine List.filter_congr fun w hw => Bool.eq_iff_iff.2 ?_
            rw [herased.contains_iff]
            exact and_iff_left fun hwv => hnodup.1 (hwv ▸ hw)
          rw [hws hnodup.2, hsame, List.filter_cons_of_pos hv, List.append_assoc]
          rfl
      · obtain ⟨ws, heap', heq, hremoves, hws⟩ := ih hheap newlyRemoved
        refine ⟨ws, heap', by rw [if_neg hv]; exact heq,
          ⟨hremoves.wellFormed, hremoves.length_eq, fun w => ?_, hremoves.valueOf_eq,
            hremoves.isHeap⟩, fun hnodup => ?_⟩
        · rw [hremoves.contains_iff, List.mem_cons, not_or]
          refine ⟨fun ⟨hw, hnot⟩ => ⟨hw, ?_, hnot⟩, fun ⟨hw, _, hnot⟩ => ⟨hw, hnot⟩⟩
          rintro rfl
          exact hv hw
        · rw [hws (List.nodup_cons.1 hnodup).2, List.filter_cons_of_neg hv]

theorem sameKeys_of_lowerDegrees (hheap : heap.WellFormed)
    (h : lowerDegrees heap vs = .ok heap') : SameKeys heap heap' := by
  induction vs generalizing heap with
  | nil =>
      cases h
      exact .refl hheap
  | cons v vs ih =>
      rw [lowerDegrees] at h
      split at h
      · obtain ⟨heap₁, hheap₁, h⟩ := bind_eq_ok_iff.1 h
        have hkeys := (hheap.increased_of_increase hheap₁).toSameKeys
        exact hkeys.trans (ih hkeys.wellFormed h)
      · exact ih hheap h

/-- What is taken was in the heap, and is independent. -/
theorem areIndependent_of_pick (hheap : heap.WellFormed)
    (h : pick g heap fuel = .ok (vs, heap')) :
    (∀ v ∈ vs, heap.contains v = true) ∧ g.AreIndependent vs := by
  induction fuel generalizing heap vs heap' with
  | zero =>
      cases h
      exact ⟨by simp, .nil⟩
  | succ fuel ih =>
      rw [pick] at h
      obtain ⟨⟨top, heap₁⟩, hpop, h⟩ := bind_eq_ok_iff.1 h
      cases top with
      | none =>
          cases h
          exact ⟨by simp, .nil⟩
      | some v =>
          obtain ⟨⟨newly, heap₂⟩, hremove, h⟩ := bind_eq_ok_iff.1 h
          obtain ⟨heap₃, hlower, h⟩ := bind_eq_ok_iff.1 h
          obtain ⟨⟨vs', heap₄⟩, hpick, h⟩ := bind_eq_ok_iff.1 h
          cases h
          obtain ⟨hv, herased⟩ := hheap.contains_of_pop hpop
          obtain ⟨ws, heap', hremove', hremoves, -⟩ :=
            exists_removeAll_eq_ok herased.wellFormed [v] (g.neighboursOf v)
          cases hremove'.symm.trans hremove
          have hkeys := sameKeys_of_lowerDegrees hremoves.wellFormed hlower
          obtain ⟨hsub, hindependent⟩ := ih hkeys.wellFormed hpick
          have hlater : ∀ w ∈ vs', (heap.contains w = true ∧ w ≠ v) ∧ w ∉ g.neighboursOf v := by
            intro w hw
            have hin := hsub w hw
            rwa [hkeys.contains_eq, hremoves.contains_iff, herased.contains_iff] at hin
          refine ⟨fun w hw => ?_, List.pairwise_cons.2
            ⟨fun w hw => ⟨(hlater w hw).1.2.symm, (hlater w hw).2⟩, hindependent⟩⟩
          rcases List.mem_cons.1 hw with rfl | hw
          · exact hv
          · exact (hlater w hw).1.1

/-- The next `n` vertices are added, each with its degree as a negative value. -/
structure Fills (g : ConflictGraph) (n : Nat) (heap heap' : Heap) : Prop where
  wellFormed : heap'.WellFormed
  length_eq : heap'.length = heap.length + n
  contains_iff : ∀ v, heap'.contains v = true ↔
    heap.contains v = true ∨ heap.length ≤ v ∧ v < heap.length + n
  valueOf_eq : ∀ v < heap.length + n,
    heap'.valueOf v = if v < heap.length then heap.valueOf v else -(g.degree v : Int)
  isHeap : heap.IsHeap → heap'.IsHeap

theorem exists_fill_eq_ok (g : ConflictGraph) (hheap : heap.WellFormed) (n : Nat) :
    ∃ heap', fill g heap (List.range' heap.length n) = .ok heap' ∧ Fills g n heap heap' := by
  induction n generalizing heap with
  | zero =>
      exact ⟨heap, rfl, hheap, rfl, fun v => (or_iff_left (by omega)).symm,
        fun v hv => (if_pos hv).symm, id⟩
  | succ n ih =>
      obtain ⟨heap₁, hheap₁, hadded, horder⟩ :=
        exists_insert_eq_ok hheap (-(g.degree heap.length : Int))
      obtain ⟨heap', heq, hfills⟩ := ih hadded.wellFormed
      have hlength := hadded.length_eq
      refine ⟨heap', ?_, hfills.wellFormed, ?_, fun v => ?_, fun v hv => ?_,
        fun ho => hfills.isHeap (horder ho)⟩
      · rw [List.range'_succ, fill, hheap₁, ← hlength]
        exact heq
      · rw [hfills.length_eq]
        omega
      · rw [hfills.contains_iff, hadded.contains_iff, or_assoc]
        refine or_congr_right ?_
        omega
      · rw [hfills.valueOf_eq v (by omega)]
        by_cases hold : v < heap₁.length
        · rw [if_pos hold, hadded.valueOf_eq v (by omega)]
          split_ifs with hnew hlt hlt
          · omega
          · rw [hnew]
          · rfl
          · omega
        · rw [if_neg hold, if_neg (by omega)]

theorem estimate_le_price (hm : m.WellFormed J) (hS : m.Covers S)
    (h : s.estimate m = .ok (b, t)) : b ≤ m.price S := by
  rw [estimate, bind_eq_ok_iff] at h
  obtain ⟨s', hstart, h⟩ := h
  obtain ⟨⟨vs, s''⟩, hchoose, h⟩ := bind_eq_ok_iff.1 h
  obtain ⟨b', hb, h⟩ := bind_eq_ok_iff.1 h
  cases h
  obtain ⟨heap, hfill, hstart⟩ := bind_eq_ok_iff.1 hstart
  cases hstart
  obtain ⟨⟨vs', heap'⟩, hpick, hchoose⟩ := bind_eq_ok_iff.1 hchoose
  cases hchoose
  obtain ⟨hclear, hlength⟩ := wellFormed_clear s.heap
  rw [List.range_eq_range', ← hlength] at hfill
  obtain ⟨heap₁, hfill', hfills⟩ := exists_fill_eq_ok (s.graph.refresh m) hclear _
  cases hfill'.symm.trans hfill
  obtain ⟨hsub, hindependent⟩ := areIndependent_of_pick hfills.wellFormed hpick
  refine weight_le_price (represents_refresh s.graph hm) hindependent (fun v hv => ?_) hb hS
  have hlt := (hfills.wellFormed.contains_iff.1 (hsub v hv)).1
  rwa [hfills.length_eq, hlength, Nat.zero_add] at hlt

end IndependentQueue

/-! ### Their maximum -/

theorem Estimator.estimate_le_price {e e' : Estimator} (he : e ≠ .split) (hm : m.WellFormed J)
    (h : e.estimate m = .ok (b, e')) :
    e' ≠ .split ∧ ∀ S, m.Covers S → b ≤ m.price S := by
  cases e with
  | split => exact absurd rfl he
  | mis tables =>
      obtain ⟨⟨b', tables'⟩, hestimate, h⟩ := bind_eq_ok_iff.1 h
      cases h
      exact ⟨nofun, fun S hS => IndependentScan.estimate_le_price hm hS hestimate⟩
  | misHeap tables =>
      obtain ⟨⟨b', tables'⟩, hestimate, h⟩ := bind_eq_ok_iff.1 h
      cases h
      exact ⟨nofun, fun S hS => IndependentQueue.estimate_le_price hm hS hestimate⟩

namespace LowerBound

variable {l l' : LowerBound} {es es' : List Estimator} {best : Nat}

/-- All bounds are by independent rows. -/
def IsIndependent (l : LowerBound) : Prop := ∀ e ∈ l.estimators, e ≠ .split

theorem isIndependent_iff : l.IsIndependent ↔ .split ∉ l.kinds := by
  rw [kinds, List.mem_map, IsIndependent]
  refine ⟨fun hl => ?_, fun hl e he hsplit => hl ⟨e, he, hsplit ▸ rfl⟩⟩
  rintro ⟨e, he, hkind⟩
  refine hl e he ?_
  cases e with
  | split => rfl
  | mis => cases hkind
  | misHeap => cases hkind

theorem isIndependent_ofKinds {kinds : List BoundKind} (h : .split ∉ kinds) :
    (ofKinds kinds).IsIndependent :=
  isIndependent_iff.2 (by rwa [kinds_ofKinds])

theorem estimateFrom_le_price (hes : ∀ e ∈ es, e ≠ .split) (hm : m.WellFormed J)
    (h : estimateFrom m best es = .ok (b, es')) :
    (∀ e ∈ es', e ≠ .split) ∧ ∀ S, m.Covers S → best ≤ m.price S → b ≤ m.price S := by
  induction es generalizing best es' with
  | nil =>
      cases h
      exact ⟨hes, fun _ _ hbest => hbest⟩
  | cons e es ih =>
      rw [estimateFrom, bind_eq_ok_iff] at h
      obtain ⟨⟨b₁, e'⟩, he', h⟩ := h
      obtain ⟨⟨b₂, es''⟩, hes'', h⟩ := bind_eq_ok_iff.1 h
      cases h
      obtain ⟨hne, hbound⟩ := Estimator.estimate_le_price (hes e (by simp)) hm he'
      obtain ⟨hrest, hbest⟩ := ih (fun e he => hes e (List.mem_cons_of_mem _ he)) hes''
      refine ⟨fun e he => ?_, fun S hS hle => hbest S hS (max_le hle (hbound S hS))⟩
      rcases List.mem_cons.1 he with rfl | he
      · exact hne
      · exact hrest e he

/-- Bounds by independent rows are at most the price of a cover, whatever the tables held. -/
theorem IsIndependent.estimate_le_price (hl : l.IsIndependent) (hm : m.WellFormed J)
    (h : l.estimate m = .ok (b, l')) : l'.IsIndependent ∧ ∀ S, m.Covers S → b ≤ m.price S := by
  rw [estimate, bind_eq_ok_iff] at h
  obtain ⟨⟨b', es⟩, hes, h⟩ := h
  cases h
  obtain ⟨hindependent, hbound⟩ := estimateFrom_le_price hl hm hes
  exact ⟨hindependent, fun S hS => hbound S hS (Nat.zero_le _)⟩

end LowerBound

end SetCover
