import SetCover.Proofs.Bound.Admissible

/-!
# Remaining conflicts

Both collections of independent rows keep, for each vertex that remains, the number of its conflicts
with vertices that remain.  When some vertices are removed, this number is lowered by one for each
of them that is a neighbour, and the neighbours of all that are removed list the vertex as often.
So the numbers stay right, none of them is lowered below zero, and the collection succeeds.

The sum over the collected rows succeeds as well if some cover has a price.
-/

namespace SetCover

open SetCover.Matrix ConflictGraph

variable {m : Matrix} {J : List Deletion} {S : Finset Nat} {v w fuel : Nat}
variable {vs ws remaining newlyRemoved : List Nat}

/-! ### Counting -/

namespace ConflictGraph

variable {g : ConflictGraph} {p q : Nat → Bool}

/-- The number of vertices in conflict with `v` of which `p` holds. -/
def conflicts (g : ConflictGraph) (p : Nat → Bool) (v : Nat) : Nat := (g.neighboursOf v).countP p

theorem conflicts_eq_degree (hp : ∀ w ∈ g.neighboursOf v, p w = true) :
    g.conflicts p v = g.degree v :=
  List.countP_eq_length.2 hp

namespace Represents

theorem degree_eq_zero (hg : Represents m g) (hv : g.size ≤ v) : g.degree v = 0 := by
  refine List.length_eq_zero_iff.2 (List.eq_nil_iff_forall_not_mem.2 fun w hw => ?_)
  exact Nat.not_lt_of_le hv (hg.lt_size_of_mem (hg.mem_comm.1 hw))

theorem conflicts_le (hg : Represents m g) (p : Nat → Bool) (v : Nat) :
    g.conflicts p v ≤ g.size :=
  List.countP_le_length.trans (hg.length_neighboursOf_le v)

/-- The neighbours of some vertices list `w` once for each of these that is a neighbour of `w`. -/
theorem count_flatMap (hg : Represents m g) (hvs : vs.Nodup) (w : Nat) :
    (vs.flatMap g.neighboursOf).count w = (g.neighboursOf w).countP (· ∈ vs) := by
  have hperm : ((g.neighboursOf w).filter (· ∈ vs)).Perm (vs.filter (· ∈ g.neighboursOf w)) := by
    refine (List.perm_ext_iff_of_nodup ((hg.nodup_neighboursOf w).filter _) (hvs.filter _)).2 ?_
    simp [and_comm]
  rw [List.countP_eq_length_filter, hperm.length_eq, ← List.countP_eq_length_filter]
  clear hperm hvs
  induction vs with
  | nil => rfl
  | cons v vs ih =>
      rw [List.flatMap_cons, List.count_append, ih, List.countP_cons, Nat.add_comm]
      simp only [decide_eq_true_eq, hg.mem_comm (v := w) (w := v)]
      rw [(hg.nodup_neighboursOf v).count]

/-- When vertices are removed, each of them is one conflict less for each of its neighbours. -/
theorem conflicts_eq_add_count (hg : Represents m g) (hvs : vs.Nodup) (hp : ∀ u ∈ vs, p u = true)
    (hq : ∀ u < g.size, q u = true ↔ p u = true ∧ u ∉ vs) (w : Nat) :
    g.conflicts p w = g.conflicts q w + (vs.flatMap g.neighboursOf).count w := by
  have hsplit : ∀ u ∈ g.neighboursOf w,
      (if p u then 1 else 0) = (if q u then 1 else 0) + if u ∈ vs then 1 else 0 := by
    intro u hu
    have hqu := hq u (hg.lt_size_of_mem hu)
    by_cases hvs : u ∈ vs
    · simp [hp u hvs, hqu, hvs]
    · simp [hqu, hvs]
  rw [hg.count_flatMap hvs, conflicts, conflicts]
  generalize g.neighboursOf w = us at hsplit
  induction us with
  | nil => rfl
  | cons u us ih =>
      have hu := hsplit u (by simp)
      have hus := ih fun u hu => hsplit u (List.mem_cons_of_mem _ hu)
      simp only [List.countP_cons, decide_eq_true_eq]
      omega

end Represents

end ConflictGraph

/-! ### By a scan -/

namespace IndependentScan

variable {s t u : IndependentScan}

theorem isRemoved_remove_of_ne (s : IndependentScan) (hne : w ≠ v) :
    (s.remove v).isRemoved w = s.isRemoved w := by
  rw [isRemoved, isRemoved, remove, Array.getD_eq_getD_getElem?,
    Array.getElem?_setIfInBounds_ne hne.symm, Array.getD_eq_getD_getElem?]

theorem Removes.isRemoved_eq_false (h : Removes ws s t) (hv : t.isRemoved v = false) :
    s.isRemoved v = false := by
  by_cases hlt : v < s.removed.size
  · have hiff := h.isRemoved_iff v hlt
    rw [hv] at hiff
    exact Bool.eq_false_iff.2 fun hs => nomatch hiff.2 (.inl hs)
  · simp [isRemoved, hlt]

/-- The vertices that were not removed before are listed. -/
theorem fst_removeAll (s : IndependentScan) (newlyRemoved : List Nat) (hvs : vs.Nodup) :
    (s.removeAll newlyRemoved vs).1 = newlyRemoved ++ vs.filter (!s.isRemoved ·) := by
  induction vs generalizing s newlyRemoved with
  | nil => simp [removeAll]
  | cons v vs ih =>
      rw [List.nodup_cons] at hvs
      rw [removeAll]
      split_ifs with hremoved
      · rw [ih s newlyRemoved hvs.2, List.filter_cons_of_neg (by simp [hremoved])]
      · have hsame : vs.filter (!(s.remove v).isRemoved ·) = vs.filter (!s.isRemoved ·) :=
          List.filter_congr fun w hw => by
            rw [s.isRemoved_remove_of_ne (ne_of_mem_of_not_mem hw hvs.1)]
        rw [ih _ _ hvs.2, hsame, List.filter_cons_of_pos (by simp [hremoved]), List.append_assoc]
        rfl

theorem degrees_removeAll (s : IndependentScan) (newlyRemoved vs : List Nat) :
    (s.removeAll newlyRemoved vs).2.degrees = s.degrees := by
  induction vs generalizing s newlyRemoved with
  | nil => rfl
  | cons v vs ih =>
      rw [removeAll]
      split_ifs
      · exact ih _ _
      · exact ih _ _

/-- The degrees of the vertices that remain are lowered as often as they are listed. -/
structure Lowers (ws : List Nat) (s t : IndependentScan) : Prop where
  graph_eq : t.graph = s.graph
  removed_eq : t.removed = s.removed
  degree_eq : ∀ v, s.isRemoved v = false → s.degree v = t.degree v + ws.count v

theorem exists_lowerDegree_eq_ok (h : s.isRemoved w = false → s.degree w ≠ 0) :
    ∃ t, s.lowerDegree w = .ok t ∧ Lowers [w] s t := by
  rw [lowerDegree]
  cases hw : s.isRemoved w with
  | true =>
      refine ⟨s, rfl, rfl, rfl, fun v hv => ?_⟩
      have hne : w ≠ v := by
        rintro rfl
        exact Bool.false_ne_true (hv.symm.trans hw)
      rw [List.count_singleton, if_neg (by simpa using hne)]
      rfl
  | false =>
      have hpos := h hw
      have hlt : w < s.degrees.size := by
        by_contra hge
        exact hpos (by simp [degree, hge])
      rw [if_neg Bool.false_ne_true, if_neg hpos]
      refine ⟨_, rfl, rfl, rfl, fun v _ => ?_⟩
      have hdegree := getD_setIfInBounds hlt (s.degree w - 1) 0 v
      rw [List.count_singleton, degree, degree, hdegree]
      by_cases hvw : v = w
      · rw [if_pos hvw, if_pos (by simpa using hvw.symm), hvw]
        exact (Nat.sub_one_add_one hpos).symm
      · rw [if_neg hvw, if_neg (by simpa using Ne.symm hvw)]
        rfl

theorem exists_lowerDegrees_eq_ok (s : IndependentScan) (ws : List Nat)
    (h : ∀ v, s.isRemoved v = false → ws.count v ≤ s.degree v) :
    ∃ t, s.lowerDegrees ws = .ok t ∧ Lowers ws s t := by
  induction ws generalizing s with
  | nil => exact ⟨s, rfl, rfl, rfl, fun _ _ => rfl⟩
  | cons w ws ih =>
      obtain ⟨s₁, hs₁, hlowers⟩ := exists_lowerDegree_eq_ok fun hw => by
        have hle := h w hw
        rw [List.count_cons_self] at hle
        omega
      have hkept : ∀ v, s₁.isRemoved v = s.isRemoved v := fun v => by
        rw [isRemoved, hlowers.removed_eq, isRemoved]
      have hcount : ∀ v, (w :: ws).count v = [w].count v + ws.count v := fun v => by
        rw [← List.count_append]
        rfl
      obtain ⟨t, ht, hlowers'⟩ := ih s₁ fun v hv => by
        rw [hkept] at hv
        have hle := h v hv
        rw [hcount, hlowers.degree_eq v hv] at hle
        omega
      refine ⟨t, by rw [lowerDegrees, hs₁]; exact ht, hlowers'.graph_eq.trans hlowers.graph_eq,
        hlowers'.removed_eq.trans hlowers.removed_eq, fun v hv => ?_⟩
      have hv' := hlowers'.degree_eq v ((hkept v).trans hv)
      rw [hcount, hlowers.degree_eq v hv]
      omega

/-- The degree of a vertex that remains is the number of its conflicts with such vertices. -/
structure Counts (m : Matrix) (s : IndependentScan) : Prop where
  represents : Represents m s.graph
  size_eq : s.removed.size = s.graph.size
  degree_eq : ∀ v, s.isRemoved v = false → s.degree v = s.graph.conflicts (!s.isRemoved ·) v

/-- At the start all vertices remain. -/
theorem isRemoved_start (s : IndependentScan) (m : Matrix) (v : Nat) :
    (s.start m).isRemoved v = false := by
  rw [isRemoved, start]
  dsimp only
  rw [refill_eq_replicate, getD_replicate]

theorem counts_start (s : IndependentScan) (hm : m.WellFormed J) : (s.start m).Counts m := by
  have hg := represents_refresh s.graph hm
  refine ⟨hg, by simp [start], fun v _ => ?_⟩
  rw [conflicts_eq_degree fun w _ => by rw [isRemoved_start]; rfl]
  have hdegrees : (s.start m).degrees =
      ((List.range (s.graph.refresh m).size).map (s.graph.refresh m).degree).toArray := by
    simp [start]
  rw [degree, hdegrees, Array.getD_eq_getD_getElem?, List.getElem?_toArray, List.getElem?_map]
  by_cases hv : v < (s.graph.refresh m).size
  · rw [List.getElem?_range hv]
    rfl
  · rw [List.getElem?_eq_none (by simpa using hv)]
    exact (hg.degree_eq_zero (Nat.le_of_not_lt hv)).symm

/-- Lowering the degrees for vertices that were removed makes them right again. -/
theorem Counts.exists_lowerDegrees_eq_ok (hs : s.Counts m) (ht : Removes ws s t)
    (hdegrees : t.degrees = s.degrees) (hws : ws.Nodup) (hkept : ∀ v ∈ ws, s.isRemoved v = false) :
    ∃ u, t.lowerDegrees (ws.flatMap t.graph.neighboursOf) = .ok u ∧ u.Counts m := by
  have hg := hs.represents
  have hiff : ∀ v < s.graph.size, (!t.isRemoved v) = true ↔ (!s.isRemoved v) = true ∧ v ∉ ws := by
    intro v hv
    have hremoved := (ht.isRemoved_iff v (hs.size_eq ▸ hv)).not
    simpa [not_or] using hremoved
  have hcount := hg.conflicts_eq_add_count hws (by simpa using hkept) hiff
  have hbefore : ∀ v, t.isRemoved v = false →
      t.degree v = s.graph.conflicts (!s.isRemoved ·) v := by
    intro v hv
    rw [degree, hdegrees]
    exact hs.degree_eq v (ht.isRemoved_eq_false hv)
  obtain ⟨u, hu, hlowers⟩ :=
    t.exists_lowerDegrees_eq_ok (ws.flatMap t.graph.neighboursOf) fun v hv => by
      rw [hbefore v hv, hcount, ht.graph_eq]
      exact Nat.le_add_left _ _
  have hsame : ∀ v, u.isRemoved v = t.isRemoved v := fun v => by
    rw [isRemoved, hlowers.removed_eq, isRemoved]
  refine ⟨u, hu, ?_, ?_, fun v hv => ?_⟩
  · rw [hlowers.graph_eq, ht.graph_eq]
    exact hg
  · rw [hlowers.removed_eq, ht.size_eq, hlowers.graph_eq, ht.graph_eq, hs.size_eq]
  · rw [hsame] at hv
    have hdegree := hlowers.degree_eq v hv
    rw [hbefore v hv, hcount, ht.graph_eq] at hdegree
    simp only [hsame, hlowers.graph_eq, ht.graph_eq]
    omega

/-- The vertices that are removed with `v` are `v` and its neighbours that remain. -/
theorem Counts.of_removeAll (hs : s.Counts m) (hkept : s.isRemoved v = false)
    (h : (s.remove v).removeAll [v] (s.graph.neighboursOf v) = (ws, t)) :
    Removes ws s t ∧ t.degrees = s.degrees ∧ ws.Nodup ∧ (∀ w ∈ ws, s.isRemoved w = false) ∧
      ∀ w < s.removed.size,
        t.isRemoved w = true ↔ s.isRemoved w = true ∨ w = v ∨ w ∈ s.graph.neighboursOf v := by
  have hg := hs.represents
  have hnodup := hg.nodup_neighboursOf v
  have hgone := (removes_remove s v).trans
    (removes_removeAll (s.remove v) [v] (s.graph.neighboursOf v))
  have hdegrees := degrees_removeAll (s.remove v) [v] (s.graph.neighboursOf v)
  have hfst := fst_removeAll (s.remove v) [v] hnodup
  have hsame : (s.graph.neighboursOf v).filter (!(s.remove v).isRemoved ·) =
      (s.graph.neighboursOf v).filter (!s.isRemoved ·) :=
    List.filter_congr fun w hw => by
      rw [s.isRemoved_remove_of_ne (ne_of_mem_of_not_mem hw (hg.notMem_self v))]
  rw [h] at hgone hdegrees hfst
  rw [hsame] at hfst
  dsimp only at hgone hdegrees hfst
  subst hfst
  refine ⟨⟨hgone.graph_eq, hgone.size_eq, fun w hw => ?_⟩, hdegrees,
    List.nodup_cons.2 ⟨?_, hnodup.filter _⟩, ?_, fun w hw => by
      simpa using hgone.isRemoved_iff w hw⟩
  · rw [hgone.isRemoved_iff w hw]
    cases hw : s.isRemoved w <;> simp [hw]
  · exact fun hv => hg.notMem_self v (List.mem_of_mem_filter hv)
  · intro w hw
    rcases List.mem_cons.1 hw with rfl | hw
    · exact hkept
    · simpa using (List.mem_filter.1 hw).2

/-- The vertex `v` is taken, and it is removed with its neighbours. -/
structure Takes (m : Matrix) (v : Nat) (s u : IndependentScan) : Prop where
  counts : u.Counts m
  graph_eq : u.graph = s.graph
  isRemoved_eq : ∀ w < s.graph.size, u.isRemoved w = false ↔
    s.isRemoved w = false ∧ w ≠ v ∧ w ∉ s.graph.neighboursOf v
  pick_eq : ∀ fuel remaining, (remaining.filter (!s.isRemoved ·)).minOn? s.degree = some v →
    s.pick remaining (fuel + 1) =
      (u.pick (remaining.filter (!s.isRemoved ·)) fuel).map fun r => (v :: r.1, r.2)

/-- Each vertex that remains can be taken. -/
theorem Counts.exists_takes (hs : s.Counts m) (hkept : s.isRemoved v = false) :
    ∃ u, Takes m v s u := by
  cases hremove : (s.remove v).removeAll [v] (s.graph.neighboursOf v) with
  | mk ws t =>
      obtain ⟨hremoves, hdegrees, hws, hmem, hgone⟩ := hs.of_removeAll hkept hremove
      obtain ⟨u, hu, hcounts⟩ := hs.exists_lowerDegrees_eq_ok hremoves hdegrees hws hmem
      have hlowered := removes_of_lowerDegrees hu
      refine ⟨u, hcounts, hlowered.graph_eq.trans hremoves.graph_eq, fun w hw => ?_,
        fun fuel remaining hmin => ?_⟩
      · rw [← hs.size_eq] at hw
        have hiff := ((hlowered.isRemoved_iff w (hremoves.size_eq ▸ hw)).trans
          (or_congr_left (hgone w hw))).not
        simpa [not_or, and_assoc] using hiff
      · rw [pick]
        dsimp only
        rw [hmin]
        dsimp only
        rw [hremove, hu, ok_bind]
        cases u.pick (remaining.filter (!s.isRemoved ·)) fuel <;> rfl

theorem Counts.exists_pick_eq_ok (hs : s.Counts m) (remaining : List Nat) (fuel : Nat) :
    ∃ r, s.pick remaining fuel = .ok r := by
  induction fuel generalizing s remaining with
  | zero => exact ⟨_, rfl⟩
  | succ fuel ih =>
      cases hmin : (remaining.filter (!s.isRemoved ·)).minOn? s.degree with
      | none =>
          rw [pick]
          dsimp only
          rw [hmin]
          exact ⟨_, rfl⟩
      | some v =>
          have hkept := (List.mem_filter.1 (List.minOn?_mem hmin)).2
          rw [Bool.not_eq_true'] at hkept
          obtain ⟨u, htakes⟩ := hs.exists_takes hkept
          obtain ⟨r, hr⟩ := ih htakes.counts (remaining.filter (!s.isRemoved ·))
          exact ⟨_, by rw [htakes.pick_eq fuel remaining hmin, hr]; rfl⟩

/-- The scan succeeds if some cover has a price. -/
theorem exists_estimate_eq_ok (s : IndependentScan) (hm : m.WellFormed J) (hS : m.Covers S)
    (hprice : m.price S < Cost.limit) : ∃ r, s.estimate m = .ok r := by
  have hcounts := s.counts_start hm
  obtain ⟨⟨vs, t⟩, hpick⟩ := hcounts.exists_pick_eq_ok (List.range (s.start m).graph.size)
    (s.start m).graph.size
  obtain ⟨hsub, hindependent, hgraph⟩ := areIndependent_of_pick (fun v hv => by
    rw [hcounts.size_eq]
    exact List.mem_range.1 hv) hpick
  obtain ⟨b, hb⟩ := exists_weight_eq_ok hcounts.represents hindependent
    (fun v hv => List.mem_range.1 (hsub v hv).1) hS hprice
  rw [← hgraph] at hb
  rw [estimate, choose, hpick, ok_bind]
  dsimp only
  rw [hb]
  exact ⟨_, rfl⟩

end IndependentScan

/-! ### By a heap -/

namespace IndependentQueue

open Heap

variable {g : ConflictGraph} {heap heap₁ heap' : Heap}

/-- The values of the vertices in the heap are increased as often as they are listed. -/
structure Lowers (ws : List Nat) (heap heap' : Heap) : Prop extends SameKeys heap heap' where
  valueOf_eq : ∀ v, heap.contains v = true → heap'.valueOf v = heap.valueOf v + ws.count v
  isHeap : heap.IsHeap → heap'.IsHeap

theorem exists_lowerDegrees_eq_ok (hheap : heap.WellFormed) (ws : List Nat)
    (hle : ∀ v, heap.contains v = true → -9223372036854775808 ≤ heap.valueOf v)
    (hlt : ∀ v, heap.contains v = true → heap.valueOf v + ws.count v < 9223372036854775808) :
    ∃ heap', lowerDegrees heap ws = .ok heap' ∧ Lowers ws heap heap' := by
  induction ws generalizing heap with
  | nil => exact ⟨heap, rfl, .refl hheap, fun v _ => by simp, id⟩
  | cons w ws ih =>
      have hcount : ∀ v, ((w :: ws).count v : Int) = ws.count v + if v = w then 1 else 0 := by
        intro v
        rw [List.count_cons]
        by_cases hvw : v = w
        · simp [hvw]
        · simp [hvw, Ne.symm hvw]
      rw [lowerDegrees]
      by_cases hw : heap.contains w = true
      · have hfits := hlt w hw
        have hbelow := hle w hw
        rw [hcount, if_pos rfl] at hfits
        obtain ⟨heap₁, hheap₁, hincreased, horder⟩ := exists_increase_eq_ok hheap
          (hheap.contains_iff.1 hw).1 1 (by omega) (by omega)
        have hvalue : ∀ v, heap₁.contains v = true →
            heap.contains v = true ∧ heap₁.valueOf v = heap.valueOf v + if v = w then 1 else 0 := by
          intro v hv
          rw [hincreased.contains_eq] at hv
          exact ⟨hv, hincreased.valueOf_eq v (hheap.contains_iff.1 hv).1⟩
        obtain ⟨heap', hheap', hlowers⟩ := ih hincreased.wellFormed (fun v hv => by
          obtain ⟨hv', heq⟩ := hvalue v hv
          have hbelow := hle v hv'
          rw [heq]
          split_ifs <;> omega) fun v hv => by
          obtain ⟨hv', heq⟩ := hvalue v hv
          have hfits := hlt v hv'
          rw [hcount] at hfits
          rw [heq]
          omega
        refine ⟨heap', by rw [if_pos hw, hheap₁]; exact hheap',
          hincreased.toSameKeys.trans hlowers.toSameKeys, fun v hv => ?_,
          fun ho => hlowers.isHeap (horder Int.one_nonneg ho)⟩
        have hv₁ := (hincreased.contains_eq v).trans hv
        rw [hlowers.valueOf_eq v hv₁, (hvalue v hv₁).2, hcount]
        omega
      · have hne : ∀ v, heap.contains v = true → ((w :: ws).count v : Int) = ws.count v := by
          intro v hv
          rw [hcount, if_neg, Int.add_zero]
          rintro rfl
          exact hw hv
        obtain ⟨heap', hheap', hlowers⟩ := ih hheap hle fun v hv => hne v hv ▸ hlt v hv
        exact ⟨heap', by rw [if_neg hw]; exact hheap', hlowers.toSameKeys, fun v hv =>
          (hlowers.valueOf_eq v hv).trans (by rw [hne v hv]), hlowers.isHeap⟩

/-- The value of a vertex in the heap is the negated number of its conflicts with such vertices. -/
structure Counts (m : Matrix) (g : ConflictGraph) (heap : Heap) : Prop where
  represents : Represents m g
  wellFormed : heap.WellFormed
  isHeap : heap.IsHeap
  length_eq : heap.length = g.size
  valueOf_eq : ∀ v, heap.contains v = true →
    heap.valueOf v = -(g.conflicts heap.contains v : Int)

theorem exists_start_eq_ok (s : IndependentQueue) (hm : m.WellFormed J) :
    ∃ t, s.start m = .ok t ∧ Counts m t.graph t.heap ∧
      ∀ v < t.graph.size, t.heap.contains v = true := by
  have hg := represents_refresh s.graph hm
  obtain ⟨hclear, hlength⟩ := wellFormed_clear s.heap
  obtain ⟨heap, hheap, hfills⟩ := exists_fill_eq_ok (s.graph.refresh m) hclear
    (s.graph.refresh m).size
  obtain ⟨hheap', hlength', hcontains, hvalue, horder⟩ := hfills
  rw [hlength] at hheap hlength' hcontains hvalue
  rw [Nat.zero_add] at hlength' hcontains hvalue
  have hin : ∀ v < (s.graph.refresh m).size, heap.contains v = true := fun v hv =>
    (hcontains v).2 (.inr ⟨Nat.zero_le v, hv⟩)
  refine ⟨⟨s.graph.refresh m, heap⟩, ?_, ⟨hg, hheap', horder (isHeap_clear s.heap), hlength',
    fun v hv => ?_⟩, hin⟩
  · rw [start, List.range_eq_range', hheap]
    rfl
  · have hlt := (hheap'.contains_iff.1 hv).1
    rw [hlength'] at hlt
    rw [hvalue v hlt, if_neg (Nat.not_lt_zero v),
      conflicts_eq_degree fun w hw => hin w (hg.lt_size_of_mem hw)]

/-- Taking the top vertex out, and removing its neighbours, keeps the values right. -/
theorem Counts.exists_lowerDegrees_eq_ok (hheap : Counts m g heap) (hsize : g.size < 2 ^ 63)
    (hv : heap.contains v = true) (herased : Erased v heap heap₁)
    (horder : heap.IsHeap → heap₁.IsHeap) (hremoves : Removes (g.neighboursOf v) heap₁ heap')
    (hws : ws = [v] ++ (g.neighboursOf v).filter heap₁.contains) :
    ∃ heap₂, lowerDegrees heap' (ws.flatMap g.neighboursOf) = .ok heap₂ ∧ Counts m g heap₂ ∧
      ∀ w, heap₂.contains w = heap'.contains w := by
  have hg := hheap.represents
  have hiff : ∀ w, heap'.contains w = true ↔ heap.contains w = true ∧ w ∉ ws := by
    intro w
    rw [hremoves.contains_iff, herased.contains_iff, hws]
    simp only [List.cons_append, List.nil_append, List.mem_cons, List.mem_filter,
      herased.contains_iff, not_or, not_and]
    tauto
  have hnodup : ws.Nodup := by
    rw [hws]
    refine List.nodup_cons.2 ⟨fun hmem => ?_, (hg.nodup_neighboursOf v).filter _⟩
    exact hg.notMem_self v (List.mem_of_mem_filter hmem)
  have hbefore : ∀ w ∈ ws, heap.contains w = true := by
    rw [hws]
    intro w hw
    rcases List.mem_cons.1 hw with rfl | hw
    · exact hv
    · exact ((herased.contains_iff w).1 (List.mem_filter.1 hw).2).1
  have hcount := hg.conflicts_eq_add_count hnodup hbefore fun w _ => hiff w
  have hvalue : ∀ w, heap'.contains w = true →
      heap'.valueOf w = -(g.conflicts heap.contains w : Int) := by
    intro w hw
    have hin := ((hiff w).1 hw).1
    have hlt := (hheap.wellFormed.contains_iff.1 hin).1
    rw [hremoves.valueOf_eq w (herased.length_eq.symm ▸ hlt), herased.valueOf_eq w hlt,
      hheap.valueOf_eq w hin]
  obtain ⟨heap₂, hheap₂, hlowers⟩ := IndependentQueue.exists_lowerDegrees_eq_ok
    hremoves.wellFormed (ws.flatMap g.neighboursOf) (fun w hw => by
      have hle := hg.conflicts_le heap.contains w
      rw [hvalue w hw]
      omega) fun w hw => by
      rw [hvalue w hw, hcount]
      omega
  have hsame : heap₂.contains = heap'.contains := funext hlowers.contains_eq
  refine ⟨heap₂, hheap₂, ⟨hg, hlowers.wellFormed,
    hlowers.isHeap (hremoves.isHeap (horder hheap.isHeap)), ?_, fun w hw => ?_⟩,
    hlowers.contains_eq⟩
  · rw [hlowers.length_eq, hremoves.length_eq, herased.length_eq, hheap.length_eq]
  · rw [hsame] at hw ⊢
    rw [hlowers.valueOf_eq w hw, hvalue w hw, hcount]
    omega

/-- The vertex `v` is taken as one of fewest conflicts, and it is removed with its neighbours. -/
structure Takes (m : Matrix) (g : ConflictGraph) (v : Nat) (heap heap' : Heap) : Prop where
  counts : Counts m g heap'
  contains : heap.contains v = true
  conflicts_le : ∀ w, heap.contains w = true →
    g.conflicts heap.contains v ≤ g.conflicts heap.contains w
  contains_iff : ∀ w, heap'.contains w = true ↔
    heap.contains w = true ∧ w ≠ v ∧ w ∉ g.neighboursOf v
  pick_eq : ∀ fuel, pick g heap (fuel + 1) = (pick g heap' fuel).map fun r => (v :: r.1, r.2)

/-- A vertex is taken unless none remains. -/
theorem Counts.exists_takes (hheap : Counts m g heap) (hsize : g.size < 2 ^ 63) :
    ((∀ v, heap.contains v = false) ∧ ∀ fuel, pick g heap (fuel + 1) = .ok ([], heap)) ∨
      ∃ v heap', Takes m g v heap heap' := by
  obtain ⟨heap₁, hpop, hsame, hpopped⟩ := exists_pop_eq_ok hheap.wellFormed
  cases hpeek : heap.peek? with
  | none =>
      refine .inl ⟨(peek?_eq_none_iff hheap.wellFormed).1 hpeek, fun fuel => ?_⟩
      rw [hpeek] at hpop
      rw [pick, hpop, ok_bind, hsame hpeek]
      rfl
  | some top =>
      obtain ⟨v, value⟩ := top
      rw [hpeek] at hpop
      obtain ⟨hv, hposition, -⟩ := hheap.wellFormed.of_peek? hpeek
      obtain ⟨herased, horder⟩ := hpopped v value hpeek
      obtain ⟨ws, heap', hremove, hremoves, hws⟩ :=
        exists_removeAll_eq_ok herased.wellFormed [v] (g.neighboursOf v)
      obtain ⟨heap₂, hlower, hcounts, hcontains⟩ := hheap.exists_lowerDegrees_eq_ok hsize hv herased
        horder hremoves (hws (hheap.represents.nodup_neighboursOf v))
      refine .inr ⟨v, heap₂, hcounts, hv, fun w hw => ?_, fun w => ?_, fun fuel => ?_⟩
      · have hle := hheap.isHeap.valueOf_le hheap.wellFormed hw
        rw [← hposition, ← valueOf, hheap.valueOf_eq v hv, hheap.valueOf_eq w hw] at hle
        omega
      · rw [hcontains, hremoves.contains_iff, herased.contains_iff, and_assoc]
      · rw [pick, hpop]
        change (removeAll heap₁ [v] (g.neighboursOf v) >>= fun r => _) = _
        rw [hremove, ok_bind]
        dsimp only
        rw [hlower, ok_bind]
        cases pick g heap₂ fuel <;> rfl

theorem Counts.exists_pick_eq_ok (hheap : Counts m g heap) (hsize : g.size < 2 ^ 63) (fuel : Nat) :
    ∃ r, pick g heap fuel = .ok r := by
  induction fuel generalizing heap with
  | zero => exact ⟨_, rfl⟩
  | succ fuel ih =>
      obtain ⟨-, hpick⟩ | ⟨v, heap', htakes⟩ := hheap.exists_takes hsize
      · exact ⟨_, hpick fuel⟩
      · obtain ⟨r, hr⟩ := ih htakes.counts
        exact ⟨_, by rw [htakes.pick_eq, hr]; rfl⟩

/-- The collection succeeds if some cover has a price, and the vertices can be counted by the values
of the heap. -/
theorem exists_estimate_eq_ok (s : IndependentQueue) (hm : m.WellFormed J)
    (hsize : (m.active .row).length < 2 ^ 63) (hS : m.Covers S) (hprice : m.price S < Cost.limit) :
    ∃ r, s.estimate m = .ok r := by
  obtain ⟨t, hstart, hcounts, -⟩ := s.exists_start_eq_ok hm
  rw [← hcounts.represents.size_eq] at hsize
  obtain ⟨⟨vs, heap'⟩, hpick⟩ := hcounts.exists_pick_eq_ok hsize t.graph.size
  obtain ⟨hsub, hindependent⟩ := areIndependent_of_pick hcounts.wellFormed hpick
  obtain ⟨b, hb⟩ := exists_weight_eq_ok hcounts.represents hindependent (fun v hv => by
    rw [← hcounts.length_eq]
    exact (hcounts.wellFormed.contains_iff.1 (hsub v hv)).1) hS hprice
  have hchoose : t.choose = .ok (vs, { t with heap := heap' }) := by
    rw [choose, hpick]
    rfl
  rw [estimate, hstart, ok_bind, hchoose, ok_bind]
  dsimp only
  rw [hb]
  exact ⟨_, rfl⟩

end IndependentQueue

/-! ### Their maximum -/

theorem Estimator.exists_estimate_eq_ok {e : Estimator} (he : e ≠ .split) (hm : m.WellFormed J)
    (hsize : (m.active .row).length < 2 ^ 63) (hS : m.Covers S) (hprice : m.price S < Cost.limit) :
    ∃ r, e.estimate m = .ok r := by
  cases e with
  | split => exact absurd rfl he
  | mis tables =>
      obtain ⟨r, hr⟩ := tables.exists_estimate_eq_ok hm hS hprice
      rw [estimate, hr]
      exact ⟨_, rfl⟩
  | misHeap tables =>
      obtain ⟨r, hr⟩ := tables.exists_estimate_eq_ok hm hsize hS hprice
      rw [estimate, hr]
      exact ⟨_, rfl⟩

namespace LowerBound

variable {l : LowerBound} {es : List Estimator}

theorem exists_estimateFrom_eq_ok (hes : ∀ e ∈ es, e ≠ .split) (hm : m.WellFormed J)
    (hsize : (m.active .row).length < 2 ^ 63) (hS : m.Covers S) (hprice : m.price S < Cost.limit)
    (best : Nat) : ∃ r, estimateFrom m best es = .ok r := by
  induction es generalizing best with
  | nil => exact ⟨_, rfl⟩
  | cons e es ih =>
      obtain ⟨r, hr⟩ := Estimator.exists_estimate_eq_ok (hes e (by simp)) hm hsize hS hprice
      obtain ⟨r', hr'⟩ := ih (fun e he => hes e (List.mem_cons_of_mem _ he)) (max best r.1)
      rw [estimateFrom, hr, ok_bind]
      dsimp only
      rw [hr']
      exact ⟨_, rfl⟩

/-- Bounds by independent rows are found if some cover has a price, whatever the tables held. -/
theorem IsIndependent.exists_estimate_eq_ok (hl : l.IsIndependent) (hm : m.WellFormed J)
    (hsize : (m.active .row).length < 2 ^ 63) (hS : m.Covers S) (hprice : m.price S < Cost.limit) :
    ∃ b l', l.estimate m = .ok (b, l') := by
  obtain ⟨r, hr⟩ := exists_estimateFrom_eq_ok hl hm hsize hS hprice 0
  rw [estimate, hr]
  exact ⟨_, _, rfl⟩

end LowerBound

end SetCover
