import SetCover.Bound.ConflictGraph
import SetCover.Proofs.Covering
import SetCover.Proofs.Tables

/-!
# Conflicts and independent rows

The conflict graph of a well-formed matrix lists the conflicts between its rows, all of them and
each once, whatever its tables held before.  So rows that are pairwise not in conflict have no
column in common, and a cover pays for a column of each of them.

Vertices are explored one after the other, and only the conflicts of the vertex that is explored are
added (`Keeps`).  While it is explored, the vertices that saw it last are those in its list
(`Tracks`), so a conflict that comes up again is not listed again.
-/

namespace SetCover.ConflictGraph

open SetCover.Matrix

variable {g h k : ConflictGraph} {m : Matrix} {J : List Deletion} {r u v w : Nat}
variable {rs vs ws : List Nat} {ps : List (Nat × Nat)} {S : Finset Nat}

/-! ### Finding conflicts -/

/-- Every vertex that stands for a row can be marked. -/
def IsIndexed (g : ConflictGraph) : Prop :=
  ∀ r w, g.vertexOf.getD r none = some w → w < g.lastSeen.size

/-- The conflicts of `v` that were found are listed once each, and all of them saw `v` last. -/
structure Tracks (g : ConflictGraph) (v : Nat) : Prop where
  nodup : (g.neighboursOf v).Nodup
  lastSeen_iff : ∀ w, g.lastSeen.getD w none = some v ↔ w ∈ g.neighboursOf v

/-- Conflicts are found for the vertices `vs` only. -/
structure Keeps (vs : List Nat) (g h : ConflictGraph) : Prop where
  rows_eq : h.rows = g.rows
  vertexOf_eq : h.vertexOf = g.vertexOf
  size_neighbours_eq : h.neighbours.size = g.neighbours.size
  size_lastSeen_eq : h.lastSeen.size = g.lastSeen.size
  neighboursOf_eq : ∀ u ∉ vs, h.neighboursOf u = g.neighboursOf u
  lastSeen_of : ∀ u ∉ vs, ∀ w, h.lastSeen.getD w none = some u → g.lastSeen.getD w none = some u

namespace Keeps

theorem refl (g : ConflictGraph) : Keeps vs g g :=
  ⟨rfl, rfl, rfl, rfl, fun _ _ => rfl, fun _ _ _ => id⟩

theorem trans (h' : Keeps vs g h) (hk : Keeps ws h k) : Keeps (vs ++ ws) g k where
  rows_eq := hk.1.trans h'.1
  vertexOf_eq := hk.2.trans h'.2
  size_neighbours_eq := hk.3.trans h'.3
  size_lastSeen_eq := hk.4.trans h'.4
  neighboursOf_eq u hu := by
    rw [List.mem_append, not_or] at hu
    exact (hk.5 u hu.2).trans (h'.5 u hu.1)
  lastSeen_of u hu w hw := by
    rw [List.mem_append, not_or] at hu
    exact h'.6 u hu.1 w (hk.6 u hu.2 w hw)

theorem mono (h' : Keeps vs g h) (hsub : vs ⊆ ws) : Keeps ws g h :=
  ⟨h'.1, h'.2, h'.3, h'.4, fun u hu => h'.5 u fun hmem => hu (hsub hmem),
    fun u hu => h'.6 u fun hmem => hu (hsub hmem)⟩

theorem isIndexed (h' : Keeps vs g h) (hg : g.IsIndexed) : h.IsIndexed := by
  rw [IsIndexed, h'.vertexOf_eq, h'.size_lastSeen_eq]
  exact hg

/-- A vertex of which nothing was found before is kept as it is. -/
theorem tracks (h' : Keeps vs g h) (hu : u ∉ vs) (hg : g.Tracks u) (hnil : g.neighboursOf u = []) :
    h.Tracks u ∧ h.neighboursOf u = [] := by
  have hnil' := (h'.neighboursOf_eq u hu).trans hnil
  refine ⟨⟨by rw [hnil']; exact List.nodup_nil, fun w => ⟨fun hw => ?_, fun hw => ?_⟩⟩, hnil'⟩
  · exact absurd ((hg.lastSeen_iff w).1 (h'.lastSeen_of u hu w hw)) (by simp [hnil])
  · exact absurd hw (by simp [hnil'])

end Keeps

/-- Vertex `v` is connected to the rows `rs`. -/
structure Connects (v : Nat) (rs : List Nat) (g h : ConflictGraph) : Prop extends
    Keeps [v] g h where
  cheapest_eq : h.cheapest = g.cheapest
  tracks : h.Tracks v
  mem_iff : ∀ w, w ∈ h.neighboursOf v ↔
    w ∈ g.neighboursOf v ∨ w ≠ v ∧ ∃ r ∈ rs, g.vertexOf.getD r none = some w

theorem neighboursOf_push (hv : v < g.neighbours.size) (u : Nat) :
    ({ g with
      lastSeen := g.lastSeen.setIfInBounds w (some v)
      neighbours := g.neighbours.modify v (·.push w) } : ConflictGraph).neighboursOf u =
      if u = v then g.neighboursOf u ++ [w] else g.neighboursOf u := by
  simp only [neighboursOf, Array.getD_eq_getD_getElem?, Array.getElem?_modify]
  by_cases hu : v = u
  · subst hu
    simp [hv]
  · simp [hu, Ne.symm hu]

/-- A conflict that was not found before is listed. -/
theorem Tracks.connects_push (hg : g.Tracks v) (hv : v < g.neighbours.size)
    (hw : w < g.lastSeen.size) (hne : w ≠ v) (hvertex : g.vertexOf.getD r none = some w)
    (hseen : g.lastSeen.getD w none ≠ some v) :
    Connects v [r] g { g with
      lastSeen := g.lastSeen.setIfInBounds w (some v)
      neighbours := g.neighbours.modify v (·.push w) } := by
  have hlist := neighboursOf_push (w := w) hv
  have hlast := getD_setIfInBounds hw (some v) none
  have hnot : w ∉ g.neighboursOf v := mt (hg.lastSeen_iff w).2 hseen
  refine ⟨⟨rfl, rfl, by simp, by simp, fun u hu => ?_, fun u hu u' hu' => ?_⟩, rfl,
    ⟨?_, fun u => ?_⟩, fun u => ?_⟩
  · rw [hlist, if_neg (mt List.mem_singleton.2 hu)]
  · rw [hlast] at hu'
    split at hu'
    · cases hu'
      exact absurd (List.mem_singleton_self v) hu
    · exact hu'
  · rw [hlist, if_pos rfl, List.nodup_append_comm]
    exact List.nodup_cons.2 ⟨hnot, hg.nodup⟩
  · rw [hlist, if_pos rfl, hlast, List.mem_append, List.mem_singleton, ← hg.lastSeen_iff]
    by_cases huw : u = w
    · simp [huw]
    · simp [huw]
  · rw [hlist, if_pos rfl, List.mem_append, List.mem_singleton]
    simp only [List.mem_singleton, exists_eq_left, hvertex, Option.some.injEq]
    refine or_congr_right ⟨?_, fun hu => hu.2.symm⟩
    rintro rfl
    exact ⟨hne, rfl⟩

theorem Tracks.connects_connect (hg : g.Tracks v) (hv : v < g.neighbours.size)
    (hindexed : g.IsIndexed) (r : Nat) : Connects v [r] g (g.connect v r) := by
  rw [connect]
  cases hvertex : g.vertexOf.getD r none with
  | none =>
      refine ⟨.refl g, rfl, hg, fun w => ⟨.inl, ?_⟩⟩
      rintro (hw | ⟨-, r', hr', hw⟩)
      · exact hw
      · cases List.mem_singleton.1 hr'
        exact nomatch hvertex.symm.trans hw
  | some w =>
      dsimp only
      by_cases hskip : w = v ∨ g.lastSeen.getD w none = some v
      · -- the conflict is known, or it is none
        rw [if_pos hskip]
        refine ⟨.refl g, rfl, hg, fun u => ⟨.inl, ?_⟩⟩
        rintro (hu | ⟨hne, r', hr', hu⟩)
        · exact hu
        · cases List.mem_singleton.1 hr'
          cases hvertex.symm.trans hu
          exact (hg.lastSeen_iff w).1 (hskip.resolve_left hne)
      · rw [if_neg hskip]
        rw [not_or] at hskip
        exact hg.connects_push hv (hindexed r w hvertex) hskip.1 hvertex hskip.2

theorem Connects.trans (h' : Connects v rs g h) {rs' : List Nat} (hk : Connects v rs' h k) :
    Connects v (rs ++ rs') g k := by
  refine ⟨(h'.toKeeps.trans hk.toKeeps).mono (by simp), hk.cheapest_eq.trans h'.cheapest_eq,
    hk.tracks, fun w => ?_⟩
  rw [hk.mem_iff, h'.mem_iff, h'.vertexOf_eq, or_assoc, ← and_or_left]
  simp only [List.mem_append, or_and_right, exists_or]

theorem Tracks.connects_foldl (hg : g.Tracks v) (hv : v < g.neighbours.size)
    (hindexed : g.IsIndexed) (rs : List Nat) : Connects v rs g (rs.foldl (connect · v) g) := by
  induction rs generalizing g with
  | nil => exact ⟨.refl g, rfl, hg, by simp⟩
  | cons r rs ih =>
      have hr := hg.connects_connect hv hindexed r
      exact hr.trans (ih hr.tracks (hr.size_neighbours_eq ▸ hv) (hr.isIndexed hindexed))

/-- What the cheapest column of row `r` costs. -/
def leastCost (m : Matrix) (r : Nat) : Nat := ((m.line .row r).map m.costOf).min?.getD 0

/-- The vertex `w` stands for a row that has a column in common with row `r`. -/
def Sees (m : Matrix) (g : ConflictGraph) (r w : Nat) : Prop :=
  ∃ c ∈ m.line .row r, ∃ r' ∈ m.line .column c, g.vertexOf.getD r' none = some w

/-- The vertices `ps`, each of which stands for a row, are explored. -/
structure Explores (m : Matrix) (ps : List (Nat × Nat)) (g h : ConflictGraph) : Prop extends
    Keeps (ps.map Prod.snd) g h where
  cheapest_eq : h.cheapest.toList = g.cheapest.toList ++ ps.map fun p => leastCost m p.1
  nodup : ∀ p ∈ ps, (h.neighboursOf p.2).Nodup
  mem_iff : ∀ p ∈ ps, ∀ w, w ∈ h.neighboursOf p.2 ↔ w ≠ p.2 ∧ g.Sees m p.1 w

theorem Tracks.explores_explore (hg : g.Tracks v) (hnil : g.neighboursOf v = [])
    (hv : v < g.neighbours.size) (hindexed : g.IsIndexed) (r : Nat) :
    Explores m [(r, v)] g (g.explore m v r) := by
  have h := hg.connects_foldl hv hindexed ((m.line .row r).flatMap (m.line .column))
  refine ⟨⟨h.1.1, h.1.2, h.1.3, h.1.4, h.1.5, h.1.6⟩, ?_, fun p hp => ?_, fun p hp w => ?_⟩
  · simp [explore, h.cheapest_eq, leastCost]
  · cases List.mem_singleton.1 hp
    exact h.tracks.nodup
  · cases List.mem_singleton.1 hp
    refine (h.mem_iff w).trans ?_
    simp only [hnil, List.not_mem_nil, false_or, List.mem_flatMap, Sees]
    refine and_congr_right fun _ => ⟨?_, ?_⟩
    · rintro ⟨r', ⟨c, hc, hr'⟩, hw⟩
      exact ⟨c, hc, r', hr', hw⟩
    · rintro ⟨c, hc, r', hr', hw⟩
      exact ⟨r', ⟨c, hc, hr'⟩, hw⟩

theorem Explores.cons {p : Nat × Nat} (h' : Explores m [p] g h) (hk : Explores m ps h k)
    (hp : p.2 ∉ ps.map Prod.snd) : Explores m (p :: ps) g k := by
  have hfirst := hk.neighboursOf_eq p.2 hp
  refine ⟨h'.toKeeps.trans hk.toKeeps, ?_, fun q hq => ?_, fun q hq w => ?_⟩
  · rw [hk.cheapest_eq, h'.cheapest_eq, List.append_assoc]
    rfl
  · rcases List.mem_cons.1 hq with rfl | hq
    · rw [hfirst]
      exact h'.nodup q (List.mem_singleton_self q)
    · exact hk.nodup q hq
  · rcases List.mem_cons.1 hq with rfl | hq
    · rw [hfirst]
      exact h'.mem_iff q (List.mem_singleton_self q) w
    · rw [hk.mem_iff q hq, Sees, Sees, h'.vertexOf_eq]

theorem explores_foldl (hps : (ps.map Prod.snd).Nodup) (hindexed : g.IsIndexed)
    (hlt : ∀ p ∈ ps, p.2 < g.neighbours.size)
    (hg : ∀ p ∈ ps, g.Tracks p.2 ∧ g.neighboursOf p.2 = []) :
    Explores m ps g (ps.foldl (fun g (r, v) => g.explore m v r) g) := by
  induction ps generalizing g with
  | nil => exact ⟨.refl g, by simp, by simp, by simp⟩
  | cons p ps ih =>
      obtain ⟨r, v⟩ := p
      rw [List.map_cons, List.nodup_cons] at hps
      obtain ⟨htracks, hnil⟩ := hg (r, v) (by simp)
      have hv := htracks.explores_explore (m := m) hnil (hlt (r, v) (by simp)) hindexed r
      refine hv.cons (ih hps.2 (hv.isIndexed hindexed) (fun p hp => ?_) fun p hp => ?_) hps.1
      · rw [hv.size_neighbours_eq]
        exact hlt p (List.mem_cons_of_mem _ hp)
      · have hne : p.2 ∉ [(r, v)].map Prod.snd := by
          intro hmem
          exact hps.1 (List.mem_singleton.1 hmem ▸ List.mem_map_of_mem hp)
        obtain ⟨htracks', hnil'⟩ := hg p (List.mem_cons_of_mem _ hp)
        exact hv.tracks hne htracks' hnil'

/-! ### The table of vertices -/

theorem getD_foldl_of_notMem {table : Array (Option Nat)} (hr : r ∉ ps.map Prod.fst) :
    (ps.foldl (fun table (r, v) => table.setIfInBounds r (some v)) table).getD r none =
      table.getD r none := by
  induction ps generalizing table with
  | nil => rfl
  | cons p ps ih =>
      rw [List.map_cons, List.mem_cons, not_or] at hr
      rw [List.foldl_cons, ih hr.2, Array.getD_eq_getD_getElem?, Array.getElem?_setIfInBounds,
        if_neg (Ne.symm hr.1), Array.getD_eq_getD_getElem?]

theorem getD_foldl_of_mem {table : Array (Option Nat)}
    (hps : (ps.map Prod.fst).Nodup) (hp : (r, v) ∈ ps) (hr : r < table.size) :
    (ps.foldl (fun table (r, v) => table.setIfInBounds r (some v)) table).getD r none = some v := by
  induction ps generalizing table with
  | nil => exact absurd hp List.not_mem_nil
  | cons p ps ih =>
      rw [List.map_cons, List.nodup_cons] at hps
      rw [List.foldl_cons]
      rcases List.mem_cons.1 hp with rfl | hp
      · rw [getD_foldl_of_notMem hps.1, Array.getD_eq_getD_getElem?,
          Array.getElem?_setIfInBounds_self_of_lt hr, Option.getD_some]
      · exact ih hps.2 hp (by simpa using hr)

/-! ### The vertices -/

theorem getD_replicate {α : Type} (n i : Nat) (a : α) : (Array.replicate n a).getD i a = a := by
  rw [Array.getD_eq_getD_getElem?, Array.getElem?_replicate]
  split <;> rfl

theorem rows_vertices (g : ConflictGraph) (m : Matrix) :
    (g.vertices m).rows.toList = m.active .row := rfl

theorem cheapest_vertices (g : ConflictGraph) (m : Matrix) :
    (g.vertices m).cheapest.toList = [] := by
  simp [vertices]

theorem size_neighbours_vertices (g : ConflictGraph) (m : Matrix) :
    (g.vertices m).neighbours.size = (m.active .row).length := by
  simp [vertices, emptied_eq_replicate]

theorem size_lastSeen_vertices (g : ConflictGraph) (m : Matrix) :
    (g.vertices m).lastSeen.size = (m.active .row).length := by
  simp [vertices]

theorem neighboursOf_vertices (g : ConflictGraph) (m : Matrix) (v : Nat) :
    (g.vertices m).neighboursOf v = [] := by
  rw [neighboursOf, vertices]
  dsimp only
  rw [emptied_eq_replicate, getD_replicate]

theorem tracks_vertices (g : ConflictGraph) (m : Matrix) (v : Nat) : (g.vertices m).Tracks v := by
  refine ⟨by rw [neighboursOf_vertices]; exact List.nodup_nil, fun w => ?_⟩
  rw [neighboursOf_vertices, vertices]
  dsimp only
  rw [refill_eq_replicate, getD_replicate]
  exact iff_of_false (Option.some_ne_none v).symm List.not_mem_nil

/-- The active rows have entries in the table of vertices, and no others. -/
theorem vertexOf_vertices (g : ConflictGraph) (hm : m.WellFormed J) :
    (g.vertices m).vertexOf.getD r none = some w ↔ (m.active .row)[w]? = some r := by
  have hfst : (m.active .row).zipIdx.map Prod.fst = m.active .row := List.zipIdx_map_fst ..
  have htable : (g.vertices m).vertexOf = (m.active .row).zipIdx.foldl
      (fun table (r, v) => table.setIfInBounds r (some v)) (Array.replicate m.numRows none) := by
    simp [vertices]
  rw [htable]
  by_cases hr : r ∈ m.active .row
  · obtain ⟨v, hv⟩ := List.mem_iff_getElem?.1 hr
    have hlt : r < (Array.replicate m.numRows (none : Option Nat)).size := by
      rw [Array.size_replicate]
      exact hm.lt_size_of_mem_active hr
    have hmem : (r, v) ∈ (m.active .row).zipIdx := List.mem_zipIdx_iff_getElem?.2 hv
    rw [getD_foldl_of_mem (hfst.symm ▸ hm.nodup_active .row) hmem hlt, Option.some.injEq]
    refine ⟨fun hvw => hvw ▸ hv, fun hw => ?_⟩
    have hvlt := (List.getElem?_eq_some_iff.1 hv).1
    exact (List.getElem?_inj hvlt (hm.nodup_active .row)).1 (hv.trans hw.symm)
  · rw [getD_foldl_of_notMem (hfst.symm ▸ hr), getD_replicate]
    exact iff_of_false (Option.some_ne_none w).symm (mt List.mem_of_getElem? hr)

theorem isIndexed_vertices (g : ConflictGraph) (hm : m.WellFormed J) :
    (g.vertices m).IsIndexed := by
  intro r w hw
  rw [size_lastSeen_vertices]
  exact (List.getElem?_eq_some_iff.1 ((g.vertexOf_vertices hm).1 hw)).1

/-! ### The graph of a matrix -/

/-- The vertices `v` and `w` stand for different rows that have a column in common. -/
def InConflict (m : Matrix) (v w : Nat) : Prop :=
  v ≠ w ∧ ∃ r r' c, (m.active .row)[v]? = some r ∧ (m.active .row)[w]? = some r' ∧
    c ∈ m.line .row r ∧ c ∈ m.line .row r'

theorem InConflict.symm (h : InConflict m v w) : InConflict m w v := by
  obtain ⟨hne, r, r', c, hv, hw, hc, hc'⟩ := h
  exact ⟨hne.symm, r', r, c, hw, hv, hc', hc⟩

/-- The graph has the active rows as vertices, and lists all their conflicts once each. -/
structure Represents (m : Matrix) (g : ConflictGraph) : Prop where
  rows_eq : g.rows.toList = m.active .row
  cheapest_eq : g.cheapest.toList = (m.active .row).map (leastCost m)
  nodup_neighboursOf : ∀ v, (g.neighboursOf v).Nodup
  mem_neighboursOf_iff : ∀ v w, w ∈ g.neighboursOf v ↔ InConflict m v w

theorem represents_refresh (g : ConflictGraph) (hm : m.WellFormed J) :
    Represents m (g.refresh m) := by
  have hsnd : (m.active .row).zipIdx.map Prod.snd = List.range (m.active .row).length := by
    rw [List.zipIdx_map_snd, List.range_eq_range']
  have h : Explores m (m.active .row).zipIdx (g.vertices m) (g.refresh m) := by
    refine explores_foldl ?_ (g.isIndexed_vertices hm) (fun p hp => ?_) fun p _ =>
      ⟨g.tracks_vertices m p.2, g.neighboursOf_vertices m p.2⟩
    · rw [hsnd]
      exact List.nodup_range
    · rw [size_neighbours_vertices]
      simpa using (List.mem_zipIdx hp).2.1
  have hbeyond : ∀ v, (m.active .row)[v]? = none → (g.refresh m).neighboursOf v = [] := by
    intro v hv
    rw [h.neighboursOf_eq, neighboursOf_vertices]
    rw [hsnd, List.mem_range, Nat.not_lt]
    exact List.getElem?_eq_none_iff.1 hv
  refine ⟨by rw [h.rows_eq, rows_vertices], ?_, fun v => ?_, fun v w => ?_⟩
  · rw [h.cheapest_eq, cheapest_vertices, List.nil_append, ← Function.comp_def, ← List.map_map,
      List.zipIdx_map_fst]
  · cases hv : (m.active .row)[v]? with
    | none =>
        rw [hbeyond v hv]
        exact List.nodup_nil
    | some r => exact h.nodup (r, v) (List.mem_zipIdx_iff_getElem?.2 hv)
  · cases hv : (m.active .row)[v]? with
    | none =>
        rw [hbeyond v hv]
        refine ⟨nofun, ?_⟩
        rintro ⟨-, r, r', c, hr, -⟩
        exact nomatch hv.symm.trans hr
    | some r =>
        have hr := List.mem_of_getElem? hv
        rw [h.mem_iff (r, v) (List.mem_zipIdx_iff_getElem?.2 hv)]
        refine and_congr ne_comm ⟨?_, ?_⟩
        · rintro ⟨c, hc, r', hr', hw⟩
          have hactive := hm.mem_active_of_mem_line hr hc
          exact ⟨r, r', c, hv, (g.vertexOf_vertices hm).1 hw, hc, hm.mem_line_other hactive hr'⟩
        · rintro ⟨r₁, r', c, hr₁, hw, hc, hc'⟩
          cases hv.symm.trans hr₁
          exact ⟨c, hc, r', hm.mem_line_other (List.mem_of_getElem? hw) hc',
            (g.vertexOf_vertices hm).2 hw⟩

namespace Represents

theorem size_eq (hg : Represents m g) : g.size = (m.active .row).length := by
  rw [size, ← hg.rows_eq, Array.length_toList]

theorem mem_comm (hg : Represents m g) : w ∈ g.neighboursOf v ↔ v ∈ g.neighboursOf w := by
  rw [hg.mem_neighboursOf_iff, hg.mem_neighboursOf_iff]
  exact ⟨.symm, .symm⟩

theorem notMem_self (hg : Represents m g) (v : Nat) : v ∉ g.neighboursOf v :=
  fun hv => ((hg.mem_neighboursOf_iff v v).1 hv).1 rfl

theorem lt_size_of_mem (hg : Represents m g) (hw : w ∈ g.neighboursOf v) : w < g.size := by
  obtain ⟨-, -, r', -, -, hr', -⟩ := (hg.mem_neighboursOf_iff v w).1 hw
  rw [hg.size_eq]
  exact (List.getElem?_eq_some_iff.1 hr').1

theorem length_neighboursOf_le (hg : Represents m g) (v : Nat) :
    (g.neighboursOf v).length ≤ g.size :=
  length_le_of_forall_lt (hg.nodup_neighboursOf v) fun _ => hg.lt_size_of_mem

end Represents

/-! ### Independent rows -/

/-- No vertex comes up again, or after one that it is recorded to be in conflict with. -/
def AreIndependent (g : ConflictGraph) (vs : List Nat) : Prop :=
  vs.Pairwise fun v w => v ≠ w ∧ w ∉ g.neighboursOf v

theorem leastCost_le {c : Nat} (hc : c ∈ m.line .row r) : leastCost m r ≤ m.costOf c := by
  have hmem : m.costOf c ∈ (m.line .row r).map m.costOf := List.mem_map_of_mem hc
  rw [leastCost]
  cases hmin : ((m.line .row r).map m.costOf).min? with
  | none => exact Nat.zero_le _
  | some a => exact (List.min?_eq_some_iff.1 hmin).2 _ hmem

theorem getD_cheapest (hg : Represents m g) (hv : (m.active .row)[v]? = some r) :
    g.cheapest.getD v 0 = leastCost m r := by
  rw [Array.getD_eq_getD_getElem?, ← Array.getElem?_toList, hg.cheapest_eq, List.getElem?_map, hv]
  rfl

/-- Columns that cover independent rows cost what the cheapest column of each does at least. -/
theorem sum_cheapest_le_price (hg : Represents m g) (hvs : g.AreIndependent vs)
    (hS : ∀ v ∈ vs, ∃ r, (m.active .row)[v]? = some r ∧ ∃ c ∈ S, c ∈ m.line .row r) :
    (vs.map fun v => g.cheapest.getD v 0).sum ≤ m.price S := by
  induction vs generalizing S with
  | nil => exact Nat.zero_le _
  | cons v vs ih =>
      rw [AreIndependent, List.pairwise_cons] at hvs
      obtain ⟨r, hr, c, hcS, hc⟩ := hS v (by simp)
      -- no later row is covered by `c`, so the other columns cover them all
      have hrest : ∀ w ∈ vs, ∃ r', (m.active .row)[w]? = some r' ∧
          ∃ c' ∈ S.erase c, c' ∈ m.line .row r' := by
        intro w hw
        obtain ⟨r', hr', c', hcS', hc'⟩ := hS w (List.mem_cons_of_mem v hw)
        refine ⟨r', hr', c', Finset.mem_erase.2 ⟨?_, hcS'⟩, hc'⟩
        rintro rfl
        exact (hvs.1 w hw).2 ((hg.mem_neighboursOf_iff v w).2
          ⟨(hvs.1 w hw).1, r, r', c', hr, hr', hc, hc'⟩)
      rw [List.map_cons, List.sum_cons, getD_cheapest hg hr, ← costOf_add_price_erase hcS]
      exact Nat.add_le_add (leastCost_le hc) (ih hvs.2 hrest)

theorem AreIndependent.sum_cheapest_le (hvs : g.AreIndependent vs) (hg : Represents m g)
    (hlt : ∀ v ∈ vs, v < g.size) (hS : m.Covers S) :
    (vs.map fun v => g.cheapest.getD v 0).sum ≤ m.price S := by
  refine sum_cheapest_le_price hg hvs fun v hv => ?_
  have hv' : v < (m.active .row).length := hg.size_eq ▸ hlt v hv
  exact ⟨_, List.getElem?_eq_getElem hv', hS.exists_mem_line _ (List.getElem_mem hv')⟩

/-- What independent rows cost is a lower bound on the price of a cover. -/
theorem weight_le_price {b : Nat} (hg : Represents m g) (hvs : g.AreIndependent vs)
    (hlt : ∀ v ∈ vs, v < g.size) (hb : g.weight vs = .ok b) (hS : m.Covers S) : b ≤ m.price S := by
  obtain ⟨rfl, -⟩ := Cost.eq_add_sum_of_foldlM (f := fun v => g.cheapest.getD v 0)
    (fun sum v w hw => by
      obtain ⟨rfl, hlt⟩ := Cost.add_eq_ok_iff.1 hw
      exact ⟨rfl, hlt⟩) hb
  rw [Nat.zero_add]
  exact hvs.sum_cheapest_le hg hlt hS

/-- Independent rows can be summed up if a cover has a price. -/
theorem exists_weight_eq_ok (hg : Represents m g) (hvs : g.AreIndependent vs)
    (hlt : ∀ v ∈ vs, v < g.size) (hS : m.Covers S) (hprice : m.price S < Cost.limit) :
    ∃ b, g.weight vs = .ok b := by
  have hsum := (hvs.sum_cheapest_le hg hlt hS).trans_lt hprice
  refine ⟨_, Cost.foldlM_eq_ok (f := fun v => g.cheapest.getD v 0) (fun v _ sum hsum => ?_)
    (a := 0) (by rwa [Nat.zero_add])⟩
  exact Cost.add_eq_ok_iff.2 ⟨rfl, hsum⟩

end SetCover.ConflictGraph
