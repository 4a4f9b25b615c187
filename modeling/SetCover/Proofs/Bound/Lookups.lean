import SetCover.Arena
import SetCover.Proofs.Bound.ConflictGraph
import SetCover.Proofs.Results

/-!
# Look-ups of the conflict graph

A conflict graph is found by look-ups in tables, which give nothing for what a table does not hold.
`tryRefresh` goes the same way with every access checked: to the lines and the costs of the matrix,
to the table of vertices, and to the lists and marks of the vertices.  On a well-formed matrix each
access finds its entry, since the columns of an active row hold active rows only, and all of these
have vertices.
-/

namespace SetCover

variable {α : Type} {xs : Array α} {i : Nat} {a : α}

theorem Arena.get_eq_ok (h : xs[i]? = some a) : (Arena.mk xs).get i = .ok a := by
  rw [get, h]

theorem Arena.set_eq_ok (h : i < xs.size) (a : α) :
    (Arena.mk xs).set i a = .ok ⟨xs.setIfInBounds i a⟩ := by
  rw [set, dif_pos h, Array.setIfInBounds, dif_pos h]

/-- To change an entry is to replace it by what is made of it. -/
theorem modify_eq_setIfInBounds (f : α → α) (h : i < xs.size) :
    xs.modify i f = xs.setIfInBounds i (f xs[i]) := by
  refine Array.ext_getElem? fun j => ?_
  rw [Array.getElem?_modify, Array.getElem?_setIfInBounds]
  by_cases hij : i = j
  · subst hij
    simp [h]
  · rw [if_neg hij, if_neg hij]

namespace Matrix

variable {m : Matrix} {J : List Deletion} {d : Dimension} {c : Nat}

theorem WellFormed.getLine_eq_ok (hm : m.WellFormed J) (hi : i ∈ m.active d) :
    m.getLine d i = .ok (m.line d i) := by
  rw [getLine, getHeader, HeaderRing.get, if_pos (hm.lt_size_of_mem_active hi)]
  rfl

theorem getCost_eq_ok (hc : c < m.costs.size) : m.getCost c = .ok (m.costOf c) := by
  rw [getCost, if_pos hc]

end Matrix

namespace ConflictGraph

open SetCover.Matrix

variable {g : ConflictGraph} {m : Matrix} {J : List Deletion} {r v n : Nat}

/-! ### Checked accesses -/

/-- The number that stands for no vertex, beyond the last entry of every table. -/
def noVertex : Nat := UInt64.size - 1

/-- `connect` with every access checked. -/
def tryConnect (g : ConflictGraph) (v r : Nat) : Except Fault ConflictGraph := do
  match ← (Arena.mk g.vertexOf).get r with
  -- a row without vertex is not passed over: its mark is looked up under a number that no mark has
  | none => .error (.outOfBounds noVertex g.lastSeen.size)
  | some w =>
    if w = v then return g
    else do
      let seen ← (Arena.mk g.lastSeen).get w
      if seen = some v then return g
      else do
        let lastSeen ← (Arena.mk g.lastSeen).set w (some v)
        let found ← (Arena.mk g.neighbours).get v
        let neighbours ← (Arena.mk g.neighbours).set v (found.push w)
        return { g with lastSeen := lastSeen.slots, neighbours := neighbours.slots }

/-- `explore` with every access checked. -/
def tryExplore (m : Matrix) (g : ConflictGraph) (v r : Nat) : Except Fault ConflictGraph := do
  let columns ← m.getLine .row r
  let g ← columns.foldlM (fun g c => do (← m.getLine .column c).foldlM (tryConnect · v) g) g
  let costs ← columns.mapM m.getCost
  return { g with cheapest := g.cheapest.push (costs.min?.getD 0) }

/-- `vertices` with every access checked. -/
def tryVertices (g : ConflictGraph) (m : Matrix) : Except Fault ConflictGraph := do
  let vertexOf ← (m.active .row).zipIdx.foldlM
    (fun table (r, v) => Arena.slots <$> (Arena.mk table).set r (some v))
    (refill g.vertexOf m.numRows none)
  return { g.vertices m with vertexOf }

/-- `refresh` with every access checked. -/
def tryRefresh (g : ConflictGraph) (m : Matrix) : Except Fault ConflictGraph := do
  let g ← g.tryVertices m
  g.rows.toList.zipIdx.foldlM (fun g (r, v) => g.tryExplore m v r) g

/-! ### Every access finds its entry -/

/-- There are tables for `n` vertices, and every active row has one of them. -/
structure Serves (m : Matrix) (n : Nat) (g : ConflictGraph) : Prop where
  size_lastSeen : g.lastSeen.size = n
  size_neighbours : g.neighbours.size = n
  exists_vertex : ∀ r ∈ m.active .row, ∃ w < n, g.vertexOf[r]? = some (some w)

namespace Serves

theorem connect (hg : g.Serves m n) (v r : Nat) : (g.connect v r).Serves m n := by
  rw [ConflictGraph.connect]
  split
  · exact hg
  · split
    · exact hg
    · exact ⟨by simpa using hg.1, by simpa using hg.2, hg.3⟩

theorem tryConnect_eq (hg : g.Serves m n) (hv : v < n) (hr : r ∈ m.active .row) :
    g.tryConnect v r = .ok (g.connect v r) := by
  obtain ⟨w, hw, hvertex⟩ := hg.exists_vertex r hr
  have hw' : w < g.lastSeen.size := hg.size_lastSeen.symm ▸ hw
  have hv' : v < g.neighbours.size := hg.size_neighbours.symm ▸ hv
  have hvertex' : g.vertexOf.getD r none = some w := by
    rw [Array.getD_eq_getD_getElem?, hvertex, Option.getD_some]
  have hseen : g.lastSeen.getD w none = g.lastSeen[w] := by
    rw [Array.getD_eq_getD_getElem?, Array.getElem?_eq_getElem hw', Option.getD_some]
  rw [tryConnect, Arena.get_eq_ok hvertex, ok_bind, ConflictGraph.connect, hvertex']
  dsimp only
  by_cases hself : w = v
  · rw [if_pos hself, if_pos (Or.inl hself)]
    rfl
  · -- the mark is read only for another vertex, and written only if it is not there yet
    rw [if_neg hself, Arena.get_eq_ok (Array.getElem?_eq_getElem hw'), ok_bind, ← hseen]
    by_cases hlast : g.lastSeen.getD w none = some v
    · rw [if_pos hlast, if_pos (Or.inr hlast)]
      rfl
    · rw [if_neg hlast, if_neg (not_or.2 ⟨hself, hlast⟩), Arena.set_eq_ok hw', ok_bind,
        Arena.get_eq_ok (Array.getElem?_eq_getElem hv'), ok_bind, Arena.set_eq_ok hv', ok_bind,
        modify_eq_setIfInBounds _ hv']
      rfl

/-- A vertex is connected to rows one after the other. -/
theorem foldlM_tryConnect_eq (hg : g.Serves m n) (hv : v < n) {rs : List Nat}
    (hrs : ∀ r ∈ rs, r ∈ m.active .row) :
    rs.foldlM (tryConnect · v) g = .ok (rs.foldl (ConflictGraph.connect · v) g) ∧
      (rs.foldl (ConflictGraph.connect · v) g).Serves m n :=
  foldlM_eq_ok (fun r hr _ hg => ⟨hg.tryConnect_eq hv (hrs r hr), hg.connect v r⟩) hg

/-- A vertex is connected to the rows of columns one after the other. -/
theorem foldlM_getLine_eq (hg : g.Serves m n) (hm : m.WellFormed J) (hv : v < n) {cs : List Nat}
    (hcs : ∀ c ∈ cs, c ∈ m.active .column) :
    cs.foldlM (fun g c => do (← m.getLine .column c).foldlM (tryConnect · v) g) g =
        .ok ((cs.flatMap (m.line .column)).foldl (ConflictGraph.connect · v) g) ∧
      ((cs.flatMap (m.line .column)).foldl (ConflictGraph.connect · v) g).Serves m n := by
  rw [List.foldl_flatMap]
  refine foldlM_eq_ok (fun c hc g hg => ?_) hg
  rw [hm.getLine_eq_ok (hcs c hc), ok_bind]
  exact hg.foldlM_tryConnect_eq hv fun r hr => hm.mem_active_of_mem_line (hcs c hc) hr

theorem tryExplore_eq (hg : g.Serves m n) (hm : m.WellFormed J) (hv : v < n)
    (hcosts : m.costs.size = m.numColumns) (hr : r ∈ m.active .row) :
    g.tryExplore m v r = .ok (g.explore m v r) ∧ (g.explore m v r).Serves m n := by
  have hcolumns : ∀ c ∈ m.line .row r, c ∈ m.active .column := fun c hc =>
    hm.mem_active_of_mem_line hr hc
  obtain ⟨hfold, hserves⟩ := hg.foldlM_getLine_eq hm hv hcolumns
  have hcost : (m.line .row r).mapM m.getCost = .ok ((m.line .row r).map m.costOf) := by
    rw [mapM_eq_ok_iff, List.map_map]
    refine List.map_congr_left fun c hc => getCost_eq_ok ?_
    exact hcosts ▸ hm.lt_size_of_mem_active (hcolumns c hc)
  rw [tryExplore, hm.getLine_eq_ok hr, ok_bind, hfold, ok_bind, hcost]
  exact ⟨rfl, hserves.1, hserves.2, hserves.3⟩

end Serves

theorem serves_vertices (g : ConflictGraph) (hm : m.WellFormed J) :
    (g.vertices m).Serves m (m.active .row).length := by
  refine ⟨g.size_lastSeen_vertices m, g.size_neighbours_vertices m, fun r hr => ?_⟩
  obtain ⟨w, hw⟩ := List.mem_iff_getElem?.1 hr
  refine ⟨w, (List.getElem?_eq_some_iff.1 hw).1, ?_⟩
  have hvertex := (g.vertexOf_vertices hm).2 hw
  rw [Array.getD_eq_getD_getElem?] at hvertex
  cases hentry : (g.vertices m).vertexOf[r]? with
  | none => exact nomatch hentry ▸ hvertex
  | some entry => rw [← hvertex, hentry, Option.getD_some]

theorem tryVertices_eq (g : ConflictGraph) (hm : m.WellFormed J) :
    g.tryVertices m = .ok (g.vertices m) := by
  have hset : ∀ p ∈ (m.active .row).zipIdx, ∀ table : Array (Option Nat),
      table.size = m.numRows → Arena.slots <$> (Arena.mk table).set p.1 (some p.2) =
        .ok (table.setIfInBounds p.1 (some p.2)) ∧
          (table.setIfInBounds p.1 (some p.2)).size = m.numRows := by
    intro p hp table htable
    have hlt : p.1 < table.size :=
      htable.symm ▸ hm.lt_size_of_mem_active (List.fst_mem_of_mem_zipIdx hp)
    rw [Arena.set_eq_ok hlt]
    exact ⟨rfl, by simpa using htable⟩
  obtain ⟨hfold, -⟩ := foldlM_eq_ok (b := refill g.vertexOf m.numRows none) hset (by simp)
  rw [tryVertices, hfold]
  rfl

/-- Every access finds its entry. -/
theorem tryRefresh_eq (g : ConflictGraph) (hm : m.WellFormed J)
    (hcosts : m.costs.size = m.numColumns) : g.tryRefresh m = .ok (g.refresh m) ∧
      (g.refresh m).Serves m (m.active .row).length := by
  have hexplore : ∀ p ∈ (m.active .row).zipIdx, ∀ g, Serves m (m.active .row).length g →
      g.tryExplore m p.2 p.1 = .ok (g.explore m p.2 p.1) ∧
        (g.explore m p.2 p.1).Serves m (m.active .row).length := by
    intro p hp g hg
    have hv : p.2 < (m.active .row).length := by simpa using (List.mem_zipIdx hp).2.1
    exact hg.tryExplore_eq hm hv hcosts (List.fst_mem_of_mem_zipIdx hp)
  obtain ⟨hfold, hserves⟩ := foldlM_eq_ok hexplore (g.serves_vertices hm)
  rw [tryRefresh, g.tryVertices_eq hm, ok_bind, rows_vertices, hfold]
  exact ⟨rfl, hserves⟩

end ConflictGraph

end SetCover
