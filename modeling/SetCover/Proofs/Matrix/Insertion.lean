import SetCover.Matrix.Insert
import SetCover.Proofs.Matrix.WellFormed

/-!
# Insertion

A matrix without deletions is well-formed after each way of building it.  While elements are linked
in, the rings are right already (`Linked`), and the active lists follow once that is done.
-/

namespace SetCover.Matrix

variable {m n k : Matrix} {J : List Deletion} {d e : Dimension} {i j p x y : Nat}
variable {a : PerDimension Nat} {as bs : List Nat}

/-! ### Linking a cell -/

/-- What a new cell at `a`, put behind some cells, does to each part of a matrix. -/
structure Inserted (a behind : PerDimension Nat) (m k : Matrix) : Prop where
  positions_eq : k.positions = m.positions.push a
  rings_eq : ∀ d, k.rings.get d =
    ((m.rings.get d).push ⟨m.positions.size, m.positions.size⟩).insertAfter (behind.get d)
      m.positions.size
  costs_eq : k.costs = m.costs
  journal_eq : k.journal = m.journal
  marks_eq : k.marks = m.marks
  recounted : ∀ d, (m.headers.get d).Recounted (k.headers.get d)
  count_eq : ∀ d j, k.count d j = m.count d j + if j = a.get d then 1 else 0

theorem inserted_of_linkCell {behind : PerDimension Nat}
    (h : m.linkCell (Cell.alone m.positions.size a) behind = .ok k) : Inserted a behind m k := by
  obtain ⟨positions, rings, headers, costs, journal, marks⟩ := m
  simp only [linkCell, pushCell, Cell.alone, bind_eq_ok_iff] at h
  obtain ⟨row, hrow, column, hcolumn, hk⟩ := h
  cases hk
  obtain ⟨-, hrow, hrowCount⟩ := HeaderRing.recounted_of_increment hrow
  obtain ⟨-, hcolumn, hcolumnCount⟩ := HeaderRing.recounted_of_increment hcolumn
  refine ⟨rfl, fun d => ?_, rfl, rfl, rfl, fun d => ?_, fun d j => ?_⟩
  · cases d <;> rfl
  · cases d
    · exact hrow
    · exact hcolumn
  · cases d
    · exact hrowCount j
    · exact hcolumnCount j

/-- The ring of `i` is cut where an element at position `p` belongs. -/
structure Cut (m : Matrix) (d : Dimension) (i p : Nat) (as bs : List Nat) : Prop where
  ring_eq : m.ring d i = as ++ bs
  lt : ∀ x ∈ as, m.position d.other x < p
  gt : ∀ x ∈ bs, p < m.position d.other x

namespace Inserted

variable {behind : PerDimension Nat}

theorem position_eq (h : Inserted a behind m k) (d : Dimension) (x : Nat) :
    k.position d x = if x = m.positions.size then a.get d else m.position d x := by
  rw [position, position, h.positions_eq, Array.getD_eq_getD_getElem?, Array.getElem?_push,
    Array.getD_eq_getD_getElem?]
  split_ifs with hx
  · rfl
  · rfl

theorem position_of_lt (h : Inserted a behind m k) (hx : x < m.positions.size) :
    k.position d x = m.position d x := by
  rw [h.position_eq, if_neg (Nat.ne_of_lt hx)]

theorem position_self (h : Inserted a behind m k) : k.position d m.positions.size = a.get d := by
  rw [h.position_eq, if_pos rfl]

theorem size_eq (h : Inserted a behind m k) (d : Dimension) :
    (k.headers.get d).size = (m.headers.get d).size := (h.recounted d).size_eq.symm

theorem sentinel_eq (h : Inserted a behind m k) : k.sentinel = m.sentinel := by
  funext d i
  cases d
  · rfl
  · exact congrArg (· + i) (h.size_eq .row)

theorem isElement_iff (h : Inserted a behind m k) (hm : m.Layout) (x : Nat) :
    k.IsElement x ↔ x = m.positions.size ∨ m.IsElement x := by
  have hrows : k.numRows = m.numRows := h.size_eq .row
  have hcolumns : k.numColumns = m.numColumns := h.size_eq .column
  have hle := hm.numRows_add_numColumns_le
  rw [IsElement, IsElement, h.positions_eq, hrows, hcolumns, Array.size_push]
  omega

theorem mem_elements_iff (h : Inserted a behind m k) (hm : m.Layout) (b : PerDimension Nat) :
    b ∈ k.elements ↔ b = a ∨ b ∈ m.elements := by
  rw [Matrix.mem_elements_iff, Matrix.mem_elements_iff]
  constructor
  · rintro ⟨x, hx, hposition⟩
    rcases (h.isElement_iff hm x).1 hx with rfl | hx
    · exact Or.inl (PerDimension.ext_get fun d => by rw [← hposition, h.position_self])
    · exact Or.inr ⟨x, hx, fun d => by rw [← hposition, h.position_of_lt hx.2]⟩
  · rintro (rfl | ⟨x, hx, hposition⟩)
    · exact ⟨_, (h.isElement_iff hm _).2 (Or.inl rfl), fun d => h.position_self⟩
    · exact ⟨x, (h.isElement_iff hm x).2 (Or.inr hx), fun d => by
        rw [h.position_of_lt hx.2, hposition]⟩

end Inserted

namespace Linked

theorem lt_size_rings (h : Linked J m) (hi : i < (m.headers.get d).size) :
    m.sentinel d i < (m.rings.get d).size := by
  rw [h.size_rings]
  exact (sentinel_lt hi).trans_le h.numRows_add_numColumns_le

theorem position_of_mem (h : Linked J m) (hi : i < (m.headers.get d).size)
    (hx : x ∈ m.sentinel d i :: m.ring d i) : m.position d x = i := by
  rcases List.mem_cons.1 hx with rfl | hx
  · exact h.position_sentinel d i hi
  · exact ((h.mem_ring d i x hi).1 hx).2.1

end Linked

/-- The new cell goes to its place in the rings of its row and its column. -/
structure Fits (a behind : PerDimension Nat) (m : Matrix) : Prop where
  lt_size : ∀ d, a.get d < (m.headers.get d).size
  exists_cut : ∀ d, ∃ as bs, Cut m d (a.get d) (a.get d.other) as bs ∧
    behind.get d = as.getLastD (m.sentinel d (a.get d))

/-- There is only a place for an element that is not there yet. -/
theorem Fits.notMem_elements {behind : PerDimension Nat} (h : Fits a behind m)
    (hm : Linked [] m) : a ∉ m.elements := by
  rw [mem_elements_iff]
  rintro ⟨x, hx, hposition⟩
  obtain ⟨as, bs, hcut, -⟩ := h.exists_cut .row
  have hmem : x ∈ m.ring .row (a.get .row) :=
    (hm.mem_ring _ _ x (h.lt_size _)).2 ⟨hx, hposition _, by simp [Deletion.before]⟩
  rw [hcut.ring_eq, List.mem_append] at hmem
  rcases hmem with hmem | hmem
  · exact Nat.ne_of_lt (hcut.lt x hmem) (hposition _)
  · exact Nat.ne_of_gt (hcut.gt x hmem) (hposition _)

namespace Inserted

variable {behind : PerDimension Nat}

/-- The new cell is linked into its own ring, and the other rings stay as they are. -/
theorem isRing (h : Inserted a behind m k) (hm : Linked J m)
    (hlt : a.get d < (m.headers.get d).size) (hcut : Cut m d (a.get d) p as bs)
    (hbehind : behind.get d = as.getLastD (m.sentinel d (a.get d)))
    (hj : j < (m.headers.get d).size) :
    (k.rings.get d).IsRing (m.sentinel d j)
      (if j = a.get d then as ++ m.positions.size :: bs else m.ring d j) := by
  have hsize := hm.size_rings d
  have hpush : ∀ i, i < (m.headers.get d).size →
      ((m.rings.get d).push ⟨m.positions.size, m.positions.size⟩).IsRing (m.sentinel d i)
        (m.ring d i) := fun i hi =>
    (hm.isRing d i hi).push _ (hm.lt_size_rings hi)
  have hnew : ∀ i, i < (m.headers.get d).size →
      m.positions.size ∉ m.sentinel d i :: m.ring d i := by
    intro i hi hmem
    rcases List.mem_cons.1 hmem with heq | hmem
    · exact absurd (hm.lt_size_rings hi) (by rw [hsize, ← heq]; exact Nat.lt_irrefl _)
    · exact absurd ((hm.isRing d i hi).lt_size hmem) (by rw [hsize]; exact Nat.lt_irrefl _)
  have hbound : m.positions.size <
      ((m.rings.get d).push ⟨m.positions.size, m.positions.size⟩).size := by
    rw [Links.size_push, hsize]
    exact Nat.lt_succ_self _
  have hself := hpush _ hlt
  rw [hcut.ring_eq] at hself
  rw [h.rings_eq, hbehind]
  split_ifs with hja
  · subst hja
    refine hself.insertAfter hbound ?_ ?_
    · rw [Links.size_push]
      exact Nat.lt_succ_of_lt (hm.lt_size_rings hlt)
    · rw [← hcut.ring_eq]
      exact hnew _ hlt
  · have hgap := hself.joined_gap
    refine (hpush j hj).insertAfter_of_notMem ?_ hbound ?_ (hnew j hj)
    · rwa [hgap.1]
    · intro hmem
      have hlast : as.getLastD (m.sentinel d (a.get d)) ∈
          m.sentinel d (a.get d) :: m.ring d (a.get d) := by
        rw [hcut.ring_eq]
        exact List.mem_cons.2
          ((List.mem_cons.1 List.getLastD_mem_cons).imp_right (by simp +contextual))
      exact hja ((hm.position_of_mem hj hmem).symm.trans (hm.position_of_mem hlt hlast))

theorem ring_eq (h : Inserted a behind m k) (hm : Linked J m)
    (hlt : a.get d < (m.headers.get d).size) (hcut : Cut m d (a.get d) p as bs)
    (hbehind : behind.get d = as.getLastD (m.sentinel d (a.get d)))
    (hj : j < (m.headers.get d).size) :
    k.ring d j = if j = a.get d then as ++ m.positions.size :: bs else m.ring d j := by
  rw [ring, h.sentinel_eq]
  exact (h.isRing hm hlt hcut hbehind hj).toList_eq

theorem layout (h : Inserted a behind m k) (hm : Linked [] m) (ha : Fits a behind m) :
    k.Layout := by
  have hrows : k.numRows = m.numRows := h.size_eq .row
  have hcolumns : k.numColumns = m.numColumns := h.size_eq .column
  have hnew : ∀ x, m.IsElement x → ¬∀ d, m.position d x = a.get d := fun x hx hposition =>
    ha.notMem_elements hm (Matrix.mem_elements_iff.2 ⟨x, hx, hposition⟩)
  refine ⟨fun d => ?_, ?_, fun d i hi => ?_, fun d x hx => ?_, fun x y hx hy hxy => ?_⟩
  · rw [h.rings_eq, h.positions_eq, Links.size_insertAfter, Links.size_push, hm.size_rings,
      Array.size_push]
  · rw [h.positions_eq, hrows, hcolumns, Array.size_push]
    exact Nat.le_succ_of_le hm.numRows_add_numColumns_le
  · rw [h.size_eq] at hi
    rw [h.sentinel_eq, h.position_of_lt, hm.position_sentinel d i hi]
    exact (sentinel_lt hi).trans_le hm.numRows_add_numColumns_le
  · rw [h.size_eq]
    rcases (h.isElement_iff hm.toLayout x).1 hx with rfl | hx
    · rw [h.position_self]
      exact ha.lt_size d
    · rw [h.position_of_lt hx.2]
      exact hm.position_lt d x hx
  · rcases (h.isElement_iff hm.toLayout x).1 hx with rfl | hx'
    · rcases (h.isElement_iff hm.toLayout y).1 hy with rfl | hy'
      · rfl
      · refine absurd (fun d => ?_) (hnew y hy')
        rw [← h.position_of_lt hy'.2, ← hxy, h.position_self]
    · rcases (h.isElement_iff hm.toLayout y).1 hy with rfl | hy'
      · refine absurd (fun d => ?_) (hnew x hx')
        rw [← h.position_of_lt hx'.2, hxy, h.position_self]
      · refine hm.eq_of_position_eq x y hx' hy' fun d => ?_
        rw [← h.position_of_lt hx'.2, hxy, h.position_of_lt hy'.2]

theorem length_ring (h : Inserted a behind m k) (hm : Linked J m) (ha : Fits a behind m)
    (hj : j < (m.headers.get d).size) :
    (k.ring d j).length = (m.ring d j).length + if j = a.get d then 1 else 0 := by
  obtain ⟨as, bs, hcut, hbehind⟩ := ha.exists_cut d
  rw [h.ring_eq hm (ha.lt_size d) hcut hbehind hj]
  split_ifs with hja
  · rw [hja, hcut.ring_eq, List.length_append, List.length_append, List.length_cons, Nat.add_assoc]
  · rfl

theorem mem_ring (h : Inserted a behind m k) (hm : Linked J m) (ha : Fits a behind m)
    (hj : j < (m.headers.get d).size) :
    x ∈ k.ring d j ↔ x ∈ m.ring d j ∨ x = m.positions.size ∧ j = a.get d := by
  obtain ⟨as, bs, hcut, hbehind⟩ := ha.exists_cut d
  rw [h.ring_eq hm (ha.lt_size d) hcut hbehind hj]
  split_ifs with hja
  · rw [hja, hcut.ring_eq, List.mem_append, List.mem_append, List.mem_cons]
    tauto
  · simp [hja]

/-- The new position lies between those before the new cell and those behind it. -/
theorem ascending (h : Inserted a behind m k) (hm : Linked [] m) (ha : Fits a behind m)
    (hj : j < (m.headers.get d).size) : (k.line d j).Pairwise (· < ·) := by
  obtain ⟨as, bs, hcut, hbehind⟩ := ha.exists_cut d
  have hbound : ∀ i, i < (m.headers.get d).size → ∀ x ∈ m.ring d i,
      k.position d.other x = m.position d.other x := fun i hi x hx =>
    h.position_of_lt ((hm.mem_ring d i x hi).1 hx).1.2
  have hline := hm.ascending d j hj
  rw [line, h.ring_eq hm (ha.lt_size d) hcut hbehind hj]
  split_ifs with hja
  · subst hja
    have has : as.map (k.position d.other) = as.map (m.position d.other) :=
      List.map_congr_left fun x hx => hbound _ hj x (by simp [hcut.ring_eq, hx])
    have hbs : bs.map (k.position d.other) = bs.map (m.position d.other) :=
      List.map_congr_left fun x hx => hbound _ hj x (by simp [hcut.ring_eq, hx])
    rw [line, hcut.ring_eq, List.map_append, List.pairwise_append] at hline
    rw [List.map_append, List.map_cons, has, hbs, h.position_self, List.pairwise_append,
      List.pairwise_cons]
    refine ⟨hline.1, ⟨?_, hline.2.1⟩, fun b hb c hc => ?_⟩
    · exact List.forall_mem_map.2 hcut.gt
    · rcases List.mem_cons.1 hc with rfl | hc
      · obtain ⟨x, hx, rfl⟩ := List.mem_map.1 hb
        exact hcut.lt x hx
      · exact hline.2.2 b hb c hc
  · rw [List.map_congr_left (hbound j hj)]
    exact hline

/-- A new element at its place leaves the rings as they should be. -/
theorem linked (h : Inserted a behind m k) (hm : Linked [] m) (ha : Fits a behind m) :
    Linked [] k := by
  have hlast : ∀ d, behind.get d ∈ m.sentinel d (a.get d) :: m.ring d (a.get d) := by
    intro d
    obtain ⟨as, bs, hcut, hbehind⟩ := ha.exists_cut d
    rw [hbehind, hcut.ring_eq]
    exact List.mem_cons.2 ((List.mem_cons.1 List.getLastD_mem_cons).imp_right (by simp +contextual))
  have hlt : ∀ d, behind.get d < (m.rings.get d).size := by
    intro d
    rcases List.mem_cons.1 (hlast d) with heq | hmem
    · rw [heq]
      exact hm.lt_size_rings (ha.lt_size d)
    · exact (hm.isRing d _ (ha.lt_size d)).lt_size hmem
  have hrings : ∀ d, k.rings.get d =
      ((m.rings.get d).push ⟨(m.rings.get d).size, (m.rings.get d).size⟩).insertAfter (behind.get d)
        (m.rings.get d).size := by
    intro d
    rw [h.rings_eq, hm.size_rings]
  refine ⟨h.layout hm ha, fun d => ?_, fun d => ?_, fun d i hi => ?_, fun d i x hi => ?_,
    fun d i hi => ?_, fun d i hi => ?_, fun d => ?_⟩
  · rw [hrings]
    refine ((hm.respects d).push (hm.closed d) fun x hx => ?_).insertAfter (by simp) ?_
    · rw [hm.size_rings] at hx
      exact h.position_of_lt hx
    · rw [hm.size_rings, h.position_self, h.position_of_lt (hm.size_rings d ▸ hlt d)]
      exact (hm.position_of_mem (ha.lt_size d) (hlast d)).symm
  · rw [hrings]
    refine (hm.closed d).push.insertAfter ?_ (by simp)
    rw [Links.size_push]
    exact Nat.lt_succ_of_lt (hlt d)
  · rw [h.size_eq] at hi
    obtain ⟨as, bs, hcut, hbehind⟩ := ha.exists_cut d
    rw [h.ring_eq hm (ha.lt_size d) hcut hbehind hi, h.sentinel_eq]
    exact h.isRing hm (ha.lt_size d) hcut hbehind hi
  · rw [h.size_eq] at hi
    rw [h.mem_ring hm ha hi, hm.mem_ring d i x hi, h.isElement_iff hm.toLayout]
    simp only [Deletion.before, List.takeWhile_nil, List.not_mem_nil, not_false_eq_true, and_true]
    constructor
    · rintro (⟨hx, rfl⟩ | ⟨rfl, rfl⟩)
      · exact ⟨Or.inr hx, h.position_of_lt hx.2⟩
      · exact ⟨Or.inl rfl, h.position_self⟩
    · rintro ⟨rfl | hx, rfl⟩
      · exact Or.inr ⟨rfl, h.position_self⟩
      · rw [h.position_of_lt hx.2]
        exact Or.inl ⟨hx, rfl⟩
  · rw [h.size_eq] at hi
    exact h.ascending hm ha hi
  · rw [h.size_eq] at hi
    rw [h.count_eq, hm.count_eq d i hi, h.length_ring hm ha hi]
  · exact (hm.isOrdered d).of_recounted (h.recounted d)

end Inserted

/-! ### Finding the place -/

theorem forall_le_of_getLast? {f : Nat → Nat} (h : (as.map f).Pairwise (· < ·))
    (hlast : ∀ x ∈ as.getLast?, f x ≤ p) : ∀ x ∈ as, f x ≤ p := by
  intro x hx
  rcases List.eq_nil_or_concat as with rfl | ⟨cs, c, rfl⟩
  · simp at hx
  · have hc : f c ≤ p := hlast c (by simp)
    rw [List.concat_eq_append, List.mem_append, List.mem_singleton] at hx
    rcases hx with hx | rfl
    · rw [List.concat_eq_append, List.map_append, List.pairwise_append] at h
      exact (h.2.2 (f x) (List.mem_map_of_mem hx) (f c) (by simp)).le.trans hc
    · exact hc

theorem Linked.exists_insertionPoint_eq (hm : Linked J m) (hi : i < (m.headers.get d).size)
    (p : Nat) : ∃ as bs, m.ring d i = as ++ bs ∧ (∀ x ∈ as, m.position d.other x ≤ p) ∧
      (∀ x ∈ bs, p < m.position d.other x) ∧
      m.insertionPoint d i p = as.getLastD (m.sentinel d i) := by
  obtain ⟨as, bs, hring, hlast, hbs, heq⟩ :=
    (hm.isRing d i hi).exists_lastNot_eq fun x => p < m.position d.other x
  have hline := hm.ascending d i hi
  rw [line, hring, List.map_append, List.pairwise_append] at hline
  refine ⟨as, bs, hring, forall_le_of_getLast? hline.1 fun x hx => ?_, by simpa using hbs, heq⟩
  simpa using hlast x hx

/-- In the part before the place of an element, only the last cell can be that element. -/
theorem forall_lt_of_getLastD_ne {f : Nat → Nat} {s : Nat} (h : (as.map f).Pairwise (· < ·))
    (hle : ∀ x ∈ as, f x ≤ p) (hs : s ∉ as) (hne : ¬(as.getLastD s ≠ s ∧ f (as.getLastD s) = p)) :
    ∀ x ∈ as, f x < p := by
  intro x hx
  refine Nat.lt_of_le_of_ne (hle x hx) fun heq => hne ?_
  rcases List.eq_nil_or_concat as with rfl | ⟨cs, c, rfl⟩
  · simp at hx
  · rw [List.concat_eq_append] at *
    rw [List.getLastD_concat]
    have hc : f c ≤ p := hle c (by simp)
    refine ⟨fun hcs => hs (by simp [hcs]), ?_⟩
    rcases List.mem_append.1 hx with hx | hx
    · rw [List.map_append, List.pairwise_append] at h
      exact absurd (h.2.2 (f x) (List.mem_map_of_mem hx) (f c) (by simp))
        (Nat.not_lt.2 (heq ▸ hc))
    · rw [← heq, List.mem_singleton.1 hx]

/-! ### Inserting elements -/

/-- The matrix `k` has the elements `es` as well, and else it is `m` but for what is recorded about
the elements of each row and column. -/
structure Augmented (es : List (Nat × Nat)) (m k : Matrix) : Prop where
  mem_elements : ∀ a, a ∈ k.elements ↔ a ∈ m.elements ∨ (a.row, a.column) ∈ es
  size_eq : ∀ d, (k.headers.get d).size = (m.headers.get d).size
  costs_eq : k.costs = m.costs
  journal_eq : k.journal = m.journal
  marks_eq : k.marks = m.marks
  active_eq : k.active = m.active

theorem Augmented.refl {es : List (Nat × Nat)}
    (h : ∀ e ∈ es, (⟨e.1, e.2⟩ : PerDimension Nat) ∈ m.elements) : Augmented es m m := by
  refine ⟨fun a => ?_, fun d => rfl, rfl, rfl, rfl, rfl⟩
  exact ⟨Or.inl, fun ha => ha.elim id fun ha => h _ ha⟩

theorem Augmented.trans {es es' : List (Nat × Nat)} (h : Augmented es m k)
    (h' : Augmented es' k n) : Augmented (es ++ es') m n := by
  refine ⟨fun a => ?_, fun d => (h'.2 d).trans (h.2 d), h'.3.trans h.3, h'.4.trans h.4,
    h'.5.trans h.5, h'.6.trans h.6⟩
  rw [h'.1, h.1, List.mem_append, or_assoc]

theorem Inserted.augmented {behind : PerDimension Nat} (h : Inserted a behind m k)
    (hm : m.Layout) : Augmented [(a.row, a.column)] m k := by
  refine ⟨fun b => ?_, h.size_eq, h.costs_eq, h.journal_eq, h.marks_eq, ?_⟩
  · rw [h.mem_elements_iff hm, or_comm, List.mem_singleton, Prod.mk.injEq]
    cases a
    cases b
    simp
  · funext d
    exact (h.recounted d).active_eq.symm

theorem element_eq_ok_iff {id row column : Nat} {c : Cell} :
    Cell.element id row column = .ok c ↔
      (Cell.checkId id = .ok () ∧ Cell.checkPosition row = .ok () ∧
        Cell.checkPosition column = .ok ()) ∧ c = Cell.alone id ⟨row, column⟩ := by
  simp only [Cell.element, bind_eq_ok_iff]
  constructor
  · rintro ⟨_, h1, _, h2, _, h3, hc⟩
    cases hc
    exact ⟨⟨h1, h2, h3⟩, rfl⟩
  · rintro ⟨⟨h1, h2, h3⟩, rfl⟩
    exact ⟨_, h1, _, h2, _, h3, rfl⟩

theorem insertElement_eq_ok_iff {row column : Nat} {isNew : Bool} :
    m.insertElement row column = .ok (isNew, k) ↔
      (row < m.numRows ∧ column < m.numColumns) ∧
      if m.insertionPoint .row row column ≠ m.sentinel .row row ∧
          m.position .column (m.insertionPoint .row row column) = column
      then isNew = false ∧ k = m
      else isNew = true ∧ ∃ cell, Cell.element m.positions.size row column = .ok cell ∧
        m.linkCell cell
          ⟨m.insertionPoint .row row column, m.insertionPoint .column column row⟩ = .ok k := by
  rw [insertElement]
  by_cases hrange : row < m.numRows ∧ column < m.numColumns
  · by_cases hfound : m.insertionPoint .row row column ≠ m.sentinel .row row ∧
        m.position .column (m.insertionPoint .row row column) = column
    · rw [if_pos hrange, if_pos hfound, if_pos hfound]
      simp only [hrange, true_and]
      constructor
      · intro hk
        cases hk
        exact ⟨rfl, rfl⟩
      · rintro ⟨rfl, rfl⟩
        rfl
    · rw [if_pos hrange, if_neg hfound, if_neg hfound]
      simp only [hrange, true_and]
      constructor
      · intro hk
        obtain ⟨cell, hcell, hk⟩ := bind_eq_ok_iff.1 hk
        obtain ⟨k', hk', hk⟩ := bind_eq_ok_iff.1 hk
        cases hk
        exact ⟨rfl, cell, hcell, hk'⟩
      · rintro ⟨rfl, cell, hcell, hk⟩
        exact bind_eq_ok_iff.2 ⟨cell, hcell, bind_eq_ok_iff.2 ⟨k, hk, rfl⟩⟩
  · rw [if_neg hrange]
    simp only [hrange, false_and, iff_false]
    exact fun hk => nomatch hk

/-- The place of an element that is not there yet. -/
theorem Linked.fits (hm : Linked [] m) {row column : Nat} (hrow : row < m.numRows)
    (hcolumn : column < m.numColumns)
    (hnew : ¬(m.insertionPoint .row row column ≠ m.sentinel .row row ∧
      m.position .column (m.insertionPoint .row row column) = column)) :
    Fits ⟨row, column⟩
      ⟨m.insertionPoint .row row column, m.insertionPoint .column column row⟩ m := by
  obtain ⟨as, bs, hring, has, hbs, hpoint⟩ :=
    hm.exists_insertionPoint_eq (d := .row) hrow column
  obtain ⟨as', bs', hring', has', hbs', hpoint'⟩ :=
    hm.exists_insertionPoint_eq (d := .column) hcolumn row
  have hlt : ∀ x ∈ as, m.position .column x < column := by
    have hline := hm.ascending .row row hrow
    rw [line, hring, List.map_append, List.pairwise_append] at hline
    rw [hpoint] at hnew
    refine forall_lt_of_getLastD_ne hline.1 has (fun hmem => ?_) hnew
    exact (hm.isRing .row row hrow).notMem (by simp [hring, hmem])
  refine ⟨fun d => ?_, fun d => ?_⟩
  · cases d
    · exact hrow
    · exact hcolumn
  · cases d
    · exact ⟨as, bs, ⟨hring, hlt, hbs⟩, hpoint⟩
    · refine ⟨as', bs', ⟨hring', fun x hx => ?_, hbs'⟩, hpoint'⟩
      refine Nat.lt_of_le_of_ne (has' x hx) fun heq => ?_
      -- a cell of the column in this row would also be found in the row
      obtain ⟨helement, hposition, -⟩ :=
        (hm.mem_ring .column column x hcolumn).1 (by simp [hring', hx])
      have hmem : x ∈ m.ring .row row :=
        (hm.mem_ring .row row x hrow).2 ⟨helement, heq, by simp [Deletion.before]⟩
      rw [hring, List.mem_append] at hmem
      rcases hmem with hmem | hmem
      · exact Nat.ne_of_lt (hlt x hmem) hposition
      · exact Nat.ne_of_gt (hbs x hmem) hposition

theorem Linked.insertElement (hm : Linked [] m) {row column : Nat} {isNew : Bool}
    (hk : m.insertElement row column = .ok (isNew, k)) :
    Linked [] k ∧ Augmented [(row, column)] m k ∧ (isNew = false → k = m) := by
  obtain ⟨⟨hrow, hcolumn⟩, hk⟩ := insertElement_eq_ok_iff.1 hk
  split_ifs at hk with hfound
  · obtain ⟨-, rfl⟩ := hk
    refine ⟨hm, .refl ?_, fun _ => rfl⟩
    simp only [List.mem_singleton, forall_eq]
    obtain ⟨as, bs, hring, has, hbs, hpoint⟩ :=
      hm.exists_insertionPoint_eq (d := .row) hrow column
    have hmem : k.insertionPoint .row row column ∈ k.ring .row row := by
      have hlast : as.getLastD (k.sentinel .row row) ∈ k.sentinel .row row :: as :=
        List.getLastD_mem_cons
      rw [← hpoint] at hlast
      rw [hring]
      exact List.mem_append_left _ ((List.mem_cons.1 hlast).resolve_left hfound.1)
    obtain ⟨helement, hposition, -⟩ := (hm.mem_ring .row row _ hrow).1 hmem
    refine mem_elements_iff.2 ⟨_, helement, fun d => ?_⟩
    cases d
    · exact hposition
    · exact hfound.2
  · obtain ⟨rfl, cell, hcell, hk⟩ := hk
    obtain ⟨-, rfl⟩ := element_eq_ok_iff.1 hcell
    have hinserted := inserted_of_linkCell hk
    exact ⟨hinserted.linked hm (hm.fits hrow hcolumn hfound), hinserted.augmented hm.toLayout,
      fun h => nomatch h⟩

theorem Linked.insertElements (hm : Linked [] m) {es : List (Nat × Nat)} {before added : Nat}
    (hk : m.insertElements before es = .ok (added, k)) : Linked [] k ∧ Augmented es m k := by
  induction es generalizing m before with
  | nil =>
      cases hk
      exact ⟨hm, .refl (by simp)⟩
  | cons e es ih =>
      obtain ⟨row, column⟩ := e
      rw [Matrix.insertElements, bind_eq_ok_iff] at hk
      obtain ⟨⟨isNew, n⟩, hn, hk⟩ := hk
      obtain ⟨hlinked, haugmented, -⟩ := hm.insertElement hn
      obtain ⟨hlinked', haugmented'⟩ := ih hlinked hk
      exact ⟨hlinked', haugmented.trans haugmented'⟩

/-! ### Making rows and columns active -/

/-- The rows or columns `js` are active as well, and else no list changes. -/
structure Activated (d : Dimension) (js : List Nat) (m k : Matrix) : Prop where
  positions_eq : k.positions = m.positions
  rings_eq : k.rings = m.rings
  costs_eq : k.costs = m.costs
  journal_eq : k.journal = m.journal
  marks_eq : k.marks = m.marks
  headers_other : k.headers.get d.other = m.headers.get d.other
  activates : HeaderRing.Activates js (m.headers.get d) (k.headers.get d)

namespace Activated

variable {js : List Nat}

theorem size_eq (h : Activated d js m k) (e : Dimension) :
    (k.headers.get e).size = (m.headers.get e).size := by
  rcases d.eq_or_eq_other e with rfl | rfl
  · exact h.activates.size_eq
  · rw [h.headers_other]

theorem count_eq (h : Activated d js m k) : k.count = m.count := by
  funext e j
  rcases d.eq_or_eq_other e with rfl | rfl
  · exact h.activates.count_eq j
  · rw [count, count, header, header, h.headers_other]

theorem sameCells (h : Activated d js m k) : k.SameCells m := ⟨h.positions_eq, h.size_eq⟩

theorem mem_active (h : Activated d js m k) (e : Dimension) (j : Nat) :
    j ∈ k.active e ↔ e = d ∧ j ∈ js ∨ j ∈ m.active e := by
  rcases d.eq_or_eq_other e with rfl | rfl
  · have hmem := h.activates.mem_active j
    rw [active, hmem]
    simp [active]
  · rw [active, h.headers_other]
    simp [active]

theorem linked (h : Activated d js m k) (hm : Linked J m) (hk : (k.headers.get d).IsOrdered) :
    Linked J k := by
  refine SameCells.linked ⟨h.positions_eq.symm, fun e => (h.size_eq e).symm⟩ h.rings_eq.symm
    h.count_eq.symm hm fun e => ?_
  rcases d.eq_or_eq_other e with rfl | rfl
  · exact hk
  · rw [h.headers_other]
    exact hm.isOrdered _

end Activated

theorem activated_modify {l : HeaderRing} {js : List Nat}
    (hl : HeaderRing.Activates js (m.headers.get d) l) :
    Activated d js m { m with headers := m.headers.modify d fun _ => l } := by
  refine ⟨rfl, rfl, rfl, rfl, rfl, PerDimension.get_modify_other _ _ _, ?_⟩
  rwa [PerDimension.get_modify_self]

theorem Linked.activate (hm : Linked J m) (hk : m.activate d i = .ok k) :
    Linked J k ∧ Activated d [i] m k := by
  rw [Matrix.activate, bind_eq_ok_iff] at hk
  obtain ⟨h, hget, hk⟩ := hk
  obtain ⟨hi, rfl⟩ := HeaderRing.get_eq_ok_iff.1 hget
  by_cases hdeleted : ((m.headers.get d).header i).deleted
  · rw [if_pos hdeleted, bind_eq_ok_iff] at hk
    obtain ⟨headers, hheaders, hk⟩ := hk
    obtain ⟨l, hl, rfl⟩ := PerDimension.tryModify_eq_ok_iff_exists.1 hheaders
    cases hk
    obtain ⟨hordered, hactivates⟩ := (hm.isOrdered d).insert hl
    have hactivated := activated_modify hactivates
    exact ⟨hactivated.linked hm (by rwa [PerDimension.get_modify_self]), hactivated⟩
  · rw [if_neg hdeleted] at hk
    cases hk
    refine ⟨hm, rfl, rfl, rfl, rfl, rfl, rfl, rfl, rfl, fun _ => rfl, fun j => ?_⟩
    have hmem := ((hm.isOrdered d).mem_active i).2 ⟨hi, by simpa using hdeleted⟩
    constructor
    · exact Or.inr
    · rintro (hj | hj)
      · rwa [List.mem_singleton.1 hj]
      · exact hj

/-- The rows or columns that have elements and are not active. -/
def pending (m : Matrix) (d : Dimension) : List Nat :=
  (m.headers.get d).indices fun h => h.deleted && 0 < h.count

theorem Linked.activateAll (hm : Linked J m) (hk : m.activateAll d = .ok k) :
    Linked J k ∧ Activated d (m.pending d) m k := by
  rw [Matrix.activateAll, bind_eq_ok_iff] at hk
  obtain ⟨filled, hfilled, hk⟩ := hk
  obtain ⟨headers, hheaders, hk⟩ := bind_eq_ok_iff.1 hk
  obtain ⟨l, hl, rfl⟩ := PerDimension.tryModify_eq_ok_iff_exists.1 hheaders
  cases hk
  obtain ⟨hfilled, hactive⟩ := (HeaderRing.isOrdered_excluded d _).fill hfilled
  obtain ⟨hordered, hactivates⟩ := (hm.isOrdered d).merge hfilled hl
  rw [hactive] at hactivates
  have hactivated := activated_modify hactivates
  exact ⟨hactivated.linked hm (by rwa [PerDimension.get_modify_self]), hactivated⟩

theorem Linked.count_pos_iff (hm : Linked [] m) (hi : i < (m.headers.get d).size) :
    0 < m.count d i ↔ m.HasElement d i := by
  rw [hm.count_eq d i hi, List.length_pos_iff_exists_mem]
  simp only [hm.mem_ring d i _ hi, Deletion.before, List.takeWhile_nil, List.not_mem_nil,
    not_false_eq_true, and_true]
  rfl

theorem Linked.mem_pending_iff (hm : Linked [] m) :
    i ∈ m.pending d ↔ m.HasElement d i ∧ i ∉ m.active d := by
  rw [pending, HeaderRing.indices, List.mem_filter, List.mem_range, Bool.and_eq_true,
    decide_eq_true_eq]
  have hactive := (hm.isOrdered d).mem_active i
  rw [active, hactive]
  constructor
  · rintro ⟨hi, hdeleted, hcount⟩
    exact ⟨(hm.count_pos_iff hi).1 hcount, by simp [hdeleted]⟩
  · rintro ⟨h, hnot⟩
    have hi := hm.lt_size_of_hasElement h
    exact ⟨hi, by simpa [hi] using hnot, (hm.count_pos_iff hi).2 h⟩

/-! ### Adding elements -/

/-- The matrix `k` has the elements `es` besides those of `m`. -/
structure Extended (es : List (Nat × Nat)) (m k : Matrix) : Prop where
  mem_elements : ∀ a, a ∈ k.elements ↔ a ∈ m.elements ∨ (a.row, a.column) ∈ es
  size_eq : ∀ d, (k.headers.get d).size = (m.headers.get d).size
  costs_eq : k.costs = m.costs
  journal_eq : k.journal = m.journal
  marks_eq : k.marks = m.marks

theorem Augmented.extended {es : List (Nat × Nat)} {js ls : List Nat} {n' : Matrix}
    (h : Augmented es m n) (hd : Activated .row js n n') (he : Activated .column ls n' k) :
    Extended es m k :=
  ⟨fun a => by rw [he.sameCells.elements_eq, hd.sameCells.elements_eq, h.mem_elements],
    fun d => ((he.size_eq d).trans (hd.size_eq d)).trans (h.size_eq d),
    (he.costs_eq.trans hd.costs_eq).trans h.costs_eq,
    (he.journal_eq.trans hd.journal_eq).trans h.journal_eq,
    (he.marks_eq.trans hd.marks_eq).trans h.marks_eq⟩

theorem wellFormed_nil_iff :
    m.WellFormed [] ↔ Linked [] m ∧ ∀ d i, i ∈ m.active d ↔ m.HasElement d i := by
  constructor
  · exact fun h => ⟨h.toLinked, fun d i => by rw [h.mem_active]; simp⟩
  · rintro ⟨h, hactive⟩
    exact ⟨h, fun d i => by rw [hactive]; simp, List.nodup_nil, fun d i hmem => by simp at hmem⟩

theorem WellFormed.addElement (hm : m.WellFormed []) {row column : Nat} {isNew : Bool}
    (hk : m.addElement row column = .ok (isNew, k)) :
    k.WellFormed [] ∧ Extended [(row, column)] m k := by
  simp only [Matrix.addElement, bind_eq_ok_iff] at hk
  obtain ⟨-, -, ⟨isNew', n⟩, hn, hk⟩ := hk
  obtain ⟨hlinked, haugmented, hsame⟩ := hm.toLinked.insertElement hn
  have hactive := (wellFormed_nil_iff.1 hm).2
  cases isNew' with
  | false =>
      cases hk
      cases hsame rfl
      exact ⟨hm, haugmented.mem_elements, fun d => rfl, rfl, rfl, rfl⟩
  | true =>
      obtain ⟨n₁, hn₁, hk⟩ := bind_eq_ok_iff.1 hk
      obtain ⟨n₂, hn₂, hk⟩ := bind_eq_ok_iff.1 hk
      cases hk
      obtain ⟨hlinked₁, hrow⟩ := hlinked.activate hn₁
      obtain ⟨hlinked₂, hcolumn⟩ := hlinked₁.activate hn₂
      have hextended := haugmented.extended hrow hcolumn
      refine ⟨wellFormed_nil_iff.2 ⟨hlinked₂, fun d i => ?_⟩, hextended⟩
      rw [hcolumn.mem_active, hrow.mem_active, haugmented.active_eq, hactive, hasElement_iff,
        hasElement_iff]
      simp only [hextended.mem_elements, List.mem_singleton]
      constructor
      · rintro (⟨rfl, rfl⟩ | ⟨rfl, rfl⟩ | ⟨a, ha, rfl⟩)
        · exact ⟨⟨row, i⟩, Or.inr rfl, rfl⟩
        · exact ⟨⟨i, column⟩, Or.inr rfl, rfl⟩
        · exact ⟨a, Or.inl ha, rfl⟩
      · rintro ⟨a, ha | ha, rfl⟩
        · exact Or.inr (Or.inr ⟨a, ha, rfl⟩)
        · obtain ⟨rfl, rfl⟩ := Prod.mk.inj ha
          cases d <;> simp

theorem WellFormed.addElements (hm : m.WellFormed []) {es : List (Nat × Nat)} {added : Nat}
    (hk : m.addElements es = .ok (added, k)) : k.WellFormed [] ∧ Extended es m k := by
  simp only [Matrix.addElements, bind_eq_ok_iff] at hk
  obtain ⟨-, -, ⟨added', n⟩, hn, n₁, hn₁, n₂, hn₂, hk⟩ := hk
  cases hk
  obtain ⟨hlinked, haugmented⟩ := hm.toLinked.insertElements hn
  obtain ⟨hlinked₁, hrow⟩ := hlinked.activateAll hn₁
  obtain ⟨hlinked₂, hcolumn⟩ := hlinked₁.activateAll hn₂
  have hextended := haugmented.extended hrow hcolumn
  refine ⟨wellFormed_nil_iff.2 ⟨hlinked₂, fun d i => ?_⟩, hextended⟩
  have hactive : ∀ d i, i ∈ n.active d → n.HasElement d i := by
    intro d i hi
    rw [haugmented.active_eq, (wellFormed_nil_iff.1 hm).2, hasElement_iff] at hi
    obtain ⟨a, ha, rfl⟩ := hi
    exact hasElement_iff.2 ⟨a, (haugmented.mem_elements a).2 (Or.inl ha), rfl⟩
  have hi := hactive d i
  rw [hcolumn.mem_active, hlinked₁.mem_pending_iff, hrow.mem_active, hrow.mem_active,
    hlinked.mem_pending_iff, hcolumn.sameCells.hasElement_eq, hrow.sameCells.hasElement_eq]
  cases d <;> simp <;> tauto

/-! ### The first matrix -/

/-- Every cell is alone in both rings. -/
def IsLoose (m : Matrix) : Prop :=
  ∀ d, (m.rings.get d).size = m.positions.size ∧ ∀ x, (m.rings.get d).get x = ⟨x, x⟩

/-- What sentinels of `n` rows or columns, from number `i` on, do to each part of a matrix. -/
structure Prefixed (d : Dimension) (i n : Nat) (m k : Matrix) : Prop where
  size_positions : k.positions.size = m.positions.size + n
  position_of_lt : ∀ e x, x < m.positions.size → k.position e x = m.position e x
  position_add : ∀ j < n, k.position d (m.positions.size + j) = i + j
  isLoose : m.IsLoose → k.IsLoose
  headers_eq : k.headers = m.headers
  costs_eq : k.costs = m.costs
  journal_eq : k.journal = m.journal
  marks_eq : k.marks = m.marks

theorem prefixed_pushCell (m : Matrix) (d : Dimension) (i : Nat) :
    Prefixed d i 1 m (m.pushCell (.alone m.positions.size
      ((PerDimension.both Cell.noPosition).modify d fun _ => i))) := by
  refine ⟨Array.size_push _, fun e x hx => ?_, fun j hj => ?_, fun hm e => ?_, rfl, rfl, rfl, rfl⟩
  · rw [position, position, pushCell, Array.getD_eq_getD_getElem?, Array.getElem?_push,
      if_neg (Nat.ne_of_lt hx), Array.getD_eq_getD_getElem?]
  · obtain rfl : j = 0 := Nat.lt_one_iff.1 hj
    rw [Nat.add_zero, position, pushCell, Array.getD_eq_getD_getElem?, Array.getElem?_push,
      if_pos rfl]
    exact PerDimension.get_modify_self _ _ _
  · obtain ⟨hsize, hget⟩ := hm e
    have hrings : (m.pushCell (.alone m.positions.size
        ((PerDimension.both Cell.noPosition).modify d fun _ => i))).rings.get e =
          (m.rings.get e).push ⟨m.positions.size, m.positions.size⟩ := by
      cases e <;> rfl
    rw [hrings]
    refine ⟨?_, fun x => ?_⟩
    · rw [Links.size_push, hsize]
      exact (Array.size_push _).symm
    · rw [Links.get_push]
      split_ifs with hx
      · rw [hx, hsize]
      · exact hget x

theorem prefixed_of_pushSentinels {n : Nat} (h : m.pushSentinels d i n = .ok k) :
    Prefixed d i n m k := by
  induction n generalizing m i with
  | zero =>
      cases h
      exact ⟨rfl, fun e x hx => rfl, fun j hj => absurd hj (Nat.not_lt_zero j), id, rfl, rfl, rfl,
        rfl⟩
  | succ n ih =>
      simp only [pushSentinels, Cell.sentinel, bind_eq_ok_iff] at h
      obtain ⟨cell, ⟨-, -, -, -, hcell⟩, hk⟩ := h
      cases hcell
      have hfirst := prefixed_pushCell m d i
      have hrest := ih hk
      have hsize := hfirst.size_positions
      refine ⟨by rw [hrest.size_positions, hsize, Nat.add_assoc, Nat.add_comm 1],
        fun e x hx => ?_, fun j hj => ?_, fun hm => hrest.isLoose (hfirst.isLoose hm),
        hrest.headers_eq.trans hfirst.headers_eq, hrest.costs_eq.trans hfirst.costs_eq,
        hrest.journal_eq.trans hfirst.journal_eq, hrest.marks_eq.trans hfirst.marks_eq⟩
      · rw [hrest.position_of_lt e x (by omega), hfirst.position_of_lt e x hx]
      · cases j with
        | zero => rw [hrest.position_of_lt d _ (by omega), hfirst.position_add 0 Nat.one_pos]
        | succ j =>
            have hj' := hrest.position_add j (Nat.lt_of_succ_lt_succ hj)
            rw [hsize] at hj'
            rw [Nat.add_comm j 1, ← Nat.add_assoc, hj', Nat.add_assoc]

theorem IsLoose.isRing_nil (hm : m.IsLoose) (d : Dimension) (i : Nat) :
    (m.rings.get d).IsRing (m.sentinel d i) [] :=
  Links.isRing_nil ((hm d).2 _)

theorem IsLoose.ring_eq_nil (hm : m.IsLoose) (d : Dimension) (i : Nat) : m.ring d i = [] :=
  (hm.isRing_nil d i).toList_eq

theorem not_isElement_of_size (hsize : m.positions.size = m.numRows + m.numColumns) (x : Nat) :
    ¬m.IsElement x := by
  intro hx
  have hlt := hx.1.trans_lt hx.2
  omega

/-- Sentinels alone in their rings, under headers that count nothing, are linked. -/
theorem IsLoose.linked (hm : m.IsLoose) (hsize : m.positions.size = m.numRows + m.numColumns)
    (hposition : ∀ d i, i < (m.headers.get d).size → m.position d (m.sentinel d i) = i)
    (hcount : ∀ d i, i < (m.headers.get d).size → m.count d i = 0)
    (hordered : ∀ d, (m.headers.get d).IsOrdered) : Linked [] m := by
  have hnone := not_isElement_of_size hsize
  refine ⟨⟨fun d => (hm d).1, hsize.ge, hposition, fun d x hx => absurd hx (hnone x),
    fun x y hx => absurd hx (hnone x)⟩, fun d x => ?_, fun d x hx => ?_, fun d i hi => ?_,
    fun d i x hi => ?_, fun d i hi => ?_, fun d i hi => ?_, hordered⟩
  · rw [Links.next, Links.previous, (hm d).2]
    exact ⟨rfl, rfl⟩
  · rw [Links.next, Links.previous, (hm d).2]
    exact ⟨hx, hx⟩
  · rw [hm.ring_eq_nil]
    exact hm.isRing_nil d i
  · rw [hm.ring_eq_nil]
    simp [hnone]
  · rw [line, hm.ring_eq_nil]
    exact List.Pairwise.nil
  · rw [hm.ring_eq_nil, hcount d i hi]
    rfl

/-- What a matrix is before elements are added to it. -/
structure Initial (rows : Nat) (costs : List Nat) (m : Matrix) : Prop where
  wellFormed : m.WellFormed []
  elements_eq : m.elements = []
  numRows_eq : m.numRows = rows
  numColumns_eq : m.numColumns = costs.length
  costs_eq : m.costs = costs.toArray
  journal_eq : m.journal = {}
  marks_eq : m.marks = ⟨.unset rows, .unset costs.length⟩

theorem initial_of_zero {rows : Nat} {costs : List Nat} (h : zero rows costs = .ok m) :
    Initial rows costs m := by
  rw [zero, bind_eq_ok_iff] at h
  obtain ⟨n, hn, hm⟩ := h
  have hrow := prefixed_of_pushSentinels hn
  have hcolumn := prefixed_of_pushSentinels hm
  have hheaders := hcolumn.headers_eq.trans hrow.headers_eq
  have hrows : m.numRows = rows := by
    rw [numRows, hheaders]
    rfl
  have hcolumns : m.numColumns = costs.length := by
    rw [numColumns, hheaders]
    rfl
  have hsize : n.positions.size = rows := hrow.size_positions.trans (Nat.zero_add rows)
  have hsize' : m.positions.size = m.numRows + m.numColumns := by
    rw [hcolumn.size_positions, hsize, hrows, hcolumns]
  have hloose : m.IsLoose := by
    refine hcolumn.isLoose (hrow.isLoose fun d => ⟨?_, fun x => ?_⟩)
    · cases d <;> rfl
    · cases d <;> rfl
  have hordered : ∀ d, (m.headers.get d).IsOrdered := by
    intro d
    rw [hheaders]
    cases d <;> exact HeaderRing.isOrdered_excluded _ _
  have hcount : ∀ d i, i < (m.headers.get d).size → m.count d i = 0 := by
    intro d i hi
    rw [count, header]
    rw [hheaders] at hi ⊢
    cases d
    · exact congrArg Header.count (HeaderRing.header_excluded _ hi)
    · exact congrArg Header.count (HeaderRing.header_excluded _ hi)
  have hactive : ∀ d, m.active d = [] := by
    intro d
    rw [active, hheaders]
    cases d
    · exact HeaderRing.active_excluded _ _
    · exact HeaderRing.active_excluded _ _
  have hposition : ∀ d i, i < (m.headers.get d).size → m.position d (m.sentinel d i) = i := by
    intro d i hi
    cases d
    · have hi : i < rows := hrows ▸ hi
      have hposition := hrow.position_add i hi
      rw [hcolumn.position_of_lt _ _ (by rw [hsize]; exact hi)]
      simpa [sentinel] using hposition
    · have hi : i < costs.length := hcolumns ▸ hi
      have hposition := hcolumn.position_add i hi
      rwa [hsize, ← hrows, Nat.zero_add] at hposition
  have hlinked : Linked [] m := hloose.linked hsize' hposition hcount hordered
  refine ⟨wellFormed_nil_iff.2 ⟨hlinked, fun d i => ?_⟩, ?_, hrows, hcolumns, ?_, ?_, ?_⟩
  · rw [hactive, HasElement]
    simp [not_isElement_of_size hsize']
  · rw [elements, List.drop_eq_nil_iff, Array.length_toList, hsize']
  · exact hcolumn.costs_eq.trans hrow.costs_eq
  · exact hcolumn.journal_eq.trans hrow.journal_eq
  · exact hcolumn.marks_eq.trans hrow.marks_eq

/-! ### Words -/

/-- The rows and columns are numbered by 32-bit words, and the costs are 64-bit words. -/
structure FitsWords (m : Matrix) : Prop where
  size_le : ∀ d, (m.headers.get d).size ≤ Cell.noPosition
  costOf_lt : ∀ c, m.costOf c < Cost.limit

theorem FitsWords.of_eq (h : m.FitsWords) (hcosts : k.costs = m.costs)
    (hsize : ∀ d, (k.headers.get d).size = (m.headers.get d).size) : k.FitsWords := by
  refine ⟨fun d => (hsize d).trans_le (h.size_le d), fun c => ?_⟩
  rw [costOf, hcosts]
  exact h.costOf_lt c

theorem le_of_checkPosition {u : Unit} (h : Cell.checkPosition i = .ok u) :
    i + 1 ≤ Cell.noPosition := by
  have hcount : Cell.noPosition + 1 = Cell.wordCount := rfl
  rw [Cell.checkPosition] at h
  split_ifs at h
  omega

theorem le_of_pushSentinels {n : Nat} (h : m.pushSentinels d i n = .ok k)
    (hi : i ≤ Cell.noPosition) : i + n ≤ Cell.noPosition := by
  induction n generalizing m i with
  | zero => exact hi
  | succ n ih =>
      simp only [pushSentinels, Cell.sentinel, bind_eq_ok_iff] at h
      obtain ⟨cell, ⟨-, -, _, hposition, -⟩, hk⟩ := h
      rw [Nat.add_comm n 1, ← Nat.add_assoc]
      exact ih hk (le_of_checkPosition hposition)

theorem fitsWords_of_zero {rows : Nat} {costs : List Nat} (hcosts : ∀ c ∈ costs, c < Cost.limit)
    (h : zero rows costs = .ok m) : m.FitsWords := by
  have hinitial := initial_of_zero h
  rw [zero, bind_eq_ok_iff] at h
  obtain ⟨n, hrow, hcolumn⟩ := h
  refine ⟨fun d => ?_, fun c => ?_⟩
  · cases d with
    | row =>
        have hle := le_of_pushSentinels hrow (Nat.zero_le _)
        rw [Nat.zero_add] at hle
        exact hinitial.numRows_eq.trans_le hle
    | column =>
        have hle := le_of_pushSentinels hcolumn (Nat.zero_le _)
        rw [Nat.zero_add] at hle
        exact hinitial.numColumns_eq.trans_le hle
  · rw [costOf, hinitial.costs_eq, Array.getD_eq_getD_getElem?, List.getElem?_toArray]
    cases hc : costs[c]? with
    | none => exact Nat.two_pow_pos 64
    | some cost => exact hcosts cost (List.mem_of_getElem? hc)

end SetCover.Matrix
