import Mathlib.Data.Finset.Card
import SetCover.Proofs.Matrix.Totality

/-!
# What a matrix contains

Every element has a cell of its own, so the number of cells follows from the set of elements.  New
elements are added as long as there is room for their cells.  The answer is how many of them were
not there yet; if the cells run out, that is the fault.
-/

namespace SetCover.Matrix

variable {α β : Type} {m n k : Matrix} {e : Nat × Nat} {es es' : List (Nat × Nat)}

/-- The elements that were added, deleted or not. -/
def contents (m : Matrix) : Finset (Nat × Nat) :=
  (m.elements.map fun a => (a.row, a.column)).toFinset

theorem mem_contents_iff : e ∈ m.contents ↔ ⟨e.1, e.2⟩ ∈ m.elements := by
  rw [contents, List.mem_toFinset, List.mem_map]
  constructor
  · rintro ⟨a, ha, rfl⟩
    exact ha
  · exact fun he => ⟨_, he, rfl⟩

namespace Layout

theorem nodup_elements (h : m.Layout) : m.elements.Nodup := by
  rw [List.nodup_iff_injective_getElem]
  rintro ⟨i, hi⟩ ⟨j, hj⟩ hij
  rw [elements, List.length_drop, Array.length_toList] at hi hj
  have hx : m.IsElement (m.numRows + m.numColumns + i) := ⟨Nat.le_add_right _ _, by omega⟩
  have hy : m.IsElement (m.numRows + m.numColumns + j) := ⟨Nat.le_add_right _ _, by omega⟩
  simp only [elements, List.getElem_drop, Array.getElem_toList] at hij
  have heq := h.eq_of_position_eq _ _ hx hy fun d => by
    rw [position_eq_get hx.2, position_eq_get hy.2, hij]
  exact Fin.ext (Nat.add_left_cancel heq)

/-- The first cells are sentinels, and the others are the elements. -/
theorem size_positions_eq (h : m.Layout) :
    m.positions.size = m.numRows + m.numColumns + m.contents.card := by
  have hle := h.numRows_add_numColumns_le
  have hinjective : Function.Injective fun a : PerDimension Nat => (a.row, a.column) := by
    rintro ⟨r, c⟩ ⟨r', c'⟩ heq
    cases heq
    rfl
  rw [contents, List.toFinset_card_of_nodup (h.nodup_elements.map hinjective), List.length_map,
    elements, List.length_drop, Array.length_toList]
  omega

end Layout

/-! ### Room -/

/-- There are cells for all elements of a list that are not there yet. -/
def HasRoom (m : Matrix) (es : List (Nat × Nat)) : Prop :=
  m.numRows + m.numColumns + (m.contents ∪ es.toFinset).card ≤ Cell.wordCount

theorem HasRoom.of_append (h : m.HasRoom (es ++ es')) : m.HasRoom es := by
  refine le_trans (Nat.add_le_add_left (Finset.card_le_card ?_) _) h
  rw [List.toFinset_append]
  exact Finset.union_subset_union_right Finset.subset_union_left

theorem Augmented.toExtended (h : Augmented es m k) : Extended es m k :=
  ⟨h.mem_elements, h.size_eq, h.costs_eq, h.journal_eq, h.marks_eq⟩

theorem Extended.refl (m : Matrix) : Extended [] m m :=
  ⟨fun a => by simp, fun _ => rfl, rfl, rfl, rfl⟩

theorem Extended.trans (h : Extended es m k) (h' : Extended es' k n) :
    Extended (es ++ es') m n := by
  refine ⟨fun a => ?_, fun d => (h'.size_eq d).trans (h.size_eq d), h'.costs_eq.trans h.costs_eq,
    h'.journal_eq.trans h.journal_eq, h'.marks_eq.trans h.marks_eq⟩
  rw [h'.mem_elements, h.mem_elements, List.mem_append, or_assoc]

theorem Extended.inRange_iff (h : Extended es m k) : k.InRange e ↔ m.InRange e := by
  have hrows : k.numRows = m.numRows := h.size_eq .row
  have hcolumns : k.numColumns = m.numColumns := h.size_eq .column
  rw [InRange, InRange, hrows, hcolumns]

theorem Extended.contents_eq (h : Extended es m k) : k.contents = m.contents ∪ es.toFinset := by
  ext e
  rw [Finset.mem_union, List.mem_toFinset, mem_contents_iff, mem_contents_iff, h.mem_elements]

/-- How many elements of a list are not there yet. -/
def countNew (m : Matrix) (es : List (Nat × Nat)) : Nat := (es.toFinset \ m.contents).card

theorem Extended.countNew_eq (h : Extended [e] m k) :
    m.countNew (e :: es) = (if e ∉ m.contents then 1 else 0) + k.countNew es := by
  rw [countNew, countNew, h.contents_eq, List.toFinset_cons, List.toFinset_cons, List.toFinset_nil,
    insert_empty_eq, Finset.union_singleton]
  by_cases he : e ∈ m.contents
  · rw [Finset.insert_sdiff_of_mem _ he, Finset.insert_eq_of_mem he]
    simp [he]
  · have hsdiff : insert e es.toFinset \ m.contents =
        insert e (es.toFinset \ insert e m.contents) := by
      ext e'
      by_cases he' : e' = e
      · simp [he', he]
      · simp [he']
    rw [hsdiff, Finset.card_insert_of_notMem (by simp), if_pos he, Nat.add_comm]

theorem Extended.hasRoom_iff (h : Extended es m k) : k.HasRoom es' ↔ m.HasRoom (es ++ es') := by
  have hrows : k.numRows = m.numRows := h.size_eq .row
  have hcolumns : k.numColumns = m.numColumns := h.size_eq .column
  rw [HasRoom, HasRoom, h.contents_eq, List.toFinset_append, Finset.union_assoc, hrows, hcolumns]

/-- What is computed adds elements to the matrix and answers with `answer`, or fails for lack of
room. -/
structure Adds (es : List (Nat × Nat)) (answer : α) (m : Matrix)
    (x : Except Fault (α × Matrix)) : Prop where
  exists_eq_ok : m.HasRoom es → ∃ k, x = .ok (answer, k)
  eq_error : ¬m.HasRoom es → x = .error .tooManyCells

theorem Adds.map {a : α} {x : Except Fault (α × Matrix)} (hx : Adds es a m x) (f : α → β) :
    Adds es (f a) m (x >>= fun p => .ok (f p.1, p.2)) := by
  refine ⟨fun hroom => ?_, fun hroom => ?_⟩
  · obtain ⟨k, rfl⟩ := hx.exists_eq_ok hroom
    exact ⟨k, rfl⟩
  · rw [hx.eq_error hroom]
    rfl

/-- Elements can be added one after the other. -/
theorem Adds.bind {a : α} {b : β} {x : Except Fault (α × Matrix)}
    {f : α × Matrix → Except Fault (β × Matrix)} (hx : Adds es a m x)
    (hf : ∀ k, m.HasRoom es → x = .ok (a, k) → Extended es m k ∧ Adds es' b k (f (a, k))) :
    Adds (es ++ es') b m (x >>= f) := by
  by_cases hroom : m.HasRoom es
  · obtain ⟨k, rfl⟩ := hx.exists_eq_ok hroom
    obtain ⟨hextended, hadds⟩ := hf k hroom rfl
    exact ⟨fun h => hadds.exists_eq_ok (hextended.hasRoom_iff.2 h),
      fun h => hadds.eq_error fun h' => h (hextended.hasRoom_iff.1 h')⟩
  · rw [hx.eq_error hroom]
    exact ⟨fun h => absurd h.of_append hroom, fun _ => rfl⟩

/-! ### Insertions -/

namespace Linked

/-- What is sought for an element is found if the element is there. -/
theorem found_iff (hm : Linked [] m) (he : m.InRange e) :
    (m.insertionPoint .row e.1 e.2 ≠ m.sentinel .row e.1 ∧
      m.position .column (m.insertionPoint .row e.1 e.2) = e.2) ↔ e ∈ m.contents := by
  constructor
  · intro hfound
    have hk : m.insertElement e.1 e.2 = .ok (false, m) :=
      insertElement_eq_ok_iff.2 ⟨he, by rw [if_pos hfound]; exact ⟨rfl, rfl⟩⟩
    exact mem_contents_iff.2 (((hm.insertElement hk).2.1.mem_elements _).2 (.inr (by simp)))
  · intro hmem
    by_contra hfound
    exact (hm.fits he.1 he.2 hfound).notMem_elements hm (mem_contents_iff.1 hmem)

theorem adds_insertElement (hm : Linked [] m) (hfit : m.FitsWords) (hsize : m.HasRoom [])
    (he : m.InRange e) :
    Adds [e] (decide (e ∉ m.contents)) m (m.insertElement e.1 e.2) := by
  rw [HasRoom, List.toFinset_nil, Finset.union_empty, ← hm.size_positions_eq] at hsize
  by_cases hmem : e ∈ m.contents
  · have hunion : m.contents ∪ [e].toFinset = m.contents := by simpa using hmem
    have hroom : m.HasRoom [e] := by
      rwa [HasRoom, hunion, ← hm.size_positions_eq]
    refine ⟨fun _ => ⟨m, insertElement_eq_ok_iff.2 ⟨he, ?_⟩⟩, fun h => absurd hroom h⟩
    rw [if_pos ((hm.found_iff he).2 hmem)]
    simp [hmem]
  · have hcard : (m.contents ∪ [e].toFinset).card = m.contents.card + 1 := by
      rw [List.toFinset_cons, List.toFinset_nil, insert_empty_eq, Finset.union_comm,
        Finset.singleton_union, Finset.card_insert_of_notMem hmem]
    have hroom : m.HasRoom [e] ↔ m.positions.size < Cell.wordCount := by
      rw [HasRoom, hcard, ← Nat.add_assoc, ← hm.size_positions_eq]
      rfl
    have hfound := (hm.found_iff he).not.2 hmem
    constructor
    · intro h
      obtain ⟨isNew, k, hk⟩ := hm.exists_insertElement_eq_ok hfit (hroom.1 h) he.1 he.2
      obtain ⟨-, hcases⟩ := insertElement_eq_ok_iff.1 hk
      rw [if_neg hfound] at hcases
      obtain ⟨rfl, -⟩ := hcases
      exact ⟨k, by simpa [hmem] using hk⟩
    · intro h
      have hid : Cell.checkId m.positions.size = .error .tooManyCells :=
        if_neg (hroom.not.1 h)
      have hrange : e.1 < m.numRows ∧ e.2 < m.numColumns := he
      rw [Matrix.insertElement, if_pos hrange]
      dsimp only
      rw [if_neg hfound, Cell.element, hid]
      rfl

theorem adds_insertElements (hm : Linked [] m) (hfit : m.FitsWords) (hsize : m.HasRoom [])
    (hes : ∀ e ∈ es, m.InRange e) (before : Nat) :
    Adds es (before + m.countNew es) m (m.insertElements before es) := by
  induction es generalizing m before with
  | nil =>
      refine ⟨fun _ => ⟨m, ?_⟩, fun h => absurd hsize h⟩
      simp [Matrix.insertElements, countNew]
  | cons e es ih =>
      refine (hm.adds_insertElement hfit hsize (hes e List.mem_cons_self)).bind fun k hroom hk => ?_
      obtain ⟨hlinked, haugmented, -⟩ := hm.insertElement hk
      have hextended := haugmented.toExtended
      refine ⟨hextended, ?_⟩
      have hadds := ih hlinked (hfit.of_eq hextended.costs_eq hextended.size_eq)
        (hextended.hasRoom_iff.2 hroom)
        (fun e' he' => hextended.inRange_iff.2 (hes e' (List.mem_cons_of_mem e he')))
        (if decide (e ∉ m.contents) then before + 1 else before)
      have hanswer : (if decide (e ∉ m.contents) then before + 1 else before) + k.countNew es =
          before + m.countNew (e :: es) := by
        rw [hextended.countNew_eq]
        by_cases he : e ∈ m.contents
        · simp [he]
        · simp [he, Nat.add_assoc]
      rw [hanswer] at hadds
      exact hadds

end Linked

end SetCover.Matrix
