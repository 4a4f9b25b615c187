import SetCover.Proofs.Matrix.Contents
import SetCover.Proofs.Safety
import SetCover.Proofs.Solving

/-!
# Ways to build a matrix

The elements of a matrix can be given when it is made, in batches or one at a time, in any order and
more than once.  A `Plan` is such a way.  Every call answers what was not there yet, whatever came
before it, and all plans with the same elements agree: what they build looks the same and is solved
alike, or they fail alike because there are more cells than numbers.
-/

namespace SetCover

open SetCover.Matrix

namespace Matrix

variable {m n k : Matrix} {e : Nat × Nat} {es : List (Nat × Nat)} {rows : Nat} {costs : List Nat}

/-! ### Matrices that take elements -/

/-- Nothing is deleted and the cells have numbers, so elements can be added. -/
structure IsOpen (m : Matrix) : Prop where
  wellFormed : m.WellFormed []
  isEmpty : m.journal.isEmpty = true
  isLabelled : m.IsLabelled
  fitsWords : m.FitsWords
  hasRoom : m.HasRoom []

namespace IsOpen

theorem extended (hm : m.IsOpen) (hroom : m.HasRoom es) (hk : k.WellFormed [])
    (hlabels : k.IsLabelled) (hextended : Extended es m k) : k.IsOpen where
  wellFormed := hk
  isEmpty := by
    rw [hextended.journal_eq, hm.isEmpty]
  isLabelled := hlabels
  fitsWords := hm.fitsWords.of_eq hextended.costs_eq hextended.size_eq
  hasRoom := hextended.hasRoom_iff.2 (by rwa [List.append_nil])

theorem addElement {row column : Nat} {isNew : Bool} (hm : m.IsOpen)
    (hroom : m.HasRoom [(row, column)]) (hk : m.addElement row column = .ok (isNew, k)) :
    k.IsOpen ∧ Extended [(row, column)] m k := by
  obtain ⟨hwell, hextended⟩ := hm.wellFormed.addElement hk
  have hlabels := hm.isLabelled.addElement hm.wellFormed.toLinked hk
  exact ⟨hm.extended hroom hwell hlabels hextended, hextended⟩

theorem addElements {added : Nat} (hm : m.IsOpen) (hroom : m.HasRoom es)
    (hk : m.addElements es = .ok (added, k)) : k.IsOpen ∧ Extended es m k := by
  obtain ⟨hwell, hextended⟩ := hm.wellFormed.addElements hk
  have hlabels := hm.isLabelled.addElements hm.wellFormed.toLinked hk
  exact ⟨hm.extended hroom hwell hlabels hextended, hextended⟩

theorem adds_addElement (hm : m.IsOpen) (he : m.InRange e) :
    Adds [e] (decide (e ∉ m.contents)) m (m.addElement e.1 e.2) := by
  have hlinked := hm.wellFormed.toLinked
  have hadds := hlinked.adds_insertElement hm.fitsWords hm.hasRoom he
  refine ⟨fun hroom => ?_, fun hroom => ?_⟩
  · obtain ⟨n, hn⟩ := hadds.exists_eq_ok hroom
    exact hlinked.exists_addElement_eq_ok hm.isEmpty hn
  · exact addElement_of_insertElement hm.isEmpty (hadds.eq_error hroom)

theorem adds_addElements (hm : m.IsOpen) (hes : ∀ e ∈ es, m.InRange e) :
    Adds es (m.countNew es) m (m.addElements es) := by
  have hlinked := hm.wellFormed.toLinked
  have hadds := hlinked.adds_insertElements hm.fitsWords hm.hasRoom hes 0
  rw [Nat.zero_add] at hadds
  refine ⟨fun hroom => ?_, fun hroom => ?_⟩
  · obtain ⟨n, hn⟩ := hadds.exists_eq_ok hroom
    exact hlinked.exists_addElements_eq_ok hm.isEmpty hm.isLabelled hn
  · exact addElements_of_insertElements hm.isEmpty (hadds.eq_error hroom)

end IsOpen

/-! ### The first matrix -/

theorem exists_pushSentinels_eq_ok {d : Dimension} {i n : Nat}
    (hid : m.positions.size + n ≤ Cell.wordCount) (hposition : i + n ≤ Cell.noPosition) :
    ∃ k, m.pushSentinels d i n = .ok k := by
  induction n generalizing m i with
  | zero => exact ⟨m, rfl⟩
  | succ n ih =>
      have hcheck : Cell.checkId m.positions.size = .ok () := if_pos (by omega)
      obtain ⟨cell, hcell⟩ : ∃ cell, Cell.sentinel m.positions.size d i = .ok cell := by
        rw [Cell.sentinel, hcheck, checkPosition_eq_ok (by omega)]
        exact ⟨_, rfl⟩
      have hsize : (m.pushCell cell).positions.size = m.positions.size + 1 := Array.size_push _
      obtain ⟨k, hk⟩ := ih (m := m.pushCell cell) (i := i + 1) (by omega) (by omega)
      refine ⟨k, ?_⟩
      rw [pushSentinels, hcell]
      exact hk

theorem size_le_of_pushSentinels {d : Dimension} {i n : Nat} (h : m.pushSentinels d i n = .ok k)
    (hsize : m.positions.size ≤ Cell.wordCount) : k.positions.size ≤ Cell.wordCount := by
  induction n generalizing m i with
  | zero =>
      cases h
      exact hsize
  | succ n ih =>
      obtain ⟨cell, hcell, hk⟩ := bind_eq_ok_iff.1 h
      obtain ⟨_, hcheck, -⟩ := bind_eq_ok_iff.1 hcell
      refine ih hk ?_
      rw [Cell.checkId] at hcheck
      split at hcheck
      · rename_i hlt
        exact (Array.size_push _).trans_le hlt
      · cases hcheck

/-- The sentinels of a matrix have numbers, and so do some elements. -/
structure FitsCells (rows columns : Nat) (E : Finset (Nat × Nat)) : Prop where
  rows_le : rows ≤ Cell.noPosition
  columns_le : columns ≤ Cell.noPosition
  cells_le : rows + columns + E.card ≤ Cell.wordCount

theorem FitsCells.exists_zero_eq_ok {E : Finset (Nat × Nat)}
    (h : FitsCells rows costs.length E) : ∃ m, zero rows costs = .ok m := by
  have hcells := h.cells_le
  obtain ⟨m, hm⟩ := exists_pushSentinels_eq_ok (d := .row) (i := 0) (n := rows)
    (m := {
      positions := #[]
      rings := .both ⟨#[]⟩
      headers := ⟨.excluded .row rows, .excluded .column costs.length⟩
      costs := costs.toArray
      journal := {}
      marks := ⟨.unset rows, .unset costs.length⟩ })
    (by simp only [List.size_toArray, List.length_nil]; omega) (by have := h.rows_le; omega)
  have hsize := (prefixed_of_pushSentinels hm).size_positions
  simp only [List.size_toArray, List.length_nil, Nat.zero_add] at hsize
  obtain ⟨k, hk⟩ := exists_pushSentinels_eq_ok (m := m) (d := .column) (i := 0) (n := costs.length)
    (by omega) (by have := h.columns_le; omega)
  exact ⟨k, bind_eq_ok_iff.2 ⟨m, hm, hk⟩⟩

theorem Initial.contents_eq (h : Initial rows costs m) : m.contents = ∅ := by
  rw [contents, h.elements_eq]
  rfl

theorem Initial.fitsCells_iff (h : Initial rows costs m) (hfit : m.FitsWords) :
    FitsCells rows costs.length es.toFinset ↔ m.HasRoom es := by
  rw [HasRoom, h.contents_eq, Finset.empty_union, h.numRows_eq, h.numColumns_eq]
  refine ⟨FitsCells.cells_le, fun hcells => ⟨?_, ?_, hcells⟩⟩
  · exact h.numRows_eq ▸ hfit.size_le .row
  · exact h.numColumns_eq ▸ hfit.size_le .column

theorem isOpen_of_zero (hcosts : ∀ c ∈ costs, c < Cost.limit) (h : zero rows costs = .ok m) :
    m.IsOpen := by
  have hinitial := initial_of_zero h
  have hlayout := hinitial.wellFormed.toLayout
  refine ⟨hinitial.wellFormed, ?_, isLabelled_of_zero h, fitsWords_of_zero hcosts h, ?_⟩
  · rw [hinitial.journal_eq]
    rfl
  · rw [HasRoom, List.toFinset_nil, Finset.union_empty, ← hlayout.size_positions_eq]
    obtain ⟨n, hn, hm⟩ := bind_eq_ok_iff.1 h
    exact size_le_of_pushSentinels hm (size_le_of_pushSentinels hn (Nat.zero_le _))

/-! ### What is built -/

/-- The two matrices hold the same.  Their rings list the same rows and columns in the same order,
in both directions, whatever the numbers of the cells are. -/
structure Agree (m n : Matrix) : Prop where
  size_eq : ∀ d, (m.headers.get d).size = (n.headers.get d).size
  costs_eq : m.costs = n.costs
  active_eq : m.active = n.active
  line_eq : ∀ d i, i < (m.headers.get d).size → m.line d i = n.line d i
  exists_rings : ∀ d i, i < (m.headers.get d).size → ∃ as bs,
    (m.rings.get d).IsRing (m.sentinel d i) as ∧ (n.rings.get d).IsRing (n.sentinel d i) bs ∧
    as.map (m.position d.other) = bs.map (n.position d.other)
  count_eq : ∀ d i, i < (m.headers.get d).size → m.count d i = n.count d i
  isDeleted_eq : ∀ d i, i < (m.headers.get d).size → m.isDeleted d i = n.isDeleted d i

theorem SameElements.agree (h : m.SameElements n) (hm : m.WellFormed []) (hn : n.WellFormed []) :
    Agree m n := by
  have hline : ∀ d i, i < (m.headers.get d).size → m.line d i = n.line d i := by
    intro d i hi
    have hi' : i < (n.headers.get d).size := h.size_eq d ▸ hi
    refine List.Pairwise.eq_of_mem_iff (hm.ascending d i hi) (hn.ascending d i hi') fun j => ?_
    rw [hm.toLinked.mem_line_iff hi, hn.toLinked.mem_line_iff hi', h.meets_eq]
  refine ⟨h.size_eq, h.costs_eq, h.active_eq, hline, fun d i hi => ?_, fun d i hi => ?_,
    fun d i hi => ?_⟩
  · have hi' : i < (n.headers.get d).size := h.size_eq d ▸ hi
    exact ⟨_, _, hm.isRing d i hi, hn.isRing d i hi', hline d i hi⟩
  · have hi' : i < (n.headers.get d).size := h.size_eq d ▸ hi
    rw [hm.toLinked.count_eq_length hi, hn.toLinked.count_eq_length hi', hline d i hi]
  · exact h.isDeleted_eq hm hn hi

end Matrix

/-! ### Plans -/

/-- A call that adds elements. -/
inductive Addition where
  | element (row column : Nat)
  | batch (elements : List (Nat × Nat))
deriving DecidableEq, Repr

/-- What a call that adds elements returns. -/
inductive Answer where
  | isNew (isNew : Bool)
  | added (n : Nat)
deriving DecidableEq, Repr

namespace Addition

def elements : Addition → List (Nat × Nat)
  | element row column => [(row, column)]
  | batch elements => elements

/-- Makes the call. -/
def run (m : Matrix) : Addition → Except Fault (Answer × Matrix)
  | element row column => do
    let (isNew, m) ← m.addElement row column
    return (.isNew isNew, m)
  | batch elements => do
    let (added, m) ← m.addElements elements
    return (.added added, m)

/-- Makes calls, one after the other. -/
def runAll (m : Matrix) : List Addition → Except Fault (List Answer × Matrix)
  | [] => .ok ([], m)
  | a :: rest => do
    let (answer, m) ← a.run m
    let (answers, m) ← runAll m rest
    return (answer :: answers, m)

/-- What the call should return if the elements `E` are there: whether the element is not one of
them, or how many different ones of the batch are not. -/
def answer (E : Finset (Nat × Nat)) : Addition → Answer
  | element row column => .isNew ((row, column) ∉ E)
  | batch elements => .added (elements.toFinset \ E).card

/-- What calls should return one after the other. -/
def answers (E : Finset (Nat × Nat)) : List Addition → List Answer
  | [] => []
  | a :: rest => a.answer E :: answers (E ∪ a.elements.toFinset) rest

end Addition

/-- A way to build a matrix: the elements that it is made with, and calls that add others. -/
structure Plan where
  first : List (Nat × Nat)
  additions : List Addition
deriving DecidableEq, Repr

variable {rows : Nat} {costs : List Nat} {m₀ m n k : Matrix} {E F : List (Nat × Nat)}
variable {a : Addition} {as : List Addition}

/-! ### Calls -/

namespace Matrix

theorem IsOpen.adds_run (hm : m.IsOpen) (ha : ∀ e ∈ a.elements, m.InRange e) :
    Adds a.elements (a.answer m.contents) m (a.run m) := by
  cases a with
  | element row column =>
      exact (hm.adds_addElement (ha (row, column) List.mem_cons_self)).map Answer.isNew
  | batch elements => exact (hm.adds_addElements ha).map Answer.added

theorem IsOpen.of_run {answer : Answer} (hm : m.IsOpen) (hroom : m.HasRoom a.elements)
    (hk : a.run m = .ok (answer, k)) : k.IsOpen ∧ Extended a.elements m k := by
  cases a with
  | element row column =>
      obtain ⟨⟨isNew, n⟩, hn, hk⟩ := bind_eq_ok_iff.1 hk
      cases hk
      exact hm.addElement hroom hn
  | batch elements =>
      obtain ⟨⟨added, n⟩, hn, hk⟩ := bind_eq_ok_iff.1 hk
      cases hk
      exact hm.addElements hroom hn

theorem Reachable.run {answer : Answer} (hm : Reachable E m) (hk : a.run m = .ok (answer, k)) :
    Reachable (E ++ a.elements) k := by
  cases a with
  | element row column =>
      obtain ⟨⟨isNew, n⟩, hn, hk⟩ := bind_eq_ok_iff.1 hk
      cases hk
      exact hm.addElement hn
  | batch elements =>
      obtain ⟨⟨added, n⟩, hn, hk⟩ := bind_eq_ok_iff.1 hk
      cases hk
      exact hm.addElements hn

theorem IsOpen.adds_runAll (hm : m.IsOpen)
    (has : ∀ e ∈ as.flatMap Addition.elements, m.InRange e) :
    Adds (as.flatMap Addition.elements) (Addition.answers m.contents as) m
      (Addition.runAll m as) := by
  induction as generalizing m with
  | nil => exact ⟨fun _ => ⟨m, rfl⟩, fun h => absurd hm.hasRoom h⟩
  | cons a as ih =>
      rw [List.flatMap_cons] at has ⊢
      refine (hm.adds_run fun e he => has e (List.mem_append_left _ he)).bind fun k hroom hk => ?_
      obtain ⟨hopen, hextended⟩ := hm.of_run hroom hk
      refine ⟨hextended, ?_⟩
      have hadds := ih hopen fun e he =>
        hextended.inRange_iff.2 (has e (List.mem_append_right _ he))
      rw [hextended.contents_eq] at hadds
      exact hadds.map (a.answer m.contents :: ·)

theorem IsOpen.of_runAll {answers : List Answer} (hm : m.IsOpen)
    (hroom : m.HasRoom (as.flatMap Addition.elements))
    (hk : Addition.runAll m as = .ok (answers, k)) :
    k.IsOpen ∧ Extended (as.flatMap Addition.elements) m k := by
  induction as generalizing m answers with
  | nil =>
      cases hk
      exact ⟨hm, .refl _⟩
  | cons a as ih =>
      rw [List.flatMap_cons] at hroom ⊢
      obtain ⟨⟨answer, n⟩, hn, hk⟩ := bind_eq_ok_iff.1 hk
      obtain ⟨⟨answers', k'⟩, hk', hk⟩ := bind_eq_ok_iff.1 hk
      cases hk
      obtain ⟨hopen, hextended⟩ := hm.of_run hroom.of_append hn
      obtain ⟨hopen', hextended'⟩ := ih hopen (hextended.hasRoom_iff.2 hroom) hk'
      exact ⟨hopen', hextended.trans hextended'⟩

theorem Reachable.runAll {answers : List Answer} (hm : Reachable E m)
    (hk : Addition.runAll m as = .ok (answers, k)) :
    Reachable (E ++ as.flatMap Addition.elements) k := by
  induction as generalizing m E answers with
  | nil =>
      cases hk
      rwa [List.flatMap_nil, List.append_nil]
  | cons a as ih =>
      obtain ⟨⟨answer, n⟩, hn, hk⟩ := bind_eq_ok_iff.1 hk
      obtain ⟨⟨answers', k'⟩, hk', hk⟩ := bind_eq_ok_iff.1 hk
      cases hk
      rw [List.flatMap_cons, ← List.append_assoc]
      exact ih (hm.run hn) hk'

/-- Matrices that the same elements were added to are in step. -/
theorem inStep_of_extended (hm : m.IsOpen) (hn : n.IsOpen) (hm' : Reachable E m)
    (hn' : Reachable F n) (hE : Extended E m₀ m) (hF : Extended F m₀ n)
    (hsame : ∀ e, e ∈ E ↔ e ∈ F) : InStep True m n := by
  have helements : ∀ a, a ∈ m.elements ↔ a ∈ n.elements := by
    intro a
    rw [hE.mem_elements, hF.mem_elements, hsame]
  exact
    { sameElements := sameElements_of_mem_iff hm.wellFormed hn.wellFormed
        (fun d => (hE.size_eq d).trans (hF.size_eq d).symm) (hE.costs_eq.trans hF.costs_eq.symm)
        helements
      marks_eq := hF.marks_eq.trans hE.marks_eq.symm
      isValid_left := hm'.holds.grounded.isValid
      isValid_right := hn'.holds.grounded.isValid
      isCompared_left := hm'.isCompared
      isCompared_right := hn'.isCompared
      eq_or := .inr trivial }

theorem IsOpen.mem_active_of_mem (hm : m.IsOpen) (hm' : Reachable E m) (r c : Nat)
    (h : (r, c) ∈ E) : r ∈ m.active .row := by
  rw [hm.wellFormed.mem_active]
  exact ⟨hm'.holds.hasElement_iff.2 ⟨c, h⟩, List.not_mem_nil⟩

end Matrix

namespace Plan

def elements (p : Plan) : List (Nat × Nat) := p.first ++ p.additions.flatMap Addition.elements

def answers (p : Plan) : List Answer := Addition.answers p.first.toFinset p.additions

def build (rows : Nat) (costs : List Nat) (p : Plan) : Except Fault (List Answer × Matrix) := do
  let m ← Matrix.ofElements rows costs p.first
  Addition.runAll m p.additions

variable {p q : Plan} {answers : List Answer}

theorem build_of_zero (hm₀ : zero rows costs = .ok m₀) : p.build rows costs =
    m₀.addElements p.first >>= fun x => Addition.runAll x.2 p.additions := by
  rw [build, Matrix.ofElements, hm₀, ok_bind, bind_assoc]
  rfl

/-- A plan succeeds, and its calls return what they should, if there is room for its elements. -/
theorem adds_build (hcosts : ∀ c ∈ costs, c < Cost.limit) (hm₀ : zero rows costs = .ok m₀)
    (hp : ∀ e ∈ p.elements, m₀.InRange e) :
    Adds p.elements p.answers m₀ (p.build rows costs) := by
  have hopen := isOpen_of_zero hcosts hm₀
  rw [build_of_zero hm₀]
  refine (hopen.adds_addElements fun e he => hp e (List.mem_append_left _ he)).bind
    fun k hroom hk => ?_
  obtain ⟨hopen', hextended⟩ := hopen.addElements hroom hk
  refine ⟨hextended, ?_⟩
  have hadds := hopen'.adds_runAll fun e he =>
    hextended.inRange_iff.2 (hp e (List.mem_append_right _ he))
  rwa [hextended.contents_eq, (initial_of_zero hm₀).contents_eq, Finset.empty_union] at hadds

/-- What a plan builds has the elements of the plan. -/
theorem of_build (hcosts : ∀ c ∈ costs, c < Cost.limit) (hm₀ : zero rows costs = .ok m₀)
    (hroom : m₀.HasRoom p.elements) (hm : p.build rows costs = .ok (answers, m)) :
    m.IsOpen ∧ Extended p.elements m₀ m ∧ Reachable p.elements m := by
  have hopen := isOpen_of_zero hcosts hm₀
  have hbuild := hm
  rw [build_of_zero hm₀] at hbuild
  obtain ⟨⟨added, k⟩, hk, hbuild⟩ := bind_eq_ok_iff.1 hbuild
  obtain ⟨hopen', hextended⟩ := hopen.addElements hroom.of_append hk
  have hreachable : Reachable p.first k := by
    refine .ofElements hcosts (?_ : Matrix.ofElements rows costs p.first = _)
    rw [Matrix.ofElements, hm₀, ok_bind, hk]
    rfl
  obtain ⟨hopen'', hextended'⟩ := hopen'.of_runAll (hextended.hasRoom_iff.2 hroom) hbuild
  exact ⟨hopen'', hextended.trans hextended', hreachable.runAll hbuild⟩

end Plan

end SetCover
