import SetCover.Bound.LowerBound
import SetCover.Proofs.Matrix.Looks
import SetCover.Selection.Selector

/-!
# Tables that are kept

Selectors and lower bounds keep tables from one use to the next, of a size that fits the matrix they
were used on.  Every use overwrites all it reads, so a choice or an estimate depends on the kind and
on the matrix alone; and only on what the matrix shows to whoever follows its lines.
-/

namespace SetCover

open SetCover.Matrix

variable {m n : Matrix}

/-! ### Selectors -/

/-- The kind of a selector. -/
def Selector.kind : Selector → SelectionRule
  | naive => .naive
  | weighted _ => .simple
  | costSensitive _ => .cs

@[simp] theorem Selector.kind_ofKind (rule : SelectionRule) : (ofKind rule).kind = rule := by
  cases rule <;> rfl

theorem TieBreaker.selectBy_congr {α β : Type} [LT β] [DecidableLT β] {d : Direction}
    {score score' : α → β} {candidates : List α} (h : ∀ c ∈ candidates, score c = score' c) :
    selectBy d score candidates = selectBy d score' candidates := by
  rw [selectBy, selectBy, List.foldl_ext _ _ _ fun t c hc => by rw [h c hc]]

namespace Matrix

theorem totalCost_congr (h : m.costs = n.costs) (columns : List Nat) :
    m.totalCost columns = n.totalCost columns := by
  simp only [totalCost, getCost, costOf, h]

theorem coverOf_congr (h : m.costs = n.costs) (columns : List Nat) :
    m.coverOf columns = n.coverOf columns := by
  rw [coverOf, coverOf, totalCost_congr h]

theorem mem_active_of_mem_candidates {c : Nat} (hc : c ∈ m.candidates) : c ∈ m.active .column :=
  (List.mem_filter.1 hc).1

namespace LooksLike

variable {r c : Nat}

theorem numRows_eq (h : m.LooksLike n) : m.numRows = n.numRows := h.size_eq .row

theorem candidates_eq (h : m.LooksLike n) : m.candidates = n.candidates :=
  h.filter_active_eq .column (0 < ·)

theorem rowTable_eq (h : m.LooksLike n) (buffer buffer' : Array Float) {value value' : Nat → Float}
    (hvalue : ∀ r ∈ m.active .row, value r = value' r) :
    m.rowTable buffer value = n.rowTable buffer' value' := by
  rw [rowTable, rowTable, refill_eq_replicate, refill_eq_replicate, ← h.active_eq, h.numRows_eq]
  exact List.foldl_ext _ _ _ fun table r hr => by rw [hvalue r hr]

theorem sumOver_eq (h : m.LooksLike n) (hc : c ∈ m.active .column) (table : Array Float) :
    m.sumOver table c = n.sumOver table c := by
  rw [sumOver, sumOver, h.line_eq_of_mem_active hc]

theorem leastShare?_eq (h : m.LooksLike n) (hr : r ∈ m.active .row) :
    m.leastShare? r = n.leastShare? r := by
  rw [leastShare?, leastShare?, ← h.line_eq_of_mem_active hr]
  refine congrArg Share.least? (List.map_congr_left fun c hc => ?_)
  rw [share, share, h.costOf_eq, h.count_eq .column c (.line (.active hr) hc)]

theorem weight_eq (h : m.LooksLike n) (hr : r ∈ m.active .row) : m.weight r = n.weight r := by
  rw [weight, weight, h.count_eq_of_mem_active hr]

theorem charge_eq (h : m.LooksLike n) (hr : r ∈ m.active .row) : m.charge r = n.charge r := by
  rw [charge, charge, h.leastShare?_eq hr]

theorem weightScore_eq (h : m.LooksLike n) (hc : c ∈ m.active .column) (weights : Array Float) :
    m.weightScore weights c = n.weightScore weights c := by
  rw [weightScore, weightScore, h.costOf_eq, h.sumOver_eq hc]

theorem excessScore_eq (h : m.LooksLike n) (hc : c ∈ m.active .column) (charges : Array Float) :
    m.excessScore charges c = n.excessScore charges c := by
  rw [excessScore, excessScore, h.costOf_eq, h.sumOver_eq hc]

end LooksLike

end Matrix

/-- Selectors of one kind choose alike on matrices that look alike, and then have the same
table. -/
theorem Selector.select_eq {s t : Selector} (h : m.LooksLike n) (hkind : s.kind = t.kind) :
    s.select m = t.select n := by
  cases s <;> cases t
  case naive.naive =>
    rw [select, select, ← h.candidates_eq, TieBreaker.selectBy_congr fun c hc =>
      h.count_eq_of_mem_active (mem_active_of_mem_candidates hc)]
  case weighted.weighted weights weights' =>
    have htable : m.rowTable weights m.weight = n.rowTable weights' n.weight :=
      h.rowTable_eq weights weights' fun r hr => h.weight_eq hr
    rw [select, select, ← h.candidates_eq, ← htable, TieBreaker.selectBy_congr fun c hc =>
      h.weightScore_eq (mem_active_of_mem_candidates hc) _]
  case costSensitive.costSensitive charges charges' =>
    have htable : m.rowTable charges m.charge = n.rowTable charges' n.charge :=
      h.rowTable_eq charges charges' fun r hr => h.charge_eq hr
    rw [select, select, ← h.candidates_eq, ← htable, TieBreaker.selectBy_congr fun c hc =>
      h.excessScore_eq (mem_active_of_mem_candidates hc) _]
  all_goals exact nomatch hkind

@[simp] theorem Selector.kind_select (s : Selector) (m : Matrix) :
    (s.select m).2.kind = s.kind := by
  cases s <;> rfl

/-! ### Independent rows -/

theorem ConflictGraph.emptied_eq_replicate (tables : Array (Array Nat)) (n : Nat) :
    emptied tables n = Array.replicate n #[] := by
  have hempty : (tables.map (·.shrink 0)).shrink n = Array.replicate (min n tables.size) #[] := by
    refine Array.ext (by simp) fun i hi hi' => ?_
    simp
  rw [emptied, pushTimes_eq_append, hempty, Array.replicate_append_replicate]
  congr 1
  omega

theorem ConflictGraph.explore_eq (h : m.LooksLike n) (g : ConflictGraph) (v : Nat) {r : Nat}
    (hr : r ∈ m.active .row) : g.explore m v r = g.explore n v r := by
  have hlines : (m.line .row r).flatMap (m.line .column) =
      (m.line .row r).flatMap (n.line .column) :=
    List.flatMap_congr fun c hc => h.line_eq .column c (.line (.active hr) hc)
  rw [explore, explore, ← h.line_eq_of_mem_active hr, hlines, h.costOf_eq]

theorem ConflictGraph.refresh_eq (h : m.LooksLike n) (g g' : ConflictGraph) :
    g.refresh m = g'.refresh n := by
  have hvertices : g.vertices m = g'.vertices n := by
    simp only [vertices, emptied_eq_replicate, refill_eq_replicate, h.active_eq, h.numRows_eq]
    simp
  rw [refresh, refresh, ← hvertices]
  refine List.foldl_ext _ _ _ fun g vertex hvertex => ?_
  exact g.explore_eq h vertex.2 (List.fst_mem_of_mem_zipIdx hvertex)

theorem IndependentScan.estimate_eq (h : m.LooksLike n) (s t : IndependentScan) :
    s.estimate m = t.estimate n := by
  have hstart : s.start m = t.start n := by
    simp only [start, ConflictGraph.refresh_eq h s.graph t.graph, refill_eq_replicate]
    simp
  rw [estimate, estimate, hstart]

theorem Heap.clear_eq (h k : Heap) : h.clear = k.clear := by
  simp [clear, Arena.clear]

theorem IndependentQueue.estimate_eq (h : m.LooksLike n) (s t : IndependentQueue) :
    s.estimate m = t.estimate n := by
  have hstart : s.start m = t.start n := by
    simp only [start, ConflictGraph.refresh_eq h s.graph t.graph, s.heap.clear_eq t.heap]
  rw [estimate, estimate, hstart]

/-! ### Lower bounds -/

/-- The kind of an estimator. -/
def Estimator.kind : Estimator → BoundKind
  | split => .split
  | mis _ => .mis
  | misHeap _ => .misHeap

@[simp] theorem Estimator.kind_ofKind (kind : BoundKind) : (ofKind kind).kind = kind := by
  cases kind <;> rfl

theorem Matrix.LooksLike.shareBound_eq (h : m.LooksLike n) : m.shareBound = n.shareBound := by
  rw [shareBound, shareBound, ← h.active_eq, List.filterMap_congr fun r hr => h.leastShare?_eq hr]

/-- Estimators of one kind agree on matrices that look alike, and then have the same tables. -/
theorem Estimator.estimate_eq {e f : Estimator} (h : m.LooksLike n) (hkind : e.kind = f.kind) :
    e.estimate m = f.estimate n := by
  cases e <;> cases f
  case split.split => simp only [estimate, h.shareBound_eq]
  case mis.mis s t => simp only [estimate, IndependentScan.estimate_eq h s t]
  case misHeap.misHeap s t => simp only [estimate, IndependentQueue.estimate_eq h s t]
  all_goals exact nomatch hkind

theorem Estimator.kind_of_estimate {e f : Estimator} {bound : Nat}
    (h : e.estimate m = .ok (bound, f)) : f.kind = e.kind := by
  cases e with
  | split =>
      cases h
      rfl
  | mis tables =>
      obtain ⟨⟨bound', tables'⟩, -, h⟩ := bind_eq_ok_iff.1 h
      cases h
      rfl
  | misHeap tables =>
      obtain ⟨⟨bound', tables'⟩, -, h⟩ := bind_eq_ok_iff.1 h
      cases h
      rfl

namespace LowerBound

/-- The kinds of the estimators of a lower bound, in their order. -/
def kinds (l : LowerBound) : List BoundKind := l.estimators.map Estimator.kind

@[simp] theorem kinds_ofKinds (kinds : List BoundKind) : (ofKinds kinds).kinds = kinds := by
  simp [ofKinds, LowerBound.kinds, Function.comp_def]

theorem estimateFrom_eq {es fs : List Estimator} (h : m.LooksLike n)
    (hkinds : es.map Estimator.kind = fs.map Estimator.kind) (best : Nat) :
    estimateFrom m best es = estimateFrom n best fs := by
  induction es generalizing fs best with
  | nil =>
      obtain rfl := List.map_eq_nil_iff.1 hkinds.symm
      rfl
  | cons e es ih =>
      cases fs with
      | nil => exact nomatch hkinds
      | cons f fs =>
          obtain ⟨hkind, hkinds⟩ := List.cons.inj hkinds
          simp only [estimateFrom, Estimator.estimate_eq h hkind, ih hkinds]

/-- Lower bounds of the same kinds agree on matrices that look alike, and then have the same
tables. -/
theorem estimate_eq {l k : LowerBound} (h : m.LooksLike n) (hkinds : l.kinds = k.kinds) :
    l.estimate m = k.estimate n := by
  rw [estimate, estimate, estimateFrom_eq h hkinds]

theorem kinds_of_estimateFrom {es fs : List Estimator} {best bound : Nat}
    (h : estimateFrom m best es = .ok (bound, fs)) :
    fs.map Estimator.kind = es.map Estimator.kind := by
  induction es generalizing best bound fs with
  | nil =>
      cases h
      rfl
  | cons e es ih =>
      simp only [estimateFrom, bind_eq_ok_iff] at h
      obtain ⟨⟨bound', f⟩, hf, ⟨bound'', rest⟩, hrest, h⟩ := h
      cases h
      rw [List.map_cons, List.map_cons, ih hrest, Estimator.kind_of_estimate hf]

theorem kinds_of_estimate {l k : LowerBound} {bound : Nat}
    (h : l.estimate m = .ok (bound, k)) : k.kinds = l.kinds := by
  simp only [estimate, bind_eq_ok_iff] at h
  obtain ⟨⟨bound', es⟩, hes, h⟩ := h
  cases h
  exact kinds_of_estimateFrom hes

end LowerBound

end SetCover
