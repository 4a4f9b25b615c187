import Mathlib.Data.List.Find
import SetCover.Proofs.Bound.Degrees
import SetCover.Proofs.Reachable

/-!
# The rule of minimum degree

The rule takes rows one after the other.  Of the rows that remain it takes one that is in conflict
with the fewest of them, counted anew each time, and then removes it with all rows in conflict with
it.  `minimumDegreeRows` takes the first such row each time, and `FollowsRule` allows any.

The scan takes the rows of `minimumDegreeRows`, and the heap follows the rule.  Rows that are taken
by the rule have no column in common, and no further row could be added to them.
-/

namespace SetCover

/-- The sum of costs, which may not fit a cost. -/
def Cost.sum (costs : List Nat) : Except Fault Nat :=
  if costs.sum < Cost.limit then .ok costs.sum else .error .overflow

namespace Matrix

variable {m : Matrix} {J : List Deletion} {r r' : Nat} {rows taken : List Nat}

/-! ### The rule -/

/-- Whether two different rows have an active column in common. -/
def areInConflict (m : Matrix) (r r' : Nat) : Bool :=
  r != r' && (m.active .column).any fun c => (m.line .row r).contains c && (m.line .row r').contains c

/-- The number of rows among some that a row is in conflict with. -/
def degreeAmong (m : Matrix) (rows : List Nat) (r : Nat) : Nat := rows.countP (m.areInConflict r)

/-- What remains of some rows without a row and those in conflict with it. -/
def without (m : Matrix) (rows : List Nat) (r : Nat) : List Nat :=
  rows.filter fun r' => r' != r && !m.areInConflict r r'

/-- Row `r` is in conflict with the fewest among some rows. -/
def IsLeast (m : Matrix) (rows : List Nat) (r : Nat) : Prop :=
  r ∈ rows ∧ ∀ r' ∈ rows, m.degreeAmong rows r ≤ m.degreeAmong rows r'

/-- The first row that is in conflict with the fewest among some rows. -/
def firstLeast? (m : Matrix) (rows : List Nat) : Option Nat :=
  rows.find? fun r => rows.all fun r' => m.degreeAmong rows r ≤ m.degreeAmong rows r'

theorem isLeast_of_firstLeast? (h : m.firstLeast? rows = some r) : m.IsLeast rows r := by
  obtain ⟨hleast, -⟩ := List.find?_eq_some_iff_append.1 h
  exact ⟨List.mem_of_find?_eq_some h, by simpa using hleast⟩

theorem length_without_lt (hr : r ∈ rows) : (m.without rows r).length < rows.length := by
  refine List.length_filter_lt_length_iff_exists.2 ⟨r, hr, by simp⟩

/-- The first row of minimum degree is taken, and it is removed with the rows in conflict with it,
until none remains. -/
def minimumDegreeRows (m : Matrix) (rows : List Nat) : List Nat :=
  match _h : m.firstLeast? rows with
  | none => []
  | some r => r :: m.minimumDegreeRows (m.without rows r)
termination_by rows.length
decreasing_by exact length_without_lt (isLeast_of_firstLeast? _h).1

/-- Some row of minimum degree is taken, and it is removed with the rows in conflict with it, until
none remains. -/
inductive FollowsRule (m : Matrix) : List Nat → List Nat → Prop
  | done : FollowsRule m [] []
  | take {rows taken : List Nat} {r : Nat} :
      m.IsLeast rows r → FollowsRule m (m.without rows r) taken → FollowsRule m rows (r :: taken)

/-- At each step there is only one row of minimum degree. -/
inductive HasNoTies (m : Matrix) : List Nat → Prop
  | done : HasNoTies m []
  | take {rows : List Nat} {r : Nat} :
      m.IsLeast rows r → (∀ r', m.IsLeast rows r' → r' = r) → HasNoTies m (m.without rows r) →
        HasNoTies m rows

/-- Rows no two of which have an active column in common, and to which no row can be added. -/
structure IsMaximallyIndependent (m : Matrix) (rows taken : List Nat) : Prop where
  subset : taken ⊆ rows
  pairwise : taken.Pairwise fun r r' => r ≠ r' ∧ m.areInConflict r r' = false
  maximal : ∀ r ∈ rows, r ∈ taken ∨ ∃ r' ∈ taken, m.areInConflict r' r = true

theorem minimumDegreeRows_of_none (h : m.firstLeast? rows = none) :
    m.minimumDegreeRows rows = [] := by
  rw [minimumDegreeRows]
  split
  · rfl
  · rename_i r hr
    exact nomatch h.symm.trans hr

theorem minimumDegreeRows_of_some (h : m.firstLeast? rows = some r) :
    m.minimumDegreeRows rows = r :: m.minimumDegreeRows (m.without rows r) := by
  rw [minimumDegreeRows]
  split
  · rename_i hr
    exact nomatch h.symm.trans hr
  · rename_i r' hr
    cases h.symm.trans hr
    rfl

/-- The first of the least, in other words. -/
theorem minOn?_eq_find? (f : Nat → Nat) (xs : List Nat) :
    xs.minOn? f = xs.find? fun x => xs.all fun y => f x ≤ f y := by
  induction xs with
  | nil => rfl
  | cons x xs ih =>
      rw [List.minOn?_cons, List.find?_cons, ih]
      cases hmin : xs.find? (fun x => xs.all fun y => f x ≤ f y) with
      | none =>
          have hnil : xs = [] := by
            by_contra hne
            have hsome := List.isSome_minOn?_iff (f := f).2 hne
            rw [ih, hmin] at hsome
            cases hsome
          simp [hnil]
      | some y =>
          have hleast := List.find?_some hmin
          simp only [List.all_eq_true, decide_eq_true_eq] at hleast
          rw [Option.elim_some, minOn]
          split_ifs with hle
          · have hall : ((x :: xs).all fun z => f x ≤ f z) = true := by
              simpa using fun z hz => hle.trans (hleast z hz)
            rw [hall]
          · have hnone : ((x :: xs).all fun z => f x ≤ f z) = false := by
              rw [List.all_eq_false]
              exact ⟨y, List.mem_cons_of_mem _ (List.mem_of_find?_eq_some hmin), by simpa using hle⟩
            rw [hnone]
            dsimp only
            rw [← hmin]
            -- what is least in the tail is less than `x`
            refine List.find?_congr fun z hz => ?_
            rw [List.all_cons]
            cases hz' : xs.all fun w => f z ≤ f w with
            | false => rw [Bool.and_false]
            | true =>
                simp only [List.all_eq_true, decide_eq_true_eq] at hz'
                have hzy := hz' y (List.mem_of_find?_eq_some hmin)
                simp
                omega

theorem firstLeast?_eq_none (h : m.firstLeast? rows = none) : rows = [] := by
  rw [firstLeast?, ← minOn?_eq_find?] at h
  by_contra hne
  have hsome := List.isSome_minOn?_iff (f := m.degreeAmong rows).2 hne
  rw [h] at hsome
  cases hsome

/-! ### What follows from the rule -/

/-- Taking the first row of minimum degree follows the rule. -/
theorem followsRule_minimumDegreeRows (m : Matrix) (rows : List Nat) :
    FollowsRule m rows (m.minimumDegreeRows rows) := by
  induction hlength : rows.length using Nat.strongRecOn generalizing rows with
  | ind n ih =>
      cases hleast : m.firstLeast? rows with
      | none =>
          rw [minimumDegreeRows_of_none hleast, firstLeast?_eq_none hleast]
          exact .done
      | some r =>
          have hr := isLeast_of_firstLeast? hleast
          rw [minimumDegreeRows_of_some hleast]
          exact .take hr (ih _ (hlength ▸ length_without_lt hr.1) _ rfl)

theorem mem_without_iff : r' ∈ m.without rows r ↔
    r' ∈ rows ∧ r' ≠ r ∧ m.areInConflict r r' = false := by
  simp [without]

/-- Rows that are taken by the rule have no columns in common, and the others each have a column in
common with one of them. -/
theorem FollowsRule.isMaximallyIndependent (h : FollowsRule m rows taken) :
    IsMaximallyIndependent m rows taken := by
  induction h with
  | done => exact ⟨fun _ h => h, .nil, by simp⟩
  | @take rows taken r hleast _ ih =>
      refine ⟨List.cons_subset.2 ⟨hleast.1, fun r' hr' => (mem_without_iff.1 (ih.subset hr')).1⟩,
        List.pairwise_cons.2 ⟨fun r' hr' => ?_, ih.pairwise⟩, fun r' hr' => ?_⟩
      · obtain ⟨-, hne, hconflict⟩ := mem_without_iff.1 (ih.subset hr')
        exact ⟨hne.symm, hconflict⟩
      · by_cases heq : r' = r
        · exact .inl (heq ▸ List.mem_cons_self)
        · cases hconflict : m.areInConflict r r' with
          | true => exact .inr ⟨r, List.mem_cons_self, hconflict⟩
          | false =>
              obtain hmem | ⟨r₁, hr₁, hconflict⟩ :=
                ih.maximal r' (mem_without_iff.2 ⟨hr', heq, hconflict⟩)
              · exact .inl (List.mem_cons_of_mem r hmem)
              · exact .inr ⟨r₁, List.mem_cons_of_mem r hr₁, hconflict⟩

/-- Without ties the rule leaves no choice. -/
theorem HasNoTies.eq_of_followsRule (hties : HasNoTies m rows) (h : FollowsRule m rows taken)
    {taken' : List Nat} (h' : FollowsRule m rows taken') : taken = taken' := by
  induction hties generalizing taken taken' with
  | done =>
      cases h with
      | done =>
          cases h' with
          | done => rfl
          | take hleast => exact nomatch hleast.1
      | take hleast => exact nomatch hleast.1
  | take hleast hunique _ ih =>
      cases h with
      | done => exact nomatch hleast.1
      | take hr hrest =>
          cases h' with
          | done => exact nomatch hleast.1
          | take hr' hrest' =>
              cases hunique _ hr
              cases hunique _ hr'
              rw [ih hrest hrest']

theorem areInConflict_comm (m : Matrix) (r r' : Nat) :
    m.areInConflict r r' = m.areInConflict r' r := by
  rw [areInConflict, areInConflict, bne_comm]
  simp only [Bool.and_comm]

theorem areInConflict_self (m : Matrix) (r : Nat) : m.areInConflict r r = false := by
  simp [areInConflict]

/-- Each row remains, or is in conflict with `r`, or is `r` itself. -/
theorem length_without_add (m : Matrix) (rows : List Nat) (r : Nat) :
    (m.without rows r).length + m.degreeAmong rows r + rows.count r = rows.length := by
  induction rows with
  | nil => rfl
  | cons r' rows ih =>
      rw [List.length_cons, ← ih]
      by_cases heq : r' = r
      · simp [without, degreeAmong, heq, areInConflict_self]
        omega
      · cases hconflict : m.areInConflict r r' with
        | true =>
            simp [without, degreeAmong, heq, hconflict]
            omega
        | false =>
            simp [without, degreeAmong, heq, hconflict]
            omega

/-- There are no ties only among one row at most: the last rows to be removed tie with others. -/
theorem HasNoTies.length_le_one (h : HasNoTies m rows) (hrows : rows.Nodup) : rows.length ≤ 1 := by
  induction h with
  | done => exact Nat.zero_le 1
  | @take rows r hleast hunique _ ih =>
      have hrest : (m.without rows r).length ≤ 1 := ih (hrows.filter _)
      have hsum : ∀ u ∈ rows, (m.without rows u).length + m.degreeAmong rows u + 1 = rows.length :=
        fun u hu => by
          rw [← m.length_without_add rows u, List.count_eq_one_of_mem hrows hu]
      -- a row of which as many remain would tie with `r`
      have hne : ∀ u ∈ rows, u ≠ r → (m.without rows u).length < (m.without rows r).length := by
        intro u hu hur
        by_contra hle
        have hsumr := hsum r hleast.1
        have hsumu := hsum u hu
        refine hur (hunique u ⟨hu, fun r' hr' => le_trans ?_ (hleast.2 r' hr')⟩)
        omega
      have hnone : m.without rows r = [] := by
        refine List.eq_nil_iff_forall_not_mem.2 fun u hu => ?_
        obtain ⟨hmem, hur, hconflict⟩ := mem_without_iff.1 hu
        have hr : r ∈ m.without rows u :=
          mem_without_iff.2 ⟨hleast.1, hur.symm, m.areInConflict_comm u r ▸ hconflict⟩
        have hlt := hne u hmem hur
        have hpos := List.length_pos_of_mem hr
        omega
      have hall : rows ⊆ [r] := fun u hu => by
        by_contra hur
        have hlt := hne u hu (by simpa using hur)
        rw [hnone] at hlt
        exact Nat.not_lt_zero _ hlt
      exact (hrows.subperm hall).length_le

/-! ### Rows of the vertices that remain -/

open ConflictGraph

variable {g : ConflictGraph} {p q : Nat → Bool} {f : Nat → Nat} {v w : Nat}

/-- The row of a vertex of the conflict graph. -/
def rowAt (m : Matrix) (v : Nat) : Nat := (m.active .row).getD v 0

/-- The vertices of which `p` holds. -/
def remaining (m : Matrix) (p : Nat → Bool) : List Nat :=
  (List.range (m.active .row).length).filter p

/-- The rows of the vertices of which `p` holds. -/
def remainingRows (m : Matrix) (p : Nat → Bool) : List Nat := (m.remaining p).map m.rowAt

theorem mem_remaining_iff : v ∈ m.remaining p ↔ v < (m.active .row).length ∧ p v = true := by
  rw [remaining, List.mem_filter, List.mem_range]

theorem remainingRows_of_forall (hp : ∀ v < (m.active .row).length, p v = true) :
    m.remainingRows p = m.active .row := by
  have hall : m.remaining p = List.range (m.active .row).length :=
    List.filter_eq_self.2 fun v hv => hp v (List.mem_range.1 hv)
  rw [remainingRows, hall]
  refine List.ext_getElem (by simp) fun v hv hv' => ?_
  simp [rowAt, hv']

theorem getElem?_active (hv : v < (m.active .row).length) :
    (m.active .row)[v]? = some (m.rowAt v) := by
  simp [rowAt, hv]

/-- The graph keeps the rows of its vertices. -/
theorem getD_rows (hg : Represents m g) (v : Nat) : g.rows.getD v 0 = m.rowAt v := by
  rw [rowAt, ← hg.rows_eq, Array.getD_eq_getD_getElem?, List.getD_eq_getElem?_getD,
    Array.getElem?_toList]

theorem rowAt_eq_iff (hm : m.WellFormed J) (hv : v < (m.active .row).length)
    (hw : w < (m.active .row).length) : m.rowAt v = m.rowAt w ↔ v = w := by
  rw [← List.getElem?_inj hv (hm.nodup_active .row), getElem?_active hv, getElem?_active hw,
    Option.some.injEq]

/-- The conflicts that the graph lists are those of the rows. -/
theorem areInConflict_iff (hm : m.WellFormed J) (hg : Represents m g)
    (hv : v < (m.active .row).length) (hw : w < (m.active .row).length) :
    m.areInConflict (m.rowAt v) (m.rowAt w) = true ↔ w ∈ g.neighboursOf v := by
  have hrv := getElem?_active hv
  have hrw := getElem?_active hw
  rw [hg.mem_neighboursOf_iff, InConflict, areInConflict, Bool.and_eq_true, bne_iff_ne, Ne,
    rowAt_eq_iff hm hv hw]
  refine and_congr_right fun _ => ?_
  simp only [List.any_eq_true, Bool.and_eq_true, List.contains_iff_mem]
  constructor
  · rintro ⟨c, -, hc, hc'⟩
    exact ⟨_, _, c, hrv, hrw, hc, hc'⟩
  · rintro ⟨r, r', c, hr, hr', hc, hc'⟩
    cases hr.symm.trans hrv
    cases hr'.symm.trans hrw
    exact ⟨c, hm.mem_active_of_mem_line (List.mem_of_getElem? hrv) hc, hc, hc'⟩

/-- The conflicts that are counted are those with rows that remain. -/
theorem degreeAmong_remainingRows (hm : m.WellFormed J) (hg : Represents m g) (p : Nat → Bool)
    (hv : v < (m.active .row).length) :
    m.degreeAmong (m.remainingRows p) (m.rowAt v) = g.conflicts p v := by
  rw [degreeAmong, remainingRows, List.countP_map, conflicts, List.countP_eq_length_filter,
    List.countP_eq_length_filter]
  have hnodup : (m.remaining p).Nodup := List.nodup_range.filter _
  refine List.Perm.length_eq ((List.perm_ext_iff_of_nodup (hnodup.filter _)
    ((hg.nodup_neighboursOf v).filter _)).2 fun w => ?_)
  rw [List.mem_filter, mem_remaining_iff, List.mem_filter, Function.comp_apply]
  constructor
  · rintro ⟨⟨hw, hpw⟩, hconflict⟩
    exact ⟨(areInConflict_iff hm hg hv hw).1 hconflict, hpw⟩
  · rintro ⟨hmem, hpw⟩
    have hw := hg.size_eq ▸ hg.lt_size_of_mem hmem
    exact ⟨⟨hw, hpw⟩, (areInConflict_iff hm hg hv hw).2 hmem⟩

/-- To remove a vertex with its neighbours is to remove a row with those in conflict with it. -/
theorem without_remainingRows (hm : m.WellFormed J) (hg : Represents m g)
    (hv : v < (m.active .row).length) (hq : ∀ w < (m.active .row).length,
      q w = true ↔ p w = true ∧ w ≠ v ∧ w ∉ g.neighboursOf v) :
    m.without (m.remainingRows p) (m.rowAt v) = m.remainingRows q := by
  rw [without, remainingRows, List.filter_map, remainingRows, remaining, List.filter_filter]
  refine congrArg _ (List.filter_congr fun w hw => Bool.eq_iff_iff.2 ?_)
  rw [List.mem_range] at hw
  rw [hq w hw, ← areInConflict_iff hm hg hv hw, Bool.and_eq_true, Function.comp_apply,
    Bool.and_eq_true, bne_iff_ne, Ne, rowAt_eq_iff hm hw hv, Bool.not_eq_true', Bool.not_eq_true]
  tauto

/-- The first of the least vertices has the first of the least rows. -/
theorem firstLeast?_remainingRows
    (hf : ∀ v ∈ m.remaining p, m.degreeAmong (m.remainingRows p) (m.rowAt v) = f v) :
    m.firstLeast? (m.remainingRows p) = ((m.remaining p).minOn? f).map m.rowAt := by
  rw [remainingRows] at hf ⊢
  rw [minOn?_eq_find?, firstLeast?, List.find?_map]
  refine congrArg _ (List.find?_congr fun v hv => ?_)
  rw [Function.comp_apply, hf v hv, List.all_map]
  refine Bool.eq_iff_iff.2 ?_
  simp only [List.all_eq_true, Function.comp_apply, decide_eq_true_eq]
  exact forall₂_congr fun w hw => by rw [hf w hw]

/-- What the vertices cost together is the sum of the cheapest columns of their rows. -/
theorem weight_eq_sum (hg : Represents m g) {vs : List Nat}
    (hvs : ∀ v ∈ vs, v < (m.active .row).length) :
    g.weight vs = Cost.sum ((vs.map m.rowAt).map (leastCost m)) := by
  have hsum : ∀ a < Cost.limit, vs.foldlM (fun sum v => Cost.add sum (g.cheapest.getD v 0)) a =
      if a + ((vs.map m.rowAt).map (leastCost m)).sum < Cost.limit then
        .ok (a + ((vs.map m.rowAt).map (leastCost m)).sum) else .error .overflow := by
    induction vs with
    | nil =>
        intro a ha
        rw [List.map_nil, List.map_nil, List.sum_nil, Nat.add_zero, if_pos ha]
        rfl
    | cons v vs ih =>
        intro a ha
        have hrest := ih fun w hw => hvs w (List.mem_cons_of_mem v hw)
        rw [List.foldlM_cons, getD_cheapest hg (getElem?_active (hvs v List.mem_cons_self)),
          List.map_cons, List.map_cons, List.sum_cons, ← Nat.add_assoc]
        by_cases hfits : a + leastCost m (m.rowAt v) < Cost.limit
        · rw [Cost.add_eq_ok_iff.2 ⟨rfl, hfits⟩, ok_bind, hrest _ hfits]
        · rw [Cost.add_eq_error_iff.2 (Nat.le_of_not_lt hfits), if_neg (by omega)]
          rfl
  rw [ConflictGraph.weight, hsum 0 (by decide), Nat.zero_add, Cost.sum]

end Matrix

/-! ### By a scan -/

namespace IndependentScan

open Matrix ConflictGraph

variable {m : Matrix} {J : List Deletion} {s : IndependentScan} {fuel : Nat} {vertices : List Nat}

/-- The rows that the scan takes. -/
def takenRows (s : IndependentScan) (m : Matrix) : Except Fault (List Nat) := do
  let (vs, s) ← (s.start m).choose
  return vs.map (s.graph.rows.getD · 0)

/-- The degrees that the scan keeps are those that the rule counts anew. -/
theorem Counts.firstLeast?_eq (hs : s.Counts m) (hm : m.WellFormed J) :
    m.firstLeast? (m.remainingRows (!s.isRemoved ·)) =
      ((m.remaining (!s.isRemoved ·)).minOn? s.degree).map m.rowAt := by
  refine firstLeast?_remainingRows fun v hv => ?_
  obtain ⟨hlt, hkept⟩ := mem_remaining_iff.1 hv
  rw [degreeAmong_remainingRows hm hs.represents _ hlt, hs.degree_eq v (by simpa using hkept)]

/-- The scan takes the first row of minimum degree each time. -/
theorem Counts.exists_pick_eq_rows (hs : s.Counts m) (hm : m.WellFormed J)
    (hvertices : vertices.filter (!s.isRemoved ·) = m.remaining (!s.isRemoved ·))
    (hfuel : (m.remainingRows (!s.isRemoved ·)).length ≤ fuel) :
    ∃ vs t, s.pick vertices fuel = .ok (vs, t) ∧ t.graph = s.graph ∧
      (∀ v ∈ vs, v < (m.active .row).length) ∧
      vs.map m.rowAt = m.minimumDegreeRows (m.remainingRows (!s.isRemoved ·)) := by
  have hfirst := hs.firstLeast?_eq hm
  induction fuel generalizing s vertices with
  | zero =>
      have hnil := List.length_eq_zero_iff.1 (Nat.le_zero.1 hfuel)
      refine ⟨[], s, rfl, rfl, by simp, ?_⟩
      rw [hnil, minimumDegreeRows_of_none rfl]
      rfl
  | succ fuel ih =>
      cases hmin : (m.remaining (!s.isRemoved ·)).minOn? s.degree with
      | none =>
          rw [hmin] at hfirst
          refine ⟨[], s, ?_, rfl, by simp, (minimumDegreeRows_of_none hfirst).symm⟩
          rw [pick]
          dsimp only
          rw [hvertices, hmin]
      | some v =>
          rw [hmin] at hfirst
          obtain ⟨hlt, hkept⟩ := mem_remaining_iff.1 (List.minOn?_mem hmin)
          obtain ⟨u, htakes⟩ := hs.exists_takes (by simpa using hkept)
          have hgone : ∀ w < (m.active .row).length, (!u.isRemoved w) = true ↔
              (!s.isRemoved w) = true ∧ w ≠ v ∧ w ∉ s.graph.neighboursOf v := by
            intro w hw
            rw [Bool.not_eq_true', Bool.not_eq_true']
            exact htakes.isRemoved_eq w (hs.represents.size_eq ▸ hw)
          have hwithout := without_remainingRows hm hs.represents hlt hgone
          have hshorter := length_without_lt (m := m) (isLeast_of_firstLeast? hfirst).1
          rw [hwithout] at hshorter
          have hrest : (vertices.filter (!s.isRemoved ·)).filter (!u.isRemoved ·) =
              m.remaining (!u.isRemoved ·) := by
            rw [hvertices, remaining, remaining, List.filter_filter]
            refine List.filter_congr fun w hw => Bool.eq_iff_iff.2 ?_
            rw [Bool.and_eq_true, hgone w (List.mem_range.1 hw)]
            tauto
          obtain ⟨vs, t, hpick, hgraph, hvs, hrows⟩ :=
            ih htakes.counts hrest (by omega) (htakes.counts.firstLeast?_eq hm)
          refine ⟨v :: vs, t, ?_, hgraph.trans htakes.graph_eq, ?_, ?_⟩
          · rw [htakes.pick_eq fuel vertices (by rw [hvertices, hmin]), hpick]
            rfl
          · exact List.forall_mem_cons.2 ⟨hlt, hvs⟩
          · rw [List.map_cons, hrows, minimumDegreeRows_of_some hfirst, hwithout]

/-- The rows that the scan takes are those of the rule, and it returns their sum. -/
theorem takenRows_eq (s : IndependentScan) (hm : m.WellFormed J) :
    s.takenRows m = .ok (m.minimumDegreeRows (m.active .row)) ∧
      Prod.fst <$> s.estimate m =
        Cost.sum ((m.minimumDegreeRows (m.active .row)).map (leastCost m)) := by
  have hcounts := s.counts_start hm
  have hg := hcounts.represents
  have hkept : ∀ v, (!(s.start m).isRemoved v) = true := fun v => by
    rw [isRemoved_start]
    rfl
  have hall : m.remainingRows (!(s.start m).isRemoved ·) = m.active .row :=
    remainingRows_of_forall fun v _ => hkept v
  have hvertices : (List.range (s.start m).graph.size).filter (!(s.start m).isRemoved ·) =
      m.remaining (!(s.start m).isRemoved ·) := by rw [remaining, hg.size_eq]
  have hfuel : (m.remainingRows (!(s.start m).isRemoved ·)).length ≤ (s.start m).graph.size := by
    rw [hall, hg.size_eq]
  obtain ⟨vs, t, hpick, hgraph, hvs, hrows⟩ := hcounts.exists_pick_eq_rows hm hvertices hfuel
  rw [hall] at hrows
  have hrepresents : Represents m t.graph := hgraph ▸ hg
  constructor
  · rw [takenRows, choose, hpick, ← hrows]
    exact congrArg Except.ok (List.map_congr_left fun v _ => getD_rows hrepresents v)
  · rw [estimate, choose, hpick, ← hrows, ← weight_eq_sum hrepresents hvs]
    change (Prod.fst <$> do return (← t.graph.weight vs, t)) = _
    cases t.graph.weight vs <;> rfl

end IndependentScan

/-! ### By a heap -/

namespace IndependentQueue

open Matrix ConflictGraph Heap

variable {m : Matrix} {J : List Deletion} {g : ConflictGraph} {heap : Heap} {fuel : Nat}

/-- The rows that are taken by the heap. -/
def takenRows (s : IndependentQueue) (m : Matrix) : Except Fault (List Nat) := do
  let (vs, s) ← (← s.start m).choose
  return vs.map (s.graph.rows.getD · 0)

/-- The heap takes some row of minimum degree each time. -/
theorem Counts.exists_pick_followsRule (hheap : Counts m g heap) (hm : m.WellFormed J)
    (hsize : g.size < 2 ^ 63) (hfuel : (m.remainingRows heap.contains).length ≤ fuel) :
    ∃ vs heap', pick g heap fuel = .ok (vs, heap') ∧ (∀ v ∈ vs, v < (m.active .row).length) ∧
      FollowsRule m (m.remainingRows heap.contains) (vs.map m.rowAt) := by
  have hlt : ∀ v, heap.contains v = true → v < (m.active .row).length := fun v hv => by
    rw [← hheap.represents.size_eq, ← hheap.length_eq]
    exact (hheap.wellFormed.contains_iff.1 hv).1
  induction fuel generalizing heap with
  | zero =>
      have hnil := List.length_eq_zero_iff.1 (Nat.le_zero.1 hfuel)
      exact ⟨[], heap, rfl, by simp, by rw [hnil]; exact .done⟩
  | succ fuel ih =>
      obtain ⟨hnone, hpick⟩ | ⟨v, heap', htakes⟩ := hheap.exists_takes hsize
      · have hnil : m.remainingRows heap.contains = [] := by
          simp [remainingRows, remaining, hnone]
        exact ⟨[], heap, hpick fuel, by simp, by rw [hnil]; exact .done⟩
      · have hv := hlt v htakes.contains
        have hleast : m.IsLeast (m.remainingRows heap.contains) (m.rowAt v) := by
          refine ⟨List.mem_map_of_mem (mem_remaining_iff.2 ⟨hv, htakes.contains⟩), fun r hr => ?_⟩
          obtain ⟨w, hw, rfl⟩ := List.mem_map.1 hr
          obtain ⟨hw, hcontains⟩ := mem_remaining_iff.1 hw
          rw [degreeAmong_remainingRows hm hheap.represents _ hv,
            degreeAmong_remainingRows hm hheap.represents _ hw]
          exact htakes.conflicts_le w hcontains
        have hwithout := without_remainingRows hm hheap.represents hv fun w _ =>
          htakes.contains_iff w
        have hshorter := length_without_lt (m := m) hleast.1
        rw [hwithout] at hshorter
        obtain ⟨vs, heap'', hpick, hvs, hrule⟩ := ih htakes.counts (by omega) fun w hw =>
          hlt w ((htakes.contains_iff w).1 hw).1
        refine ⟨v :: vs, heap'', ?_, List.forall_mem_cons.2 ⟨hv, hvs⟩, ?_⟩
        · rw [htakes.pick_eq, hpick]
          rfl
        · exact .take hleast (hwithout ▸ hrule)

/-- The rows that are taken by the heap follow the rule, and their sum is returned. -/
theorem exists_takenRows_eq (s : IndependentQueue) (hm : m.WellFormed J)
    (hsize : (m.active .row).length < 2 ^ 63) :
    ∃ rows, s.takenRows m = .ok rows ∧ FollowsRule m (m.active .row) rows ∧
      Prod.fst <$> s.estimate m = Cost.sum (rows.map (leastCost m)) := by
  obtain ⟨t, hstart, hcounts, hin⟩ := s.exists_start_eq_ok hm
  have hg := hcounts.represents
  have hall : m.remainingRows t.heap.contains = m.active .row :=
    remainingRows_of_forall fun v hv => hin v (hg.size_eq.symm ▸ hv)
  obtain ⟨vs, heap, hpick, hvs, hrule⟩ := hcounts.exists_pick_followsRule hm
    (hg.size_eq.symm ▸ hsize) (hall.symm ▸ hg.size_eq.symm.le)
  rw [hall] at hrule
  refine ⟨vs.map m.rowAt, ?_, hrule, ?_⟩
  · rw [takenRows, hstart, ok_bind, choose, hpick]
    exact congrArg Except.ok (List.map_congr_left fun v _ => getD_rows hg v)
  · rw [estimate, hstart, ok_bind, choose, hpick, ← weight_eq_sum hg hvs]
    change (Prod.fst <$> do return (← t.graph.weight vs, { t with heap })) = _
    cases t.graph.weight vs <;> rfl

end IndependentQueue

namespace Matrix

variable {m : Matrix} {E : List (Nat × Nat)}

open ConflictGraph

/-- On a matrix in use, whatever the tables of the two bounds hold, the scan takes the rows of
`minimumDegreeRows`, and the heap takes rows by the rule.  Both sets of rows are independent, and
maximal among those, and what is returned is the sum of their cheapest columns if it is a cost.
Without ties the two bounds agree. -/
theorem Reachable.follows_minimumDegree (h : Reachable E m) (scan : IndependentScan)
    (queue : IndependentQueue) :
    scan.takenRows m = .ok (m.minimumDegreeRows (m.active .row)) ∧
      IsMaximallyIndependent m (m.active .row) (m.minimumDegreeRows (m.active .row)) ∧
      Prod.fst <$> scan.estimate m =
        Cost.sum ((m.minimumDegreeRows (m.active .row)).map (leastCost m)) ∧
      (∃ rows, queue.takenRows m = .ok rows ∧ FollowsRule m (m.active .row) rows ∧
        IsMaximallyIndependent m (m.active .row) rows ∧
        Prod.fst <$> queue.estimate m = Cost.sum (rows.map (leastCost m))) ∧
      (HasNoTies m (m.active .row) →
        Prod.fst <$> scan.estimate m = Prod.fst <$> queue.estimate m) := by
  have hvalid := h.holds.grounded.isReady.isValid
  obtain ⟨hscan, hbound⟩ := scan.takenRows_eq hvalid
  have hrule := m.followsRule_minimumDegreeRows (m.active .row)
  have hsize : (m.active .row).length < 2 ^ 63 :=
    ((hvalid.length_active_le .row).trans (h.fitsWords.size_le .row)).trans_lt (by decide)
  obtain ⟨rows, hqueue, hrows, hbound'⟩ := queue.exists_takenRows_eq hvalid hsize
  refine ⟨hscan, hrule.isMaximallyIndependent, hbound,
    ⟨rows, hqueue, hrows, hrows.isMaximallyIndependent, hbound'⟩, fun hties => ?_⟩
  rw [hbound, hbound', hties.eq_of_followsRule hrule hrows]

/-- Along a chain of five rows the scan takes every other row.  A single row ties with no other. -/
theorem follows_minimumDegree_chain : ∃ m n,
    ofElements 5 [1, 2, 3, 4]
      [(0, 0), (1, 0), (1, 1), (2, 1), (2, 2), (3, 2), (3, 3), (4, 3)] = .ok m ∧
    m.minimumDegreeRows (m.active .row) = [0, 2, 4] ∧
    IsMaximallyIndependent m (m.active .row) [0, 2, 4] ∧
    ofElements 1 [3] [(0, 0)] = .ok n ∧ HasNoTies n (n.active .row) ∧
    Prod.fst <$> IndependentScan.estimate {} n = Prod.fst <$> IndependentQueue.estimate {} n := by
  have hrun : (do
      let m ← ofElements 5 [1, 2, 3, 4]
        [(0, 0), (1, 0), (1, 1), (2, 1), (2, 2), (3, 2), (3, 3), (4, 3)]
      IndependentScan.takenRows {} m) = .ok [0, 2, 4] := by decide +kernel
  obtain ⟨m, hm, htaken⟩ := bind_eq_ok_iff.1 hrun
  have hreachable : Reachable
      [(0, 0), (1, 0), (1, 1), (2, 1), (2, 2), (3, 2), (3, 3), (4, 3)] m := .ofElements (by decide) hm
  obtain ⟨hscan, hmaximal, -⟩ := hreachable.follows_minimumDegree {} {}
  have hrows := Except.ok.inj (hscan.symm.trans htaken)
  have hsingle : (do
      let n ← ofElements 1 [3] [(0, 0)]
      return (n.active .row, n.without [0] 0)) = .ok ([0], []) := by decide +kernel
  obtain ⟨n, hn, hsingle⟩ := bind_eq_ok_iff.1 hsingle
  obtain ⟨hactive, hwithout⟩ := Prod.mk.inj (Except.ok.inj hsingle)
  have hties : HasNoTies n (n.active .row) := by
    rw [hactive]
    refine .take (r := 0) ⟨by simp, by simp⟩ (fun r hr => by simpa using hr.1) ?_
    rw [hwithout]
    exact .done
  have hreachable' : Reachable [(0, 0)] n := .ofElements (by decide) hn
  rw [hrows] at hmaximal
  exact ⟨m, n, hm, hrows, hmaximal, hn, hties,
    (hreachable'.follows_minimumDegree {} {}).2.2.2.2 hties⟩

end Matrix

end SetCover
