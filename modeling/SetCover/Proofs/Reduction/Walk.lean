import Mathlib.Data.List.Sort
import SetCover.Proofs.Lockstep
import SetCover.Proofs.Reduction.Accounts
import SetCover.Proofs.Reduction.Compared

/-!
# Walks along the active headers

The phases of a reduction go over the rows or columns that are active when they begin.  This is what
a cursor does that follows the links of the active headers while they are deleted: a header that is
taken out still names the one behind it, and one that was taken out before is not met any more.

`Walks next? visit s cursor events t` says that such a cursor comes to its end, that it leads from
the state `s` to `t`, and that `events` are reported on the way.
-/

namespace SetCover

/-- From `cursor` on, `visit` deals with the header at the cursor, and then `next?` moves it. -/
inductive Walks {α : Type} (next? : α → Nat → Except Fault (Option Nat))
    (visit : α → Nat → Traced α) : α → Option Nat → List Event → α → Prop
  | done {s : α} : Walks next? visit s none [] s
  | visit {s s' t : α} {i : Nat} {cursor : Option Nat} {before after : List Event} :
      visit s i = .ok (s', before) → next? s' i = .ok cursor →
        Walks next? visit s' cursor after t → Walks next? visit s (some i) (before ++ after) t

namespace Matrix

variable {m n : Matrix} {changed : Bool} {d : Dimension} {r : Nat} {as is : List Nat}
variable {J : List Deletion} {p : Bool × Matrix} {events : List Event}

/-- Deletions take rows or columns out of the active ones, and leave the others in their order. -/
theorem Trail.active_eq_filter (h : Trail m (is.map fun i => ⟨d, i⟩) n) (hm : m.WellFormed J) :
    n.active d = (m.active d).filter (· ∉ is) := by
  have hordered := (h.wellFormed hm).isOrdered d
  apply List.Pairwise.eq_of_mem_iff hordered.ascending
    ((hm.isOrdered d).ascending.sublist List.filter_sublist)
  intro i
  change i ∈ n.active d ↔ _
  rw [h.mem_active_iff hm, List.mem_filter, decide_eq_true_eq]
  apply and_congr_right
  intro _
  simp

/-! ### Rows -/

/-- Deletes the rows that have all columns of a row, unless that row was deleted before. -/
def visitRow (p : Bool × Matrix) (r : Nat) : Traced (Bool × Matrix) :=
  if p.2.isMarked .row r then return p
  else do
    let dominated := p.2.dominatedRows r
    let m ← p.2.dropRowsFor r dominated
    return (p.1 || !dominated.isEmpty, m)

/-- The row behind a row, as the links of the active rows name it. -/
def rowBehind? (p : Bool × Matrix) (r : Nat) : Except Fault (Option Nat) :=
  (p.2.headers.get .row).next? r

theorem thinRows_cons (m : Matrix) (changed : Bool) (r : Nat) (is : List Nat) :
    m.thinRows changed (r :: is) = visitRow (changed, m) r >>= fun p => p.2.thinRows p.1 is := by
  rw [thinRows, visitRow]
  split
  · rw [pure_bind]
  · simp only [bind_assoc, pure_bind]

/-- A row that is visited stays active itself. -/
theorem of_visitRow {q : Bool × Matrix} (hm : Thinning m (r :: is)) (hr : ¬m.isMarked .row r)
    (h : (visitRow (changed, m) r).result = .ok q) :
    Thinning q.2 is ∧ (m.MarksDeleted .row → q.2.MarksDeleted .row) ∧
      ∃ D : List Nat, r ∉ D ∧ q.2.active .row = (m.active .row).filter (· ∉ D) := by
  rw [visitRow, if_neg hr] at h
  simp only [Traced.result_bind, bind_eq_ok_iff] at h
  obtain ⟨n, hn, h⟩ := h
  cases h
  refine ⟨hm.next hr hn, (narrows_of_dropRowsFor hm.isValid hn).1.marksDeleted,
    m.dominatedRows r, fun hmem => (of_mem_dominatedRows hmem).1 rfl, ?_⟩
  exact (deletes_of_dropRowsFor hn).trail.active_eq_filter hm.isValid

/-- To follow the links of the active rows is to go over those that were active at first and to
pass over those that were deleted since. -/
theorem walks_of_thinRows (hm : Thinning m is) (hmarks : m.MarksDeleted .row)
    (hactive : m.active .row = as ++ is.filter (· ∈ m.active .row))
    (hp : m.thinRows changed is = .ok (p, events)) :
    Walks rowBehind? visitRow (changed, m) (is.filter (· ∈ m.active .row)).head? events p := by
  induction is generalizing m changed as events with
  | nil =>
      cases hp
      exact .done
  | cons r is ih =>
      by_cases hmarked : m.isMarked .row r
      · rw [thinRows, if_pos hmarked] at hp
        have hskip : (r :: is).filter (· ∈ m.active .row) = is.filter (· ∈ m.active .row) :=
          List.filter_cons_of_neg (by simpa using hmarks r hmarked)
        rw [hskip] at hactive ⊢
        exact ih hm.tail hmarks hactive hp
      · have hr := hm.mem_active hmarked
        rw [thinRows_cons] at hp
        obtain ⟨q, before, after, hvisit, hrest, rfl⟩ := Traced.bind_eq_ok_iff.1 hp
        have hresult : (visitRow (changed, m) r).result = .ok q := congrArg Traced.result hvisit
        obtain ⟨hnext, hmarks', D, hrD, hkept⟩ := of_visitRow hm hmarked hresult
        have hcons : (r :: is).filter (· ∈ m.active .row) = r :: is.filter (· ∈ m.active .row) :=
          List.filter_cons_of_pos (by simpa using hr)
        have hrows : (is.filter (· ∈ m.active .row)).filter (· ∉ D) =
            is.filter (· ∈ q.2.active .row) := by
          rw [List.filter_filter]
          apply List.filter_congr
          intro s _
          simp [hkept, and_comm]
        rw [hcons] at hactive ⊢
        -- the rows that are deleted lie on both sides of the row
        have hsplit : q.2.active .row =
            as.filter (· ∉ D) ++ r :: is.filter (· ∈ q.2.active .row) := by
          have hfilter := congrArg (List.filter (· ∉ D)) hactive
          rw [List.filter_append, List.filter_cons_of_pos (by simpa using hrD), hrows] at hfilter
          exact hkept.trans hfilter
        apply Walks.visit hvisit ((hnext.isValid.isOrdered .row).next?_eq hsplit)
        rw [List.append_cons] at hsplit
        exact ih hnext (hmarks' hmarks) hsplit hrest

/-- The phase that deletes rows follows the links of the active rows. -/
theorem walks_of_dropDominatedRows {k : Matrix} {b : Bool} (hm : m.IsReady) (hc : m.IsCompared)
    (hk : m.dropDominatedRows = .ok ((b, k), events)) :
    ∃ n, Walks rowBehind? visitRow (false, m) (m.headers.get .row).first? events (b, n) ∧
      (n.clearMarks .row).cleanAll .row ((n.clearMarks .row).active .row) = .ok k := by
  rw [dropDominatedRows, Traced.bind_eq_ok_iff] at hk
  obtain ⟨⟨b', n⟩, before, after, hn, hk, rfl⟩ := hk
  obtain ⟨n', between, after, hn', hend, rfl⟩ := Traced.bind_eq_ok_iff.1 hk
  obtain ⟨hclean, rfl⟩ := Traced.eq_of_liftM hn'
  cases hend
  have hfilter : (m.active .row).filter (· ∈ m.active .row) = m.active .row :=
    List.filter_eq_self.2 fun r hr => decide_eq_true hr
  have hwalks := walks_of_thinRows (hm.thinning hc) (marksDeleted_of_unmarked hm.unmarked .row)
    (hfilter.symm.trans (List.nil_append _).symm) hn
  rw [hfilter] at hwalks
  refine ⟨n, ?_, hclean⟩
  rw [(hm.isValid.isOrdered .row).first?_eq, List.append_nil, List.append_nil]
  exact hwalks

end Matrix

namespace Reduction

open SetCover.Matrix

variable {x y : Reduction} {may : Comparator} {changed : Bool} {as cs : List Nat}
variable {p : Bool × Reduction} {events : List Event}

/-- Drops a column if it is dominated. -/
def visitColumn (may : Comparator) (p : Bool × Reduction) (c : Nat) : Traced (Bool × Reduction) :=
  if !p.2.matrix.isMarked .column c && (p.2.matrix.dominatingColumn? may c).isSome then do
    Traced.emit (.columnDominated c)
    let x ← (p.2.mark .column c).drop c
    return (true, x)
  else return p

/-- The column behind a column, as the links of the active columns name it. -/
def columnBehind? (p : Bool × Reduction) (c : Nat) : Except Fault (Option Nat) :=
  (p.2.matrix.headers.get .column).next? c

theorem thinColumns_cons (may : Comparator) (x : Reduction) (changed : Bool) (c : Nat)
    (cs : List Nat) : x.thinColumns may changed (c :: cs) =
      visitColumn may (changed, x) c >>= fun p => p.2.thinColumns may p.1 cs := by
  rw [thinColumns, visitColumn]
  split
  · simp only [bind_assoc, pure_bind]
  · rw [pure_bind]

/-- A column that was visited is still active or not, and names the column behind it. -/
theorem of_visitColumn {c : Nat} {q : Bool × Reduction} (hx : x.matrix.IsValid)
    (hactive : x.matrix.active .column = as ++ c :: cs)
    (h : (visitColumn may (changed, x) c).result = .ok q) :
    q.2.matrix.IsValid ∧ columnBehind? q c = .ok cs.head? ∧
      ∃ as', q.2.matrix.active .column = as' ++ cs := by
  rw [visitColumn] at h
  split at h
  · simp only [Traced.result_bind, Traced.result_liftM, bind_eq_ok_iff] at h
    obtain ⟨-, -, z, hz, h⟩ := h
    cases h
    obtain ⟨k, hk, rfl⟩ := drop_eq_ok_iff.1 hz
    have hmark := similar_mark x.matrix .column c
    have hvalid : (x.mark .column c).matrix.IsValid := hmark.wellFormed hx
    have hordered := hvalid.isOrdered .column
    have hexclude := (deleted_of_delete hk).exclude_eq
    have hactive' : (x.mark .column c).matrix.active .column = as ++ c :: cs :=
      hmark.active_eq ▸ hactive
    have hnot : c ∉ cs := by
      have hnodup := hx.nodup_active .column
      rw [hactive] at hnodup
      exact (List.nodup_cons.1 (List.nodup_append.1 hnodup).2.1).1
    have hcs : cs.filter (· ≠ c) = cs :=
      List.filter_eq_self.2 fun b hb => decide_eq_true fun hbc => hnot (hbc ▸ hb)
    refine ⟨(deletes_of_delete hk).advances.isValid hvalid,
      hordered.next?_of_exclude hexclude hactive', as.filter (· ≠ c), ?_⟩
    have hkept : k.active .column = ((x.mark .column c).matrix.active .column).filter (· ≠ c) :=
      hordered.active_of_exclude hexclude
    change k.active .column = _
    rw [hkept, hactive', List.filter_append, List.filter_cons_of_neg (by simp), hcs]
  · cases h
    refine ⟨hx, (hx.isOrdered .column).next?_eq hactive, as ++ [c], ?_⟩
    rw [hactive, List.append_assoc]
    rfl

/-- To follow the links of the active columns is to go over those that were active at first. -/
theorem walks_of_thinColumns (hx : x.matrix.IsValid)
    (hactive : x.matrix.active .column = as ++ cs)
    (hy : x.thinColumns may changed cs = .ok (p, events)) :
    Walks columnBehind? (visitColumn may) (changed, x) cs.head? events p := by
  induction cs generalizing x changed as events with
  | nil =>
      cases hy
      exact .done
  | cons c cs ih =>
      rw [thinColumns_cons] at hy
      obtain ⟨q, before, after, hvisit, hrest, rfl⟩ := Traced.bind_eq_ok_iff.1 hy
      obtain ⟨hvalid, hnext, as', hactive'⟩ :=
        of_visitColumn hx hactive (congrArg Traced.result hvisit)
      exact .visit hvisit hnext (ih hvalid hactive' hrest)

/-- The phase that drops columns follows the links of the columns that are left when the empty ones
are gone. -/
theorem walks_of_dropDominatedColumns {b : Bool} (hx : x.matrix.IsValid)
    (hy : x.dropDominatedColumns may = .ok ((b, y), events)) : ∃ z z' : Reduction,
      x.dropAll ((x.matrix.active .column).filter fun c => x.matrix.count .column c == 0) = .ok z ∧
      Walks columnBehind? (visitColumn may)
        (!((x.matrix.active .column).filter fun c => x.matrix.count .column c == 0).isEmpty, z)
        (z.matrix.headers.get .column).first? events (b, z') ∧
      y = z'.clearMarks .column := by
  rw [dropDominatedColumns, Traced.bind_eq_ok_iff] at hy
  obtain ⟨z, before, after, hz, hy, rfl⟩ := hy
  obtain ⟨hempty, rfl⟩ := Traced.eq_of_liftM hz
  obtain ⟨⟨b', z'⟩, before, after, hz', hend, rfl⟩ := Traced.bind_eq_ok_iff.1 hy
  cases hend
  have hvalid := (drops_of_dropAll hempty).deletes.advances.isValid hx
  have hactive : z.matrix.active .column = [] ++ z.matrix.active .column := rfl
  refine ⟨z, z', hempty, ?_, rfl⟩
  rw [(hvalid.isOrdered .column).first?_eq, List.nil_append, List.append_nil]
  exact walks_of_thinColumns hvalid hactive hz'

end Reduction

end SetCover
