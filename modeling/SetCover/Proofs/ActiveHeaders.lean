import SetCover.HeaderRing
import SetCover.Proofs.Ring

/-!
# The list of active headers

A header list `IsOrdered` when its ring holds exactly the headers that are not deleted, in
ascending order.  Excluding, inserting, filling and merging keep it so.

`l.Similar k` says that the two lists differ in dirty flags at most, and `l.Recounted k` that they
may also differ in the numbers of elements.  A header that was excluded can be restored, and then
the list is similar to what it was.
-/

namespace SetCover.HeaderRing

variable {l k n : HeaderRing} {i j p : Nat} {as bs js : List Nat}

/-- The lists differ in dirty flags and numbers of elements at most. -/
structure Recounted (l k : HeaderRing) : Prop where
  dimension_eq : l.dimension = k.dimension
  size_eq : l.size = k.size
  links_eq : l.links = k.links
  numActive_eq : l.numActive = k.numActive
  size_headers_eq : l.headers.size = k.headers.size
  deleted_eq : ∀ i, (l.header i).deleted = (k.header i).deleted

/-- The lists differ in dirty flags at most. -/
structure Similar (l k : HeaderRing) : Prop extends Recounted l k where
  count_eq : ∀ i, (l.header i).count = (k.header i).count

theorem Recounted.refl (l : HeaderRing) : l.Recounted l := ⟨rfl, rfl, rfl, rfl, rfl, fun _ => rfl⟩

theorem Recounted.trans (h : l.Recounted k) (h' : k.Recounted n) : l.Recounted n :=
  ⟨h.1.trans h'.1, h.2.trans h'.2, h.3.trans h'.3, h.4.trans h'.4, h.5.trans h'.5,
    fun i => (h.6 i).trans (h'.6 i)⟩

theorem Recounted.symm (h : l.Recounted k) : k.Recounted l :=
  ⟨h.1.symm, h.2.symm, h.3.symm, h.4.symm, h.5.symm, fun i => (h.6 i).symm⟩

theorem Similar.refl (l : HeaderRing) : l.Similar l := ⟨.refl l, fun _ => rfl⟩

theorem Similar.symm (h : l.Similar k) : k.Similar l := ⟨h.1.symm, fun i => (h.2 i).symm⟩

theorem Similar.trans (h : l.Similar k) (h' : k.Similar n) : l.Similar n :=
  ⟨h.1.trans h'.1, fun i => (h.2 i).trans (h'.2 i)⟩

theorem Recounted.active_eq (h : l.Recounted k) : l.active = k.active := by
  rw [active, active, head, head, h.links_eq, h.size_eq]

/-! ### What the operations do to a header -/

theorem get_eq_ok_iff {h : Header} : l.get i = .ok h ↔ i < l.size ∧ h = l.header i := by
  unfold get
  split_ifs <;> simp_all [eq_comm]

theorem header_setIfInBounds (l : HeaderRing) (i : Nat) (h : Header) (links : Links)
    (numActive j : Nat) :
    ({ l with headers := l.headers.setIfInBounds i h, links, numActive } : HeaderRing).header j =
      if j = i ∧ j < l.headers.size then h else l.header j := by
  simp only [header, Array.getD_eq_getD_getElem?, Array.getElem?_setIfInBounds]
  by_cases hij : i = j
  · by_cases hj : j < l.headers.size
    · simp [hij, hj]
    · simp [hij, hj]
  · simp [hij, Ne.symm hij]

theorem header_set (l : HeaderRing) (i : Nat) (h : Header) (j : Nat) :
    (l.set i h).header j = if j = i ∧ j < l.headers.size then h else l.header j :=
  header_setIfInBounds l i h l.links l.numActive j

theorem recounted_set {h : Header}
    (hdeleted : (l.header i).deleted = h.deleted) : l.Recounted (l.set i h) := by
  refine ⟨rfl, rfl, rfl, rfl, by simp [set], fun j => ?_⟩
  rw [header_set]
  split_ifs with hj
  · rw [hj.1, hdeleted]
  · rfl

theorem increment_eq_ok (hi : i < l.headers.size) :
    ∃ k, l.increment i = .ok k ∧ l.Recounted k ∧
      ∀ j, (k.header j).count = (l.header j).count + if j = i then 1 else 0 := by
  have hget : l.headers[i]? = some (l.header i) := by
    rw [header, Array.getD_eq_getD_getElem?, Array.getElem?_eq_getElem hi, Option.getD_some]
  refine ⟨l.set i { l.header i with count := (l.header i).count + 1, dirty := true },
    by rw [increment, hget], recounted_set rfl, fun j => ?_⟩
  rw [header_set]
  by_cases hj : j = i
  · rw [if_pos ⟨hj, hj ▸ hi⟩, if_pos hj, hj]
  · rw [if_neg fun h => hj h.1, if_neg hj, Nat.add_zero]

theorem recounted_of_increment (h : l.increment i = .ok k) : i < l.headers.size ∧
    l.Recounted k ∧ ∀ j, (k.header j).count = (l.header j).count + if j = i then 1 else 0 := by
  by_cases hi : i < l.headers.size
  · obtain ⟨k', hk', hrest⟩ := increment_eq_ok hi
    rw [h] at hk'
    cases hk'
    exact ⟨hi, hrest⟩
  · rw [increment, Array.getElem?_eq_none (Nat.le_of_not_lt hi)] at h
    cases h

theorem recounted_of_decrement (h : l.decrement i = .ok k) : l.Recounted k ∧
    ∀ j, (k.header j).count + (if j = i then 1 else 0) = (l.header j).count := by
  by_cases hi : i < l.headers.size
  · have hget : l.headers[i]? = some (l.header i) := by
      rw [header, Array.getD_eq_getD_getElem?, Array.getElem?_eq_getElem hi, Option.getD_some]
    rw [decrement, hget] at h
    by_cases hcount : (l.header i).count = 0
    · simp [hcount] at h
    · simp only [hcount, if_false] at h
      cases h
      refine ⟨recounted_set rfl, fun j => ?_⟩
      rw [header_set]
      by_cases hj : j = i
      · rw [if_pos ⟨hj, hj ▸ hi⟩, if_pos hj, hj]
        exact Nat.sub_add_cancel (Nat.pos_of_ne_zero hcount)
      · rw [if_neg fun h => hj h.1, if_neg hj, Nat.add_zero]
  · rw [decrement, Array.getElem?_eq_none (Nat.le_of_not_lt hi)] at h
    cases h

theorem similar_of_clean (h : l.clean i = .ok k) : l.Similar k := by
  simp only [clean, bind_eq_ok_iff, get_eq_ok_iff] at h
  obtain ⟨_, ⟨hi, rfl⟩, hk⟩ := h
  cases hk
  refine ⟨recounted_set rfl, fun j => ?_⟩
  rw [header_set]
  split_ifs with hj
  · rw [hj.1]
  · rfl

theorem exclude_eq_ok_iff : l.exclude i = .ok k ↔ i < l.size ∧ (l.header i).deleted = false ∧
    k = { l with
      headers := l.headers.setIfInBounds i { l.header i with deleted := true }
      links := l.links.unlink i
      numActive := l.numActive - 1 } := by
  simp only [exclude, bind_eq_ok_iff, get_eq_ok_iff]
  constructor
  · rintro ⟨_, ⟨hi, rfl⟩, hk⟩
    by_cases hdeleted : (l.header i).deleted
    · rw [if_pos hdeleted] at hk
      cases hk
    · rw [if_neg hdeleted] at hk
      cases hk
      exact ⟨hi, by simpa using hdeleted, rfl⟩
  · rintro ⟨hi, hdeleted, rfl⟩
    refine ⟨_, ⟨hi, rfl⟩, ?_⟩
    rw [if_neg (by simp [hdeleted])]
    rfl

theorem insert_eq_ok_iff : l.insert i = .ok k ↔ i < l.size ∧ (l.header i).deleted = true ∧
    k = l.activateAfter (l.links.lastNot l.head (i < ·)) i true := by
  simp only [insert, bind_eq_ok_iff, get_eq_ok_iff]
  constructor
  · rintro ⟨_, ⟨hi, rfl⟩, hk⟩
    by_cases hdeleted : (l.header i).deleted
    · simp only [hdeleted] at hk
      cases hk
      exact ⟨hi, hdeleted, rfl⟩
    · simp only [hdeleted] at hk
      cases hk
  · rintro ⟨hi, hdeleted, rfl⟩
    refine ⟨_, ⟨hi, rfl⟩, ?_⟩
    simp only [hdeleted]
    rfl

theorem restore_eq_ok_iff : l.restore i = .ok k ↔ i < l.size ∧ (l.header i).deleted = true ∧
    l.links.isGapFor i = true ∧ k = l.activateAfter (l.links.previous i) i true := by
  simp only [restore, bind_eq_ok_iff, get_eq_ok_iff]
  constructor
  · rintro ⟨_, ⟨hi, rfl⟩, hk⟩
    by_cases hdeleted : (l.header i).deleted <;> by_cases hgap : l.links.isGapFor i
    · simp only [hdeleted, hgap] at hk
      cases hk
      refine ⟨hi, hdeleted, hgap, ?_⟩
      rw [activateAfter, Links.insertAfter_previous hgap]
    · simp only [hdeleted, hgap] at hk
      cases hk
    · simp only [hdeleted] at hk
      cases hk
    · simp only [hdeleted] at hk
      cases hk
  · rintro ⟨hi, hdeleted, hgap, rfl⟩
    refine ⟨_, ⟨hi, rfl⟩, ?_⟩
    simp only [hdeleted, hgap]
    rw [activateAfter, Links.insertAfter_previous hgap]
    rfl

theorem fillFrom_cons_eq_ok_iff {last : Nat} : l.fillFrom last (i :: js) = .ok k ↔
    (last = l.head ∨ last < i) ∧ i < l.size ∧
      (l.activateAfter last i (l.header i).dirty).fillFrom i js = .ok k := by
  rw [fillFrom]
  by_cases hlast : last = l.head ∨ last < i
  · simp only [hlast, true_and]
    constructor
    · intro hk
      obtain ⟨_, hget, hk⟩ := bind_eq_ok_iff.1 hk
      obtain ⟨hi, rfl⟩ := get_eq_ok_iff.1 hget
      exact ⟨hi, hk⟩
    · rintro ⟨hi, hk⟩
      exact bind_eq_ok_iff.2 ⟨_, get_eq_ok_iff.2 ⟨hi, rfl⟩, hk⟩
  · simp only [hlast, false_and, iff_false]
    exact fun hk => nomatch hk

theorem mergeFrom_cons_eq_ok_iff {cursor : Nat} : l.mergeFrom cursor (i :: js) = .ok k ↔
    i < l.size ∧ (l.header i).deleted = true ∧
      (l.activateAfter (l.links.advance l.head (· < i) l.links.size cursor) i true).mergeFrom i js
        = .ok k := by
  rw [mergeFrom, bind_eq_ok_iff]
  constructor
  · rintro ⟨_, hget, hk⟩
    obtain ⟨hi, rfl⟩ := get_eq_ok_iff.1 hget
    by_cases hdeleted : (l.header i).deleted
    · simp only [hdeleted] at hk
      exact ⟨hi, hdeleted, hk⟩
    · simp only [hdeleted] at hk
      exact nomatch hk
  · rintro ⟨hi, hdeleted, hk⟩
    refine ⟨_, get_eq_ok_iff.2 ⟨hi, rfl⟩, ?_⟩
    simp only [hdeleted]
    exact hk

/-! ### Ordered lists -/

/-- The ring holds exactly the headers that are not deleted, in ascending order. -/
structure IsOrdered (l : HeaderRing) : Prop where
  size_links : l.links.size = l.size + 1
  size_headers : l.headers.size = l.size + 1
  isRing : l.links.IsRing l.head l.active
  ascending : l.active.Pairwise (· < ·)
  mem_active : ∀ i, i ∈ l.active ↔ i < l.size ∧ (l.header i).deleted = false
  numActive_eq : l.numActive = l.active.length

theorem IsOrdered.of_recounted (h : l.IsOrdered) (hk : l.Recounted k) : k.IsOrdered := by
  obtain ⟨h1, h2, h3, h4, h5, h6⟩ := h
  rw [hk.links_eq, hk.size_eq] at h1
  rw [hk.size_headers_eq, hk.size_eq] at h2
  rw [hk.links_eq, hk.active_eq, head, hk.size_eq] at h3
  rw [hk.active_eq] at h4
  rw [hk.numActive_eq, hk.active_eq] at h6
  refine ⟨h1, h2, h3, h4, fun i => ?_, h6⟩
  rw [← hk.active_eq, h5, hk.size_eq, hk.deleted_eq]

theorem header_excluded (d : Dimension) {n : Nat} (hi : i < n) : (excluded d n).header i = {} := by
  simp [excluded, header, Array.getD_eq_getD_getElem?, Array.getElem?_push, Nat.ne_of_lt hi, hi]

theorem isRing_excluded (d : Dimension) (n : Nat) : (excluded d n).links.IsRing n [] := by
  refine Links.isRing_nil ?_
  simp [excluded, Links.replicate, Links.get]

theorem active_excluded (d : Dimension) (n : Nat) : (excluded d n).active = [] :=
  (isRing_excluded d n).toList_eq

theorem isOrdered_excluded (d : Dimension) (n : Nat) : (excluded d n).IsOrdered := by
  refine ⟨by simp [excluded, Links.replicate, Links.size], by simp [excluded],
    active_excluded d n ▸ isRing_excluded d n, by simp [active_excluded], fun i => ?_, ?_⟩
  · rw [active_excluded]
    simp only [List.not_mem_nil, false_iff, not_and]
    intro hi
    have hi : i < n := hi
    rw [header_excluded d hi]
    decide
  · rw [active_excluded]
    rfl

/-! ### Excluding and restoring -/

theorem header_of_exclude (hk : l.exclude i = .ok k) (hsize : i < l.headers.size) (j : Nat) :
    k.header j = if j = i then { l.header i with deleted := true } else l.header j := by
  obtain ⟨-, -, rfl⟩ := exclude_eq_ok_iff.1 hk
  rw [header_setIfInBounds]
  by_cases hj : j = i
  · rw [if_pos ⟨hj, hj ▸ hsize⟩, if_pos hj]
  · rw [if_neg fun h => hj h.1, if_neg hj]

namespace IsOrdered

theorem lt_size_headers (h : l.IsOrdered) (hi : i < l.size) : i < l.headers.size := by
  rw [h.size_headers]
  exact Nat.lt_succ_of_lt hi

theorem head_lt_size (h : l.IsOrdered) : l.head < l.links.size := by
  rw [h.size_links, head]
  exact Nat.lt_succ_self l.size

theorem mem_active_of_exclude (h : l.IsOrdered) (hk : l.exclude i = .ok k) : i ∈ l.active := by
  obtain ⟨hi, hdeleted, -⟩ := exclude_eq_ok_iff.1 hk
  exact (h.mem_active i).2 ⟨hi, hdeleted⟩

theorem head_ne (h : l.IsOrdered) (hi : i ∈ l.active) : l.head ≠ i := by
  rintro rfl
  exact Nat.lt_irrefl _ ((h.mem_active l.head).1 hi).1

/-- Excluding a header takes it out of the active ones. -/
theorem active_of_exclude (h : l.IsOrdered) (hk : l.exclude i = .ok k) :
    k.active = l.active.filter (· ≠ i) := by
  have hmem := h.mem_active_of_exclude hk
  obtain ⟨-, -, rfl⟩ := exclude_eq_ok_iff.1 hk
  exact (h.isRing.unlink_filter (h.isRing.isLinked hmem) (h.head_ne hmem)).toList_eq

theorem exclude (h : l.IsOrdered) (hk : l.exclude i = .ok k) : k.IsOrdered := by
  have hmem := h.mem_active_of_exclude hk
  have hactive := h.active_of_exclude hk
  have hheader := header_of_exclude hk (h.lt_size_headers ((h.mem_active i).1 hmem).1)
  have hring := h.isRing.unlink_filter (h.isRing.isLinked hmem) (h.head_ne hmem)
  have hsize : k.size = l.size ∧ k.links = l.links.unlink i ∧ k.headers.size = l.headers.size ∧
      k.numActive = l.numActive - 1 := by
    obtain ⟨-, -, rfl⟩ := exclude_eq_ok_iff.1 hk
    exact ⟨rfl, rfl, by simp, rfl⟩
  obtain ⟨hsize, hlinks, hheaders, hnum⟩ := hsize
  refine ⟨?_, ?_, ?_, ?_, fun j => ?_, ?_⟩
  · rw [hlinks, Links.size_unlink, hsize, h.size_links]
  · rw [hheaders, hsize, h.size_headers]
  · rwa [hactive, hlinks, head, hsize]
  · rw [hactive]
    exact h.ascending.sublist List.filter_sublist
  · rw [hactive, List.mem_filter, h.mem_active, hheader, hsize]
    by_cases hj : j = i <;> simp [hj]
  · have herase : l.active.filter (· ≠ i) = l.active.erase i := by
      rw [h.isRing.nodup_tail.erase_eq_filter i]
      exact List.filter_congr fun j _ => by by_cases hj : j = i <;> simp [hj]
    rw [hactive, hnum, herase, List.length_erase_of_mem hmem, h.numActive_eq]

/-- A header that was excluded goes back to where it was, whatever became of the dirty flags. -/
theorem restore (h : l.IsOrdered) (hk : l.exclude i = .ok k) (hkn : k.Similar n) :
    ∃ n', n.restore i = .ok n' ∧ n'.Similar l := by
  have hmem := h.mem_active_of_exclude hk
  have hlinked := h.isRing.isLinked hmem
  have hgap := h.isRing.isGapFor_unlink hmem
  have hpos : 0 < l.numActive := by
    rw [h.numActive_eq]
    exact List.length_pos_of_mem hmem
  obtain ⟨hi, hdeleted⟩ := (h.mem_active i).1 hmem
  have hheader := header_of_exclude hk (h.lt_size_headers hi)
  obtain ⟨hdimension, hsize, hlinks, hnum, hheaders⟩ : n.dimension = l.dimension ∧
      n.size = l.size ∧ n.links = l.links.unlink i ∧ n.numActive = l.numActive - 1 ∧
      n.headers.size = l.headers.size := by
    rw [← hkn.dimension_eq, ← hkn.size_eq, ← hkn.links_eq, ← hkn.numActive_eq,
      ← hkn.size_headers_eq]
    obtain ⟨-, -, rfl⟩ := exclude_eq_ok_iff.1 hk
    exact ⟨rfl, rfl, rfl, rfl, by simp⟩
  have hdeleted' : (n.header i).deleted = true := by
    rw [← hkn.deleted_eq, hheader, if_pos rfl]
  refine ⟨{ n with
      headers := n.headers.setIfInBounds i { n.header i with deleted := false, dirty := true }
      links := n.links.relink i
      numActive := n.numActive + 1 }, ?_, ?_⟩
  · have hget : n.get i = .ok (n.header i) := get_eq_ok_iff.2 ⟨hsize ▸ hi, rfl⟩
    rw [HeaderRing.restore, hget]
    simp only [bind, Except.bind, hdeleted', hlinks, hgap]
    rfl
  · refine ⟨⟨hdimension, hsize, ?_, ?_, by simp [hheaders], fun j => ?_⟩, fun j => ?_⟩
    · rw [hlinks, Links.relink_unlink_self hlinked]
    · rw [hnum, Nat.sub_add_cancel hpos]
    · rw [header_setIfInBounds, hheaders]
      by_cases hj : j = i
      · rw [if_pos ⟨hj, hj ▸ h.lt_size_headers hi⟩, hj, hdeleted]
      · rw [if_neg fun h => hj h.1, ← hkn.deleted_eq, hheader, if_neg hj]
    · rw [header_setIfInBounds, hheaders]
      by_cases hj : j = i
      · rw [if_pos ⟨hj, hj ▸ h.lt_size_headers hi⟩, hj, ← hkn.count_eq, hheader, if_pos rfl]
      · rw [if_neg fun h => hj h.1, ← hkn.count_eq, hheader, if_neg hj]

/-! ### Going over the active headers -/

/-- The header behind a gap in the ring, if it is not the head. -/
theorem ite_headD_eq (h : l.IsOrdered) (hsub : bs ⊆ l.active) :
    (if bs.headD l.head = l.head then none else some (bs.headD l.head)) = bs.head? := by
  cases bs with
  | nil => simp
  | cons b bs =>
      have hne := h.head_ne (hsub List.mem_cons_self)
      simp [hne.symm]

theorem first?_eq (h : l.IsOrdered) : l.first? = l.active.head? := by
  have hring : l.links.IsRing l.head ([] ++ l.active) := h.isRing
  have hjoined : l.links.Joined l.head (l.active.headD l.head) := hring.joined_gap
  rw [first?, hjoined.1]
  exact h.ite_headD_eq (List.Subset.refl _)

/-- An active header names the one behind it. -/
theorem next?_eq (h : l.IsOrdered) (hactive : l.active = as ++ i :: bs) :
    l.next? i = .ok bs.head? := by
  have hring := h.isRing
  rw [hactive] at hring
  have hlt : i < l.links.size := hring.lt_size (by simp)
  have hsub : bs ⊆ l.active := by simp [hactive]
  rw [next?, if_pos hlt, hring.joined_of_append.2.1]
  exact congrArg Except.ok (h.ite_headD_eq hsub)

/-- A header that was taken out just now still names the one behind it. -/
theorem next?_of_exclude (h : l.IsOrdered) (hk : l.exclude i = .ok k)
    (hactive : l.active = as ++ i :: bs) : k.next? i = .ok bs.head? := by
  have hnext := h.next?_eq hactive
  obtain ⟨-, -, rfl⟩ := exclude_eq_ok_iff.1 hk
  rw [next?] at hnext ⊢
  rwa [Links.size_unlink, Links.next_unlink, ite_self]

end IsOrdered

/-! ### Making headers active -/

/-- The headers `js` are active as well, and nothing else changes but links and dirty flags. -/
structure Activates (js : List Nat) (l k : HeaderRing) : Prop where
  dimension_eq : k.dimension = l.dimension
  size_eq : k.size = l.size
  count_eq : ∀ j, (k.header j).count = (l.header j).count
  mem_active : ∀ j, j ∈ k.active ↔ j ∈ js ∨ j ∈ l.active

namespace IsOrdered

/-- A header that is made active at its place in the order. -/
theorem activateAfter (h : l.IsOrdered) (hactive : l.active = as ++ bs) (hi : i < l.size)
    (has : ∀ a ∈ as, a < i) (hbs : ∀ b ∈ bs, i < b) (dirty : Bool) :
    (l.activateAfter (as.getLastD l.head) i dirty).IsOrdered ∧
      (l.activateAfter (as.getLastD l.head) i dirty).active = as ++ i :: bs ∧
      Activates [i] l (l.activateAfter (as.getLastD l.head) i dirty) := by
  have hring := h.isRing
  rw [hactive] at hring
  have hmem : i ∉ as ++ bs := by
    intro hmem
    rcases List.mem_append.1 hmem with hmem | hmem
    · exact Nat.lt_irrefl i (has i hmem)
    · exact Nat.lt_irrefl i (hbs i hmem)
  have hlt : i < l.links.size := by
    rw [h.size_links]
    exact Nat.lt_succ_of_lt hi
  have hnew := hring.insertAfter hlt h.head_lt_size
    (List.not_mem_cons_of_ne_of_not_mem (Nat.ne_of_lt hi) hmem)
  have hactive' : (l.activateAfter (as.getLastD l.head) i dirty).active = as ++ i :: bs :=
    hnew.toList_eq
  have hheader : ∀ j, (l.activateAfter (as.getLastD l.head) i dirty).header j =
      if j = i then { l.header i with deleted := false, dirty := dirty } else l.header j := by
    intro j
    rw [HeaderRing.activateAfter, header_setIfInBounds]
    by_cases hj : j = i
    · rw [if_pos ⟨hj, hj ▸ h.lt_size_headers hi⟩, if_pos hj]
    · rw [if_neg fun h => hj h.1, if_neg hj]
  have hmem' : ∀ j, j ∈ as ++ i :: bs ↔ j = i ∨ j ∈ l.active := by
    intro j
    rw [hactive, List.mem_append, List.mem_append, List.mem_cons]
    tauto
  refine ⟨⟨?_, ?_, ?_, ?_, fun j => ?_, ?_⟩, hactive', rfl, rfl, fun j => ?_, fun j => ?_⟩
  · exact (Links.size_insertAfter _ _ _).trans h.size_links
  · exact Array.size_setIfInBounds.trans h.size_headers
  · exact hactive' ▸ hnew
  · have hpairwise := h.ascending
    rw [hactive, List.pairwise_append] at hpairwise
    rw [hactive', List.pairwise_append, List.pairwise_cons]
    refine ⟨hpairwise.1, ⟨hbs, hpairwise.2.1⟩, fun a ha b hb => ?_⟩
    rcases List.mem_cons.1 hb with rfl | hb
    · exact has a ha
    · exact hpairwise.2.2 a ha b hb
  · rw [hactive', hmem', h.mem_active, hheader]
    by_cases hj : j = i
    · simp [hj, hi, HeaderRing.activateAfter]
    · simp [hj, HeaderRing.activateAfter]
  · rw [hactive', HeaderRing.activateAfter, h.numActive_eq, hactive]
    simp only [List.length_append, List.length_cons]
    exact Nat.add_assoc _ _ _
  · rw [hheader]
    split_ifs with hj
    · rw [hj]
    · rfl
  · rw [hactive', hmem', List.mem_singleton]

/-- Of an ordered list cut in two, the part before a gap lies below, if its last one does. -/
theorem forall_lt_of_getLast? (h : l.IsOrdered) (hactive : l.active = as ++ bs)
    (hlast : ∀ a ∈ as.getLast?, a < i) : ∀ a ∈ as, a < i := by
  have hpairwise := h.ascending
  rw [hactive, List.pairwise_append] at hpairwise
  intro a ha
  rcases List.eq_nil_or_concat as with rfl | ⟨cs, c, rfl⟩
  · simp at ha
  · have hc : c < i := hlast c (by simp)
    rw [List.concat_eq_append, List.mem_append, List.mem_singleton] at ha
    rcases ha with ha | rfl
    · rw [List.concat_eq_append, List.pairwise_append] at hpairwise
      exact (hpairwise.1.2.2 a ha c (by simp)).trans hc
    · exact hc

/-- Of an ordered list cut in two, the part behind a gap lies above, if its first one does. -/
theorem forall_lt_of_head? (h : l.IsOrdered) (hactive : l.active = as ++ bs)
    (hfirst : ∀ b ∈ bs.head?, i < b) : ∀ b ∈ bs, i < b := by
  have hpairwise := h.ascending
  rw [hactive, List.pairwise_append] at hpairwise
  intro b hb
  cases bs with
  | nil => simp at hb
  | cons c cs =>
      have hc : i < c := hfirst c (by simp)
      rcases List.mem_cons.1 hb with rfl | hb
      · exact hc
      · exact hc.trans ((List.pairwise_cons.1 hpairwise.2.1).1 b hb)

end IsOrdered

theorem Activates.refl (l : HeaderRing) : Activates [] l l :=
  ⟨rfl, rfl, fun _ => rfl, fun j => by simp⟩

theorem Activates.trans (h : Activates as l k) (h' : Activates bs k n) :
    Activates (as ++ bs) l n :=
  ⟨h'.1.trans h.1, h'.2.trans h.2, fun j => (h'.3 j).trans (h.3 j), fun j => by
    rw [h'.4, h.4, List.mem_append]
    tauto⟩

/-- The headers `js` are made active one after the other, each at its place in the order. -/
inductive Places : HeaderRing → List Nat → HeaderRing → Prop
  | nil {l : HeaderRing} : Places l [] l
  | cons {l k : HeaderRing} {i : Nat} {as bs js : List Nat} {dirty : Bool} :
      l.active = as ++ bs → i < l.size → (∀ a ∈ as, a < i) → (∀ b ∈ bs, i < b) →
        Places (l.activateAfter (as.getLastD l.head) i dirty) js k → Places l (i :: js) k

namespace IsOrdered

theorem of_places (h : l.IsOrdered) (hk : l.Places js k) : k.IsOrdered ∧ Activates js l k := by
  induction hk with
  | nil => exact ⟨h, .refl _⟩
  | cons hactive hi has hbs _ ih =>
      obtain ⟨hordered, -, hactivates⟩ := h.activateAfter hactive hi has hbs _
      exact ⟨(ih hordered).1, hactivates.trans (ih hordered).2⟩

theorem places_of_insert (h : l.IsOrdered) (hk : l.insert i = .ok k) : l.Places [i] k := by
  obtain ⟨hi, hdeleted, rfl⟩ := insert_eq_ok_iff.1 hk
  have hmem : i ∉ l.active := by
    rw [h.mem_active, hdeleted]
    simp
  obtain ⟨as, bs, hactive, hlast, hbs, heq⟩ := h.isRing.exists_lastNot_eq (i < ·)
  have has : ∀ a ∈ as, a < i := by
    refine h.forall_lt_of_getLast? hactive fun a ha => ?_
    have hle : a ≤ i := by simpa using hlast a ha
    refine Nat.lt_of_le_of_ne hle fun hai => hmem ?_
    rw [← hai, hactive]
    exact List.mem_append_left _ (List.mem_of_getLast? ha)
  rw [heq]
  exact .cons hactive hi has (by simpa using hbs) .nil

theorem insert (h : l.IsOrdered) (hk : l.insert i = .ok k) : k.IsOrdered ∧ Activates [i] l k :=
  h.of_places (h.places_of_insert hk)

theorem places_of_fillFrom (h : l.IsOrdered)
    (hk : l.fillFrom (l.active.getLastD l.head) js = .ok k) :
    l.Places js k ∧ k.active = l.active ++ js := by
  induction js generalizing l with
  | nil =>
      cases hk
      exact ⟨.nil, by simp⟩
  | cons i js ih =>
      obtain ⟨hlast, hi, hk⟩ := fillFrom_cons_eq_ok_iff.1 hk
      have hlt : ∀ a ∈ l.active, a < i := by
        refine h.forall_lt_of_getLast? (List.append_nil l.active).symm fun a ha => ?_
        have hmem := (h.mem_active a).1 (List.mem_of_getLast? ha)
        rw [List.getLastD_eq_getLast?, ha, Option.getD_some] at hlast
        exact hlast.resolve_left (Nat.ne_of_lt hmem.1)
      obtain ⟨hordered, hactive, -⟩ := h.activateAfter (List.append_nil l.active).symm
        hi hlt (by simp) (l.header i).dirty
      obtain ⟨hplaces, hk'⟩ := ih hordered (by
        rw [hactive, List.getLastD_concat]
        exact hk)
      rw [hactive, List.append_assoc] at hk'
      exact ⟨.cons (List.append_nil l.active).symm hi hlt (by simp) hplaces, hk'⟩

theorem places_of_fill (h : l.IsOrdered) (hk : l.fill js = .ok k) :
    l.Places js k ∧ k.active = js := by
  rw [HeaderRing.fill] at hk
  split_ifs at hk with hnum
  have hactive : l.active = [] := by
    rw [h.numActive_eq] at hnum
    exact List.length_eq_zero_iff.1 hnum
  have hk' : l.Places js k ∧ k.active = l.active ++ js := h.places_of_fillFrom (by rwa [hactive])
  rwa [hactive] at hk'

/-- Filling an empty list makes exactly the given headers active. -/
theorem fill (h : l.IsOrdered) (hk : l.fill js = .ok k) : k.IsOrdered ∧ k.active = js :=
  ⟨(h.of_places (h.places_of_fill hk).1).1, (h.places_of_fill hk).2⟩

theorem places_of_mergeFrom (h : l.IsOrdered) (hjs : js.Pairwise (· < ·))
    (hactive : l.active = as ++ bs) (has : ∀ a ∈ as, ∀ j ∈ js, a < j)
    (hk : l.mergeFrom (as.getLastD l.head) js = .ok k) : l.Places js k := by
  induction js generalizing l as bs with
  | nil =>
      cases hk
      exact .nil
  | cons i js ih =>
      obtain ⟨hi, hdeleted, hk⟩ := mergeFrom_cons_eq_ok_iff.1 hk
      have hmem : i ∉ l.active := by
        rw [h.mem_active, hdeleted]
        simp
      have hring := h.isRing
      rw [hactive] at hring
      -- the pass goes on over the active headers below `i`
      obtain ⟨cs, ds, rfl, hcs, hds, hadvance⟩ := hring.exists_advance_eq (· < i)
      rw [hadvance] at hk
      have hactive' : l.active = (as ++ cs) ++ ds := by rw [hactive, List.append_assoc]
      have hlt : ∀ a ∈ as ++ cs, a < i := by
        intro a ha
        rcases List.mem_append.1 ha with ha | ha
        · exact has a ha i (by simp)
        · simpa using hcs a ha
      have hgt : ∀ d ∈ ds, i < d := by
        refine h.forall_lt_of_head? hactive' fun d hd => ?_
        refine Nat.lt_of_le_of_ne (by simpa using hds d hd) ?_
        rintro rfl
        exact hmem (by simp [hactive', List.mem_of_mem_head? hd])
      obtain ⟨hordered, hnew, -⟩ := h.activateAfter hactive' hi hlt hgt true
      obtain ⟨hjs, hpairwise⟩ := List.pairwise_cons.1 hjs
      refine .cons hactive' hi hlt hgt (ih hordered hpairwise
        (hnew.trans (List.append_cons (as ++ cs) i ds)) (fun a ha j hj => ?_)
        (by rwa [List.getLastD_concat]))
      rcases List.mem_append.1 ha with ha | ha
      · exact (hlt a ha).trans (hjs j hj)
      · rw [List.mem_singleton.1 ha]
        exact hjs j hj

theorem places_of_merge (h : l.IsOrdered) (hn : n.IsOrdered) (hk : l.merge n = .ok k) :
    l.Places n.active k := by
  rw [HeaderRing.merge] at hk
  split_ifs at hk
  exact h.places_of_mergeFrom hn.ascending (List.nil_append l.active).symm (by simp) hk

/-- Merging makes the active headers of the other list active as well. -/
theorem merge (h : l.IsOrdered) (hn : n.IsOrdered) (hk : l.merge n = .ok k) :
    k.IsOrdered ∧ Activates n.active l k :=
  h.of_places (h.places_of_merge hn hk)

end IsOrdered

end SetCover.HeaderRing
