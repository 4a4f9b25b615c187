import Mathlib.Data.List.Sort
import SetCover.Proofs.ActiveHeaders

/-!
# Links of excluded headers

An excluded header keeps its links, and nothing that is done to the list afterwards brings them up
to date.  So they may name headers that are excluded themselves, and two headers that are no
neighbours.  Still the two links suffice to tell whether the header can go back between the headers
that it names.

A header list `IsTidy` when the links of every header, active or not, lead down and up, and no two
excluded headers are neighbours of each other.  Every operation keeps the list tidy, and a gap
between the two headers that an excluded header of a tidy list names is a gap between two active
ones.
-/

namespace SetCover.HeaderRing

variable {l k : HeaderRing} {i : Nat} {as bs js : List Nat}

/-- A list of headers that operations in any order lead to, starting without active headers. -/
inductive Arises : HeaderRing → Prop
  | excluded (d : Dimension) (n : Nat) : Arises (excluded d n)
  | fill {l k : HeaderRing} {js : List Nat} : Arises l → l.fill js = .ok k → Arises k
  | insert {l k : HeaderRing} {i : Nat} : Arises l → l.insert i = .ok k → Arises k
  | exclude {l k : HeaderRing} {i : Nat} : Arises l → l.exclude i = .ok k → Arises k
  | restore {l k : HeaderRing} {i : Nat} : Arises l → l.restore i = .ok k → Arises k
  | merge {l n k : HeaderRing} : Arises l → Arises n → l.merge n = .ok k → Arises k
  | increment {l k : HeaderRing} {i : Nat} : Arises l → l.increment i = .ok k → Arises k
  | decrement {l k : HeaderRing} {i : Nat} : Arises l → l.decrement i = .ok k → Arises k
  | clean {l k : HeaderRing} {i : Nat} : Arises l → l.clean i = .ok k → Arises k

/-- A header that is not active. -/
def IsExcluded (l : HeaderRing) (i : Nat) : Prop := i < l.size ∧ (l.header i).deleted = true

/-- The list is ordered, the links of its headers lead down and up, and no two excluded headers are
neighbours of each other. -/
structure IsTidy (l : HeaderRing) : Prop extends IsOrdered l where
  previous_lt : ∀ i < l.size, l.links.previous i = l.head ∨ l.links.previous i < i
  lt_next : ∀ i < l.size, i < l.links.next i
  apart : ∀ i j, l.IsExcluded i → l.IsExcluded j → ¬l.links.Joined i j

/-! ### Nodes of the ring -/

theorem IsOrdered.not_isExcluded (h : l.IsOrdered) (hi : i ∈ l.head :: l.active) :
    ¬l.IsExcluded i := by
  rintro ⟨hlt, hdeleted⟩
  rcases List.mem_cons.1 hi with rfl | hi
  · exact Nat.lt_irrefl _ hlt
  · rw [((h.mem_active i).1 hi).2] at hdeleted
    exact nomatch hdeleted

theorem IsOrdered.mem_of_not_isExcluded (h : l.IsOrdered) (hi : i ≤ l.size)
    (hexcluded : ¬l.IsExcluded i) : i ∈ l.head :: l.active := by
  rcases Nat.lt_or_eq_of_le hi with hlt | rfl
  · refine List.mem_cons_of_mem _ ((h.mem_active i).2 ⟨hlt, ?_⟩)
    exact Bool.eq_false_iff.2 fun hdeleted => hexcluded ⟨hlt, hdeleted⟩
  · exact List.mem_cons_self

theorem IsOrdered.lt_size_links (h : l.IsOrdered) (hi : i < l.size) : i < l.links.size := by
  rw [h.size_links]
  exact Nat.lt_succ_of_lt hi

/-! ### Operations on tidy lists -/

theorem IsTidy.of_recounted (h : l.IsTidy) (hk : l.Recounted k) : k.IsTidy := by
  obtain ⟨hordered, hprevious, hnext, hapart⟩ := h
  refine ⟨hordered.of_recounted hk, ?_, ?_, ?_⟩
  · rwa [hk.links_eq, head, hk.size_eq] at hprevious
  · rwa [hk.links_eq, hk.size_eq] at hnext
  · simpa only [IsExcluded, hk.links_eq, hk.size_eq, hk.deleted_eq] using hapart

theorem isTidy_excluded (d : Dimension) (n : Nat) : (excluded d n).IsTidy := by
  have hget : ∀ i < n, (excluded d n).links.get i = ⟨n, n⟩ := by
    intro i hi
    have hlt : i < n + 1 := Nat.lt_succ_of_lt hi
    simp [excluded, Links.replicate, Links.get, Array.getD_eq_getD_getElem?, hlt]
  refine ⟨isOrdered_excluded d n, fun i hi => .inl ?_, fun i hi => ?_, ?_⟩
  · rw [Links.previous, hget i hi]
    rfl
  · rw [Links.next, hget i hi]
    exact hi
  · rintro i j ⟨hi, -⟩ ⟨hj, -⟩ hjoined
    have hnext := hjoined.1
    rw [Links.next, hget i hi] at hnext
    exact Nat.ne_of_gt hj hnext

namespace IsTidy

/-- An active header that is excluded names nodes of the ring, so no excluded header becomes its
neighbour. -/
theorem exclude (h : l.IsTidy) (hk : l.exclude i = .ok k) : k.IsTidy := by
  have hmem := h.mem_active_of_exclude hk
  have hi := ((h.mem_active i).1 hmem).1
  obtain ⟨-, hp, hq⟩ := h.isRing.isLinked_and_mem (List.mem_cons_of_mem _ hmem)
  obtain ⟨hsize, hlinks⟩ : k.size = l.size ∧ k.links = l.links.unlink i := by
    obtain ⟨-, -, rfl⟩ := exclude_eq_ok_iff.1 hk
    exact ⟨rfl, rfl⟩
  have hexcluded : ∀ j, k.IsExcluded j → j = i ∨ l.IsExcluded j := by
    intro j hj
    rw [IsExcluded, hsize, header_of_exclude hk (h.lt_size_headers hi)] at hj
    by_cases hji : j = i
    · exact .inl hji
    · exact .inr (by rwa [if_neg hji] at hj)
  have hnotPrevious : ∀ j, k.IsExcluded j → j ≠ l.links.previous i := by
    rintro j hj rfl
    rcases hexcluded _ hj with heq | hj
    · rcases h.previous_lt i hi with hhead | hlt
      · exact Nat.ne_of_lt hi (heq.symm.trans hhead)
      · exact Nat.ne_of_lt hlt heq
    · exact h.not_isExcluded hp hj
  have hnotNext : ∀ j, k.IsExcluded j → j ≠ l.links.next i := by
    rintro j hj rfl
    rcases hexcluded _ hj with heq | hj
    · exact Nat.ne_of_gt (h.lt_next i hi) heq
    · exact h.not_isExcluded hq hj
  refine ⟨h.toIsOrdered.exclude hk, fun j hj => ?_, fun j hj => ?_, fun a b ha hb hjoined => ?_⟩
  · rw [head, hsize, hlinks, Links.previous_unlink]
    rw [hsize] at hj
    split_ifs with hnext
    · rw [hnext.1]
      exact (h.previous_lt i hi).imp_right fun hlt => hlt.trans (h.lt_next i hi)
    · exact h.previous_lt j hj
  · rw [hlinks, Links.next_unlink]
    rw [hsize] at hj
    split_ifs with hprevious
    · have hlt : j < i := by
        rw [hprevious.1]
        exact (h.previous_lt i hi).resolve_left (hprevious.1 ▸ Nat.ne_of_lt hj)
      exact hlt.trans (h.lt_next i hi)
    · exact h.lt_next j hj
  · rw [hlinks, Links.Joined, Links.next_unlink, Links.previous_unlink,
      if_neg fun heq => hnotPrevious a ha heq.1, if_neg fun heq => hnotNext b hb heq.1] at hjoined
    rcases hexcluded a ha with rfl | ha'
    · exact hnotNext b hb hjoined.1.symm
    · rcases hexcluded b hb with rfl | hb'
      · exact hnotPrevious a ha hjoined.2.symm
      · exact h.apart a b ha' hb' hjoined

/-- A header that is made active gets links to nodes of the ring, and only nodes of the ring get
links to it. -/
theorem activateAfter (h : l.IsTidy) (hactive : l.active = as ++ bs) (hi : i < l.size)
    (has : ∀ a ∈ as, a < i) (hbs : ∀ b ∈ bs, i < b) (dirty : Bool) :
    (l.activateAfter (as.getLastD l.head) i dirty).IsTidy := by
  have hlt := h.lt_size_links hi
  have hring := h.isRing
  rw [hactive] at hring
  have hgap : l.links.next (as.getLastD l.head) = bs.headD l.head := hring.joined_gap.1
  have hp := Links.getLastD_mem_cons_append l.head as bs
  have hq := Links.headD_mem_cons_append l.head as bs
  rw [← hactive] at hp hq
  have hbelow : as.getLastD l.head = l.head ∨ as.getLastD l.head < i :=
    (List.mem_cons.1 List.getLastD_mem_cons).imp_right (has _)
  have habove : i < bs.headD l.head := by
    cases bs with
    | nil => exact hi
    | cons b bs => exact hbs b List.mem_cons_self
  have hexcluded : ∀ j, (l.activateAfter (as.getLastD l.head) i dirty).IsExcluded j →
      j ≠ i ∧ l.IsExcluded j := by
    rintro j ⟨hj, hdeleted⟩
    rw [HeaderRing.activateAfter, header_setIfInBounds] at hdeleted
    split_ifs at hdeleted with hji
    exact ⟨fun heq => hji ⟨heq, heq ▸ h.lt_size_headers hi⟩, hj, hdeleted⟩
  refine ⟨(h.toIsOrdered.activateAfter hactive hi has hbs dirty).1, fun j hj => ?_,
    fun j hj => ?_, fun a b ha hb hjoined => ?_⟩
  · change (l.links.insertAfter _ i).previous j = l.head ∨ (l.links.insertAfter _ i).previous j < j
    rw [Links.previous_insertAfter hlt, hgap]
    split_ifs with hnext heq
    · exact .inr (hnext.1 ▸ habove)
    · exact heq ▸ hbelow
    · exact h.previous_lt j hj
  · change j < (l.links.insertAfter _ i).next j
    rw [Links.next_insertAfter hlt, hgap]
    split_ifs with hprevious heq
    · rw [hprevious.1]
      exact hbelow.resolve_left (hprevious.1 ▸ Nat.ne_of_lt hj)
    · exact heq ▸ habove
    · exact h.lt_next j hj
  · obtain ⟨hai, ha⟩ := hexcluded a ha
    obtain ⟨hbi, hb⟩ := hexcluded b hb
    have hap : a ≠ as.getLastD l.head := fun heq => h.not_isExcluded hp (heq ▸ ha)
    have hbq : b ≠ bs.headD l.head := fun heq => h.not_isExcluded hq (heq ▸ hb)
    change (l.links.insertAfter _ i).Joined a b at hjoined
    rw [Links.Joined, Links.next_insertAfter hlt, Links.previous_insertAfter hlt, hgap,
      if_neg fun heq => hap heq.1, if_neg hai, if_neg fun heq => hbq heq.1, if_neg hbi] at hjoined
    exact h.apart a b ha hb hjoined

theorem of_places (h : l.IsTidy) (hk : l.Places js k) : k.IsTidy := by
  induction hk with
  | nil => exact h
  | cons hactive hi has hbs _ ih => exact ih (h.activateAfter hactive hi has hbs _)

/-- The headers that an excluded header names are active or the head, if they are neighbours. -/
theorem previous_mem (h : l.IsTidy) (hi : i < l.size) (hgap : l.links.isGapFor i = true) :
    l.links.previous i ∈ l.head :: l.active := by
  obtain ⟨hnext, hprevious⟩ := Links.isGapFor_iff.1 hgap
  have hle : l.links.previous i ≤ l.size := by
    rcases h.previous_lt i hi with heq | hlt
    · exact Nat.le_of_eq heq
    · exact Nat.le_of_lt (hlt.trans hi)
  refine h.mem_of_not_isExcluded hle fun hp => ?_
  -- the header behind can neither lie outside of the list, nor be active, nor be excluded
  rcases Nat.lt_or_ge l.size (l.links.next i) with hlt | hge
  · have hself : l.links.previous (l.links.next i) = l.links.next i :=
      Links.previous_eq_of_size_le (by rw [h.size_links]; exact hlt)
    rw [hself] at hprevious
    exact Nat.not_lt_of_le hle (hprevious ▸ hlt)
  · by_cases hq : l.IsExcluded (l.links.next i)
    · exact h.apart _ _ hp hq ⟨hnext, hprevious⟩
    · have hmem := (h.isRing.isLinked_and_mem (h.mem_of_not_isExcluded hge hq)).2.1
      rw [hprevious] at hmem
      exact h.not_isExcluded hmem hp

/-- A header can be restored only at its place in the order, between two neighbours. -/
theorem exists_of_restore (h : l.IsTidy) (hk : l.restore i = .ok k) :
    ∃ as bs, l.active = as ++ bs ∧ (∀ a ∈ as, a < i) ∧ (∀ b ∈ bs, i < b) ∧
      l.links.previous i = as.getLastD l.head ∧ l.links.next i = bs.headD l.head ∧
      i < l.size ∧ k = l.activateAfter (as.getLastD l.head) i true := by
  obtain ⟨hi, -, hgap, rfl⟩ := restore_eq_ok_iff.1 hk
  obtain ⟨as, bs, hactive, hp, hq⟩ := h.isRing.exists_gap (h.previous_mem hi hgap)
  rw [(Links.isGapFor_iff.1 hgap).1] at hq
  refine ⟨as, bs, hactive, ?_, ?_, hp.symm, hq.symm, hi, by rw [hp]⟩
  · refine h.forall_lt_of_getLast? hactive fun a ha => ?_
    have hmem : a ∈ l.active := hactive ▸ List.mem_append_left _ (List.mem_of_getLast? ha)
    rw [List.getLastD_eq_getLast?, ha, Option.getD_some] at hp
    rw [hp]
    exact (h.previous_lt i hi).resolve_left (hp ▸ (h.head_ne hmem).symm)
  · refine h.forall_lt_of_head? hactive fun b hb => ?_
    rw [List.headD_eq_head?_getD, hb, Option.getD_some] at hq
    rw [hq]
    exact h.lt_next i hi

theorem places_of_restore (h : l.IsTidy) (hk : l.restore i = .ok k) : l.Places [i] k := by
  obtain ⟨as, bs, hactive, has, hbs, -, -, hi, rfl⟩ := h.exists_of_restore hk
  exact .cons hactive hi has hbs .nil

end IsTidy

/-! ### Lists that arise -/

theorem Arises.isTidy (h : Arises l) : l.IsTidy := by
  induction h with
  | excluded d n => exact isTidy_excluded d n
  | fill _ hk ih => exact ih.of_places (ih.places_of_fill hk).1
  | insert _ hk ih => exact ih.of_places (ih.places_of_insert hk)
  | exclude _ hk ih => exact ih.exclude hk
  | restore _ hk ih => exact ih.of_places (ih.places_of_restore hk)
  | merge _ _ hk ih ih' => exact ih.of_places (ih.places_of_merge ih'.toIsOrdered hk)
  | increment _ hk ih => exact ih.of_recounted (recounted_of_increment hk).2.1
  | decrement _ hk ih => exact ih.of_recounted (recounted_of_decrement hk).1
  | clean _ hk ih => exact ih.of_recounted (similar_of_clean hk).toRecounted

/-- An ordered list names all headers that are not deleted. -/
theorem IsOrdered.active_eq_indices (h : l.IsOrdered) :
    l.active = l.indices fun header => !header.deleted := by
  refine List.Pairwise.eq_of_mem_iff h.ascending
    (List.pairwise_lt_range.sublist List.filter_sublist) fun i => ?_
  rw [h.mem_active, indices, List.mem_filter, List.mem_range, Bool.not_eq_true']

/-- Whatever was done to a list of headers, going over it from its head yields the headers that are
not deleted, in ascending order, and the links of these lead forwards and backwards.  A header that
can be restored goes back between two that are neighbours in the list. -/
theorem Arises.iterates (h : Arises l) :
    l.active = l.indices (fun header => !header.deleted) ∧ l.active.Pairwise (· < ·) ∧
      l.numActive = l.active.length ∧ l.first? = l.active.head? ∧
      (∀ as i bs, l.active = as ++ i :: bs → l.next? i = .ok bs.head?) ∧
      (∀ i ∈ l.head :: l.active, l.links.previous (l.links.next i) = i ∧
        l.links.next (l.links.previous i) = i) ∧
      ∀ i k, l.restore i = .ok k → ∃ as bs, l.active = as ++ bs ∧ k.active = as ++ i :: bs ∧
        l.links.previous i = as.getLastD l.head ∧ l.links.next i = bs.headD l.head := by
  have htidy := h.isTidy
  refine ⟨htidy.active_eq_indices, htidy.ascending, htidy.numActive_eq, htidy.first?_eq,
    fun as i bs => htidy.next?_eq, fun i hi => ?_, fun i k hk => ?_⟩
  · obtain ⟨hlinked, -⟩ := htidy.isRing.isLinked_and_mem hi
    exact ⟨hlinked.2.2, hlinked.1.1⟩
  · obtain ⟨as, bs, hactive, has, hbs, hprevious, hnext, hi, rfl⟩ := htidy.exists_of_restore hk
    exact ⟨as, bs, hactive, (htidy.toIsOrdered.activateAfter hactive hi has hbs true).2.1,
      hprevious, hnext⟩

/-- Headers 0 and 2 are restored in the order in which they were excluded. -/
theorem iterates_two_restored : ∃ l k, (do
    let l ← (excluded .row 4).fill [0, 1, 2, 3]
    let l ← l.exclude 0
    let l ← l.exclude 2
    l.restore 0) = .ok l ∧ l.restore 2 = .ok k ∧
    l.active = l.indices (fun header => !header.deleted) ∧
    ∃ as bs, l.active = as ++ bs ∧ k.active = as ++ 2 :: bs ∧
      l.links.previous 2 = as.getLastD l.head ∧ l.links.next 2 = bs.headD l.head := by
  obtain ⟨l, hl, k, hk⟩ : ∃ l, (do
      let l ← (excluded .row 4).fill [0, 1, 2, 3]
      let l ← l.exclude 0
      let l ← l.exclude 2
      l.restore 0) = .ok l ∧ ∃ k, l.restore 2 = .ok k := ⟨_, rfl, _, rfl⟩
  obtain ⟨a, ha, hb⟩ := bind_eq_ok_iff.1 hl
  obtain ⟨b, hb, hc⟩ := bind_eq_ok_iff.1 hb
  obtain ⟨c, hc, hd⟩ := bind_eq_ok_iff.1 hc
  have harises : Arises l :=
    .restore (.exclude (.exclude (.fill (.excluded .row 4) ha) hb) hc) hd
  obtain ⟨hactive, -, -, -, -, -, hrestore⟩ := harises.iterates
  exact ⟨l, k, hl, hk, hactive, hrestore 2 k hk⟩

end SetCover.HeaderRing
