import SetCover.Links
import Mathlib.Data.List.Chain
import Mathlib.Data.List.Nodup
import Mathlib.Data.List.Perm.Subperm

/-!
# Rings of nodes

`l.IsRing head xs` says that the nodes `xs` form a ring with `head`, linked in both directions.
The list is then what `l.toList head` reads off, so a ring is known by its list alone.

A node that lies in a ring can be unlinked, which erases it from the list of its ring and leaves
all other rings alone.  Nodes of different rings that are unlinked one after the other can be
relinked in the same order, and then all links are as before.  Which nodes lie in a common ring
is given by an `owner` of each node that no link leaves: also the links of a node that was taken
out lead to nodes of the ring it was in.
-/

/-- There are at most `n` different numbers below `n`. -/
theorem SetCover.length_le_of_forall_lt {l : List Nat} {n : Nat} (hl : l.Nodup)
    (hlt : ∀ i ∈ l, i < n) : l.length ≤ n := by
  have hsubset : l ⊆ List.range n := fun i hi => List.mem_range.2 (hlt i hi)
  simpa using (List.subperm_of_subset hl hsubset).length_le

namespace SetCover.Links

variable {l : Links} {a b c i j p x y head : Nat} {as bs xs ys : List Nat}

/-! ### What the operations do to the links of a node -/

theorem get_eq_of_size_le (h : l.size ≤ i) : l.get i = ⟨i, i⟩ := by
  rw [get, Array.getD_eq_getD_getElem?, Array.getElem?_eq_none h]
  rfl

theorem next_eq_of_size_le (h : l.size ≤ i) : l.next i = i := by
  rw [next, get_eq_of_size_le h]

theorem previous_eq_of_size_le (h : l.size ≤ i) : l.previous i = i := by
  rw [previous, get_eq_of_size_le h]

@[simp] theorem size_set (l : Links) (i : Nat) (node : Link) : (l.set i node).size = l.size := by
  simp [set, size]

@[simp] theorem size_push (l : Links) (node : Link) : (l.push node).size = l.size + 1 := by
  simp [push, size]

theorem get_set (l : Links) (i : Nat) (node : Link) (j : Nat) :
    (l.set i node).get j = if j = i ∧ j < l.size then node else l.get j := by
  simp only [get, set, size, Array.getD_eq_getD_getElem?, Array.getElem?_setIfInBounds]
  by_cases hij : i = j
  · by_cases hj : j < l.nodes.size
    · simp [hij, hj]
    · simp [hij, hj]
  · simp [hij, Ne.symm hij]

theorem get_push (l : Links) (node : Link) (j : Nat) :
    (l.push node).get j = if j = l.size then node else l.get j := by
  simp only [get, push, size, Array.getD_eq_getD_getElem?, Array.getElem?_push]
  split_ifs <;> simp_all

theorem ext_get {k : Links} (hsize : l.size = k.size) (hnext : ∀ i, l.next i = k.next i)
    (hprevious : ∀ i, l.previous i = k.previous i) : l = k := by
  have hget : ∀ i, l.get i = k.get i := by
    intro i
    have hn := hnext i
    have hp := hprevious i
    simp only [next, previous] at hn hp
    cases hl : l.get i
    cases hk : k.get i
    simp_all
  obtain ⟨nodes⟩ := l
  obtain ⟨nodes'⟩ := k
  congr 1
  apply Array.ext hsize
  intro i hi hi'
  have h := hget i
  simpa [get, Array.getD_eq_getD_getElem?, Array.getElem?_eq_getElem hi,
    Array.getElem?_eq_getElem hi'] using h

@[simp] theorem size_setNext (l : Links) (i j : Nat) : (l.setNext i j).size = l.size :=
  size_set l i _

@[simp] theorem size_setPrevious (l : Links) (i j : Nat) : (l.setPrevious i j).size = l.size :=
  size_set l i _

theorem next_setNext (l : Links) (i k j : Nat) :
    (l.setNext i k).next j = if j = i ∧ j < l.size then k else l.next j := by
  rw [next, setNext, get_set]
  split_ifs <;> rfl

@[simp] theorem previous_setNext (l : Links) (i k j : Nat) :
    (l.setNext i k).previous j = l.previous j := by
  rw [previous, setNext, get_set]
  split_ifs with h
  · rw [h.1, previous]
  · rfl

@[simp] theorem next_setPrevious (l : Links) (i k j : Nat) :
    (l.setPrevious i k).next j = l.next j := by
  rw [next, setPrevious, get_set]
  split_ifs with h
  · rw [h.1, next]
  · rfl

theorem previous_setPrevious (l : Links) (i k j : Nat) :
    (l.setPrevious i k).previous j = if j = i ∧ j < l.size then k else l.previous j := by
  rw [previous, setPrevious, get_set]
  split_ifs <;> rfl

@[simp] theorem size_unlink (l : Links) (x : Nat) : (l.unlink x).size = l.size := by
  simp [unlink, join]

@[simp] theorem size_relink (l : Links) (x : Nat) : (l.relink x).size = l.size := by
  simp [relink]

@[simp] theorem size_insertAfter (l : Links) (p x : Nat) : (l.insertAfter p x).size = l.size := by
  simp [insertAfter]

theorem next_unlink (l : Links) (x j : Nat) :
    (l.unlink x).next j = if j = l.previous x ∧ j < l.size then l.next x else l.next j := by
  rw [unlink, join, next_setPrevious, next_setNext]
  rfl

theorem previous_unlink (l : Links) (x j : Nat) :
    (l.unlink x).previous j = if j = l.next x ∧ j < l.size then l.previous x else l.previous j := by
  rw [unlink, join, previous_setPrevious, previous_setNext, size_setNext]
  rfl

theorem next_relink (l : Links) (x j : Nat) :
    (l.relink x).next j = if j = l.previous x ∧ j < l.size then x else l.next j := by
  rw [relink, next_setPrevious, next_setNext]
  rfl

theorem previous_relink (l : Links) (x j : Nat) :
    (l.relink x).previous j = if j = l.next x ∧ j < l.size then x else l.previous j := by
  rw [relink, previous_setPrevious, previous_setNext, size_setNext]
  rfl

theorem next_insertAfter (hx : x < l.size) (p j : Nat) :
    (l.insertAfter p x).next j =
      if j = p ∧ j < l.size then x else if j = x then l.next p else l.next j := by
  have hget : (l.set x ⟨p, l.next p⟩).get x = ⟨p, l.next p⟩ := by
    rw [get_set, if_pos ⟨rfl, hx⟩]
  have hnext : ∀ j, (l.set x ⟨p, l.next p⟩).next j = if j = x then l.next p else l.next j := by
    intro j
    rw [next, get_set]
    by_cases hj : j = x
    · rw [if_pos ⟨hj, hj ▸ hx⟩, if_pos hj]
    · rw [if_neg fun h => hj h.1, if_neg hj, next]
  rw [insertAfter, next_relink, size_set, previous, hget, hnext]

theorem previous_insertAfter (hx : x < l.size) (p j : Nat) :
    (l.insertAfter p x).previous j =
      if j = l.next p ∧ j < l.size then x else if j = x then p else l.previous j := by
  have hget : (l.set x ⟨p, l.next p⟩).get x = ⟨p, l.next p⟩ := by
    rw [get_set, if_pos ⟨rfl, hx⟩]
  have hprevious : ∀ j,
      (l.set x ⟨p, l.next p⟩).previous j = if j = x then p else l.previous j := by
    intro j
    rw [previous, get_set]
    by_cases hj : j = x
    · rw [if_pos ⟨hj, hj ▸ hx⟩, if_pos hj]
    · rw [if_neg fun h => hj h.1, if_neg hj, previous]
  rw [insertAfter, previous_relink, size_set, next, hget, hprevious]

/-! ### Rings -/

/-- Node `b` follows node `a`, seen from both of them. -/
def Joined (l : Links) (a b : Nat) : Prop := l.next a = b ∧ l.previous b = a

/-- Node `x` is joined to both nodes that it names. -/
def IsLinked (l : Links) (x : Nat) : Prop := l.Joined (l.previous x) x ∧ l.Joined x (l.next x)

/-- The nodes `xs` form a ring with `head`, in this order. -/
structure IsRing (l : Links) (head : Nat) (xs : List Nat) : Prop where
  chain : (head :: (xs ++ [head])).IsChain l.Joined
  nodup : (head :: xs).Nodup

theorem Joined.lt_size (h : l.Joined a b) (hab : a ≠ b) : a < l.size ∧ b < l.size := by
  constructor
  · by_contra ha
    exact hab ((next_eq_of_size_le (Nat.le_of_not_lt ha)).symm.trans h.1)
  · by_contra hb
    exact hab (h.2.symm.trans (previous_eq_of_size_le (Nat.le_of_not_lt hb)))

theorem IsRing.notMem (h : l.IsRing head xs) : head ∉ xs := (List.nodup_cons.1 h.nodup).1

theorem IsRing.nodup_tail (h : l.IsRing head xs) : xs.Nodup := (List.nodup_cons.1 h.nodup).2

/-- The last node before a gap lies in the ring. -/
theorem getLastD_mem_cons_append (head : Nat) (as bs : List Nat) :
    as.getLastD head ∈ head :: (as ++ bs) :=
  List.mem_cons.2 ((List.mem_cons.1 List.getLastD_mem_cons).imp_right (by simp +contextual))

/-- The first node behind a gap lies in the ring. -/
theorem headD_mem_cons_append (head : Nat) (as bs : List Nat) :
    bs.headD head ∈ head :: (as ++ bs) := by
  cases bs <;> simp

/-- Around each node of a ring there are two nodes of the ring that it is joined to. -/
theorem IsRing.joined_of_append (h : l.IsRing head (as ++ x :: bs)) :
    l.Joined (as.getLastD head) x ∧ l.Joined x (bs.headD head) := by
  have hchain := h.chain
  rw [List.append_assoc, List.cons_append, ← List.cons_append, List.isChain_split] at hchain
  obtain ⟨hleft, hright⟩ := hchain
  constructor
  · rw [← List.dropLast_append_getLast (List.cons_ne_nil head as), List.append_assoc] at hleft
    have hlast := (List.isChain_append_cons_cons.1 hleft).2.1
    rwa [List.getLast_eq_getLastD] at hlast
  · cases bs with
    | nil => exact hright.rel
    | cons b bs => exact hright.rel

theorem IsRing.isLinked (h : l.IsRing head xs) (hx : x ∈ xs) : l.IsLinked x := by
  obtain ⟨as, bs, rfl⟩ := List.append_of_mem hx
  obtain ⟨hleft, hright⟩ := h.joined_of_append
  exact ⟨by rwa [← hleft.2] at hleft, by rwa [← hright.1] at hright⟩

/-- The last node before a gap in a ring is joined to the first one behind it. -/
theorem IsRing.joined_gap (h : l.IsRing head (as ++ bs)) :
    l.Joined (as.getLastD head) (bs.headD head) := by
  cases bs with
  | cons b bs => exact h.joined_of_append.1
  | nil =>
      have hchain := h.chain
      rw [List.append_nil, ← List.cons_append,
        ← List.dropLast_append_getLast (List.cons_ne_nil head as), List.append_assoc] at hchain
      have hlast := (List.isChain_append_cons_cons.1 hchain).2.1
      rwa [List.getLast_eq_getLastD] at hlast

/-- The two links of a node of a ring, the head among them, lead to nodes of the ring and back. -/
theorem IsRing.isLinked_and_mem (h : l.IsRing head xs) (hx : x ∈ head :: xs) :
    l.IsLinked x ∧ l.previous x ∈ head :: xs ∧ l.next x ∈ head :: xs := by
  obtain ⟨p, q, hp, hq, hleft, hright⟩ : ∃ p q, p ∈ head :: xs ∧ q ∈ head :: xs ∧
      l.Joined p x ∧ l.Joined x q := by
    rcases List.mem_cons.1 hx with rfl | hx
    · have hend : l.IsRing x (xs ++ []) := by rwa [List.append_nil]
      have hstart : l.IsRing x ([] ++ xs) := h
      refine ⟨_, _, ?_, ?_, hend.joined_gap, hstart.joined_gap⟩
      · simpa using getLastD_mem_cons_append x xs []
      · exact headD_mem_cons_append x [] xs
    · obtain ⟨as, bs, rfl⟩ := List.append_of_mem hx
      refine ⟨_, _, getLastD_mem_cons_append head as _, ?_, h.joined_of_append⟩
      simpa using headD_mem_cons_append head (as ++ [x]) bs
  have hprevious := hleft.2
  have hnext := hright.1
  subst hprevious hnext
  exact ⟨⟨hleft, hright⟩, hp, hq⟩

/-- Behind each node of a ring, the head among them, there is a gap. -/
theorem IsRing.exists_gap (h : l.IsRing head xs) (hx : x ∈ head :: xs) :
    ∃ as bs, xs = as ++ bs ∧ as.getLastD head = x ∧ bs.headD head = l.next x := by
  rcases List.mem_cons.1 hx with rfl | hx
  · have hstart : l.IsRing x ([] ++ xs) := h
    exact ⟨[], xs, rfl, rfl, hstart.joined_gap.1.symm⟩
  · obtain ⟨as, bs, rfl⟩ := List.append_of_mem hx
    exact ⟨as ++ [x], bs, by simp, by simp, h.joined_of_append.2.1.symm⟩

theorem Joined.unlink (h : l.Joined a b) (hx : l.IsLinked x) (ha : a ≠ x) (hb : b ≠ x) :
    (l.unlink x).Joined a b := by
  constructor
  · rw [next_unlink, if_neg, h.1]
    rintro ⟨rfl, -⟩
    exact hb (h.1.symm.trans hx.1.1)
  · rw [previous_unlink, if_neg, h.2]
    rintro ⟨rfl, -⟩
    exact ha (h.2.symm.trans hx.2.2)

/-- Unlinking a node leaves the rings alone in which it does not lie. -/
theorem IsRing.unlink_of_notMem (h : l.IsRing head ys) (hx : l.IsLinked x)
    (hxy : x ∉ head :: ys) : (l.unlink x).IsRing head ys := by
  have hne : ∀ a ∈ head :: (ys ++ [head]), a ≠ x := by
    rintro a ha rfl
    simp_all
  exact ⟨h.chain.imp_of_mem_imp fun a b ha hb hab => hab.unlink hx (hne a ha) (hne b hb), h.nodup⟩

/-- Unlinking a node takes it out of its ring. -/
theorem IsRing.unlink (h : l.IsRing head (as ++ x :: bs)) :
    (l.unlink x).IsRing head (as ++ bs) := by
  have hx : l.IsLinked x := h.isLinked (by simp)
  have hnodup : (head :: (as ++ bs)).Nodup :=
    h.nodup.sublist (((List.sublist_cons_self x bs).append_left as).cons_cons head)
  have hmem : x ∉ head :: (as ++ bs) := by
    have := h.nodup
    simp only [List.nodup_cons, List.nodup_append, List.mem_append, List.mem_cons] at this ⊢
    grind
  have hne : ∀ a ∈ head :: (as ++ bs), a ≠ x := fun a ha hax => hmem (hax ▸ ha)
  refine ⟨?_, hnodup⟩
  obtain ⟨hleft, hright⟩ := h.joined_of_append
  have hchain := h.chain
  rw [List.append_assoc, List.cons_append, ← List.cons_append, List.isChain_split] at hchain
  -- the chain before `x` and the chain behind it do not change, and their ends meet
  have hbefore : (head :: as).IsChain (l.unlink x).Joined :=
    hchain.1.left_of_append.imp_of_mem_imp fun a b ha hb hab => hab.unlink hx
      (hne a (by simp only [List.mem_cons, List.mem_append] at ha ⊢; tauto))
      (hne b (by simp only [List.mem_cons, List.mem_append] at hb ⊢; tauto))
  have hbehind : (bs ++ [head]).IsChain (l.unlink x).Joined :=
    hchain.2.of_cons.imp_of_mem_imp fun a b ha hb hab => hab.unlink hx
      (hne a (by simp only [List.mem_cons, List.mem_append, List.not_mem_nil] at ha ⊢; tauto))
      (hne b (by simp only [List.mem_cons, List.mem_append, List.not_mem_nil] at hb ⊢; tauto))
  have hmeet : (l.unlink x).Joined (as.getLastD head) (bs.headD head) := by
    have hlt := hleft.lt_size (hne _ (getLastD_mem_cons_append head as bs))
    have hlt' := hright.lt_size (hne _ (headD_mem_cons_append head as bs)).symm
    constructor
    · rw [next_unlink, if_pos ⟨hleft.2.symm, hlt.1⟩, hright.1]
    · rw [previous_unlink, if_pos ⟨hright.1.symm, hlt'.2⟩, hleft.2]
  rw [List.append_assoc, ← List.cons_append]
  refine hbefore.append hbehind fun a ha b hb => ?_
  have ha' : as.getLastD head = a := by
    rw [List.getLast?_cons] at ha
    simpa using ha
  have hb' : bs.headD head = b := by
    cases bs <;> simpa using hb
  exact ha' ▸ hb' ▸ hmeet

/-- The neighbours that an unlinked node still names are neighbours of each other. -/
theorem IsRing.isGapFor_unlink (h : l.IsRing head xs) (hx : x ∈ xs) :
    (l.unlink x).isGapFor x = true := by
  obtain ⟨as, bs, rfl⟩ := List.append_of_mem hx
  obtain ⟨hleft, hright⟩ := h.joined_of_append
  have hgap := h.unlink.joined_gap
  have hnext : ((l.unlink x).get x).next = bs.headD head := by
    rw [← Links.next, next_unlink, ite_self, hright.1]
  have hprevious : ((l.unlink x).get x).previous = as.getLastD head := by
    rw [← Links.previous, previous_unlink, ite_self, hleft.2]
  simp only [isGapFor, hnext, hprevious, hgap.1, hgap.2, beq_self_eq_true, Bool.and_self]

/-- Unlinking a node erases it from the ring in which it lies. -/
theorem IsRing.unlink_filter (h : l.IsRing head ys) (hx : l.IsLinked x) (hne : head ≠ x) :
    (l.unlink x).IsRing head (ys.filter (· ≠ x)) := by
  by_cases hmem : x ∈ ys
  · obtain ⟨as, bs, rfl⟩ := List.append_of_mem hmem
    have hfilter : (as ++ x :: bs).filter (· ≠ x) = as ++ bs := by
      have hnodup := h.nodup_tail
      rw [List.nodup_append, List.nodup_cons] at hnodup
      have has : ∀ a ∈ as, a ≠ x := fun a ha => hnodup.2.2 a ha x (by simp)
      have hbs : ∀ b ∈ bs, b ≠ x := fun b hb hbx => hnodup.2.1.1 (hbx ▸ hb)
      rw [List.filter_append, List.filter_cons_of_neg (by simp),
        List.filter_eq_self.2 (by simpa using has), List.filter_eq_self.2 (by simpa using hbs)]
    rw [hfilter]
    exact h.unlink
  · have hfilter : ys.filter (· ≠ x) = ys :=
      List.filter_eq_self.2 fun y hy => by
        simpa using fun hyx : y = x => hmem (hyx ▸ hy)
    rw [hfilter]
    exact h.unlink_of_notMem hx (by simp [hmem, hne.symm])

/-- Unlinking nodes one after the other erases them from the rings in which they lie. -/
theorem IsRing.foldl_unlink (h : l.IsRing head ys) (hxs : xs.Nodup) (hhead : head ∉ xs)
    (hring : ∀ x ∈ xs, ∃ head' ys', l.IsRing head' ys' ∧ head' ∉ xs ∧ x ∈ ys') :
    (xs.foldl Links.unlink l).IsRing head (ys.filter (· ∉ xs)) := by
  induction xs generalizing l ys with
  | nil => simpa using h
  | cons x xs ih =>
      obtain ⟨hx, hxs⟩ := List.nodup_cons.1 hxs
      obtain ⟨headx, ysx, hringx, hheadx, hmemx⟩ := hring x (by simp)
      have hlinked := hringx.isLinked hmemx
      have hne : head ≠ x := fun heq => hhead (by simp [heq])
      have hrest := ih (h.unlink_filter hlinked hne) hxs (fun hmem => hhead (by simp [hmem]))
        (fun y hy => by
          obtain ⟨heady, ysy, hringy, hheady, hmemy⟩ := hring y (by simp [hy])
          rw [List.mem_cons, not_or] at hheady
          refine ⟨heady, _, hringy.unlink_filter hlinked hheady.1, hheady.2, ?_⟩
          rw [List.mem_filter]
          exact ⟨hmemy, by simpa using fun hyx : y = x => hx (hyx ▸ hy)⟩)
      rw [List.filter_filter] at hrest
      rw [List.foldl_cons]
      convert hrest using 2
      funext y
      by_cases hyx : y = x <;> simp [hyx]

/-! ### Reading a ring off -/

theorem walk_eq_of_isChain {stop n : Nat} (h : (a :: (xs ++ [stop])).IsChain l.Joined)
    (hstop : stop ∉ xs) (hn : xs.length ≤ n) : l.walk stop n (l.next a) = xs := by
  induction xs generalizing a n with
  | nil =>
      have hnext : l.next a = stop := h.rel.1
      cases n with
      | zero => rfl
      | succ n => rw [walk, if_pos hnext]
  | cons x xs ih =>
      have hnext : l.next a = x := h.rel.1
      obtain ⟨hx, hstop⟩ := not_or.1 (mt List.mem_cons.2 hstop)
      cases n with
      | zero => simp at hn
      | succ n =>
          rw [hnext, walk, if_neg (Ne.symm hx), ih h.of_cons hstop (Nat.le_of_succ_le_succ hn)]

theorem IsRing.lt_size (h : l.IsRing head xs) (hx : x ∈ xs) : x < l.size := by
  obtain ⟨as, bs, rfl⟩ := List.append_of_mem hx
  refine (h.joined_of_append.1.lt_size fun heq => ?_).2
  have hnodup := h.nodup
  rw [← List.cons_append, List.nodup_append] at hnodup
  exact hnodup.2.2 _ List.getLastD_mem_cons x (by simp) heq

theorem IsRing.length_le_size (h : l.IsRing head xs) : xs.length ≤ l.size :=
  length_le_of_forall_lt h.nodup_tail fun _ => h.lt_size

/-- A ring is read off completely. -/
theorem IsRing.toList_eq (h : l.IsRing head xs) : l.toList head = xs :=
  walk_eq_of_isChain h.chain h.notMem h.length_le_size

/-- Going backwards passes over the last nodes of a ring that satisfy `skip`. -/
theorem exists_retreat_eq {skip : Nat → Bool} {n : Nat}
    (h : (head :: (xs ++ [c])).IsChain l.Joined) (hhead : head ∉ xs) (hn : xs.length ≤ n) :
    ∃ as bs, xs = as ++ bs ∧ (∀ a ∈ as.getLast?, ¬skip a) ∧ (∀ b ∈ bs, skip b) ∧
      l.retreat head skip n (l.previous c) = as.getLastD head := by
  induction xs using List.reverseRecOn generalizing c n with
  | nil =>
      refine ⟨[], [], rfl, by simp, by simp, ?_⟩
      rw [h.rel.2]
      cases n <;> simp [retreat]
  | append_singleton xs x ih =>
      have hchain : (head :: (xs ++ [x])).IsChain l.Joined ∧ l.Joined x c := by
        rw [List.append_assoc, ← List.cons_append] at h
        exact ⟨(List.isChain_append_cons_cons.1 h).1, (List.isChain_append_cons_cons.1 h).2.1⟩
      simp only [List.mem_append, List.mem_singleton, not_or] at hhead
      by_cases hskip : skip x
      · cases n with
        | zero => simp at hn
        | succ n =>
            obtain ⟨as, bs, rfl, has, hbs, hretreat⟩ := ih (n := n) hchain.1 hhead.1
              (by simpa using hn)
            refine ⟨as, bs ++ [x], by simp, has, ?_, ?_⟩
            · simpa [or_imp, forall_and, hskip] using hbs
            · rw [hchain.2.2, retreat, if_pos ⟨Ne.symm hhead.2, hskip⟩, hretreat]
      · refine ⟨xs ++ [x], [], by simp, by simpa using hskip, by simp, ?_⟩
        rw [hchain.2.2, List.getLastD_concat]
        cases n with
        | zero => rfl
        | succ n => rw [retreat, if_neg fun hx => hskip hx.2]

/-- The last node of a ring that does not satisfy `skip`, with the ring cut behind it. -/
theorem IsRing.exists_lastNot_eq (h : l.IsRing head xs) (skip : Nat → Bool) :
    ∃ as bs, xs = as ++ bs ∧ (∀ a ∈ as.getLast?, ¬skip a) ∧ (∀ b ∈ bs, skip b) ∧
      l.lastNot head skip = as.getLastD head :=
  exists_retreat_eq h.chain h.notMem h.length_le_size

/-- Going forwards passes over the nodes behind a gap that satisfy `skip`. -/
theorem exists_advance_eq {stop n : Nat} (skip : Nat → Bool)
    (h : (a :: (xs ++ [stop])).IsChain l.Joined) (hstop : stop ∉ xs) (hn : xs.length ≤ n) :
    ∃ as bs, xs = as ++ bs ∧ (∀ a ∈ as, skip a) ∧ (∀ b ∈ bs.head?, ¬skip b) ∧
      l.advance stop skip n a = as.getLastD a := by
  induction xs generalizing a n with
  | nil =>
      have hnext : l.next a = stop := h.rel.1
      refine ⟨[], [], rfl, by simp, by simp, ?_⟩
      cases n with
      | zero => rfl
      | succ n => rw [advance, if_neg (by simp [hnext]), List.getLastD_nil]
  | cons x xs ih =>
      have hnext : l.next a = x := h.rel.1
      obtain ⟨hx, hstop⟩ := not_or.1 (mt List.mem_cons.2 hstop)
      cases n with
      | zero => simp at hn
      | succ n =>
          by_cases hskip : skip x
          · obtain ⟨as, bs, rfl, has, hbs, hadvance⟩ := ih (n := n) h.of_cons hstop
              (Nat.le_of_succ_le_succ hn)
            refine ⟨x :: as, bs, rfl, by simpa [hskip] using has, hbs, ?_⟩
            rw [advance, hnext, if_pos ⟨Ne.symm hx, hskip⟩, hadvance, List.getLastD_cons]
          · refine ⟨[], x :: xs, rfl, by simp, by simpa using hskip, ?_⟩
            rw [advance, hnext, if_neg fun h => hskip h.2, List.getLastD_nil]

/-- From a gap in a ring on, the nodes that satisfy `skip` are passed over. -/
theorem IsRing.exists_advance_eq (h : l.IsRing head (as ++ bs)) (skip : Nat → Bool) :
    ∃ cs ds, bs = cs ++ ds ∧ (∀ c ∈ cs, skip c) ∧ (∀ d ∈ ds.head?, ¬skip d) ∧
      l.advance head skip l.size (as.getLastD head) = (as ++ cs).getLastD head := by
  have hchain := h.chain
  rw [List.append_assoc, ← List.cons_append,
    ← List.dropLast_append_getLast (List.cons_ne_nil head as), List.append_assoc,
    List.getLast_eq_getLastD] at hchain
  have hhead : head ∉ bs := fun hmem => h.notMem (List.mem_append_right as hmem)
  have hlength : bs.length ≤ l.size := by
    refine le_trans ?_ h.length_le_size
    rw [List.length_append]
    exact Nat.le_add_left _ _
  obtain ⟨cs, ds, hbs, hcs, hds, hadvance⟩ :=
    Links.exists_advance_eq skip hchain.right_of_append hhead hlength
  refine ⟨cs, ds, hbs, hcs, hds, ?_⟩
  rw [hadvance]
  simp

/-! ### Adding nodes -/

theorem Joined.push (h : l.Joined a b) (node : Link) (ha : a ≠ l.size) (hb : b ≠ l.size) :
    (l.push node).Joined a b := by
  constructor
  · rw [next, get_push, if_neg ha]
    exact h.1
  · rw [previous, get_push, if_neg hb]
    exact h.2

theorem IsRing.push (h : l.IsRing head xs) (node : Link) (hhead : head < l.size) :
    (l.push node).IsRing head xs := by
  have hne : ∀ a ∈ head :: (xs ++ [head]), a ≠ l.size := by
    intro a ha
    simp only [List.mem_cons, List.mem_append, List.not_mem_nil, or_false] at ha
    rcases ha with rfl | ha | rfl
    · exact Nat.ne_of_lt hhead
    · exact Nat.ne_of_lt (h.lt_size ha)
    · exact Nat.ne_of_lt hhead
  exact ⟨h.chain.imp_of_mem_imp fun a b ha hb hab => hab.push node (hne a ha) (hne b hb), h.nodup⟩

/-- A node that names itself is a ring of its own. -/
theorem isRing_nil (h : l.get head = ⟨head, head⟩) : l.IsRing head [] := by
  refine ⟨?_, by simp⟩
  rw [List.nil_append, List.isChain_pair]
  exact ⟨by rw [next, h], by rw [previous, h]⟩

theorem Joined.insertAfter (h : l.Joined a b) (hx : x < l.size) (hax : a ≠ x) (hbx : b ≠ x)
    (hb : b ≠ l.next p) : (l.insertAfter p x).Joined a b := by
  constructor
  · rw [next_insertAfter hx, if_neg, if_neg hax, h.1]
    rintro ⟨rfl, -⟩
    exact hb h.1.symm
  · rw [previous_insertAfter hx, if_neg fun h => hb h.1, if_neg hbx, h.2]

/-- A node that is put behind node `p` goes into no ring in which `p` does not lie. -/
theorem IsRing.insertAfter_of_notMem (h : l.IsRing head ys) (hp : l.Joined p (l.next p))
    (hx : x < l.size) (hpy : p ∉ head :: ys) (hxy : x ∉ head :: ys) :
    (l.insertAfter p x).IsRing head ys := by
  have hne : ∀ a ∈ head :: (ys ++ [head]), a ≠ p ∧ a ≠ x := by
    intro a ha
    constructor <;> rintro rfl <;> simp_all
  refine ⟨h.chain.imp_of_mem_imp fun a b ha hb hab => ?_, h.nodup⟩
  refine hab.insertAfter hx (hne a ha).2 (hne b hb).2 ?_
  rintro rfl
  exact (hne a ha).1 (hab.2.symm.trans hp.2)

/-- No node before a gap follows on the gap's last node, so their links stay. -/
theorem IsRing.isChain_insertAfter_left (h : l.IsRing head (as ++ bs)) (hx : x < l.size)
    (hxs : x ∉ head :: (as ++ bs)) :
    (head :: as).IsChain (l.insertAfter (as.getLastD head) x).Joined := by
  have hne : ∀ a ∈ head :: (as ++ bs), a ≠ x := fun a ha hax => hxs (hax ▸ ha)
  have hchain := h.chain
  rw [List.append_assoc, ← List.cons_append] at hchain
  refine hchain.left_of_append.imp_of_mem_tail_imp fun a b ha hb hab => ?_
  have hbm : b ∈ as := hb
  refine hab.insertAfter hx (hne a ?_) (hne b (by simp [hbm])) ?_
  · exact List.mem_cons.2 ((List.mem_cons.1 ha).imp_right (by simp +contextual))
  · rw [h.joined_gap.1]
    rintro rfl
    have hnodup := h.nodup
    cases bs with
    | nil => simp_all
    | cons c bs =>
        rw [← List.cons_append, List.nodup_append] at hnodup
        exact hnodup.2.2 c (List.mem_cons_of_mem _ hbm) c (by simp) rfl

theorem IsRing.isChain_insertAfter_right (h : l.IsRing head (as ++ bs)) (hx : x < l.size)
    (hxs : x ∉ head :: (as ++ bs)) :
    (bs ++ [head]).IsChain (l.insertAfter (as.getLastD head) x).Joined := by
  have hne : ∀ a ∈ bs ++ [head], a ≠ x := by
    rintro a ha rfl
    refine hxs ?_
    simp only [List.mem_cons, List.mem_append, List.not_mem_nil] at ha ⊢
    tauto
  have hchain := h.chain
  rw [List.append_assoc, ← List.cons_append] at hchain
  refine hchain.right_of_append.imp_of_mem_tail_imp fun a b ha hb hab => ?_
  refine hab.insertAfter hx (hne a ha) (hne b (List.mem_of_mem_tail hb)) ?_
  rw [h.joined_gap.1]
  rintro rfl
  have hnodup := h.nodup
  cases bs with
  | nil => simp at hb
  | cons b bs => simp_all [List.nodup_append]

/-- A node inserted into a gap is joined to the nodes on either side of it. -/
theorem IsRing.joined_insertAfter (h : l.IsRing head (as ++ bs)) (hx : x < l.size)
    (hhead : head < l.size) (hxs : x ∉ head :: (as ++ bs)) :
    (l.insertAfter (as.getLastD head) x).Joined (as.getLastD head) x ∧
      (l.insertAfter (as.getLastD head) x).Joined x (bs.headD head) := by
  have hlt : ∀ a ∈ head :: (as ++ bs), a < l.size := by
    intro a ha
    rcases List.mem_cons.1 ha with rfl | ha
    · exact hhead
    · exact h.lt_size ha
  have hlast := getLastD_mem_cons_append head as bs
  have hfirst := headD_mem_cons_append head as bs
  have hlast' : as.getLastD head ≠ x := fun heq => hxs (heq ▸ hlast)
  have hfirst' : bs.headD head ≠ x := fun heq => hxs (heq ▸ hfirst)
  have hgap := h.joined_gap
  constructor
  · constructor
    · rw [next_insertAfter hx, if_pos ⟨rfl, hlt _ hlast⟩]
    · rw [previous_insertAfter hx, if_neg, if_pos rfl]
      rintro ⟨hxn, -⟩
      exact hfirst' (hxn.trans hgap.1).symm
  · constructor
    · rw [next_insertAfter hx, if_neg fun h => hlast' h.1.symm, if_pos rfl, hgap.1]
    · rw [previous_insertAfter hx, if_pos ⟨hgap.1.symm, hlt _ hfirst⟩]

/-- A node goes into a ring at the gap that it is put into. -/
theorem IsRing.insertAfter (h : l.IsRing head (as ++ bs)) (hx : x < l.size)
    (hhead : head < l.size) (hxs : x ∉ head :: (as ++ bs)) :
    (l.insertAfter (as.getLastD head) x).IsRing head (as ++ x :: bs) := by
  have hnodup : (head :: (as ++ x :: bs)).Nodup :=
    (@List.perm_middle _ x (head :: as) bs).nodup_iff.2 (List.nodup_cons.2 ⟨hxs, h.nodup⟩)
  obtain ⟨hleft, hright⟩ := h.joined_insertAfter hx hhead hxs
  have hend : (x :: (bs ++ [head])).IsChain (l.insertAfter (as.getLastD head) x).Joined := by
    refine List.isChain_cons.2 ⟨fun b hb => ?_, h.isChain_insertAfter_right hx hxs⟩
    have hb' : bs.headD head = b := by
      cases bs <;> simpa using hb
    exact hb' ▸ hright
  refine ⟨?_, hnodup⟩
  rw [List.append_assoc, ← List.cons_append]
  refine (h.isChain_insertAfter_left hx hxs).append hend fun a ha b hb => ?_
  have ha' : as.getLastD head = a := by
    rw [List.getLast?_cons] at ha
    simpa using ha
  have hb' : x = b := by simpa using hb
  exact ha' ▸ hb' ▸ hleft

@[simp] theorem set_get (l : Links) (x : Nat) : l.set x (l.get x) = l := by
  refine ext_get (by simp) (fun j => ?_) (fun j => ?_)
  · rw [next, next, get_set]
    split_ifs with hj
    · rw [hj.1]
    · rfl
  · rw [previous, previous, get_set]
    split_ifs with hj
    · rw [hj.1]
    · rfl

theorem isGapFor_iff : l.isGapFor x = true ↔
    l.next (l.previous x) = l.next x ∧ l.previous (l.next x) = l.previous x := by
  rw [isGapFor, Bool.and_eq_true, beq_iff_eq, beq_iff_eq]
  rfl

/-- To put a node back into the gap that it names is to insert it there. -/
theorem insertAfter_previous (h : l.isGapFor x = true) :
    l.insertAfter (l.previous x) x = l.relink x := by
  rw [insertAfter, (isGapFor_iff.1 h).1]
  exact congrArg (Links.relink · x) (set_get l x)

/-! ### Owners -/

/-- No link leads from a node of one owner to a node of another. -/
def Respects (l : Links) (owner : Nat → Nat) : Prop :=
  ∀ i, owner (l.next i) = owner i ∧ owner (l.previous i) = owner i

variable {owner : Nat → Nat}

theorem Respects.unlink (h : l.Respects owner) (x : Nat) : (l.unlink x).Respects owner := by
  intro i
  constructor
  · rw [next_unlink]
    split_ifs with hi
    · rw [(h x).1, hi.1, (h x).2]
    · exact (h i).1
  · rw [previous_unlink]
    split_ifs with hi
    · rw [(h x).2, hi.1, (h x).1]
    · exact (h i).2

theorem Respects.insertAfter (h : l.Respects owner) (hx : x < l.size)
    (howner : owner x = owner p) : (l.insertAfter p x).Respects owner := by
  intro i
  constructor
  · rw [next_insertAfter hx]
    split_ifs with hi hi
    · rw [howner, hi.1]
    · rw [(h p).1, hi, howner]
    · exact (h i).1
  · rw [previous_insertAfter hx]
    split_ifs with hi hi
    · rw [howner, hi.1, (h p).1]
    · rw [hi, howner]
    · exact (h i).2

/-- A node that was unlinked goes back to where it was. -/
theorem relink_unlink_self (h : l.IsLinked x) : (l.unlink x).relink x = l := by
  have hnext : (l.unlink x).next x = l.next x := by
    rw [next_unlink, ite_self]
  have hprevious : (l.unlink x).previous x = l.previous x := by
    rw [previous_unlink, ite_self]
  refine ext_get (by simp) (fun j => ?_) (fun j => ?_)
  · rw [next_relink, hprevious, size_unlink, next_unlink]
    split_ifs with hj
    · rw [hj.1, h.1.1]
    · rfl
  · rw [previous_relink, hnext, size_unlink, previous_unlink]
    split_ifs with hj
    · rw [hj.1, h.2.2]
    · rfl

/-- Unlinking and relinking nodes of different owners does not depend on the order. -/
theorem relink_unlink_comm (h : l.Respects owner) (hxy : owner x ≠ owner y) :
    (l.unlink y).relink x = (l.relink x).unlink y := by
  have hne : ∀ i j, owner i = owner x → owner j = owner y → i ≠ j := by
    rintro i j hi hj rfl
    exact hxy (hi.symm.trans hj)
  have hnx : (l.unlink y).next x = l.next x := by
    rw [next_unlink, if_neg fun h' => hne x _ rfl (h y).2 h'.1]
  have hpx : (l.unlink y).previous x = l.previous x := by
    rw [previous_unlink, if_neg fun h' => hne x _ rfl (h y).1 h'.1]
  have hny : (l.relink x).next y = l.next y := by
    rw [next_relink, if_neg fun h' => hne _ y (h x).2 rfl h'.1.symm]
  have hpy : (l.relink x).previous y = l.previous y := by
    rw [previous_relink, if_neg fun h' => hne _ y (h x).1 rfl h'.1.symm]
  refine ext_get (by simp) (fun j => ?_) (fun j => ?_)
  · rw [next_relink, hpx, next_unlink, next_unlink (l.relink x), hpy, hny, next_relink,
      size_unlink, size_relink]
    by_cases hj : j = l.previous x ∧ j < l.size
    · rw [if_pos hj, if_neg fun h' => hne _ _ (h x).2 (h y).2 (hj.1.symm.trans h'.1), if_pos hj]
    · rw [if_neg hj, if_neg hj]
  · rw [previous_relink, hnx, previous_unlink, previous_unlink (l.relink x), hpy, hny,
      previous_relink, size_unlink, size_relink]
    by_cases hj : j = l.next x ∧ j < l.size
    · rw [if_pos hj, if_neg fun h' => hne _ _ (h x).1 (h y).1 (hj.1.symm.trans h'.1), if_pos hj]
    · rw [if_neg hj, if_neg hj]

theorem relink_foldl_unlink (h : l.Respects owner) (hx : ∀ y ∈ xs, owner x ≠ owner y) :
    (xs.foldl Links.unlink l).relink x = xs.foldl Links.unlink (l.relink x) := by
  induction xs generalizing l with
  | nil => rfl
  | cons y xs ih =>
      rw [List.foldl_cons, List.foldl_cons, ih (h.unlink y) fun z hz => hx z (by simp [hz]),
        relink_unlink_comm h (hx y (by simp))]

/-- Nodes of different owners that were unlinked in turn can be relinked in the same order. -/
theorem foldl_relink_foldl_unlink (h : l.Respects owner) (hxs : (xs.map owner).Nodup)
    (hlinked : ∀ x ∈ xs, l.IsLinked x) :
    xs.foldl Links.relink (xs.foldl Links.unlink l) = l := by
  induction xs with
  | nil => rfl
  | cons x xs ih =>
      rw [List.map_cons, List.nodup_cons] at hxs
      have hne : ∀ y ∈ xs, owner x ≠ owner y := fun y hy heq =>
        hxs.1 (heq ▸ List.mem_map_of_mem hy)
      rw [List.foldl_cons, List.foldl_cons, relink_foldl_unlink (h.unlink x) hne,
        relink_unlink_self (hlinked x (by simp)), ih hxs.2 fun y hy => hlinked y (by simp [hy])]

theorem Respects.foldl_unlink (h : l.Respects owner) (xs : List Nat) :
    (xs.foldl Links.unlink l).Respects owner := by
  induction xs generalizing l with
  | nil => exact h
  | cons x xs ih => exact ih (h.unlink x)

/-! ### Links within bounds -/

/-- No link leads from a node to none. -/
def Closed (l : Links) : Prop := ∀ i < l.size, l.next i < l.size ∧ l.previous i < l.size

@[simp] theorem size_foldl_unlink (l : Links) (xs : List Nat) :
    (xs.foldl Links.unlink l).size = l.size := by
  induction xs generalizing l with
  | nil => rfl
  | cons x xs ih => rw [List.foldl_cons, ih, size_unlink]

theorem Closed.unlink (h : l.Closed) (x : Nat) : (l.unlink x).Closed := by
  by_cases hx : x < l.size
  · intro i hi
    rw [size_unlink] at hi ⊢
    rw [next_unlink, previous_unlink]
    split_ifs
    · exact ⟨(h x hx).1, (h x hx).2⟩
    · exact ⟨(h x hx).1, (h i hi).2⟩
    · exact ⟨(h i hi).1, (h x hx).2⟩
    · exact h i hi
  · intro i hi
    rw [size_unlink] at hi ⊢
    have hne : ¬(i = x ∧ i < l.size) := fun h => hx (h.1 ▸ h.2)
    rw [next_unlink, previous_unlink, next_eq_of_size_le (Nat.le_of_not_lt hx),
      previous_eq_of_size_le (Nat.le_of_not_lt hx), if_neg hne, if_neg hne]
    exact h i hi

theorem Closed.foldl_unlink (h : l.Closed) (xs : List Nat) : (xs.foldl Links.unlink l).Closed := by
  induction xs generalizing l with
  | nil => exact h
  | cons x xs ih => exact ih (h.unlink x)

theorem Closed.push (h : l.Closed) : (l.push ⟨l.size, l.size⟩).Closed := by
  intro i hi
  rw [size_push] at hi ⊢
  rw [next, previous, get_push]
  split_ifs with heq
  · exact ⟨Nat.lt_succ_self _, Nat.lt_succ_self _⟩
  · have hlt := h i (by omega)
    exact ⟨Nat.lt_succ_of_lt hlt.1, Nat.lt_succ_of_lt hlt.2⟩

theorem Closed.insertAfter (h : l.Closed) (hp : p < l.size) (hx : x < l.size) :
    (l.insertAfter p x).Closed := by
  intro i hi
  rw [size_insertAfter] at hi ⊢
  rw [next_insertAfter hx, previous_insertAfter hx]
  have hnext := (h p hp).1
  have hself := h i hi
  constructor <;> split_ifs <;> first | assumption | exact hself.1 | exact hself.2

/-- A node of its own may have any owner. -/
theorem Respects.push {owner' : Nat → Nat} (h : l.Respects owner) (hl : l.Closed)
    (howner : ∀ i < l.size, owner' i = owner i) :
    (l.push ⟨l.size, l.size⟩).Respects owner' := by
  intro i
  rw [next, previous, get_push]
  split_ifs with heq
  · rw [heq]
    exact ⟨rfl, rfl⟩
  · by_cases hi : i < l.size
    · have hlt := hl i hi
      change owner' (l.next i) = owner' i ∧ owner' (l.previous i) = owner' i
      rw [howner _ hlt.1, howner _ hlt.2, howner i hi]
      exact h i
    · rw [get_eq_of_size_le (Nat.le_of_not_lt hi)]
      exact ⟨rfl, rfl⟩

end SetCover.Links
