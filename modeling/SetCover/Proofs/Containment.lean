import SetCover.Proofs.Reduction.Compared
import SetCover.Proofs.Refinement

/-!
# Containment of lines

Whether a line is contained in another one is found out in one pass over the rings of both.  A
cursor goes along each ring; the second one moves on while it is behind the first one, and must then
be level with it.  `Passes` follows the links from cell to cell, and nothing but the sentinels tells
it where the rings end.

The rings of a reachable matrix are closed and ascending, and those of deleted rows and columns are
so too, at whatever moments they were taken out.  So the pass ends, and it finds a containment
exactly if there is one.
-/

namespace SetCover

namespace Links

variable {l : Links} {label : Nat → Nat} {s t x y : Nat} {b c : Bool} {xs ys : List Nat}

/-- The pass ends with `b` when its cursors are at the nodes `x` and `y`.  The rings start and end
at `s` and `t`, and `label` is what is compared. -/
inductive Passes (l : Links) (label : Nat → Nat) (s t : Nat) : (x y : Nat) → Bool → Prop
  | done {y : Nat} : Passes l label s t s y true
  | behind {x y : Nat} {b : Bool} : x ≠ s → y ≠ t → label y < label x →
      Passes l label s t x (l.next y) b → Passes l label s t x y b
  | level {x y : Nat} {b : Bool} : x ≠ s → y ≠ t → label y = label x →
      Passes l label s t (l.next x) (l.next y) b → Passes l label s t x y b
  | missed {x y : Nat} : x ≠ s → (y ≠ t → label x < label y) → Passes l label s t x y false

/-- There is only one way to go on. -/
theorem Passes.unique (h : l.Passes label s t x y b) (h' : l.Passes label s t x y c) : b = c := by
  induction h with
  | done =>
      cases h' with
      | done => rfl
      | behind hx => exact absurd rfl hx
      | level hx => exact absurd rfl hx
      | missed hx => exact absurd rfl hx
  | behind hx hy hlt _ ih =>
      cases h' with
      | done => exact absurd rfl hx
      | behind _ _ _ h' => exact ih h'
      | level _ _ heq => exact absurd heq hlt.ne
      | missed _ hgt => exact absurd (hgt hy) hlt.asymm
  | level hx hy heq _ ih =>
      cases h' with
      | done => exact absurd rfl hx
      | behind _ _ hlt => exact absurd heq hlt.ne
      | level _ _ _ h' => exact ih h'
      | missed _ hgt => exact absurd heq (hgt hy).ne'
  | missed hx hgt =>
      cases h' with
      | done => exact absurd rfl hx
      | behind _ hy hlt => exact absurd (hgt hy) hlt.asymm
      | level _ hy heq => exact absurd heq (hgt hy).ne'
      | missed => rfl

theorem next_eq_headD (h : (x :: (xs ++ [s])).IsChain l.Joined) : l.next x = xs.headD s := by
  cases xs <;> exact h.rel.1

/-- What is left of two rings is compared as the lists of the labels are. -/
theorem passes_of_isChain (hxs : (xs ++ [s]).IsChain l.Joined) (hys : (ys ++ [t]).IsChain l.Joined)
    (hs : s ∉ xs) (ht : t ∉ ys) : l.Passes label s t (xs.headD s) (ys.headD t)
      (ascendingSubset (xs.map label) (ys.map label)) := by
  -- a step takes a node from the second ring alone or from both, hence one induction in another
  induction xs generalizing ys with
  | nil =>
      rw [List.map_nil, ascendingSubset]
      exact .done
  | cons x xs ihx =>
      obtain ⟨hx, hs'⟩ := not_or.1 (mt List.mem_cons.2 hs)
      rw [List.headD_cons, List.map_cons]
      induction ys with
      | nil =>
          rw [List.map_nil, ascendingSubset]
          exact .missed (Ne.symm hx) fun ht => absurd rfl ht
      | cons y ys ihy =>
          obtain ⟨hy, ht'⟩ := not_or.1 (mt List.mem_cons.2 ht)
          rw [List.headD_cons, List.map_cons, ascendingSubset]
          split_ifs with hlt heq
          · refine .behind (Ne.symm hx) (Ne.symm hy) hlt ?_
            rw [next_eq_headD hys]
            exact ihy hys.of_cons ht'
          · refine .level (Ne.symm hx) (Ne.symm hy) heq ?_
            rw [next_eq_headD hxs, next_eq_headD hys]
            exact ihx hxs.of_cons hys.of_cons hs' ht'
          · have hgt : label x < label y := (Nat.le_of_not_lt hlt).lt_of_ne' heq
            exact .missed (Ne.symm hx) fun _ => hgt

/-- A pass over two rings ends, with what the lists of their labels give. -/
theorem IsRing.passes (hx : l.IsRing s xs) (hy : l.IsRing t ys) (label : Nat → Nat) :
    l.Passes label s t (l.next s) (l.next t)
      (ascendingSubset (xs.map label) (ys.map label)) := by
  rw [next_eq_headD hx.chain, next_eq_headD hy.chain]
  exact passes_of_isChain hx.chain.of_cons hy.chain.of_cons hx.notMem hy.notMem

end Links

namespace Matrix

variable {m : Matrix} {E : List (Nat × Nat)} {d : Dimension} {i j : Nat}

/-- The line of a row or column, deleted or not, is found to be contained in that of another one
exactly if each of its members is a member of the other one.  The pass along the links of both
rings ends, and this is what it finds. -/
theorem Reachable.isSubline_eq_true_iff (hm : Reachable E m) (hi : i < (m.headers.get d).size)
    (hj : j < (m.headers.get d).size) :
    (m.isSubline d i j = true ↔ ∀ k ∈ m.line d i, k ∈ m.line d j) ∧
      ∀ b, (m.rings.get d).Passes (m.position d.other) (m.sentinel d i) (m.sentinel d j)
        ((m.rings.get d).next (m.sentinel d i)) ((m.rings.get d).next (m.sentinel d j)) b ↔
          b = m.isSubline d i j := by
  have hlinked := hm.holds.grounded.isValid.toLinked
  have hpass := (hlinked.isRing d i hi).passes (hlinked.isRing d j hj) (m.position d.other)
  refine ⟨hlinked.isSubline_iff hi hj, fun b => ⟨fun h => h.unique hpass, ?_⟩⟩
  rintro rfl
  exact hpass

/-- The first two rows are deleted, the second one before a column and the first one after it.  The
first one is found in the second one, which is not found in the third one. -/
theorem isSubline_eq_true_of_deleted : ∃ k, (do
    let m ← ofElements 3 [1, 1, 1] [(0, 0), (0, 2), (1, 0), (1, 1), (1, 2), (2, 1), (2, 2)]
    (← (← m.delete .row 1).delete .column 0).delete .row 0) = .ok k ∧ k.active .row = [2] ∧
      (k.line .row 0, k.line .row 1, k.line .row 2) = ([2], [0, 1, 2], [1, 2]) ∧
      (∀ c ∈ k.line .row 0, c ∈ k.line .row 1) ∧ ¬(∀ c ∈ k.line .row 1, c ∈ k.line .row 2) ∧
      (k.rings.get .row).Passes (k.position .column) (k.sentinel .row 0) (k.sentinel .row 1)
        ((k.rings.get .row).next (k.sentinel .row 0)) ((k.rings.get .row).next (k.sentinel .row 1))
        true := by
  have hrun : (do
      let m ← ofElements 3 [1, 1, 1] [(0, 0), (0, 2), (1, 0), (1, 1), (1, 2), (2, 1), (2, 2)]
      let k ← (← (← m.delete .row 1).delete .column 0).delete .row 0
      return (k.active .row, (k.line .row 0, k.line .row 1, k.line .row 2),
        (k.headers.get .row).size, k.isSubline .row 0 1, k.isSubline .row 1 2)) =
        .ok ([2], ([2], [0, 1, 2], [1, 2]), 3, true, false) := by decide +kernel
  obtain ⟨m, hm, hrun⟩ := bind_eq_ok_iff.1 hrun
  obtain ⟨n, hn, hrun⟩ := bind_eq_ok_iff.1 hrun
  obtain ⟨n', hn', hrun⟩ := bind_eq_ok_iff.1 hrun
  obtain ⟨k, hk, hrun⟩ := bind_eq_ok_iff.1 hrun
  have heq := Except.ok.inj hrun
  simp only [Prod.mk.injEq] at heq
  obtain ⟨hrows, hlines, hsize, hsub, hnot⟩ := heq
  have hreachable : Reachable [(0, 0), (0, 2), (1, 0), (1, 1), (1, 2), (2, 1), (2, 2)] k :=
    .act (.act (.act (.ofElements (by decide) hm) (.delete hn)) (.delete hn')) (.delete hk)
  have hlt : ∀ i < 3, i < (k.headers.get .row).size := fun i hi => hsize ▸ hi
  have hfirst := hreachable.isSubline_eq_true_iff (hlt 0 (by decide)) (hlt 1 (by decide))
  have hsecond := hreachable.isSubline_eq_true_iff (hlt 1 (by decide)) (hlt 2 (by decide))
  refine ⟨k, ?_, hrows, Prod.ext hlines.1 (Prod.ext hlines.2.1 hlines.2.2), hfirst.1.1 hsub,
    mt hsecond.1.2 (Bool.eq_false_iff.1 hnot), (hfirst.2 true).2 hsub.symm⟩
  rw [hm, ok_bind, hn, ok_bind, hn', ok_bind, hk]

end Matrix

end SetCover
