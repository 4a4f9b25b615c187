import SetCover.Proofs.Matrix.Deletion

/-!
# Trails of deletions

`Trail m xs n` says that `n` is what the deletions `xs` make of `m`, oldest first, where anything
may become of dirty flags, journal and marks on the way.  A trail can be gone back.

`m.Advances n` says that the deletions of a trail were also recorded, and `m.Grounded` that all
that the journal of `m` records is a trail from a matrix without deletions.
-/

namespace SetCover

@[simp] theorem Journal.deletions_foldl_record (j : Journal) (xs : List Deletion) :
    (xs.foldl Journal.record j).deletions = j.deletions ++ xs := by
  induction xs generalizing j with
  | nil => simp
  | cons x xs ih =>
      rw [List.foldl_cons, ih]
      simp [Journal.record, Journal.deletions]

@[simp] theorem Journal.deletions_checkpoint (j : Journal) :
    j.checkpoint.deletions = j.deletions := by
  simp [Journal.checkpoint, Journal.deletions]

theorem Journal.deletions_of_isEmpty {j : Journal} (h : j.isEmpty = true) : j.deletions = [] := by
  rw [isEmpty, Bool.and_eq_true, List.isEmpty_iff, List.isEmpty_iff] at h
  rw [deletions, h.1, h.2]
  rfl

theorem Journal.deletions_of_rollback {j k : Journal} {xs : List Deletion}
    (h : j.rollback = .ok (xs, k)) : j.deletions = k.deletions ++ xs.reverse := by
  obtain ⟨current, earlier⟩ := j
  cases earlier with
  | nil => cases h
  | cons segment rest =>
      cases h
      simp [Journal.deletions]

namespace Matrix

variable {m n k n' : Matrix} {J xs ys : List Deletion} {d : Dimension} {i : Nat}

/-- The deletions `xs` lead from `m` to a matrix. -/
inductive Trail (m : Matrix) : List Deletion → Matrix → Prop
  | nil {n : Matrix} : m.Similar n → Trail m [] n
  | concat {xs : List Deletion} {n n' k : Matrix} {d : Dimension} {i : Nat} :
      Trail m xs n → n.delete d i = .ok n' → n'.Similar k → Trail m (xs ++ [⟨d, i⟩]) k

namespace Trail

theorem refl (m : Matrix) : Trail m [] m := .nil (.refl m)

theorem of_delete (h : m.delete d i = .ok n) : Trail m [⟨d, i⟩] n := .concat (.refl m) h (.refl n)

theorem similar_left (h : Trail m xs n) (hk : m.Similar k) : Trail k xs n := by
  induction h with
  | nil hn => exact .nil (hk.symm.trans hn)
  | concat _ hd hn ih => exact .concat ih hd hn

theorem similar_right (h : Trail m xs n) (hk : n.Similar k) : Trail m xs k := by
  cases h with
  | nil hn => exact .nil (hn.trans hk)
  | concat h hd hn => exact .concat h hd (hn.trans hk)

theorem trans (h : Trail m xs n) (h' : Trail n ys k) : Trail m (xs ++ ys) k := by
  induction h' with
  | nil hn =>
      rw [List.append_nil]
      exact h.similar_right hn
  | concat _ hd hn ih =>
      rw [← List.append_assoc]
      exact .concat ih hd hn

/-- A trail passes through the matrix at which its first part ends. -/
theorem exists_of_append (h : Trail m (xs ++ ys) n) : ∃ k, Trail m xs k ∧ Trail k ys n := by
  induction ys using List.reverseRecOn generalizing n with
  | nil => exact ⟨n, by simpa using h, .refl n⟩
  | append_singleton ys y ih =>
      rw [← List.append_assoc] at h
      generalize hzs : xs ++ ys ++ [y] = zs at h
      cases h with
      | nil => simp at hzs
      | concat h hd hn =>
          obtain ⟨rfl, hy⟩ := List.append_inj' hzs rfl
          cases List.singleton_inj.1 hy
          obtain ⟨k, hk, hk'⟩ := ih h
          exact ⟨k, hk, .concat hk' hd hn⟩

theorem wellFormed (h : Trail m xs n) (hm : m.WellFormed J) : n.WellFormed (J ++ xs) := by
  induction h with
  | nil hn =>
      rw [List.append_nil]
      exact hn.wellFormed hm
  | concat _ hd hn ih =>
      rw [← List.append_assoc]
      exact hn.wellFormed (ih.delete hd)

theorem sameCells (h : Trail m xs n) : n.SameCells m := by
  induction h with
  | nil hn => exact ⟨hn.positions_eq.symm, fun d => (hn.size_eq d).symm⟩
  | concat _ hd hn ih =>
      have hdeleted := (deleted_of_delete hd).sameCells
      exact ⟨(hn.positions_eq.symm.trans hdeleted.positions_eq).trans ih.positions_eq,
        fun d => ((hn.size_eq d).symm.trans (hdeleted.size_eq d)).trans (ih.size_eq d)⟩

theorem costs_eq (h : Trail m xs n) : n.costs = m.costs := by
  induction h with
  | nil hn => exact hn.costs_eq.symm
  | concat _ hd hn ih => rw [← hn.costs_eq, (deleted_of_delete hd).costs_eq, ih]

theorem dimension_eq (h : Trail m xs n) (e : Dimension) :
    (n.headers.get e).dimension = (m.headers.get e).dimension := by
  induction h with
  | nil hn => exact (hn.headers e).dimension_eq.symm
  | concat _ hd hn ih =>
      rw [← (hn.headers e).dimension_eq, (deleted_of_delete hd).dimension_eq, ih]

/-- Undoing the deletions of a trail, the latest first, leads back to its start. -/
theorem exists_undeleteAll_eq_ok (h : Trail m xs n) (hm : m.WellFormed J) (hn : n.Similar n') :
    ∃ k, n'.undeleteAll xs.reverse = .ok k ∧ k.Similar m ∧
      k.journal = n'.journal ∧ k.marks = n'.marks := by
  induction h generalizing n' with
  | nil hmn => exact ⟨n', rfl, (hmn.trans hn).symm, rfl, rfl⟩
  | concat h hd hk ih =>
      obtain ⟨k₁, hk₁, hsimilar, hjournal, hmarks⟩ :=
        (h.wellFormed hm).exists_undelete_eq_ok hd (hk.trans hn)
      obtain ⟨k, hk, hsimilar', hjournal', hmarks'⟩ := ih hsimilar.symm
      refine ⟨k, ?_, hsimilar', hjournal'.trans hjournal, hmarks'.trans hmarks⟩
      rw [List.reverse_append, List.reverse_singleton, List.singleton_append, undeleteAll, hk₁]
      exact hk

end Trail

/-! ### Recorded trails -/

/-- The deletions `xs` lead from `m` to `n`, and are recorded. -/
structure Deletes (xs : List Deletion) (m n : Matrix) : Prop where
  trail : Trail m xs n
  journal_eq : n.journal = xs.foldl Journal.record m.journal

/-- Deletions that are recorded lead from `m` to `n`. -/
def Advances (m n : Matrix) : Prop := ∃ xs, Deletes xs m n

/-- A matrix is well-formed with the deletions in its journal. -/
def IsValid (m : Matrix) : Prop := m.WellFormed m.journal.deletions

namespace Deletes

theorem advances (h : Deletes xs m n) : m.Advances n := ⟨xs, h⟩

theorem trans (h : Deletes xs m n) (h' : Deletes ys n k) : Deletes (xs ++ ys) m k :=
  ⟨h.trail.trans h'.trail, by rw [h'.journal_eq, h.journal_eq, List.foldl_append]⟩

theorem similar_left (h : Deletes xs m n) (hk : m.Similar k) (hjournal : k.journal = m.journal) :
    Deletes xs k n :=
  ⟨h.trail.similar_left hk, by rw [h.journal_eq, hjournal]⟩

end Deletes

theorem Similar.deletes (h : m.Similar n) (hjournal : n.journal = m.journal) : Deletes [] m n :=
  ⟨.nil h, hjournal⟩

theorem deletes_of_delete (h : m.delete d i = .ok n) : Deletes [⟨d, i⟩] m n :=
  ⟨.of_delete h, (deleted_of_delete h).journal_eq⟩

theorem deletes_of_deleteAll {is : List Nat} (h : m.deleteAll d is = .ok n) :
    Deletes (is.map fun i => ⟨d, i⟩) m n ∧ n.marks = m.marks := by
  induction is generalizing m with
  | nil =>
      cases h
      exact ⟨(Similar.refl _).deletes rfl, rfl⟩
  | cons i is ih =>
      rw [deleteAll, bind_eq_ok_iff] at h
      obtain ⟨n', hn', hn⟩ := h
      obtain ⟨hdeletes, hmarks⟩ := ih hn
      exact ⟨(deletes_of_delete hn').trans hdeletes,
        hmarks.trans (deleted_of_delete hn').marks_eq⟩

/-- The deletions that selecting column `c` makes. -/
def selection (m : Matrix) (c : Nat) : List Deletion :=
  (m.line .column c).map (fun r => ⟨.row, r⟩) ++ [⟨.column, c⟩]

theorem deletes_of_select {c : Nat} (h : (m.select c).result = .ok n) :
    Deletes (m.selection c) m n ∧ n.marks = m.marks ∧
      c < m.numColumns ∧ m.isDeleted .column c = false := by
  simp only [select, Traced.result_bind, Traced.result_liftM, bind_eq_ok_iff] at h
  obtain ⟨header, hheader, h⟩ := h
  obtain ⟨hc, rfl⟩ := HeaderRing.get_eq_ok_iff.1 hheader
  by_cases hdeleted : ((m.headers.get .column).header c).deleted
  · rw [if_pos hdeleted] at h
    exact nomatch h
  · rw [if_neg hdeleted] at h
    simp only [Traced.result_bind, Traced.result_liftM, bind_eq_ok_iff] at h
    obtain ⟨-, -, n', hn', h⟩ := h
    obtain ⟨hdeletes, hmarks⟩ := deletes_of_deleteAll hn'
    by_cases hcount : n'.count .column c = 0
    · rw [if_pos hcount, Traced.result_liftM] at h
      exact ⟨hdeletes.trans (deletes_of_delete h), (deleted_of_delete h).marks_eq.trans hmarks, hc,
        Bool.eq_false_iff.2 hdeleted⟩
    · rw [if_neg hcount] at h
      exact nomatch h

namespace Advances

theorem refl (m : Matrix) : m.Advances m := ((Similar.refl m).deletes rfl).advances

theorem trans (h : m.Advances n) (h' : n.Advances k) : m.Advances k := by
  obtain ⟨xs, hxs⟩ := h
  obtain ⟨ys, hys⟩ := h'
  exact (hxs.trans hys).advances

theorem isValid (h : m.Advances n) (hm : m.IsValid) : n.IsValid := by
  obtain ⟨xs, hxs, hjournal⟩ := h
  rw [IsValid, hjournal, Journal.deletions_foldl_record]
  exact hxs.wellFormed hm

theorem sameCells (h : m.Advances n) : n.SameCells m := by
  obtain ⟨xs, hxs⟩ := h
  exact hxs.trail.sameCells

theorem costs_eq (h : m.Advances n) : n.costs = m.costs := by
  obtain ⟨xs, hxs⟩ := h
  exact hxs.trail.costs_eq

end Advances

theorem similar_save (m : Matrix) : m.Similar m.save := ⟨rfl, rfl, rfl, fun _ => .refl _⟩

/-- After a checkpoint and recorded deletions, `restore` leads back to the checkpoint. -/
theorem Advances.exists_restore_eq_ok (h : m.save.Advances n) (hm : m.WellFormed J) :
    ∃ k, n.restore = .ok k ∧ k.Similar m ∧ k.journal = m.journal ∧ k.marks = n.marks := by
  obtain ⟨xs, hxs, hjournal⟩ := h
  have hsimilar : n.Similar { n with journal := m.journal } := ⟨rfl, rfl, rfl, fun _ => .refl _⟩
  obtain ⟨k, hk, hkm, hjournal', hmarks⟩ :=
    (hxs.similar_left (similar_save m).symm).exists_undeleteAll_eq_ok hm hsimilar
  refine ⟨k, ?_, hkm, hjournal', hmarks⟩
  have hrollback : n.journal.rollback = .ok (xs.reverse, m.journal) := by
    rw [hjournal]
    exact Journal.rollback_foldl_record m.journal xs
  rw [restore, hrollback]
  exact hk

/-- The matrices differ in dirty flags at most. -/
structure Resembles (m n : Matrix) : Prop where
  similar : m.Similar n
  journal_eq : n.journal = m.journal
  marks_eq : n.marks = m.marks

namespace Resembles

theorem refl (m : Matrix) : m.Resembles m := ⟨.refl m, rfl, rfl⟩

theorem trans (h : m.Resembles n) (h' : n.Resembles k) : m.Resembles k :=
  ⟨h.1.trans h'.1, h'.2.trans h.2, h'.3.trans h.3⟩

theorem advances (h : m.Resembles n) : m.Advances n := (h.similar.deletes h.journal_eq).advances

end Resembles

/-! ### Matrices between operations -/

/-- No flag is set. -/
def Unmarked (m : Matrix) : Prop := ∀ d, m.marks.get d = .unset (m.headers.get d).size

/-- A valid matrix on which no reduction is at work. -/
structure IsReady (m : Matrix) : Prop where
  isValid : m.IsValid
  unmarked : m.Unmarked

theorem IsReady.advances (h : m.IsReady) (hn : m.Advances n) (hmarks : n.marks = m.marks) :
    n.IsReady :=
  ⟨hn.isValid h.isValid, fun d => by rw [hmarks, h.unmarked, hn.sameCells.size_eq]⟩

theorem IsReady.resembles (h : m.IsReady) (hn : m.Resembles n) : n.IsReady :=
  h.advances hn.advances hn.marks_eq

/-- After a checkpoint and recorded deletions that leave no mark, `restore` leads back. -/
theorem IsReady.resembles_of_restore (h : m.IsReady) (hn : m.save.Advances n)
    (hmarks : n.marks = m.marks) (hk : n.restore = .ok k) : m.Resembles k := by
  obtain ⟨k', hk', hsimilar, hjournal, hmarks'⟩ := hn.exists_restore_eq_ok h.isValid
  cases hk'.symm.trans hk
  exact ⟨hsimilar.symm, hjournal, hmarks'.trans hmarks⟩

theorem IsReady.save (h : m.IsReady) : m.save.IsReady := by
  refine ⟨?_, h.unmarked⟩
  have hjournal : m.save.journal.deletions = m.journal.deletions :=
    Journal.deletions_checkpoint m.journal
  rw [IsValid, hjournal]
  exact (similar_save m).wellFormed h.isValid

/-! ### Grounded matrices -/

/-- The recorded deletions are a trail from a matrix without deletions, and no flag is set. -/
structure Grounded (m : Matrix) : Prop where
  exists_trail : ∃ m₀, m₀.WellFormed [] ∧ Trail m₀ m.journal.deletions m
  unmarked : m.Unmarked

namespace Grounded

theorem isValid (h : m.Grounded) : m.IsValid := by
  rw [IsValid]
  obtain ⟨m₀, hm₀, htrail⟩ := h.exists_trail
  simpa using htrail.wellFormed hm₀

theorem isReady (h : m.Grounded) : m.IsReady := ⟨h.isValid, h.unmarked⟩

theorem advances (h : m.Grounded) (hn : m.Advances n) (hmarks : n.marks = m.marks) :
    n.Grounded := by
  obtain ⟨m₀, hm₀, htrail⟩ := h.exists_trail
  refine ⟨⟨m₀, hm₀, ?_⟩, fun d => ?_⟩
  · obtain ⟨xs, hxs, hjournal⟩ := hn
    rw [hjournal, Journal.deletions_foldl_record]
    exact htrail.trans hxs
  · rw [hmarks, h.unmarked, hn.sameCells.size_eq]

theorem save (h : m.Grounded) : m.save.Grounded := by
  obtain ⟨m₀, hm₀, htrail⟩ := h.exists_trail
  refine ⟨⟨m₀, hm₀, ?_⟩, h.unmarked⟩
  have hjournal : m.save.journal.deletions = m.journal.deletions :=
    Journal.deletions_checkpoint m.journal
  rw [hjournal]
  exact htrail.similar_right (similar_save m)

/-- A rollback fails only if there is no checkpoint, and leads back to a matrix from which a trail
leads here. -/
theorem restore_cases (h : m.Grounded) :
    m.journal.numCheckpoints = 0 ∧ m.restore = .error .noCheckpoint ∨
    m.journal.numCheckpoints ≠ 0 ∧ ∃ n m₀ k xs, m.restore = .ok n ∧ m₀.WellFormed [] ∧
      Trail m₀ n.journal.deletions k ∧ Trail k xs m ∧ n.Similar k ∧ n.marks = m.marks := by
  obtain ⟨m₀, hm₀, htrail⟩ := h.exists_trail
  cases hrollback : m.journal.rollback with
  | error e =>
      rw [Journal.rollback] at hrollback
      split at hrollback
      · rename_i hearlier
        cases hrollback
        refine Or.inl ⟨by rw [Journal.numCheckpoints, hearlier, List.length_nil], ?_⟩
        rw [Matrix.restore, Journal.rollback, hearlier]
        rfl
      · cases hrollback
  | ok p =>
      obtain ⟨xs, j⟩ := p
      have hcheckpoint : m.journal.numCheckpoints ≠ 0 := by
        rw [Journal.rollback] at hrollback
        split at hrollback
        · cases hrollback
        · rename_i hearlier
          rw [Journal.numCheckpoints, hearlier]
          exact Nat.succ_ne_zero _
      rw [Journal.deletions_of_rollback hrollback] at htrail
      obtain ⟨k, hk, hkm⟩ := htrail.exists_of_append
      have hsimilar : m.Similar { m with journal := j } := ⟨rfl, rfl, rfl, fun _ => .refl _⟩
      obtain ⟨n, hn, hsimilar', hjournal, hmarks⟩ :=
        hkm.exists_undeleteAll_eq_ok (hk.wellFormed hm₀) hsimilar
      rw [List.reverse_reverse] at hn
      refine Or.inr ⟨hcheckpoint, n, m₀, k, _, ?_, hm₀, ?_, hkm, hsimilar', hmarks⟩
      · exact bind_eq_ok_iff.2 ⟨_, hrollback, hn⟩
      · rw [hjournal]
        exact hk

/-- What a rollback of a grounded matrix leads back to. -/
theorem exists_trail_of_restore (h : m.Grounded) (hn : m.restore = .ok n) :
    ∃ m₀ k xs, m₀.WellFormed [] ∧ Trail m₀ n.journal.deletions k ∧ Trail k xs m ∧ n.Similar k ∧
      n.marks = m.marks := by
  rcases h.restore_cases with ⟨-, herror⟩ | ⟨-, n', m₀, k, xs, hn', hrest⟩
  · cases herror.symm.trans hn
  · cases hn'.symm.trans hn
    exact ⟨m₀, k, xs, hrest⟩

theorem restore (h : m.Grounded) (hn : m.restore = .ok n) :
    n.Grounded ∧ n.SameCells m ∧ n.costs = m.costs := by
  obtain ⟨m₀, k, xs, hm₀, hk, hkm, hsimilar, hmarks⟩ := h.exists_trail_of_restore hn
  have hcells := hkm.sameCells
  refine ⟨⟨⟨m₀, hm₀, hk.similar_right hsimilar.symm⟩, fun d => ?_⟩, ?_, ?_⟩
  · rw [hmarks, hsimilar.size_eq, ← hcells.size_eq]
    exact h.unmarked d
  · exact ⟨hsimilar.positions_eq.trans hcells.positions_eq.symm, fun d =>
      (hsimilar.size_eq d).trans (hcells.size_eq d).symm⟩
  · exact hsimilar.costs_eq.trans hkm.costs_eq.symm

theorem restore_eq_error_iff (h : m.Grounded) {f : Fault} :
    m.restore = .error f ↔ m.journal.numCheckpoints = 0 ∧ f = .noCheckpoint := by
  rcases h.restore_cases with ⟨hzero, herror⟩ | ⟨hpos, n, m₀, k, xs, hn, -⟩
  · rw [herror]
    simp [hzero, eq_comm]
  · rw [hn]
    simp [hpos]

end Grounded

end Matrix

end SetCover
