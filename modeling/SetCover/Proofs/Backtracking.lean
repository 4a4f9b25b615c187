import SetCover.Proofs.Reachable

/-!
# Exact backtracking

Between a checkpoint and the rollback to it there may be any actions, and further checkpoints with
rollbacks of their own.  The rollback succeeds, and gives the matrix that the checkpoint was set on,
but for dirty flags.  So do the solvers, which set a checkpoint themselves and go back to it.
-/

namespace SetCover

/-- The headers with no dirty flag set. -/
def HeaderRing.cleaned (l : HeaderRing) : HeaderRing :=
  { l with headers := l.headers.map fun h => { h with dirty := false } }

theorem HeaderRing.Similar.cleaned_eq {l k : HeaderRing} (h : l.Similar k) :
    k.cleaned = l.cleaned := by
  have hmap : k.headers.map (fun h => { h with dirty := false }) =
      l.headers.map fun h => { h with dirty := false } := by
    refine Array.ext (by rw [Array.size_map, Array.size_map, h.size_headers_eq]) fun i hi hi' => ?_
    rw [Array.size_map] at hi hi'
    have hk : k.header i = k.headers[i] := by
      rw [header, Array.getD_eq_getD_getElem?, Array.getElem?_eq_getElem hi, Option.getD_some]
    have hl : l.header i = l.headers[i] := by
      rw [header, Array.getD_eq_getD_getElem?, Array.getElem?_eq_getElem hi', Option.getD_some]
    rw [Array.getElem_map, Array.getElem_map, ← hk, ← hl, h.count_eq, h.deleted_eq]
  rw [cleaned, cleaned, hmap, h.dimension_eq, h.size_eq, h.links_eq, h.numActive_eq]

namespace Matrix

variable {m n k : Matrix} {E : List (Nat × Nat)}

/-- The matrix with no dirty flag set. -/
def cleaned (m : Matrix) : Matrix :=
  { m with headers := ⟨m.headers.row.cleaned, m.headers.column.cleaned⟩ }

theorem Resembles.cleaned_eq (h : m.Resembles k) : k.cleaned = m.cleaned := by
  obtain ⟨⟨hpositions, hrings, hcosts, hheaders⟩, hjournal, hmarks⟩ := h
  have hrow : k.headers.row.cleaned = m.headers.row.cleaned := (hheaders .row).cleaned_eq
  have hcolumn : k.headers.column.cleaned = m.headers.column.cleaned :=
    (hheaders .column).cleaned_eq
  rw [cleaned, cleaned, hrow, hcolumn, hpositions, hrings, hcosts, hjournal, hmarks]

/-- Actions, and checkpoints together with the rollbacks to them, make `n` of `m`. -/
inductive Bracketed : Matrix → Matrix → Prop
  | refl (m : Matrix) : Bracketed m m
  | act {m n k : Matrix} : Bracketed m n → Action n k → Bracketed m k
  | nest {m n n' k : Matrix} :
      Bracketed m n → Bracketed n.save n' → n'.restore = .ok k → Bracketed m k

theorem Bracketed.advances (h : Bracketed m n) (hm : m.IsReady) :
    m.Advances n ∧ n.marks = m.marks := by
  induction h with
  | refl m => exact ⟨.refl m, rfl⟩
  | act _ haction ih =>
      obtain ⟨hadvances, hmarks⟩ := ih hm
      obtain ⟨hadvances', hmarks'⟩ := haction.advances (hm.advances hadvances hmarks)
      exact ⟨hadvances.trans hadvances', hmarks'.trans hmarks⟩
  | nest _ _ hk ih ih' =>
      obtain ⟨hadvances, hmarks⟩ := ih hm
      have hready := hm.advances hadvances hmarks
      obtain ⟨hadvances', hmarks'⟩ := ih' hready.save
      have hresembles := hready.resembles_of_restore hadvances' hmarks' hk
      exact ⟨hadvances.trans hresembles.advances, hresembles.marks_eq.trans hmarks⟩

/-- The rollback to a checkpoint succeeds, and leads back to the matrix it was set on. -/
theorem Reachable.restore_of_bracketed (h : Reachable E m) (hn : Bracketed m.save n) :
    ∃ k, n.restore = .ok k ∧ k.cleaned = m.cleaned := by
  have hready := h.holds.grounded.isReady
  obtain ⟨hadvances, hmarks⟩ := hn.advances hready.save
  obtain ⟨k, hk, -⟩ := hadvances.exists_restore_eq_ok hready.isValid
  exact ⟨k, hk, (hready.resembles_of_restore hadvances hmarks hk).cleaned_eq⟩

/-- Two deletions with a checkpoint and its rollback between them are undone. -/
theorem restore_two_by_two : ∃ m n k, ofElements 2 [1, 1] [(0, 0), (0, 1), (1, 1)] = .ok m ∧ (do
    let m ← m.save.delete .column 1
    let m ← m.save.delete .row 0
    (← m.restore).delete .row 1) = .ok n ∧ n.restore = .ok k ∧ k.cleaned = m.cleaned := by
  obtain ⟨m, hm, n, hn⟩ : ∃ m, ofElements 2 [1, 1] [(0, 0), (0, 1), (1, 1)] = .ok m ∧ ∃ n, (do
    let m ← m.save.delete .column 1
    let m ← m.save.delete .row 0
    (← m.restore).delete .row 1) = .ok n := ⟨_, rfl, _, rfl⟩
  obtain ⟨a, ha, hb⟩ := bind_eq_ok_iff.1 hn
  obtain ⟨b, hb, hc⟩ := bind_eq_ok_iff.1 hb
  obtain ⟨c, hc, hd⟩ := bind_eq_ok_iff.1 hc
  have hbracketed : Bracketed m.save n :=
    .act (.nest (.act (.refl _) (.delete ha)) (.act (.refl _) (.delete hb)) hc) (.delete hd)
  have hreachable : Reachable [(0, 0), (0, 1), (1, 1)] m := .ofElements (by decide) hm
  obtain ⟨k, hk, heq⟩ := hreachable.restore_of_bracketed hbracketed
  exact ⟨m, n, k, hm, hn, hk, heq⟩

/-! ### Solving -/

/-- Whether a run is made at all depends on the options alone. -/
theorem solve_eq_error_iff {o : Options} {e : ConfigurationError} :
    solve m o = .error e ↔ o.lowerBounds = [] ∧ e = .emptyLowerBoundList := by
  cases hbounds : o.lowerBounds with
  | nil =>
      have herror : solve m o = .error .emptyLowerBoundList := by
        rw [solve, Search.ofOptions, Options.check, hbounds]
        rfl
      rw [herror, Except.error.injEq]
      simp only [eq_comm, true_and]
  | cons kind kinds =>
      obtain ⟨s, hs⟩ : ∃ s, Search.ofOptions o = .ok s := by
        rw [Search.ofOptions, Options.check, hbounds]
        exact ⟨_, rfl⟩
      rw [solve, hs]
      constructor
      · intro h
        cases h
      · intro h
        exact absurd h.1 (List.cons_ne_nil kind kinds)

/-- Recording the statistics changes nothing about the matrix. -/
theorem resembles_of_solveRecorded {r r' : Recorder} {o : Options}
    {run : Traced (Outcome × Matrix)} {outcome : Outcome} (hm : m.IsReady)
    (hrun : solveRecorded r m o = .ok (r', run)) (h : run.result = .ok (outcome, k)) :
    m.Resembles k := by
  rw [solveRecorded] at hrun
  cases hsearch : Search.ofOptions o with
  | error e =>
      rw [hsearch] at hrun
      exact nomatch hrun
  | ok search =>
      rw [hsearch] at hrun
      dsimp only [bind, Except.bind] at hrun
      split at hrun
      · cases hrun
        exact nomatch h
      · rename_i found events hstart
        obtain ⟨-, rfl⟩ := Prod.mk.inj (Except.ok.inj hrun)
        obtain ⟨-, -, hfinish⟩ := Traced.result_bind_eq_ok_iff.1 h
        rw [Traced.result_liftM] at hfinish
        rw [finish_eq_ok hfinish]
        exact (delivers_of_start hm (congrArg Traced.result hstart)).resembles

end Matrix

end SetCover
