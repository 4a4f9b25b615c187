import SetCover.Proofs.Search.InStep
import SetCover.Proofs.Search.Visits

/-!
# What a run records

`Records s t covers` says that a search goes on from `s` to `t` and records the incumbents `covers`
on the way: each of them costs less than those before, and the last one stays the incumbent.  This
holds of an offer, of a tree and of a warm start, hence of a run.
-/

namespace SetCover

open SetCover.Matrix

variable {s t u s' t' : Search} {m k : Matrix} {covers covers' : List Cover}
variable {condition : Condition} {outcome : Outcome} {columns : List Nat} {cover : Cover}
variable {cost : Nat}

/-- If every cover is cheaper than those before, none is cheaper than the last one. -/
theorem Cover.cost_le_of_getLast? {last : Cover}
    (h : (covers.map Cover.cost).Pairwise (· > ·)) (hlast : covers.getLast? = some last)
    (hcover : cover ∈ covers) : last.cost ≤ cover.cost := by
  obtain ⟨before, rfl⟩ := List.getLast?_eq_some_iff.1 hlast
  rw [List.map_append, List.pairwise_append] at h
  rcases List.mem_append.1 hcover with hcover | hcover
  · exact (h.2.2 _ (List.mem_map_of_mem hcover) _ (by simp)).le
  · exact (congrArg Cover.cost (List.mem_singleton.1 hcover)).ge

namespace Search

/-- Incumbents are recorded on the way from `s` to `t`, each cheaper than those before. -/
structure Records (s t : Search) (covers : List Cover) : Prop where
  pairwise : (covers.map Cover.cost).Pairwise (· > ·)
  cost_lt : ∀ cover ∈ covers, cover.cost < s.limit
  incumbent_eq : t.incumbent = covers.getLast?.or s.incumbent

namespace Records

theorem refl (s : Search) : Records s s [] := ⟨.nil, by simp, rfl⟩

theorem congr (h : Records s t covers) (hs : s'.incumbent = s.incumbent)
    (ht : t'.incumbent = t.incumbent) : Records s' t' covers := by
  refine ⟨h.pairwise, fun cover hcover => ?_, by rw [ht, hs, h.incumbent_eq]⟩
  rw [limit, hs]
  exact h.cost_lt cover hcover

theorem of_eq (h : t.incumbent = s.incumbent) : Records s t [] := (refl s).congr rfl h

/-- No recorded incumbent is cheaper than the last one. -/
theorem limit_le (h : Records s t covers) (hcover : cover ∈ covers) : t.limit ≤ cover.cost := by
  cases hlast : covers.getLast? with
  | none => exact absurd (List.getLast?_eq_none_iff.1 hlast) (List.ne_nil_of_mem hcover)
  | some last =>
      rw [limit, h.incumbent_eq, hlast, Option.some_or]
      exact Cover.cost_le_of_getLast? h.pairwise hlast hcover

theorem limit_anti (h : Records s t covers) : t.limit ≤ s.limit := by
  cases covers with
  | nil =>
      rw [limit, h.incumbent_eq]
      exact le_rfl
  | cons cover covers => exact (h.limit_le (by simp)).trans (h.cost_lt cover (by simp)).le

theorem trans (h : Records s t covers) (h' : Records t u covers') :
    Records s u (covers ++ covers') := by
  refine ⟨?_, fun cover hcover => ?_, ?_⟩
  · rw [List.map_append, List.pairwise_append]
    refine ⟨h.pairwise, h'.pairwise, ?_⟩
    simp only [List.forall_mem_map]
    exact fun before hbefore cover hcover => (h'.cost_lt cover hcover).trans_le (h.limit_le hbefore)
  · rcases List.mem_append.1 hcover with hcover | hcover
    · exact h.cost_lt cover hcover
    · exact (h'.cost_lt cover hcover).trans_le h.limit_anti
  · rw [h'.incumbent_eq, h.incumbent_eq, List.getLast?_append, Option.or_assoc]

end Records

theorem records_of_offer (h : (s.offer columns cost).Finds t covers) : Records s t covers := by
  rw [covers_eq_of_offer h]
  rcases (SearchState.of_search_offer h.result_eq).1 with ⟨hlt, ht⟩ | ⟨hle, ht⟩
  · rw [if_pos hlt]
    exact ⟨List.pairwise_singleton _ _, by simpa, ht⟩
  · rw [if_neg (Nat.not_lt_of_le hle)]
    exact .of_eq ht

end Search

namespace SearchState

variable {x y z z' : SearchState} {inherited depth fuel lower c : Nat}

theorem records_of_offer (h : (x.offer cost).Finds y covers) :
    Search.Records x.search y.search covers := by
  obtain ⟨t, before, after, ht, hend, rfl⟩ := h.exists_of_bind
  obtain ⟨rfl, rfl⟩ := hend.eq_of_pure
  rw [List.append_nil]
  exact Search.records_of_offer ht

/-- On the way to the first branch the incumbent stays the same. -/
theorem incumbent_eq_of_select (hev : Evaluates x inherited depth z cost lower)
    (hbranch : z.branchColumn = (some c, z')) (hselect : (z'.noteBranch.select c).result = .ok y) :
    y.search.incumbent = x.search.incumbent :=
  calc y.search.incumbent
      = z'.search.incumbent := (of_select hselect).2.2.1.incumbent_eq
    _ = z.search.incumbent := (of_branchColumn hbranch).2.2.2.1.incumbent_eq
    _ = x.search.incumbent := hev.agrees.incumbent_eq

/-- A tree records what its nodes record, in this order. -/
theorem Visits.records
    (h : Visits x inherited depth fuel y covers) : Search.Records x.search y.search covers := by
  induction h with
  | exhausted => exact .refl _
  | stopped => exact .of_eq rfl
  | pruned hev => exact .of_eq hev.agrees.incumbent_eq
  | leaf hopens _ hoffer =>
      exact (records_of_offer hoffer).congr hopens.evaluates.agrees.incumbent_eq.symm rfl
  | stuck hopens _ hbranch =>
      have hnode := hopens.evaluates.agrees.incumbent_eq
      exact .of_eq ((of_branchColumn hbranch).2.2.2.1.incumbent_eq.trans hnode)
  | branch hopens _ hbranch hselect _ hback _ ih =>
      have hchild := incumbent_eq_of_select hopens.evaluates hbranch hselect
      exact ih.congr hchild.symm (of_backtrack hback).2.2.1.incumbent_eq
  | branchTwice hopens _ hbranch hselect _ hback _ hreject _ hback' ih ih' =>
      have hchild := incumbent_eq_of_select hopens.evaluates hbranch hselect
      have hchild' := (of_reject hreject).2.2.1.incumbent_eq
      have hfirst := ih.congr hchild.symm (of_backtrack hback).2.2.1.incumbent_eq
      have hsecond := ih'.congr hchild'.symm (of_backtrack hback').2.2.1.incumbent_eq
      exact hfirst.trans hsecond

end SearchState

/-! ### Runs -/

namespace Search

theorem isQuiet_runGreedily (s : Search) (m : Matrix) : (s.runGreedily m).IsQuiet :=
  (s.greedy.isQuiet_solveAndRestore m).bind fun _ => .pure _

theorem isQuiet_takeIncumbent (s : Search) (m : Matrix) : (s.takeIncumbent m).IsQuiet := by
  rw [takeIncumbent]
  split
  · exact .pure _
  · exact (Traced.IsQuiet.emit rfl).bind fun _ => s.isQuiet_runGreedily m

theorem solveAndRestore_of_runGreedily (h : (s.runGreedily m).result = .ok (columns, t, k)) :
    (s.greedy.solveAndRestore m).result = .ok (columns, t.greedy, k) ∧
      t = { s with greedy := t.greedy } := by
  simp only [runGreedily, Traced.result_bind, bind_eq_ok_iff] at h
  obtain ⟨⟨columns', greedy, k'⟩, hgreedy, h⟩ := h
  cases h
  exact ⟨hgreedy, rfl⟩

/-- A warm start records the greedy cover, if that is cheap enough to be an incumbent. -/
theorem records_of_warmUp (h : (s.warmUp m).Finds (t, k) covers) :
    Records s t covers ∧ (s.warmStart = false → t = s ∧ k = m ∧ covers = []) ∧
      (s.warmStart = true → ∃ columns g cost,
        (s.greedy.solveAndRestore m).result = .ok (columns, g, k) ∧
        k.totalCost columns = .ok cost ∧
        covers = if cost < s.limit then [⟨columns, cost⟩] else []) := by
  rw [warmUp] at h
  split at h
  · rename_i hwarm
    obtain ⟨⟨columns, s₁, k'⟩, hgreedy, h⟩ := h.exists_of_quiet (s.isQuiet_runGreedily m)
    obtain ⟨cost, hcost, h⟩ := h.exists_of_lift
    obtain ⟨t', before, after, ht', hend, rfl⟩ := h.exists_of_bind
    obtain ⟨heq, rfl⟩ := hend.eq_of_pure
    cases heq
    obtain ⟨hsolve, hs₁⟩ := solveAndRestore_of_runGreedily hgreedy
    have hrecords := records_of_offer ht'
    have hcovers := covers_eq_of_offer ht'
    rw [List.append_nil]
    have hlimit : s₁.limit = s.limit := by
      rw [hs₁]
      rfl
    refine ⟨hrecords.congr (by rw [hs₁]) rfl, fun hcold => ?_, fun _ => ?_⟩
    · cases hwarm.symm.trans hcold
    · exact ⟨columns, _, cost, hsolve, hcost, hlimit ▸ hcovers⟩
  · rename_i hcold
    obtain ⟨heq, rfl⟩ := h.eq_of_pure
    cases heq
    exact ⟨.refl s, fun _ => ⟨rfl, rfl, rfl⟩, fun hwarm => absurd hwarm hcold⟩

/-- A run records what its warm start and its tree record. -/
theorem exists_visits_of_tree {x : SearchState} (h : (s.tree m condition).Finds x covers) :
    ∃ s₁ k warm rest, (s.reset.warmUp m).Finds (s₁, k) warm ∧
      SearchState.Visits { search := s₁, condition, matrix := k.save } 0 0
        (k.numActive .column + 1) x rest ∧ covers = warm ++ rest := by
  obtain ⟨⟨s₁, k⟩, warm, rest, hwarm, hrest, rfl⟩ := h.exists_of_bind
  obtain ⟨⟨found, x'⟩, before, after, hx', hend, rfl⟩ := hrest.exists_of_bind
  obtain ⟨rfl, rfl⟩ := hend.eq_of_pure
  rw [List.append_nil]
  exact ⟨s₁, k, warm, before, hwarm, (SearchState.visits_of_explore hx').1, rfl⟩

theorem settings_of_tree {x : SearchState} (h : (s.tree m condition).Finds x covers) :
    x.search.settings = s.settings := by
  obtain ⟨s₁, k, warm, rest, hwarm, hvisits, -⟩ := exists_visits_of_tree h
  have hreset : s.reset.settings = s.settings := rfl
  have hstart := (settings_of_warmUp hwarm.result_eq).trans hreset
  exact hvisits.explores.settings_eq.trans hstart

theorem records_of_tree {x : SearchState} (h : (s.tree m condition).Finds x covers) :
    Records s.reset x.search covers := by
  obtain ⟨s₁, k, warm, rest, hwarm, hvisits, rfl⟩ := exists_visits_of_tree h
  exact (records_of_warmUp hwarm).1.trans hvisits.records

end Search

/-- After the tree nothing is recorded. -/
theorem SearchState.of_finish {x : SearchState} (h : x.finish.Finds (outcome, t, k) covers) :
    covers = [] ∧ ∃ n columns, x.matrix.restore = .ok n ∧
      (x.search.takeIncumbent n).result = .ok (columns, t, k) ∧
      k.coverOf columns = .ok outcome.cover ∧ outcome.isOptimal = !t.stopped := by
  obtain ⟨n, hn, h⟩ := h.exists_of_lift
  obtain ⟨⟨columns, t', k'⟩, htake, h⟩ := h.exists_of_quiet (x.search.isQuiet_takeIncumbent n)
  obtain ⟨cover, hcover, h⟩ := h.exists_of_lift
  split at h
  · rename_i hstopped
    obtain ⟨heq, rfl⟩ := (h.of_emit rfl).eq_of_pure
    cases heq
    exact ⟨rfl, n, columns, hn, htake, hcover, by rw [hstopped]; rfl⟩
  · rename_i hstopped
    obtain ⟨heq, rfl⟩ := (h.of_emit rfl).eq_of_pure
    cases heq
    exact ⟨rfl, n, columns, hn, htake, hcover, by rw [Bool.eq_false_iff.2 hstopped]; rfl⟩

/-- A run consists of a tree and of the way back, and only the tree records incumbents. -/
theorem Search.exists_tree_of_solve (h : (s.solve m condition).Finds (outcome, t, k) covers) :
    ∃ x, (s.tree m condition).Finds x covers ∧ x.finish.Finds (outcome, t, k) [] := by
  rw [solve_eq] at h
  obtain ⟨x, before, after, hx, hend, rfl⟩ := h.exists_of_bind
  obtain ⟨rfl, -⟩ := SearchState.of_finish hend
  rw [List.append_nil]
  exact ⟨x, hx, hend⟩

end SetCover
