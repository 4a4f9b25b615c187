import SetCover.Proofs.Recorded
import SetCover.Proofs.Search.Explores

/-!
# The incumbents of a search tree

`Visits x inherited depth fuel y covers` says that the exploration of a node that starts at `x` ends
at `y` and records the incumbents `covers` on the way, the first one first.  It has one constructor
for each way in which a node can end, like `Explores`, and says all that is known there.

Every incumbent costs less than the one before, and the last one that was recorded is the incumbent
of the solver.
-/

namespace SetCover

variable {s t : Search} {covers : List Cover} {columns : List Nat} {cost : Nat}

/-- Columns are recorded if they cost less than the incumbent. -/
theorem Search.covers_eq_of_offer (h : (s.offer columns cost).Finds t covers) :
    covers = if cost < s.limit then [⟨columns, cost⟩] else [] := by
  rw [offer] at h
  split_ifs at h ⊢
  · obtain ⟨events, hevents, rfl⟩ := h
    cases hevents
    rfl
  · exact h.eq_of_pure.2

namespace SearchState

variable {x y z : SearchState} {inherited depth fuel lower c : Nat} {found : Bool}

/-- A node that is neither stopped nor pruned. -/
structure Opens (x : SearchState) (inherited depth : Nat) (z : SearchState) (cost lower : Nat) :
    Prop where
  isMet_eq : x.condition.isMet = false
  evaluates : Evaluates x inherited depth z cost lower
  lower_lt : lower < z.search.limit

/-- The exploration of a node ends, and incumbents were recorded on the way. -/
inductive Visits : SearchState → (inherited depth fuel : Nat) → SearchState → List Cover → Prop
  | exhausted {x : SearchState} {inherited depth : Nat} : Visits x inherited depth 0 x []
  | stopped {x : SearchState} {inherited depth fuel : Nat} : x.condition.isMet = true →
      Visits x inherited depth (fuel + 1)
        { x.poll with search := { x.search with stopped := true } } []
  | pruned {x z : SearchState} {inherited depth fuel cost lower : Nat} :
      Evaluates x inherited depth z cost lower → z.search.limit ≤ lower →
      Visits x inherited depth (fuel + 1)
        ((z.count fun n => { n with prunes := n.prunes + 1 }).keep x.chosen.length) []
  | leaf {x z y : SearchState} {inherited depth fuel cost lower : Nat} {covers : List Cover} :
      Opens x inherited depth z cost lower → z.matrix.numActive .row = 0 →
      (z.offer cost).Finds y covers →
      Visits x inherited depth (fuel + 1) (y.keep x.chosen.length) covers
  | stuck {x z z' : SearchState} {inherited depth fuel cost lower : Nat} :
      Opens x inherited depth z cost lower → z.matrix.numActive .row ≠ 0 →
      z.branchColumn = (none, z') → Visits x inherited depth (fuel + 1) (z'.keep x.chosen.length) []
  | branch {x z z' x₁ y₁ y : SearchState} {inherited depth fuel cost lower c : Nat}
      {covers : List Cover} :
      Opens x inherited depth z cost lower → z.matrix.numActive .row ≠ 0 →
      z.branchColumn = (some c, z') → (z'.noteBranch.select c).result = .ok x₁ →
      Visits x₁ lower (depth + 1) fuel y₁ covers → y₁.backtrack z'.chosen.length = .ok y →
      (y.search.stopped = false → y.search.limit ≤ lower) →
      Visits x inherited depth (fuel + 1) (y.keep x.chosen.length) covers
  | branchTwice {x z z' x₁ y₁ y x₂ y₂ y' : SearchState}
      {inherited depth fuel cost lower c : Nat} {covers covers' : List Cover} :
      Opens x inherited depth z cost lower → z.matrix.numActive .row ≠ 0 →
      z.branchColumn = (some c, z') → (z'.noteBranch.select c).result = .ok x₁ →
      Visits x₁ lower (depth + 1) fuel y₁ covers → y₁.backtrack z'.chosen.length = .ok y →
      y.search.stopped = false → (y.reject c).result = .ok x₂ →
      Visits x₂ lower (depth + 1) fuel y₂ covers' → y₂.backtrack z'.chosen.length = .ok y' →
      Visits x inherited depth (fuel + 1) (y'.keep x.chosen.length) (covers ++ covers')

theorem isQuiet_reduce (x : SearchState) : x.reduce.IsQuiet :=
  (Reduction.isQuiet_reduceFully _ _).bind fun _ => .pure _

theorem isQuiet_select (x : SearchState) (c : Nat) : (x.select c).IsQuiet :=
  (x.matrix.save.isQuiet_select c).bind fun _ => .pure _

theorem isQuiet_reject (x : SearchState) (c : Nat) : (x.reject c).IsQuiet :=
  (Traced.IsQuiet.lift _).bind fun _ => .pure _

theorem covers_eq_of_offer (h : (x.offer cost).Finds y covers) :
    covers = if cost < x.search.limit then [⟨x.chosen, cost⟩] else [] := by
  obtain ⟨t, before, after, ht, hend, rfl⟩ := h.exists_of_bind
  obtain ⟨rfl, rfl⟩ := hend.eq_of_pure
  rw [List.append_nil]
  exact Search.covers_eq_of_offer ht

/-- A leaf that is not pruned is recorded. -/
theorem Opens.covers_eq (h : Opens x inherited depth z cost lower)
    (hoffer : (z.offer cost).Finds y covers) : covers = [⟨z.chosen, cost⟩] := by
  obtain ⟨x₁, bound, -, -, -, rfl⟩ := h.evaluates
  have hle : cost ≤ max inherited (bound + cost) :=
    (Nat.le_add_left cost bound).trans (le_max_right _ _)
  rw [covers_eq_of_offer hoffer, if_pos (hle.trans_lt h.lower_lt)]

/-- An exploration tells whether it has recorded an incumbent. -/
theorem visits_of_explore (h : (x.explore inherited depth fuel).Finds (found, y) covers) :
    Visits x inherited depth fuel y covers ∧ (found = true ↔ covers ≠ []) := by
  induction fuel generalizing x inherited depth found y covers with
  | zero =>
      obtain ⟨⟨⟩, rfl⟩ := h.eq_of_pure
      exact ⟨.exhausted, by simp⟩
  | succ fuel ih =>
      rw [explore] at h
      split at h
      · rename_i hmet
        obtain ⟨⟨⟩, rfl⟩ := h.eq_of_pure
        exact ⟨.stopped hmet, by simp⟩
      · rename_i hmet
        obtain ⟨x₁, hx₁, h⟩ := h.exists_of_quiet (isQuiet_reduce _)
        obtain ⟨cost, hcost, h⟩ := h.exists_of_lift
        obtain ⟨⟨bound, z⟩, hz, h⟩ := h.exists_of_lift
        obtain ⟨sum, hsum, h⟩ := h.exists_of_lift
        obtain ⟨rfl, -⟩ := Cost.add_eq_ok_iff.1 hsum
        dsimp only at h
        have hev : Evaluates x inherited depth z cost (max inherited (bound + cost)) :=
          ⟨x₁, bound, hx₁, hcost, hz, rfl⟩
        split at h
        · rename_i hpruned
          obtain ⟨⟨⟩, rfl⟩ := (h.of_emit rfl).eq_of_pure
          exact ⟨.pruned hev hpruned, by simp⟩
        · rename_i hlower
          have hopens : Opens x inherited depth z cost (max inherited (bound + cost)) :=
            ⟨Bool.eq_false_iff.2 hmet, hev, Nat.lt_of_not_le hlower⟩
          split at h
          · rename_i hrows
            obtain ⟨y', before, after, hy', hend, rfl⟩ := h.exists_of_bind
            obtain ⟨⟨⟩, rfl⟩ := hend.eq_of_pure
            rw [List.append_nil]
            exact ⟨.leaf hopens hrows hy', by simp [hopens.covers_eq hy']⟩
          · rename_i hrows
            split at h
            · rename_i z' hbranch
              obtain ⟨⟨⟩, rfl⟩ := h.eq_of_pure
              exact ⟨.stuck hopens hrows hbranch, by simp⟩
            · rename_i c z' hbranch
              obtain ⟨x₂, hx₂, h⟩ := (h.of_emit rfl).exists_of_quiet (isQuiet_select _ _)
              obtain ⟨⟨found₁, y₁⟩, before, after, hy₁, hrest, rfl⟩ := h.exists_of_bind
              obtain ⟨y', hy', h⟩ := hrest.exists_of_lift
              obtain ⟨hchild, hfound⟩ := ih hy₁
              dsimp only at h
              split at h
              · rename_i hagain
                obtain ⟨x₃, hx₃, h⟩ := (h.of_emit rfl).exists_of_quiet (isQuiet_reject _ _)
                obtain ⟨⟨found₂, y₂⟩, before', after', hy₂, hrest', rfl⟩ := h.exists_of_bind
                obtain ⟨y'', hy'', hend⟩ := hrest'.exists_of_lift
                obtain ⟨⟨⟩, rfl⟩ := hend.eq_of_pure
                rw [Bool.and_eq_true, Bool.not_eq_true'] at hagain
                obtain ⟨hchild', hfound'⟩ := ih hy₂
                rw [List.append_nil]
                refine ⟨.branchTwice hopens hrows hbranch hx₂ hchild hy' hagain.1 hx₃ hchild' hy'',
                  ?_⟩
                rw [Bool.or_eq_true, hfound, hfound', ne_eq (_ ++ _), List.append_eq_nil_iff,
                  not_and_or]
              · rename_i hagain
                obtain ⟨⟨⟩, rfl⟩ := h.eq_of_pure
                rw [List.append_nil]
                refine ⟨.branch hopens hrows hbranch hx₂ hchild hy' fun hstopped => ?_, hfound⟩
                refine Nat.le_of_not_lt fun hlt => hagain ?_
                rw [hstopped, decide_eq_true hlt]
                rfl

/-- The tree is the same, whether its incumbents are looked at or not. -/
theorem Visits.explores (h : Visits x inherited depth fuel y covers) :
    Explores x inherited depth fuel y := by
  induction h with
  | exhausted => exact .exhausted
  | stopped hmet => exact .stopped hmet
  | pruned hev hpruned => exact .pruned hev hpruned
  | leaf hopens hrows hoffer =>
      exact .leaf hopens.evaluates hopens.lower_lt hrows hoffer.result_eq
  | stuck hopens hrows hbranch => exact .stuck hopens.evaluates hrows hbranch
  | branch hopens _ hbranch hselect _ hback hskip ih =>
      exact .branch hopens.evaluates hbranch hselect ih hback hskip
  | branchTwice hopens _ hbranch hselect _ hback hgoes hreject _ hback' ih ih' =>
      exact .branchTwice hopens.evaluates hbranch hselect ih hback hgoes hreject ih' hback'

end SearchState

end SetCover
