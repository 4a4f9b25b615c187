import SetCover.Proofs.Compared
import SetCover.Proofs.Validity

/-!
# Solving side by side

Whatever the options are, matrices in step are solved alike: the same is reported on the way, and
the same cover is found, with its columns in the same order, or the run ends with the same fault.
-/

namespace SetCover

open SetCover.Matrix

variable {α β γ : Type} {R : α → β → Prop} {m n : Matrix} {E F : List (Nat × Nat)}

theorem Traced.map_ok (f : α → γ) (a : α) (events : List Event) :
    (f <$> (.ok (a, events) : Traced α) : Traced γ) = .ok (f a, events) :=
  congrArg Except.ok (Prod.ext rfl (List.append_nil events))

theorem Traced.Follows.map_eq {x : Traced α} {y : Traced β} {f : α → γ} {g : β → γ}
    (h : Traced.Follows False (fun _ => False) R x y) (hR : ∀ a b, R a b → f a = g b) :
    f <$> x = g <$> y := by
  cases hx : x with
  | error e =>
      rw [(h.fault e hx).resolve_left id]
      rfl
  | ok p =>
      obtain ⟨a, events⟩ := p
      obtain ⟨b, hy, hab⟩ := h.value a events hx And.left
      rw [hy, Traced.map_ok, Traced.map_ok, hR a b hab]

/-- Runs with the same options find the same. -/
theorem Run.follows_start (hm : InStep True m n) (hunmarked : m.Unmarked) (o : Options)
    (s : Search) : Traced.Follows False (fun _ => False)
      (fun a b => b.finding = a.finding ∧ InStep True a.matrix b.matrix)
      (Run.start m o s) (Run.start n o s) := by
  rw [Run.start, Run.start, ← hm.looksLike.numActive_eq]
  split
  -- the same follows, whether the first event is reported or not
  on_goal 1 => refine .bind_together (.emit _) fun _ _ _ _ _ => ?_
  all_goals
    refine .bind_together (.emit _) fun _ _ _ _ _ => ?_
    split
    · refine ((Greedy.Alike.refl _).solveAndRestore hm hunmarked).bind ?_ fun hlax => hlax.elim
      rintro ⟨-, g, k⟩ ⟨columns, g', k'⟩ - - ⟨rfl, -, hk, -⟩
      exact .of_together (.pure ⟨rfl, hk⟩)
    · refine (Search.Alike.solve rfl hm hunmarked o.condition).bind ?_ fun hlax => hlax.elim
      rintro ⟨-, t, k⟩ ⟨outcome, t', k'⟩ - - ⟨rfl, -, hk, -⟩
      exact .of_together (.pure ⟨rfl, hk⟩)

theorem Run.outcome_eq {a b : Run} (hfinding : b.finding = a.finding)
    (h : a.matrix.costs = b.matrix.costs) : b.outcome = a.outcome := by
  rw [Run.outcome, Run.outcome, hfinding]
  cases a.finding with
  | columns columns =>
      dsimp only
      rw [coverOf_congr h]
  | outcome outcome => rfl

namespace Matrix

/-- A run on a matrix of which no row with an element is deleted ends with what was found. -/
theorem Reachable.finish_eq_ok (hm : Reachable E m) (hrows : ∀ r c, (r, c) ∈ E → r ∈ m.active .row)
    {o : Options} {s : Search} {run : Run} {outcome : Outcome}
    (hstart : (Run.start m o s).result = .ok run) (houtcome : run.outcome = .ok outcome) :
    run.finish = .ok (outcome, run.matrix) := by
  have hdelivers := delivers_of_start hm.holds.grounded.isReady hstart
  have hcover := (hdelivers.coversOnce outcome houtcome).isCover hm hrows hdelivers.resembles
  rw [Run.finish, houtcome, ok_bind, hcover]
  rfl

/-- Matrices in step of which no row with an element is deleted are solved alike. -/
theorem Reachable.map_solve_eq (hm : Reachable E m) (hn : Reachable F n) (hstep : InStep True m n)
    (hrows : ∀ r c, (r, c) ∈ E → r ∈ m.active .row)
    (hrows' : ∀ r c, (r, c) ∈ F → r ∈ n.active .row) (o : Options) :
    (solve m o).map (Prod.fst <$> ·) = (solve n o).map (Prod.fst <$> ·) := by
  rw [solve, solve]
  cases Search.ofOptions o with
  | error e => rfl
  | ok s =>
      refine congrArg Except.ok (Traced.Follows.map_eq (R := fun a b => a.1 = b.1) ?_ fun _ _ => id)
      refine (Run.follows_start hstep hm.holds.grounded.isReady.unmarked o s).bind ?_
        fun hlax => hlax.elim
      rintro a b ha hb ⟨hfinding, hab⟩
      have houtcome := Run.outcome_eq hfinding hab.sameElements.costs_eq
      cases hresult : a.outcome with
      | error e =>
          rw [hresult] at houtcome
          rw [Run.finish, Run.finish, hresult, houtcome]
          exact .error e
      | ok outcome =>
          rw [hresult] at houtcome
          rw [hm.finish_eq_ok hrows ha hresult, hn.finish_eq_ok hrows' hb houtcome]
          exact .of_together (.lift (.ok rfl))

end Matrix

end SetCover
