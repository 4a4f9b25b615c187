import Mathlib.Data.List.Count
import Mathlib.Data.List.Induction
import Mathlib.Logic.Function.Iterate
import SetCover.Options

/-!
# Conditions that are asked again and again

A search asks its condition and tells it about branches in any order.  A condition that is put
together from new budgets is met if one of its parts has run out: a time budget of nothing, or a
branch budget that allows no more branches than there have been.  To ask it changes nothing, and
once it is met it stays so.

What the parts have counted is the number of branches, so no counter gets beyond that number.
-/

namespace SetCover

namespace Condition

variable {c d : Condition} {n k made : Nat}

/-- What a search does with its condition. -/
inductive Call where
  /-- Asks whether to stop. -/
  | ask
  /-- Tells about a branch. -/
  | branch
deriving DecidableEq, Repr

/-- The condition after a call. -/
def call (c : Condition) : Call → Condition
  | .ask => c.polled
  | .branch => c.noteBranch

/-- The condition after some calls, the first one first. -/
def after (c : Condition) (calls : List Call) : Condition := calls.foldl call c

theorem after_append (c : Condition) (calls more : List Call) :
    c.after (calls ++ more) = (c.after calls).after more := List.foldl_append

/-- The conditions that a condition is put together from, from left to right. -/
def parts : Condition → List Condition
  | present c => c.parts
  | either c d => c.parts ++ d.parts
  | c => [c]

/-- The condition is put together from budgets of which nothing has been used. -/
inductive IsNew : Condition → Prop
  | indefinite : IsNew indefinite
  | ofBranches (n : Nat) : IsNew (ofBranches n)
  | timeBudget (milliseconds : Nat) : IsNew (timeBudget milliseconds)
  | absent : IsNew absent
  | present {c : Condition} : IsNew c → IsNew (present c)
  | either {c d : Condition} : IsNew c → IsNew d → IsNew (either c d)

theorem isNew_ofOption {c? : Option Condition} (h : ∀ c ∈ c?, IsNew c) : IsNew (ofOption c?) := by
  cases c? with
  | none => exact .absent
  | some c => exact .present (h c rfl)

/-- The condition that the budgets of some options make is new. -/
theorem isNew_condition (o : Options) : IsNew o.condition := by
  refine .either (isNew_ofOption fun c hc => ?_) (isNew_ofOption fun c hc => ?_)
  · obtain ⟨n, -, rfl⟩ := Option.map_eq_some_iff.1 hc
    exact .ofBranches n
  · obtain ⟨n, -, rfl⟩ := Option.map_eq_some_iff.1 hc
    exact .timeBudget n

/-! ### Branches -/

theorem iterate_noteBranch_branchBudget (n made k : Nat) :
    noteBranch^[k] (branchBudget n made) = branchBudget n (made + k) := by
  induction k generalizing made with
  | zero => rfl
  | succ k ih =>
      rw [Function.iterate_succ_apply, noteBranch, ih, Nat.succ_add_eq_add_succ]

theorem iterate_noteBranch_present (c : Condition) (k : Nat) :
    noteBranch^[k] (present c) = present (noteBranch^[k] c) := by
  induction k generalizing c with
  | zero => rfl
  | succ k ih => rw [Function.iterate_succ_apply, noteBranch, ih, Function.iterate_succ_apply]

/-- Both of two conditions are told about every branch. -/
theorem iterate_noteBranch_either (c d : Condition) (k : Nat) :
    noteBranch^[k] (either c d) = either (noteBranch^[k] c) (noteBranch^[k] d) := by
  induction k generalizing c d with
  | zero => rfl
  | succ k ih =>
      rw [Function.iterate_succ_apply, noteBranch, ih, Function.iterate_succ_apply,
        Function.iterate_succ_apply]

theorem polled_either_eq_self (hc : c.polled = c) (hd : d.polled = d) :
    (either c d).polled = either c d := by
  rw [polled, hc, hd, ite_self]

namespace IsNew

/-- To ask a condition changes nothing, however many branches have been made. -/
theorem polled_iterate_noteBranch (h : IsNew c) (k : Nat) :
    (noteBranch^[k] c).polled = noteBranch^[k] c := by
  induction h with
  | indefinite | timeBudget _ | absent =>
      rw [Function.iterate_fixed rfl]
      rfl
  | ofBranches n =>
      rw [Condition.ofBranches, iterate_noteBranch_branchBudget]
      rfl
  | present _ ih => rw [iterate_noteBranch_present, polled, ih]
  | either _ _ ih ih' => rw [iterate_noteBranch_either, polled_either_eq_self ih ih']

/-- After some branches, the condition is met if a part has run out. -/
theorem isMet_iterate_noteBranch (h : IsNew c) (k : Nat) : (noteBranch^[k] c).isMet = true ↔
    Condition.timeBudget 0 ∈ c.parts ∨ ∃ n ≤ k, Condition.ofBranches n ∈ c.parts := by
  induction h with
  | indefinite | absent =>
      rw [Function.iterate_fixed rfl]
      simp [isMet, parts, Condition.ofBranches]
  | timeBudget milliseconds =>
      rw [Function.iterate_fixed rfl]
      simp [isMet, parts, Condition.ofBranches, @eq_comm _ milliseconds]
  | ofBranches n => simp [iterate_noteBranch_branchBudget, isMet, parts, Condition.ofBranches]
  | present _ ih => rw [iterate_noteBranch_present, isMet, ih, parts]
  | either _ _ ih ih' =>
      rw [iterate_noteBranch_either, isMet, Bool.or_eq_true, ih, ih', or_or_or_comm, parts]
      simp only [List.mem_append, and_or_left, exists_or]

/-- Every part that counts branches has counted all of them. -/
theorem made_eq_of_mem_parts (h : IsNew c)
    (hmem : branchBudget n made ∈ (noteBranch^[k] c).parts) : made = k := by
  induction h with
  | indefinite | timeBudget _ | absent =>
      rw [Function.iterate_fixed rfl] at hmem
      simp [parts] at hmem
  | ofBranches n =>
      rw [Condition.ofBranches, iterate_noteBranch_branchBudget] at hmem
      simp only [parts, List.mem_singleton, branchBudget.injEq, Nat.zero_add] at hmem
      exact hmem.2
  | present _ ih =>
      rw [iterate_noteBranch_present, parts] at hmem
      exact ih hmem
  | either _ _ ih ih' =>
      rw [iterate_noteBranch_either, parts, List.mem_append] at hmem
      exact hmem.elim ih ih'

/-! ### Calls -/

/-- Of all calls, only the number of branches matters. -/
theorem after_eq_iterate_noteBranch (h : IsNew c) (calls : List Call) :
    c.after calls = noteBranch^[calls.count .branch] c := by
  induction calls using List.reverseRecOn with
  | nil => rfl
  | append_singleton calls x ih =>
      rw [after_append, ih, List.count_append]
      cases x with
      | ask => exact h.polled_iterate_noteBranch _
      | branch => exact (Function.iterate_succ_apply' noteBranch _ c).symm

/-- After any calls, the condition is met if and only if it has a time budget of nothing, or a branch
budget that allows no more branches than there have been.  So asking it makes no difference to what
comes later, and once it is met it stays so.  No counter gets beyond the number of branches. -/
theorem isMet_after_iff (h : IsNew c) (calls : List Call) :
    ((c.after calls).isMet = true ↔ Condition.timeBudget 0 ∈ c.parts ∨
      ∃ n ≤ calls.count .branch, Condition.ofBranches n ∈ c.parts) ∧
    (∀ more, c.after (calls ++ .ask :: more) = c.after (calls ++ more)) ∧
    ((c.after calls).isMet = true → ∀ more, (c.after (calls ++ more)).isMet = true) ∧
    ∀ n made, branchBudget n made ∈ (c.after calls).parts → made = calls.count .branch := by
  simp only [h.after_eq_iterate_noteBranch, h.isMet_iterate_noteBranch, List.count_append]
  refine ⟨trivial, fun more => ?_, ?_, fun n made => h.made_eq_of_mem_parts⟩
  · rw [List.count_cons_of_ne (by decide)]
  · rintro (hmem | ⟨n, hn, hmem⟩) more
    · exact .inl hmem
    · exact .inr ⟨n, Nat.le_trans hn (Nat.le_add_right _ _), hmem⟩

end IsNew

/-- Two branches are allowed, and time does not run out.  The condition is asked in between, and it
is met after the second branch. -/
theorem isMet_after_two_branches :
    let c := ({ branchBudget := some 2, timeBudget := some 3600000 } : Options).condition
    IsNew c ∧ (c.after [.ask, .branch, .ask]).isMet = false ∧
      (c.after [.ask, .branch, .ask, .branch]).isMet = true ∧
      ∀ more, (c.after ([.ask, .branch, .ask, .branch] ++ more)).isMet = true := by
  intro c
  have hnew : IsNew c := isNew_condition _
  have hmet : (c.after [.ask, .branch, .ask, .branch]).isMet = true :=
    (hnew.isMet_after_iff _).1.2 (Or.inr ⟨2, by decide, by decide⟩)
  refine ⟨hnew, ?_, hmet, (hnew.isMet_after_iff _).2.2.1 hmet⟩
  have hnot := not_congr (hnew.isMet_after_iff [.ask, .branch, .ask]).1
  rw [Bool.not_eq_true] at hnot
  apply hnot.2
  rintro (hmem | ⟨n, hn, hmem⟩)
  · exact absurd hmem (by decide)
  · have hn' : n = 2 := by simpa [c, Options.condition, ofOption, parts, ofBranches] using hmem
    subst hn'
    exact absurd hn (by decide)

end Condition

end SetCover
