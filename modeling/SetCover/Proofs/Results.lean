/-!
# Lists of results

A list of computations succeeds if all of them do, and otherwise fails as the first that fails.
-/

namespace SetCover

variable {α β ε : Type} {f : α → Except ε β} {as : List α} {bs : List β} {e : ε}

theorem mapM_eq_ok_iff : as.mapM f = .ok bs ↔ as.map f = bs.map .ok := by
  induction as generalizing bs with
  | nil => cases bs <;> simp [pure, Except.pure]
  | cons a as ih =>
      rw [List.mapM_cons, List.map_cons]
      cases ha : f a with
      | error e => cases bs <;> simp [bind, Except.bind]
      | ok b =>
          cases has : as.mapM f with
          | error e => cases bs <;> simp [bind, Except.bind, ← ih, has]
          | ok bs' => cases bs <;> simp [bind, Except.bind, pure, Except.pure, ← ih, has]

/-- A list fails as the first of its members that fails. -/
theorem mapM_eq_error_iff : as.mapM f = .error e ↔ ∃ before a behind,
    as = before ++ a :: behind ∧ (∀ b ∈ before, ∃ v, f b = .ok v) ∧ f a = .error e := by
  induction as with
  | nil => simp [pure, Except.pure]
  | cons a as ih =>
      have hcons : (∃ before b behind, a :: as = before ++ b :: behind ∧
          (∀ c ∈ before, ∃ v, f c = .ok v) ∧ f b = .error e) ↔
          f a = .error e ∨ (∃ v, f a = .ok v) ∧ as.mapM f = .error e := by
        constructor
        · rintro ⟨before, b, behind, heq, hbefore, hb⟩
          rcases List.cons_eq_append_iff.1 heq with ⟨rfl, hcons⟩ | ⟨before, rfl, rfl⟩
          · cases hcons
            exact .inl hb
          · obtain ⟨ha, hbefore⟩ := List.forall_mem_cons.1 hbefore
            exact .inr ⟨ha, ih.2 ⟨before, b, behind, rfl, hbefore, hb⟩⟩
        · rintro (ha | ⟨ha, has⟩)
          · exact ⟨[], a, as, rfl, by simp, ha⟩
          · obtain ⟨before, b, behind, rfl, hbefore, hb⟩ := ih.1 has
            exact ⟨a :: before, b, behind, rfl, List.forall_mem_cons.2 ⟨ha, hbefore⟩, hb⟩
      rw [hcons, List.mapM_cons]
      cases f a with
      | error e' => simp [bind, Except.bind]
      | ok v =>
          cases as.mapM f with
          | error e' => simp [bind, Except.bind]
          | ok vs => simp [bind, Except.bind, pure, Except.pure]

/-- A fold succeeds if what holds before a step lets it succeed and holds after it. -/
theorem foldlM_eq_ok {f : β → α → Except ε β} {g : β → α → β} {P : β → Prop} {b : β}
    (hstep : ∀ a ∈ as, ∀ b, P b → f b a = .ok (g b a) ∧ P (g b a)) (hb : P b) :
    as.foldlM f b = .ok (as.foldl g b) ∧ P (as.foldl g b) := by
  induction as generalizing b with
  | nil => exact ⟨rfl, hb⟩
  | cons a as ih =>
      obtain ⟨ha, hnext⟩ := hstep a List.mem_cons_self b hb
      rw [List.foldlM_cons, ha]
      exact ih (fun a' ha' => hstep a' (List.mem_cons_of_mem a ha')) hnext

end SetCover
