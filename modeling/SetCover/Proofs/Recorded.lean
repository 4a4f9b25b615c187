import SetCover.Greedy
import SetCover.Proofs.Lockstep

/-!
# Recorded incumbents

Of all events, those of type `incumbentFound` record the covers that a search found, each cheaper
than the one before.  Reductions and greedy solvers are quiet: they record none.
-/

namespace SetCover

/-- The cover that an event records as an incumbent. -/
def Event.incumbent? : Event → Option Cover
  | .incumbentFound cover => some cover
  | _ => none

/-- The incumbents that some events record, the first one first. -/
def Event.incumbents (events : List Event) : List Cover := events.filterMap incumbent?

@[simp] theorem Event.incumbents_nil : incumbents [] = [] := rfl

@[simp] theorem Event.incumbents_append (before after : List Event) :
    incumbents (before ++ after) = incumbents before ++ incumbents after :=
  List.filterMap_append

namespace Traced

variable {α β : Type} {x : Traced α}

/-- No incumbent is recorded. -/
def IsQuiet (x : Traced α) : Prop :=
  ∀ a events, x = .ok (a, events) → Event.incumbents events = []

namespace IsQuiet

theorem pure (a : α) : IsQuiet (pure a) := by
  rintro - - ⟨⟩
  rfl

theorem throw (e : Fault) : IsQuiet (throw e : Traced α) := fun _ _ h => nomatch h

theorem emit {e : Event} (he : e.incumbent? = none) : IsQuiet (emit e) := by
  rintro - - ⟨⟩
  rw [Event.incumbents, List.filterMap_cons_none he]
  rfl

theorem lift (z : Except Fault α) : IsQuiet (liftM z) := by
  intro a events h
  rw [(eq_of_liftM h).2]
  rfl

theorem bind {f : α → Traced β} (h : x.IsQuiet) (hf : ∀ a, (f a).IsQuiet) :
    IsQuiet (x >>= f) := by
  intro b events hb
  obtain ⟨a, before, after, hx, ha, rfl⟩ := bind_eq_ok_iff.1 hb
  rw [Event.incumbents_append, h a before hx, hf a b after ha]
  rfl

theorem ite {c : Prop} [Decidable c] {y : Traced α} (h : x.IsQuiet) (h' : y.IsQuiet) :
    IsQuiet (if c then x else y) := by
  split
  · exact h
  · exact h'

end IsQuiet

/-- The computation gives a value, and records some incumbents on the way. -/
def Finds (x : Traced α) (a : α) (covers : List Cover) : Prop :=
  ∃ events, x = .ok (a, events) ∧ Event.incumbents events = covers

namespace Finds

variable {f : α → Traced β} {a : α} {b : β} {covers : List Cover}

theorem result_eq (h : x.Finds a covers) : x.result = .ok a := by
  obtain ⟨events, rfl, -⟩ := h
  rfl

theorem exists_of_result (h : x.result = .ok a) : ∃ covers, x.Finds a covers := by
  cases x with
  | error e => exact nomatch h
  | ok p =>
      cases h
      exact ⟨_, p.2, rfl, rfl⟩

theorem eq_of_pure {a' : α} (h : Finds (Pure.pure a) a' covers) : a' = a ∧ covers = [] := by
  obtain ⟨events, hevents, rfl⟩ := h
  cases hevents
  exact ⟨rfl, rfl⟩

theorem exists_of_bind (h : Finds (x >>= f) b covers) : ∃ a before after,
    x.Finds a before ∧ (f a).Finds b after ∧ covers = before ++ after := by
  obtain ⟨events, hevents, rfl⟩ := h
  obtain ⟨a, before, after, ha, hb, rfl⟩ := bind_eq_ok_iff.1 hevents
  exact ⟨a, _, _, ⟨before, ha, rfl⟩, ⟨after, hb, rfl⟩, Event.incumbents_append before after⟩

theorem covers_eq_nil (h : x.Finds a covers) (hx : x.IsQuiet) : covers = [] := by
  obtain ⟨events, hevents, rfl⟩ := h
  exact hx a events hevents

/-- A quiet beginning of a computation records nothing. -/
theorem exists_of_quiet (h : Finds (x >>= f) b covers) (hx : x.IsQuiet) :
    ∃ a, x.result = .ok a ∧ (f a).Finds b covers := by
  obtain ⟨a, before, after, ha, hb, rfl⟩ := h.exists_of_bind
  rw [ha.covers_eq_nil hx]
  exact ⟨a, ha.result_eq, hb⟩

theorem exists_of_lift {z : Except Fault α} (h : Finds (liftM z >>= f) b covers) :
    ∃ a, z = .ok a ∧ (f a).Finds b covers := by
  obtain ⟨a, ha, hb⟩ := h.exists_of_quiet (.lift z)
  exact ⟨a, (result_liftM z).symm.trans ha, hb⟩

theorem of_emit {e : Event} {f : Unit → Traced β} (h : Finds (emit e >>= f) b covers)
    (he : e.incumbent? = none) : (f ()).Finds b covers := by
  obtain ⟨⟨⟩, -, hb⟩ := h.exists_of_quiet (.emit he)
  exact hb

end Finds

end Traced

open Traced

/-! ### Reductions -/

namespace Matrix

theorem isQuiet_select (m : Matrix) (c : Nat) : (m.select c).IsQuiet := by
  refine (IsQuiet.lift _).bind fun h => ?_
  refine IsQuiet.ite (.bind (.throw _) fun _ => ?_) ?_
  all_goals
    refine (IsQuiet.emit rfl).bind fun _ => (IsQuiet.lift _).bind fun _ => ?_
    exact .ite (.lift _) ((IsQuiet.throw _).bind fun _ => .lift _)

theorem isQuiet_dropRowsFor (m : Matrix) (r : Nat) (rows : List Nat) :
    (m.dropRowsFor r rows).IsQuiet := by
  induction rows generalizing m with
  | nil => exact .pure m
  | cons s rows ih => exact (IsQuiet.emit rfl).bind fun _ => (IsQuiet.lift _).bind fun n => ih n

theorem isQuiet_thinRows (m : Matrix) (changed : Bool) (rows : List Nat) :
    (m.thinRows changed rows).IsQuiet := by
  induction rows generalizing m changed with
  | nil => exact .pure _
  | cons r rows ih =>
      rw [thinRows]
      exact .ite (ih m changed) ((m.isQuiet_dropRowsFor r _).bind fun n => ih n _)

theorem isQuiet_dropDominatedRows (m : Matrix) : m.dropDominatedRows.IsQuiet :=
  (m.isQuiet_thinRows _ _).bind fun _ => (IsQuiet.lift _).bind fun _ => .pure _

end Matrix

namespace Reduction

variable (may : Comparator) (x : Reduction)

theorem isQuiet_select (c : Nat) : (x.select c).IsQuiet :=
  (x.matrix.isQuiet_select c).bind fun _ => .pure _

theorem isQuiet_thinColumns (changed : Bool) (columns : List Nat) :
    (x.thinColumns may changed columns).IsQuiet := by
  induction columns generalizing x changed with
  | nil => exact .pure _
  | cons c columns ih =>
      rw [thinColumns]
      exact .ite ((IsQuiet.emit rfl).bind fun _ => (IsQuiet.lift _).bind fun y => ih y true)
        (ih x changed)

theorem isQuiet_dropDominatedColumns : (x.dropDominatedColumns may).IsQuiet :=
  (IsQuiet.lift _).bind fun y => (y.isQuiet_thinColumns may _ _).bind fun _ => .pure _

theorem isQuiet_selectSingletons (changed : Bool) (rows : List Nat) :
    (x.selectSingletons changed rows).IsQuiet := by
  induction rows generalizing x changed with
  | nil => exact .pure _
  | cons r rows ih =>
      rw [selectSingletons]
      refine .ite (ih x changed) ?_
      split
      · exact ih x changed
      · refine .ite (ih x changed) ((IsQuiet.emit rfl).bind fun _ => ?_)
        exact (isQuiet_select _ _).bind fun y => ih y true

theorem isQuiet_selectEssential : x.selectEssential.IsQuiet :=
  (x.isQuiet_selectSingletons _ _).bind fun _ => .pure _

theorem isQuiet_dropDominatedRows : x.dropDominatedRows.IsQuiet :=
  x.matrix.isQuiet_dropDominatedRows.bind fun _ => .pure _

theorem isQuiet_reduce : (x.reduce may).IsQuiet :=
  (x.isQuiet_dropDominatedColumns may).bind fun y => y.2.isQuiet_selectEssential.bind fun z =>
    z.2.isQuiet_dropDominatedRows.bind fun _ => .pure _

theorem isQuiet_reduceTimes (fuel : Nat) : (x.reduceTimes may fuel).IsQuiet := by
  induction fuel generalizing x with
  | zero => exact .pure x
  | succ fuel ih => exact (x.isQuiet_reduce may).bind fun y => .ite (ih y.2) (.pure y.2)

theorem isQuiet_reduceFully : (x.reduceFully may).IsQuiet := x.isQuiet_reduceTimes may _

end Reduction

/-! ### Greedy covers -/

namespace Greedy

variable (g : Greedy)

theorem isQuiet_reduce (x : Reduction) : (g.reduce x).IsQuiet :=
  (x.isQuiet_reduceFully _).bind fun _ => .pure _

theorem isQuiet_extend (x : Reduction) (fuel : Nat) : (g.extend x fuel).IsQuiet := by
  induction fuel generalizing g x with
  | zero => exact .pure _
  | succ fuel ih =>
      rw [extend]
      split
      · exact .pure _
      · refine (IsQuiet.emit rfl).bind fun _ => (x.isQuiet_select _).bind fun y => ?_
        exact (isQuiet_reduce _ y).bind fun p => ih p.1 p.2

theorem isQuiet_solve (m : Matrix) : (g.solve m).IsQuiet :=
  (g.isQuiet_reduce _).bind fun p => (p.1.isQuiet_extend p.2 _).bind fun _ =>
    .ite (.pure _) ((IsQuiet.throw _).bind fun _ => .pure _)

theorem isQuiet_solveAndRestore (m : Matrix) : (g.solveAndRestore m).IsQuiet :=
  (g.isQuiet_solve _).bind fun _ => (IsQuiet.lift _).bind fun _ => .pure _

end Greedy

end SetCover
