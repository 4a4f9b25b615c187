import SetCover.Event

/-!
# Traced computations

A computation of type `Traced α` either stops with a fault or gives a value together with the
events reported on the way, oldest first.  `Traced.result` forgets the events; since a computation
can only add events and never look at them, `result` commutes with sequencing.
-/

namespace SetCover

/-- A computation that may stop with a fault and reports events. -/
def Traced (α : Type) : Type := Except Fault (α × List Event)

namespace Traced

variable {α β : Type}

@[inline] protected def pure (a : α) : Traced α := .ok (a, [])

@[inline] protected def bind (x : Traced α) (f : α → Traced β) : Traced β :=
  match x with
  | .error e => .error e
  | .ok (a, before) =>
    match f a with
    | .error e => .error e
    | .ok (b, after) => .ok (b, before ++ after)

instance : Monad Traced where
  pure := Traced.pure
  bind := Traced.bind

/-- Reports an event. -/
def emit (e : Event) : Traced Unit := .ok ((), [e])

/-- A computation that reports nothing. -/
@[inline] def lift (x : Except Fault α) : Traced α :=
  match x with
  | .error e => .error e
  | .ok a => .ok (a, [])

instance : MonadLift (Except Fault) Traced := ⟨lift⟩

instance : MonadExceptOf Fault Traced where
  throw e := .error e
  tryCatch x handle :=
    match x with
    | .error e => handle e
    | .ok p => .ok p

/-- The value of a computation, without its events. -/
def result (x : Traced α) : Except Fault α := x.map Prod.fst

/-- The events of a computation that ends without fault. -/
def events (x : Traced α) : List Event :=
  match x with
  | .error _ => []
  | .ok (_, events) => events

@[simp] theorem result_pure (a : α) : (pure a : Traced α).result = .ok a := rfl

@[simp] theorem result_throw (e : Fault) : (throw e : Traced α).result = .error e := rfl

@[simp] theorem result_emit (e : Event) : (emit e).result = .ok () := rfl

@[simp] theorem result_lift (x : Except Fault α) : (lift x).result = x := by
  cases x <;> rfl

@[simp] theorem result_liftM (x : Except Fault α) : (liftM x : Traced α).result = x :=
  result_lift x

@[simp] theorem result_bind (x : Traced α) (f : α → Traced β) :
    (x >>= f).result = x.result >>= fun a => (f a).result := by
  cases x with
  | error e => rfl
  | ok p =>
    obtain ⟨a, before⟩ := p
    change result (Traced.bind (.ok (a, before)) f) = (f a).result
    simp only [Traced.bind]
    cases f a <;> rfl

theorem result_bind_eq_ok_iff {x : Traced α} {f : α → Traced β} {b : β} :
    (x >>= f).result = .ok b ↔ ∃ a, x.result = .ok a ∧ (f a).result = .ok b := by
  rw [result_bind, bind_eq_ok_iff]

instance : LawfulMonad Traced :=
  LawfulMonad.mk' Traced
    (by
      intro α x
      cases x with
      | error e => rfl
      | ok p => exact congrArg Except.ok (Prod.ext rfl (List.append_nil _)))
    (by
      intro α β a f
      change Traced.bind (.ok (a, [])) f = f a
      simp only [Traced.bind]
      cases f a <;> rfl)
    (by
      intro α β γ x f g
      cases x with
      | error e => rfl
      | ok p =>
        obtain ⟨a, before⟩ := p
        change Traced.bind (Traced.bind (.ok (a, before)) f) g
          = Traced.bind (.ok (a, before)) (fun a => Traced.bind (f a) g)
        simp only [Traced.bind]
        cases f a with
        | error e => rfl
        | ok q =>
          obtain ⟨b, between⟩ := q
          simp only
          cases g b with
          | error e => rfl
          | ok r => exact congrArg Except.ok (Prod.ext rfl (List.append_assoc _ _ _)))

end Traced

end SetCover
