/-!
# Reused storage

Tables that are needed again and again keep their storage.  `refill` overwrites all that a table
held before, so its result depends on the new length and entry alone.
-/

namespace SetCover

variable {α : Type}

/-- Adds `n` copies of `a`. -/
def pushTimes (xs : Array α) (a : α) : (n : Nat) → Array α
  | 0 => xs
  | n + 1 => pushTimes (xs.push a) a n

/-- `n` copies of `a`, in the storage of a table. -/
def refill (buffer : Array α) (n : Nat) (a : α) : Array α := pushTimes (buffer.shrink 0) a n

theorem pushTimes_eq_append (xs : Array α) (a : α) (n : Nat) :
    pushTimes xs a n = xs ++ Array.replicate n a := by
  induction n generalizing xs with
  | zero => simp [pushTimes]
  | succ n ih =>
    rw [pushTimes, ih, Array.replicate_succ', ← Array.append_assoc, Array.append_singleton]

@[simp] theorem refill_eq_replicate (buffer : Array α) (n : Nat) (a : α) :
    refill buffer n a = Array.replicate n a := by
  simp [refill, pushTimes_eq_append]

theorem getD_setIfInBounds {xs : Array α} {i : Nat} (h : i < xs.size) (a d : α) (j : Nat) :
    (xs.setIfInBounds i a).getD j d = if j = i then a else xs.getD j d := by
  rw [Array.getD_eq_getD_getElem?, Array.getElem?_setIfInBounds, Array.getD_eq_getD_getElem?]
  by_cases hij : i = j
  · simp [hij, hij ▸ h]
  · simp [hij, Ne.symm hij]

end SetCover
