import SetCover.Fault

/-!
# Arenas

Storage for values that are added one after the other and named by the number they got.  Every
access by a number is checked.
-/

namespace SetCover

/-- Values that are named by the numbers `0, 1, …`. -/
structure Arena (α : Type) where
  slots : Array α := #[]
deriving DecidableEq, Repr

namespace Arena

variable {α : Type}

/-- An arena with room for `n` values. -/
def emptyWithCapacity (n : Nat) : Arena α := ⟨Array.emptyWithCapacity n⟩

/-- The number of values. -/
def size (a : Arena α) : Nat := a.slots.size

def isEmpty (a : Arena α) : Bool := a.slots.isEmpty

def toList (a : Arena α) : List α := a.slots.toList

/-- Adds a value, and gives its number. -/
def push (a : Arena α) (x : α) : Nat × Arena α := (a.size, ⟨a.slots.push x⟩)

/-- An arena without values. -/
def clear (_ : Arena α) : Arena α := {}

/-- The value with number `i`. -/
def get (a : Arena α) (i : Nat) : Except Fault α :=
  match a.slots[i]? with
  | some x => .ok x
  | none => .error (.outOfBounds i a.size)

/-- Replaces the value with number `i`. -/
def set (a : Arena α) (i : Nat) (x : α) : Except Fault (Arena α) :=
  if h : i < a.slots.size then .ok ⟨a.slots.set i x⟩ else .error (.outOfBounds i a.size)

/-- Exchanges the values with numbers `i` and `j`. -/
def swap (a : Arena α) (i j : Nat) : Except Fault (Arena α) :=
  if hi : i < a.slots.size then
    if hj : j < a.slots.size then .ok ⟨a.slots.swap i j⟩
    else .error (.outOfBounds j a.size)
  else .error (.outOfBounds i a.size)

end Arena

end SetCover
