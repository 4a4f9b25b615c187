import SetCover.Arena

/-!
# A heap with keys

A max-heap of the keys `0, 1, …`, each with a signed 64-bit value.  The value of a key can be
changed in place, and a key can be taken out wherever it is.

The positions below `size` form the heap; keys that were taken out lie behind them and keep their
values.  `positionOf` and `keyAt` are inverse to each other as long as keys are added in order.
-/

namespace SetCover

/-- Keys with values, ordered as a heap. -/
structure Heap where
  /-- The value at each position. -/
  values : Array Int := #[]
  /-- The position of each key. -/
  positionOf : Arena Nat := {}
  /-- The key at each position. -/
  keyAt : Array Nat := #[]
  /-- The number of keys in the heap. -/
  size : Nat := 0
deriving DecidableEq, Repr

namespace Heap

/-- The value at position `p`. -/
def value (h : Heap) (p : Nat) : Int := h.values.getD p 0

def isEmpty (h : Heap) : Bool := h.size == 0

/-- Whether a key is in the heap. -/
def contains (h : Heap) (key : Nat) : Bool :=
  match h.positionOf.slots[key]? with
  | some p => p < h.size
  | none => false

/-- A key of greatest value, with its value. -/
def peek? (h : Heap) : Option (Nat × Int) :=
  if h.isEmpty then none else some (h.keyAt.getD 0 0, h.value 0)

/-- Exchanges what is at two positions. -/
def swap (h : Heap) (p q : Nat) : Except Fault Heap :=
  if p = q then .ok h
  else
    match h with
    | ⟨values, positionOf, keyAt, size⟩ => do
      let positionOf ← positionOf.swap (keyAt.getD p 0) (keyAt.getD q 0)
      return ⟨values.swapIfInBounds p q, positionOf, keyAt.swapIfInBounds p q, size⟩

/-- Moves what is at position `p` up until its parent is not smaller. -/
def siftUp (h : Heap) (p : Nat) : Except Fault Heap :=
  if 0 < p then
    let parent := (p - 1) / 2
    if h.value p ≤ h.value parent then .ok h
    else do (← h.swap parent p).siftUp parent
  else .ok h
termination_by p

/-- The position of the greatest value among `p` and its children below `n`, and `p` if it is not
exceeded. -/
def greatest (h : Heap) (n p : Nat) : Nat :=
  let left := 2 * p + 1
  let right := left + 1
  let best := if left < n ∧ h.value p < h.value left then left else p
  if right < n ∧ h.value best < h.value right then right else best

theorem greatest_eq_or_lt (h : Heap) (n p : Nat) :
    h.greatest n p = p ∨ p < h.greatest n p ∧ h.greatest n p < n := by
  grind [greatest]

/-- Moves what is at position `p` down until no child below `n` is greater. -/
def siftDown (n : Nat) (h : Heap) (p : Nat) : Except Fault Heap :=
  if h.greatest n p = p then .ok h
  else do (← h.swap p (h.greatest n p)).siftDown n (h.greatest n p)
termination_by n - p
decreasing_by
  have := h.greatest_eq_or_lt n p
  omega

/-- Takes a key out of the heap, if it is there.  What fills the gap may have to go either way. -/
def erase (h : Heap) (key : Nat) : Except Fault Heap :=
  if h.contains key then do
    let p ← h.positionOf.get key
    let last := h.size - 1
    let h := { ← h.swap p last with size := last }
    if p < last then (← siftDown last h p).siftUp p else return h
  else .ok h

/-- Takes a key of greatest value out of the heap. -/
def pop (h : Heap) : Except Fault (Option Nat × Heap) :=
  match h.peek? with
  | none => .ok (none, h)
  | some (key, _) => do return (some key, ← h.erase key)

/-- The sum of two values, which are 64-bit integers. -/
def addValues (a b : Int) : Except Fault Int :=
  if -9223372036854775808 ≤ a + b ∧ a + b < 9223372036854775808 then .ok (a + b)
  else .error .overflow

/-- Adds to the value of a key.  A key in the heap moves up if its value grew; one that was taken
out only gets the value. -/
def increase (h : Heap) (key : Nat) (amount : Int) : Except Fault Heap := do
  let p ← h.positionOf.get key
  let value ← addValues (h.value p) amount
  let h := { h with values := h.values.setIfInBounds p value }
  if h.contains key then h.siftUp p else return h

/-- Adds the next key, behind those in the heap and before those taken out. -/
def insert (h : Heap) (key : Nat) (value : Int) : Except Fault Heap := do
  let last := h.values.size
  let grown : Heap := {
    values := h.values.push value
    positionOf := (h.positionOf.push last).2
    keyAt := h.keyAt.push key
    size := h.size }
  let h := { ← grown.swap h.size last with size := h.size + 1 }
  h.siftUp (h.size - 1)

/-- Forgets all keys. -/
def clear (h : Heap) : Heap where
  values := h.values.shrink 0
  positionOf := h.positionOf.clear
  keyAt := h.keyAt.shrink 0
  size := 0

/-- The next `n` keys of greatest value, in the order in which they are taken out. -/
def popTimes (h : Heap) : (n : Nat) → Except Fault (List Nat)
  | 0 => .ok []
  | n + 1 => do
    match ← h.pop with
    | (none, _) => return []
    | (some key, h) => return key :: (← h.popTimes n)

/-- All keys, in the order in which they would be taken out. -/
def drain (h : Heap) : Except Fault (List Nat) := h.popTimes h.size

end Heap

end SetCover
