import SetCover.Fault
import SetCover.Links

/-!
# Active headers

Every row and every column has a `Header`: how many elements it has, whether it is deleted, and
whether it has changed since it was last compared with others.  A `HeaderRing` holds the headers of
one dimension and a ring through those that are not deleted, in ascending order.

The ring starts at a head node whose number is that of the last header plus one; the head has an
entry of its own in the table of headers, which no lookup by `get` reaches.  An excluded header
keeps its links, so it can be put back in constant time if its neighbours are neighbours again.
-/

namespace SetCover

/-- What is recorded about a row or column. -/
structure Header where
  /-- The number of elements in its ring. -/
  count : Nat := 0
  deleted : Bool := true
  /-- Set when the count changes or the header comes back, cleared after a comparison. -/
  dirty : Bool := true
deriving DecidableEq, Repr

/-- The headers of one dimension, with the ring of the active ones. -/
structure HeaderRing where
  dimension : Dimension
  /-- The number of headers, active or not. -/
  size : Nat
  /-- The headers, and behind them the entry of the head. -/
  headers : Array Header
  links : Links
  /-- The number of active headers. -/
  numActive : Nat
deriving DecidableEq, Repr

namespace HeaderRing

/-- A list of `n` headers, all of them excluded. -/
def excluded (d : Dimension) (n : Nat) : HeaderRing where
  dimension := d
  size := n
  headers := (Array.replicate n {}).push { deleted := false, dirty := false }
  links := Links.replicate (n + 1) n
  numActive := 0

/-- The node at which the ring of active headers starts and ends. -/
def head (l : HeaderRing) : Nat := l.size

/-- The header with number `i`. -/
def header (l : HeaderRing) (i : Nat) : Header := l.headers.getD i {}

/-- The header with number `i`, if there is one. -/
def get (l : HeaderRing) (i : Nat) : Except Fault Header :=
  if i < l.size then .ok (l.header i) else .error (.noSuchHeader l.dimension i l.size)

/-- Replaces the header with number `i`. -/
def set (l : HeaderRing) (i : Nat) (h : Header) : HeaderRing :=
  { l with headers := l.headers.setIfInBounds i h }

/-- The active headers, in the order of the ring. -/
def active (l : HeaderRing) : List Nat := l.links.toList l.head

/-- The first active header. -/
def first? (l : HeaderRing) : Option Nat :=
  let i := l.links.next l.head
  if i = l.head then none else some i

/-- The active header behind `i`.  An excluded header still names the one it had. -/
def next? (l : HeaderRing) (i : Nat) : Except Fault (Option Nat) :=
  if i < l.links.size then
    let j := l.links.next i
    .ok (if j = l.head then none else some j)
  else .error (.outOfBounds i l.links.size)

/-- Counts one more element. -/
def increment (l : HeaderRing) (i : Nat) : Except Fault HeaderRing :=
  match l.headers[i]? with
  | none => .error (.outOfBounds i l.headers.size)
  | some h => .ok (l.set i { h with count := h.count + 1, dirty := true })

/-- Counts one element less. -/
def decrement (l : HeaderRing) (i : Nat) : Except Fault HeaderRing :=
  match l.headers[i]? with
  | none => .error (.outOfBounds i l.headers.size)
  | some h =>
    if h.count = 0 then .error .noElementLeft
    else .ok (l.set i { h with count := h.count - 1, dirty := true })

/-- Records that header `i` has been compared as it is now. -/
def clean (l : HeaderRing) (i : Nat) : Except Fault HeaderRing := do
  let h ← l.get i
  return l.set i { h with dirty := false }

/-- Makes header `i` active, behind node `p` of the ring. -/
def activateAfter (l : HeaderRing) (p i : Nat) (dirty : Bool) : HeaderRing :=
  { l with
    headers := l.headers.setIfInBounds i { l.header i with deleted := false, dirty := dirty }
    links := l.links.insertAfter p i
    numActive := l.numActive + 1 }

/-- Makes headers active one behind the other, starting behind `last`. -/
def fillFrom (l : HeaderRing) (last : Nat) : List Nat → Except Fault HeaderRing
  | [] => .ok l
  | i :: rest => do
    unless last = l.head ∨ last < i do throw .notAscending
    let h ← l.get i
    (l.activateAfter last i h.dirty).fillFrom i rest

/-- Fills an empty ring with headers in ascending order. -/
def fill (l : HeaderRing) (active : List Nat) : Except Fault HeaderRing :=
  if l.numActive = 0 then l.fillFrom l.head active else .error .alreadyFilled

/-- Makes an excluded header active, at its place in the order. -/
def insert (l : HeaderRing) (i : Nat) : Except Fault HeaderRing := do
  let h ← l.get i
  unless h.deleted do throw (.alreadyActive i)
  return l.activateAfter (l.links.lastNot l.head (i < ·)) i true

/-- Takes an active header out of the ring. -/
def exclude (l : HeaderRing) (i : Nat) : Except Fault HeaderRing := do
  let h ← l.get i
  if h.deleted then throw (.alreadyDeleted l.dimension i)
  return { l with
    headers := l.headers.setIfInBounds i { h with deleted := true }
    links := l.links.unlink i
    numActive := l.numActive - 1 }

/-- Puts an excluded header back between the neighbours it had. -/
def restore (l : HeaderRing) (i : Nat) : Except Fault HeaderRing := do
  let h ← l.get i
  unless h.deleted do throw (.notDeleted l.dimension i)
  unless l.links.isGapFor i do throw (.restoredOutOfOrder l.dimension i)
  return { l with
    headers := l.headers.setIfInBounds i { h with deleted := false, dirty := true }
    links := l.links.relink i
    numActive := l.numActive + 1 }

/-- Makes headers active in one pass over the ring, which is at `cursor`. -/
def mergeFrom (l : HeaderRing) (cursor : Nat) : List Nat → Except Fault HeaderRing
  | [] => .ok l
  | i :: rest => do
    let h ← l.get i
    unless h.deleted do throw (.activeInBothLists l.dimension i)
    let p := l.links.advance l.head (· < i) l.links.size cursor
    (l.activateAfter p i true).mergeFrom i rest

/-- Makes the active headers of another list active here as well. -/
def merge (l other : HeaderRing) : Except Fault HeaderRing :=
  if l.dimension = other.dimension ∧ l.size = other.size then l.mergeFrom l.head other.active
  else .error .unlikeLists

/-- The numbers of the headers that satisfy `p`, active or not, in ascending order. -/
def indices (l : HeaderRing) (p : Header → Bool) : List Nat :=
  (List.range l.size).filter fun i => p (l.header i)

end HeaderRing

end SetCover
