/-!
# Linked rings

`Links` stores numbered nodes, each with a predecessor and a successor, so that the nodes form
disjoint rings.  A node that is taken out of its ring keeps its own two links.  They name the
neighbours it had, so `relink` can put it back without a search, provided that the two are
neighbours again.

A ring is read off by following successors from a chosen head node back to that node.  Every walk
is bounded by the number of nodes, which is as far as a ring can reach.
-/

namespace SetCover

/-- The neighbours of a node in its ring. -/
structure Link where
  previous : Nat
  next : Nat
deriving DecidableEq, Repr

/-- Nodes `0, 1, …` with their neighbours. -/
structure Links where
  nodes : Array Link
deriving DecidableEq, Repr

namespace Links

/-- `n` nodes that are all linked to node `i` on both sides. -/
def replicate (n i : Nat) : Links := ⟨Array.replicate n ⟨i, i⟩⟩

/-- The number of nodes. -/
def size (l : Links) : Nat := l.nodes.size

/-- The neighbours of node `i`; a node beyond the last one is alone in its ring. -/
def get (l : Links) (i : Nat) : Link := l.nodes.getD i ⟨i, i⟩

/-- The successor of node `i`. -/
def next (l : Links) (i : Nat) : Nat := (l.get i).next

/-- The predecessor of node `i`. -/
def previous (l : Links) (i : Nat) : Nat := (l.get i).previous

/-- Adds a node. -/
def push (l : Links) (node : Link) : Links := ⟨l.nodes.push node⟩

def set (l : Links) (i : Nat) (node : Link) : Links := ⟨l.nodes.setIfInBounds i node⟩

def setNext (l : Links) (i j : Nat) : Links :=
  let node := l.get i
  l.set i { node with next := j }

def setPrevious (l : Links) (i j : Nat) : Links :=
  let node := l.get i
  l.set i { node with previous := j }

/-- Makes `j` the successor of `i`, and `i` the predecessor of `j`. -/
def join (l : Links) (i j : Nat) : Links := (l.setNext i j).setPrevious j i

/-- Takes node `i` out of its ring.  The node itself keeps its links. -/
def unlink (l : Links) (i : Nat) : Links :=
  let node := l.get i
  l.join node.previous node.next

/-- Puts node `i` back between the neighbours it names. -/
def relink (l : Links) (i : Nat) : Links :=
  let node := l.get i
  (l.setNext node.previous i).setPrevious node.next i

/-- Puts node `i` behind node `p`. -/
def insertAfter (l : Links) (p i : Nat) : Links :=
  let node : Link := ⟨p, l.next p⟩
  (l.set i node).relink i

/-- Whether the neighbours that node `i` names are neighbours of each other. -/
def isGapFor (l : Links) (i : Nat) : Bool :=
  let node := l.get i
  l.next node.previous == node.next && l.previous node.next == node.previous

/-- The nodes from `i` on, up to but without `stop`, at most `fuel` of them. -/
def walk (l : Links) (stop : Nat) : (fuel i : Nat) → List Nat
  | 0, _ => []
  | fuel + 1, i => if i = stop then [] else i :: l.walk stop fuel (l.next i)

/-- The ring of `head` in the order of its successors, without `head` itself. -/
def toList (l : Links) (head : Nat) : List Nat := l.walk head l.size (l.next head)

/-- Goes backwards from `i` over the nodes that satisfy `skip`, at most to `stop`. -/
def retreat (l : Links) (stop : Nat) (skip : Nat → Bool) : (fuel i : Nat) → Nat
  | 0, i => i
  | fuel + 1, i => if i ≠ stop ∧ skip i then l.retreat stop skip fuel (l.previous i) else i

/-- The last node of the ring of `head` that does not satisfy `skip`, found from behind. -/
def lastNot (l : Links) (head : Nat) (skip : Nat → Bool) : Nat :=
  l.retreat head skip l.size (l.previous head)

/-- Goes forwards from `i` as long as the successor is not `stop` and satisfies `skip`. -/
def advance (l : Links) (stop : Nat) (skip : Nat → Bool) : (fuel i : Nat) → Nat
  | 0, i => i
  | fuel + 1, i =>
    if l.next i ≠ stop ∧ skip (l.next i) then l.advance stop skip fuel (l.next i) else i

end Links

end SetCover
