import SetCover.Matrix.Basic

/-!
# Cost shares

The cost of a column, spread evenly over its rows, gives each of them a share.  A cover pays each
of its columns in full, which is at least the shares of the rows it covers; so the sum of the
cheapest share of each row is, up to rounding, a lower bound on the cost of a cover.

Shares are binary floating-point numbers and the sum runs over the rows in ascending order.  Before
it is rounded up to a cost it is lowered by a small slack, so that a sum that is integral up to
rounding is not raised to the next integer.
-/

namespace SetCover

/-- The floating-point number nearest to a 64-bit word. -/
def wordToFloat (n : Nat) : Float := (UInt64.ofNat n).toFloat

/-- The least natural number that is not below `x`, but `top` at most; for "not a number" it is 0.

A finite number is `m * 2 ^ (e - 1075)` with the significand `m` and the exponent `e` read off the
64 bits of its encoding. -/
def ceilNat (x : Float) (top : Nat) : Nat :=
  let bits := x.toBits.toNat
  let negative := 1 <<< 63 ≤ bits
  let e := (bits >>> 52) % 2048
  let fraction := bits % (1 <<< 52)
  if e = 2047 ∧ fraction ≠ 0 ∨ negative then 0
  else if e = 2047 then top
  else
    let m := if e = 0 then fraction else (1 <<< 52) + fraction
    let e := max e 1
    min top (if 1075 ≤ e then m <<< (e - 1075)
      else (m + ((1 <<< (1075 - e)) - 1)) >>> (1075 - e))

namespace Share

/-- What a sum of shares is lowered by before it is rounded up. -/
def slack : Float := 1e-9

/-- The cost that a sum of shares stands for. -/
def roundUp (x : Float) : Nat := ceilNat (x - slack) (Cost.limit - 1)

/-- The order of shares.  A share of nothing over no rows is not a number, and comes first. -/
def le (a b : Float) : Bool := a.isNaN || a ≤ b

/-- The first of the least shares. -/
def least? : List Float → Option Float
  | [] => none
  | x :: xs => some (xs.foldl (fun a b => if le a b then a else b) x)

end Share

namespace Matrix

/-- What column `c` costs for each of its rows. -/
def share (m : Matrix) (c : Nat) : Float :=
  wordToFloat (m.costOf c) / wordToFloat (m.count .column c)

/-- The least share of a column of row `r`, if it has a column. -/
def leastShare? (m : Matrix) (r : Nat) : Option Float :=
  Share.least? ((m.line .row r).map m.share)

/-- What column `c` costs for each of its rows. -/
def getShare (m : Matrix) (c : Nat) : Except Fault Float := do
  let _ ← m.getCost c
  let _ ← m.getHeader .column c
  return m.share c

/-- The least share of a column of row `r`, if it has a column. -/
def getLeastShare (m : Matrix) (r : Nat) : Except Fault (Option Float) := do
  let _ ← m.getHeader .row r
  return m.leastShare? r

/-- The sum of the cheapest shares of all active rows, rounded up. -/
def shareBound (m : Matrix) : Nat :=
  Share.roundUp (((m.active .row).filterMap m.leastShare?).foldl (· + ·) 0)

end Matrix

end SetCover
