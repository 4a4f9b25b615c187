/-!
# Blanks and segments

Blanks are the characters with the Unicode property `White_Space`.  A text is cut into segments at
commas, and blanks around a segment do not belong to it.
-/

namespace SetCover.Text

/-- Whether a character has the property `White_Space`. -/
def isBlank (c : Char) : Bool :=
  let n := c.toNat
  9 ≤ n && n ≤ 13 || n == 0x20 || n == 0x85 || n == 0xa0 || n == 0x1680
    || 0x2000 ≤ n && n ≤ 0x200a || n == 0x2028 || n == 0x2029 || n == 0x202f || n == 0x205f
    || n == 0x3000

/-- The characters without the blanks at either end. -/
def trim (s : List Char) : List Char :=
  ((s.dropWhile isBlank).reverse.dropWhile isBlank).reverse

/-- The segments of a text between its commas, trimmed, without the empty ones. -/
def segments (s : String) : List String :=
  (((s.toList.splitOn ',').map trim).filter (!·.isEmpty)).map String.ofList

end SetCover.Text
