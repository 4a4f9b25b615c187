import SetCover.Text.Attachment

/-!
# Clusters

A cluster is a character with the characters attached to it.  Only marks attach here: characters
that join as equals, such as the letters of a syllable block or the two halves of a flag, are
clusters of their own.  A text is the concatenation of its clusters.
-/

namespace SetCover.Text

/-- Whether one of the ranges contains a character. -/
def inRanges (ranges : List (Nat × Nat)) (c : Char) : Bool :=
  ranges.any fun (first, last) => first ≤ c.toNat && c.toNat ≤ last

/-- Whether two characters next to each other belong to one cluster. -/
def joined (c d : Char) : Bool :=
  inRanges attachedToNext c || inRanges attachedToPrevious d

/-- The clusters of a text. -/
def clusters (s : List Char) : List (List Char) :=
  s.splitBy joined

theorem inRanges_eq_false {ranges : List (Nat × Nat)} {c : Char}
    (h : ∀ r ∈ ranges, c.toNat < r.1) : inRanges ranges c = false := by
  rw [inRanges, List.any_eq_false]
  intro r hr
  simp [Nat.not_le.mpr (h r hr)]

/-- Below the first mark, characters stand alone. -/
theorem joined_of_lt {c d : Char} (hc : c.toNat < 0x300) (hd : d.toNat < 0x300) :
    joined c d = false := by
  have next : ∀ r ∈ attachedToNext, 0x300 ≤ r.1 := by decide
  have previous : ∀ r ∈ attachedToPrevious, 0x300 ≤ r.1 := by decide +kernel
  rw [joined, inRanges_eq_false fun r hr => Nat.lt_of_lt_of_le hc (next r hr),
    inRanges_eq_false fun r hr => Nat.lt_of_lt_of_le hd (previous r hr), Bool.or_false]

end SetCover.Text
