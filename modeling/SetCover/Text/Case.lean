import SetCover.Text.LetterPairs

/-!
# Small letters and capitals

A character is spelled as a capital or as a small letter.  Both spellings may have more than one
character, as the capital form of `ß` has.  A character without the form asked for stands for
itself.  The spelling of a character does not depend on the characters around it; in particular a
capital sigma at the end of a word becomes `σ`.
-/

namespace SetCover.Text

/-- The capital in the pair of a small letter. -/
def pairedCapital? (n : Nat) : Option Nat :=
  if alternatingPairs.any fun (first, last) =>
      first ≤ n && n ≤ last && (n - first) % 2 == 0 then
    some (n - 1)
  else
    shiftedPairs.findSome? (·.image? n)

/-- The small letter in the pair of a capital. -/
def pairedSmall? (n : Nat) : Option Nat :=
  if alternatingPairs.any fun (first, last) =>
      first ≤ n + 1 && n + 1 ≤ last && (n + 1 - first) % 2 == 0 then
    some (n + 1)
  else
    (shiftedPairs.map LetterRun.symm).findSome? (·.image? n)

/-- The code points of the capital form. -/
def capitalCodes (n : Nat) : List Nat :=
  match pairedCapital? n <|> variants.findSome? (·.image? n) with
  | some m => [m]
  | none =>
    match iotaSubscripts.findSome? (·.image? n) with
    | some m => [m, 0x399]
    | none => (expansions.lookup n).getD [n]

/-- The code points of the small form.  The dot of `İ` is kept as a mark on the small letter. -/
def smallCodes (n : Nat) : List Nat :=
  match pairedSmall? n <|> capitalVariants.findSome? (·.image? n) with
  | some m => [m]
  | none => if n = 0x130 then [0x69, 0x307] else [n]

/-- The capital form of a character. -/
def capital (c : Char) : List Char :=
  (capitalCodes c.toNat).map Char.ofNat

/-- The small form of a character. -/
def small (c : Char) : List Char :=
  (smallCodes c.toNat).map Char.ofNat

theorem findSome?_image?_eq_none {runs : List LetterRun} {n : Nat}
    (h : ∀ r ∈ runs, n < r.first) : runs.findSome? (·.image? n) = none := by
  rw [List.findSome?_eq_none_iff]
  intro r hr
  simp [LetterRun.image?, Nat.not_le.mpr (h r hr)]

/-- Below 128, only the letters from `a` to `z` have capitals. -/
theorem capitalCodes_of_lt {n : Nat} (h : n < 128) :
    capitalCodes n = [if 0x61 ≤ n ∧ n ≤ 0x7a then n - 32 else n] := by
  have alternating : ∀ p ∈ alternatingPairs, 128 ≤ p.1 := by decide
  have shifted : ∀ r ∈ shiftedPairs.tail, 128 ≤ r.first := by decide
  have variant : ∀ r ∈ variants, 128 ≤ r.first := by decide
  have iota : ∀ r ∈ iotaSubscripts, 128 ≤ r.first := by decide
  have expansion : ∀ p ∈ expansions, 128 ≤ p.1 := by decide
  have paired : pairedCapital? n = (⟨0x61, 0x7a, 0x41⟩ : LetterRun).image? n := by
    rw [pairedCapital?, if_neg,
      show shiftedPairs = ⟨0x61, 0x7a, 0x41⟩ :: shiftedPairs.tail from rfl, List.findSome?_cons,
      findSome?_image?_eq_none fun r hr => by have := shifted r hr; omega]
    · split <;> simp_all
    · simp only [List.any_eq_true, not_exists, not_and, Bool.and_eq_true, decide_eq_true_eq]
      intro p hp
      have := alternating p hp
      omega
  have lookup : expansions.lookup n = none := by
    rw [List.lookup_eq_none_iff]
    intro p hp
    have := expansion p hp
    simp
    omega
  rw [capitalCodes, paired, findSome?_image?_eq_none fun r hr => by have := variant r hr; omega,
    findSome?_image?_eq_none fun r hr => by have := iota r hr; omega, lookup]
  by_cases letter : 0x61 ≤ n ∧ n ≤ 0x7a
  · simp [LetterRun.image?, letter]
    omega
  · simp [LetterRun.image?, letter]

/-- Below 128, only the letters from `A` to `Z` have small letters. -/
theorem smallCodes_of_lt {n : Nat} (h : n < 128) :
    smallCodes n = [if 0x41 ≤ n ∧ n ≤ 0x5a then n + 32 else n] := by
  have alternating : ∀ p ∈ alternatingPairs, 129 ≤ p.1 := by decide
  have shifted : ∀ r ∈ shiftedPairs.tail.map LetterRun.symm, 128 ≤ r.first := by decide
  have variant : ∀ r ∈ capitalVariants, 128 ≤ r.first := by decide
  have paired : pairedSmall? n = (⟨0x41, 0x5a, 0x61⟩ : LetterRun).image? n := by
    rw [pairedSmall?, if_neg, show shiftedPairs.map LetterRun.symm =
      ⟨0x41, 0x5a, 0x61⟩ :: shiftedPairs.tail.map LetterRun.symm from rfl,
      List.findSome?_cons, findSome?_image?_eq_none fun r hr => by have := shifted r hr; omega]
    · split <;> simp_all
    · simp only [List.any_eq_true, not_exists, not_and, Bool.and_eq_true, decide_eq_true_eq]
      intro p hp
      have := alternating p hp
      omega
  rw [smallCodes, paired, findSome?_image?_eq_none fun r hr => by have := variant r hr; omega]
  by_cases letter : 0x41 ≤ n ∧ n ≤ 0x5a
  · simp [LetterRun.image?, letter]
    omega
  · simp [LetterRun.image?, letter]
    omega

/-- Below 128, capitals are those of `Char.toUpper`. -/
theorem capital_of_lt {c : Char} (h : c.toNat < 128) : capital c = [c.toUpper] := by
  have key : ∀ n : Fin 128, Char.ofNat (if 0x61 ≤ n.val ∧ n.val ≤ 0x7a then n - 32 else n) =
      (Char.ofNat n).toUpper := by
    decide
  simpa [capital, capitalCodes_of_lt h] using key ⟨c.toNat, h⟩

/-- Below 128, small letters are those of `Char.toLower`. -/
theorem small_of_lt {c : Char} (h : c.toNat < 128) : small c = [c.toLower] := by
  have key : ∀ n : Fin 128, Char.ofNat (if 0x41 ≤ n.val ∧ n.val ≤ 0x5a then n + 32 else n) =
      (Char.ofNat n).toLower := by
    decide
  simpa [small, smallCodes_of_lt h] using key ⟨c.toNat, h⟩

end SetCover.Text
