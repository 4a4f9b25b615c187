import Mathlib

/-!
# Rounding to a significand of 53 bits

A binary floating-point number is `n * 2 ^ t` with a significand `n` of 53 bits, and an operation
rounds its exact result to the nearest number of this form.  `RoundsTo x n t` says that `n * 2 ^ t`
is what `x` is rounded to.  All that is needed of rounding follows from this: the relative error is
at most `2 ^ (-53)`, and a number of 53 bits that bounds `x` also bounds what `x` is rounded to.

Numbers so small that they have fewer than 53 bits are left out.
-/

namespace SetCover.Binary

open Float.Model Float.Model.UnpackedFloat

variable {a : ExtendedMantissa} {x y : ℚ} {m n k : Nat} {e t u j : Int}

/-! ### Significands with a round bit and a sticky bit -/

/-- The significand stands for `y`: the round bit is worth a half, and the sticky bit tells whether
there is a rest that is less than this. -/
def StandsFor (a : ExtendedMantissa) (y : ℚ) : Prop :=
  ∃ rest : ℚ, y = a.mantissa + (if a.roundBit then 1 / 2 else 0) + rest ∧
    if a.stickyBit then 0 < rest ∧ rest < 1 / 2 else rest = 0

theorem standsFor_exact (m : Nat) : StandsFor (.ofMantissaAndAccuracy m .exact) m :=
  ⟨0, by simp [ExtendedMantissa.ofMantissaAndAccuracy], rfl⟩

namespace StandsFor

theorem shiftRightOne (h : StandsFor a y) : StandsFor a.shiftRightOne (y / 2) := by
  obtain ⟨m, roundBit, stickyBit⟩ := a
  obtain ⟨rest, hy, hrest⟩ := h
  have hm : (m : ℚ) = 2 * (m / 2 : Nat) + (m % 2 : Nat) := by
    exact_mod_cast (Nat.div_add_mod m 2).symm
  refine ⟨(if roundBit then 1 / 4 else 0) + rest / 2, ?_, ?_⟩
  · rw [hy, hm]
    rcases Nat.mod_two_eq_zero_or_one m with hmod | hmod
    · cases roundBit <;> simp [ExtendedMantissa.shiftRightOne, hmod] <;> ring
    · cases roundBit <;> simp [ExtendedMantissa.shiftRightOne, hmod] <;> ring
  · cases roundBit <;> cases stickyBit <;> simp_all [ExtendedMantissa.shiftRightOne]
    · linarith
    · norm_num
    · constructor <;> linarith

theorem shiftRight (h : StandsFor a y) (n : Nat) : StandsFor (a >>> n) (y / 2 ^ n) := by
  change StandsFor (n.repeat ExtendedMantissa.shiftRightOne a) _
  induction n with
  | zero =>
      rw [pow_zero, div_one]
      exact h
  | succ n ih =>
      rw [pow_succ, ← div_div]
      exact ih.shiftRightOne

/-- Rounding is wrong by a half at most. -/
theorem abs_roundedMantissa_sub_le (h : StandsFor a y) :
    |(a.roundedMantissa : ℚ) - y| ≤ 1 / 2 := by
  obtain ⟨m, roundBit, stickyBit⟩ := a
  obtain ⟨rest, hy, hrest⟩ := h
  subst hy
  rw [abs_le]
  cases roundBit <;> cases stickyBit <;>
    simp_all [ExtendedMantissa.roundedMantissa, ExtendedMantissa.accuracy,
      Accuracy.roundToNearestEven]
  · constructor <;> linarith
  · rcases Nat.mod_two_eq_zero_or_one m with hmod | hmod <;> rw [hmod] <;> norm_num
  · constructor <;> linarith

theorem mantissa_le (h : StandsFor a y) : (a.mantissa : ℚ) ≤ y := by
  obtain ⟨rest, rfl, hrest⟩ := h
  split_ifs at hrest ⊢ <;> linarith

end StandsFor

theorem mantissa_shiftRight (a : ExtendedMantissa) (n : Nat) :
    (a >>> n).mantissa = a.mantissa / 2 ^ n := by
  change (n.repeat ExtendedMantissa.shiftRightOne a).mantissa = _
  induction n with
  | zero => rw [pow_zero, Nat.div_one]; rfl
  | succ n ih =>
      rw [pow_succ, ← Nat.div_div_eq_div_mul, ← ih]
      rfl

theorem roundedMantissa_mem (a : ExtendedMantissa) :
    a.roundedMantissa = a.mantissa ∨ a.roundedMantissa = a.mantissa + 1 := by
  obtain ⟨m, roundBit, stickyBit⟩ := a
  cases roundBit <;> cases stickyBit <;>
    simp [ExtendedMantissa.roundedMantissa, ExtendedMantissa.accuracy, Accuracy.roundToNearestEven]
  omega

/-! ### The nearest number -/

/-- Rounding `x` gives `n * 2 ^ t`, the multiple of `2 ^ u` next to `x`. -/
structure RoundsTo (x : ℚ) (n : Nat) (t : Int) : Prop where
  le_significand : 2 ^ 52 ≤ n
  significand_lt : n < 2 ^ 53
  exists_nearest : ∃ (r : Nat) (u : Int), (r : ℚ) * 2 ^ u = n * 2 ^ t ∧
    |(r : ℚ) * 2 ^ u - x| ≤ 2 ^ u / 2 ∧ 2 ^ 52 * 2 ^ u ≤ x

theorem two_zpow_pos (u : Int) : (0 : ℚ) < 2 ^ u := zpow_pos two_pos u

/-- Numbers of 53 bits are ordered by their exponents first. -/
theorem mul_two_zpow_lt (hk : k < 2 ^ 53) (hju : j < u) : (k : ℚ) * 2 ^ j < 2 ^ 52 * 2 ^ u := by
  have hk' : (k : ℚ) < 2 ^ 53 := by exact_mod_cast hk
  have hpow : (2 : ℚ) ^ (j + 1) ≤ 2 ^ u := zpow_le_zpow_right₀ one_le_two hju
  calc (k : ℚ) * 2 ^ j
      < 2 ^ 53 * 2 ^ j := mul_lt_mul_of_pos_right hk' (two_zpow_pos j)
    _ = 2 ^ 52 * 2 ^ (j + 1) := by rw [zpow_add_one₀ two_ne_zero]; ring
    _ ≤ 2 ^ 52 * 2 ^ u := mul_le_mul_of_nonneg_left hpow (by positivity)

/-- A number of 53 bits is less than `2 ^ 52 * 2 ^ u` or a multiple of `2 ^ u`. -/
theorem lt_or_exists_mul_eq (hk : k < 2 ^ 53) (j u : Int) :
    (k : ℚ) * 2 ^ j < 2 ^ 52 * 2 ^ u ∨ ∃ r : Nat, (k : ℚ) * 2 ^ j = r * 2 ^ u := by
  rcases lt_or_ge j u with hju | huj
  · exact .inl (mul_two_zpow_lt hk hju)
  · right
    obtain ⟨d, rfl⟩ := Int.le.dest huj
    refine ⟨k * 2 ^ d, ?_⟩
    rw [zpow_add₀ two_ne_zero, zpow_natCast]
    push_cast
    ring

namespace RoundsTo

/-- The relative error upwards. -/
theorem le_mul (h : RoundsTo x n t) : (n : ℚ) * 2 ^ t ≤ x * (1 + 1 / 2 ^ 53) := by
  obtain ⟨r, u, heq, hnear, hx⟩ := h.exists_nearest
  rw [← heq]
  have hle := (abs_le.1 hnear).2
  linarith

/-- A number of 53 bits that is not below `x` is not below what `x` is rounded to. -/
theorem le_of_le (h : RoundsTo x n t) (hk : k < 2 ^ 53) (hx : x ≤ k * 2 ^ j) :
    (n : ℚ) * 2 ^ t ≤ k * 2 ^ j := by
  obtain ⟨r, u, heq, hnear, hxu⟩ := h.exists_nearest
  rcases lt_or_exists_mul_eq hk j u with hlt | ⟨s, hs⟩
  · linarith
  · have hle : (r : ℚ) * 2 ^ u ≤ (s + 1 / 2) * 2 ^ u := by
      have := (abs_le.1 hnear).2
      linarith
    have hrs : r ≤ s := by
      have hr := le_of_mul_le_mul_right hle (two_zpow_pos u)
      by_contra hlt
      have hcast : ((s + 1 : Nat) : ℚ) ≤ r := Nat.cast_le.2 (Nat.lt_of_not_le hlt)
      push_cast at hcast
      linarith
    rw [← heq, hs]
    exact mul_le_mul_of_nonneg_right (Nat.cast_le.2 hrs) (two_zpow_pos u).le

/-- A number of 53 bits that is not above `x` is not above what `x` is rounded to. -/
theorem ge_of_ge (h : RoundsTo x n t) (hk : k < 2 ^ 53) (hx : k * 2 ^ j ≤ x) :
    (k : ℚ) * 2 ^ j ≤ n * 2 ^ t := by
  obtain ⟨r, u, heq, hnear, hxu⟩ := h.exists_nearest
  obtain ⟨s, hs, hsx⟩ : ∃ s : Nat, (k : ℚ) * 2 ^ j ≤ s * 2 ^ u ∧ s * 2 ^ u ≤ x := by
    rcases lt_or_exists_mul_eq hk j u with hlt | ⟨s, hs⟩
    · exact ⟨2 ^ 52, by exact_mod_cast hlt.le, by exact_mod_cast hxu⟩
    · exact ⟨s, hs.le, hs.symm.le.trans hx⟩
  have hle : (s - 1 / 2 : ℚ) * 2 ^ u ≤ r * 2 ^ u := by
    have := (abs_le.1 hnear).1
    linarith
  have hrs : s ≤ r := by
    have hr := le_of_mul_le_mul_right hle (two_zpow_pos u)
    by_contra hlt
    have hcast : ((r + 1 : Nat) : ℚ) ≤ s := Nat.cast_le.2 (Nat.lt_of_not_le hlt)
    push_cast at hcast
    linarith
  rw [← heq]
  exact hs.trans (mul_le_mul_of_nonneg_right (Nat.cast_le.2 hrs) (two_zpow_pos u).le)

/-- A number of 53 bits is rounded to itself. -/
theorem eq_of_eq (h : RoundsTo x n t) (hk : k < 2 ^ 53) (hx : x = k * 2 ^ j) :
    (n : ℚ) * 2 ^ t = k * 2 ^ j :=
  (h.le_of_le hk hx.le).antisymm (h.ge_of_ge hk hx.ge)

end RoundsTo

/-! ### Rounding a significand that is long enough -/

theorem shiftToTargetExponent_eq (hm : 2 ^ 52 ≤ m) (he : -1074 ≤ e + (m.log2 - 52 : Nat))
    (accuracy : Accuracy) :
    shiftToTargetExponent .binary64 m e accuracy =
      (ExtendedMantissa.ofMantissaAndAccuracy m accuracy >>> (m.log2 - 52),
        e + (m.log2 - 52 : Nat)) := by
  have hlog : 52 ≤ m.log2 := (Nat.le_log2 (by omega)).2 hm
  have htarget : Format.binary64.targetExponent (totalExponent m e) =
      e + (m.log2 - 52 : Nat) := by
    have hmin : Format.binary64.minExponent = -1074 := rfl
    have hbits : Format.binary64.mantissaBits = 53 := rfl
    rw [Format.targetExponent, totalExponent, hmin, hbits]
    omega
  have hshift : (e + (m.log2 - 52 : Nat) - e).toNat = m.log2 - 52 := by omega
  rw [shiftToTargetExponent, htarget, shiftToExponent, hshift]

/-- A significand that has 53 bits after rounding, or one more, is left with 53 bits. -/
theorem exists_significand (hr : 2 ^ 52 ≤ m) (hr' : m ≤ 2 ^ 53) :
    ∃ n d : Nat, m.log2 - 52 = d ∧ m / 2 ^ d = n ∧ m = n * 2 ^ d ∧ 2 ^ 52 ≤ n ∧ n < 2 ^ 53 := by
  rcases Nat.lt_or_eq_of_le hr' with hlt | heq
  · have hlog : m.log2 = 52 := (Nat.log2_eq_iff (by omega)).2 ⟨hr, hlt⟩
    exact ⟨m, 0, by rw [hlog], by rw [pow_zero, Nat.div_one], by rw [pow_zero, Nat.mul_one], hr,
      hlt⟩
  · have hlog : m.log2 = 53 := (Nat.log2_eq_iff (by omega)).2 ⟨by omega, by omega⟩
    exact ⟨2 ^ 52, 1, by rw [hlog], by rw [heq]; rfl, heq, by omega, by omega⟩

theorem mantissa_ofMantissaAndAccuracy (m : Nat) (accuracy : Accuracy) :
    (ExtendedMantissa.ofMantissaAndAccuracy m accuracy).mantissa = m := by
  cases accuracy with
  | exact => rfl
  | inexact order => cases order <;> rfl

/-- The shift leaves 53 bits of a significand that has as many at least. -/
theorem mantissa_shiftRight_mem (hm : 2 ^ 52 ≤ m) (accuracy : Accuracy) {b : ExtendedMantissa}
    (hb : ExtendedMantissa.ofMantissaAndAccuracy m accuracy >>> (m.log2 - 52) = b) :
    2 ^ 52 ≤ b.mantissa ∧ b.mantissa < 2 ^ 53 := by
  have hlog : 52 ≤ m.log2 := (Nat.le_log2 (by omega)).2 hm
  obtain ⟨d, hd⟩ := Nat.exists_eq_add_of_le hlog
  have hshift : m.log2 - 52 = d := by omega
  obtain ⟨hlow, hhigh⟩ := (Nat.log2_eq_iff (by omega)).1 hd
  rw [← hb, mantissa_shiftRight, mantissa_ofMantissaAndAccuracy, hshift]
  constructor
  · rw [Nat.le_div_iff_mul_le (by positivity), ← pow_add]
    exact hlow
  · rw [Nat.div_lt_iff_lt_mul (by positivity), ← pow_add]
    rwa [Nat.add_right_comm] at hhigh

/-- What a significand stands for is as large as its bits say. -/
theorem StandsFor.two_pow_mul_le {accuracy : Accuracy} (hm : 2 ^ 52 ≤ m)
    (hy : StandsFor (.ofMantissaAndAccuracy m accuracy) y) :
    2 ^ 52 * 2 ^ (m.log2 - 52) ≤ y := by
  have hlog : 52 ≤ m.log2 := (Nat.le_log2 (by omega)).2 hm
  have hlow : 2 ^ m.log2 ≤ m := Nat.log2_self_le (by omega)
  have hcast : ((2 ^ m.log2 : Nat) : ℚ) ≤ m := Nat.cast_le.2 hlow
  have hmantissa := hy.mantissa_le
  rw [mantissa_ofMantissaAndAccuracy] at hmantissa
  rw [← pow_add, Nat.add_sub_cancel' hlog]
  push_cast at hcast
  exact hcast.trans hmantissa

/-- Rounding after a shift is wrong by a half of the last place that is left. -/
theorem StandsFor.abs_mul_sub_le {d : Nat} (h : StandsFor a (y / 2 ^ d)) (e : Int) :
    |(a.roundedMantissa : ℚ) * 2 ^ (e + d) - y * 2 ^ e| ≤ 2 ^ (e + d) / 2 := by
  have hnear := h.abs_roundedMantissa_sub_le
  have hscale : y * 2 ^ e = y / 2 ^ d * 2 ^ (e + d) := by
    rw [zpow_add₀ two_ne_zero, zpow_natCast]
    field_simp
  rw [hscale, ← sub_mul, abs_mul, abs_of_pos (two_zpow_pos _)]
  calc |(a.roundedMantissa : ℚ) - y / 2 ^ d| * 2 ^ (e + d)
      ≤ 1 / 2 * 2 ^ (e + d) := mul_le_mul_of_nonneg_right hnear (two_zpow_pos _).le
    _ = 2 ^ (e + d) / 2 := by ring

/-- A significand that has 53 bits at least is rounded to the nearest number. -/
theorem exists_roundWithAccuracy_eq {accuracy : Accuracy} (sign : Sign) (hm : 2 ^ 52 ≤ m)
    (he : -1074 ≤ e + (m.log2 - 52 : Nat))
    (hy : StandsFor (.ofMantissaAndAccuracy m accuracy) y) :
    ∃ n t h, roundWithAccuracy .binary64 sign m e accuracy = .finite sign n t h ∧
      RoundsTo (y * 2 ^ e) n t := by
  have hfirst := shiftToTargetExponent_eq hm he accuracy
  have hlarge := hy.two_pow_mul_le hm
  obtain ⟨b, hb⟩ : ∃ b, ExtendedMantissa.ofMantissaAndAccuracy m accuracy >>> (m.log2 - 52) = b :=
    ⟨_, rfl⟩
  obtain ⟨hlow, hhigh⟩ := mantissa_shiftRight_mem hm accuracy hb
  have hstands : StandsFor b (y / 2 ^ (m.log2 - 52)) := hb ▸ hy.shiftRight _
  rw [hb] at hfirst
  generalize m.log2 - 52 = d at he hfirst hlarge hstands
  -- rounding up may give a bit more than 53, which a second shift takes away
  have hrounded := roundedMantissa_mem b
  obtain ⟨n, d', hd', hn, hmul, hlow', hhigh'⟩ :=
    exists_significand (m := b.roundedMantissa) (by omega) (by omega)
  have hsecond := shiftToTargetExponent_eq (m := b.roundedMantissa) (e := e + d) (by omega)
    (by omega) .exact
  rw [hd'] at hsecond
  have hfinal : (ExtendedMantissa.ofMantissaAndAccuracy b.roundedMantissa .exact >>> d').mantissa =
      n := by
    rw [mantissa_shiftRight, mantissa_ofMantissaAndAccuracy, hn]
  refine ⟨n, e + d + d', by omega, ?_, hlow', hhigh', b.roundedMantissa, e + d, ?_,
    hstands.abs_mul_sub_le e, ?_⟩
  · rw [roundWithAccuracy, hfirst]
    simp only [hsecond, hfinal]
    rw [dif_neg (by omega)]
  · rw [hmul, zpow_add₀ two_ne_zero (e + d) d', zpow_natCast]
    push_cast
    ring
  · rw [zpow_add₀ two_ne_zero, zpow_natCast]
    calc (2 : ℚ) ^ 52 * (2 ^ e * 2 ^ d) = 2 ^ 52 * 2 ^ d * 2 ^ e := by ring
      _ ≤ y * 2 ^ e := mul_le_mul_of_nonneg_right hlarge (two_zpow_pos e).le

/-- A number is rounded to the nearest one, however many bits its significand has. -/
theorem exists_round_eq (sign : Sign) (hm : 0 < m) (he : -1022 ≤ m.log2 + e) :
    ∃ n t h, UnpackedFloat.round .binary64 sign m e = .finite sign n t h ∧
      RoundsTo (m * 2 ^ e) n t := by
  obtain ⟨s, hs⟩ : ∃ s, 52 - m.log2 = s := ⟨_, rfl⟩
  have hshift : (e - Format.binary64.targetExponent (totalExponent m e)).toNat = s := by
    have hmin : Format.binary64.minExponent = -1074 := rfl
    have hbits : Format.binary64.mantissaBits = 53 := rfl
    rw [Format.targetExponent, totalExponent, hmin, hbits]
    omega
  obtain ⟨hlow, hhigh⟩ := (Nat.log2_eq_iff hm.ne').1 rfl
  have hlog : (m * 2 ^ s).log2 = m.log2 + s := by
    rw [Nat.log2_eq_iff (by positivity), pow_add, add_right_comm, pow_add]
    exact ⟨Nat.mul_le_mul_right _ hlow, Nat.mul_lt_mul_of_pos_right hhigh (by positivity)⟩
  have hlong : 2 ^ 52 ≤ m * 2 ^ s := by
    have hle : 52 ≤ (m * 2 ^ s).log2 := by omega
    exact (Nat.le_log2 (by positivity)).1 hle
  obtain ⟨n, t, h, hround, hrounds⟩ := exists_roundWithAccuracy_eq (e := e - s) sign hlong
    (by omega) (standsFor_exact _)
  refine ⟨n, t, h, ?_, ?_⟩
  · rw [UnpackedFloat.round, decreaseExponent, hshift, Nat.shiftLeft_eq]
    exact hround
  · convert hrounds using 1
    rw [zpow_sub₀ two_ne_zero, zpow_natCast]
    push_cast
    field_simp

end SetCover.Binary
