import SetCover.Proofs.Binary.Packing

/-!
# Floating-point arithmetic

`Represents a x` says that the float `a` is the number `x`, which is 0 or lies between `2 ^ (-100)`
and `2 ^ 100`.  In this range nothing is lost but by rounding, so sums and quotients are too large
by the factor `roundingFactor` at most.
-/

namespace SetCover.Binary

open Float.Model Float.Model.UnpackedFloat

variable {a b : Float} {x y : ℚ} {k m n : Nat} {e j t u : Int} {sign : Sign}

/-- What a number is multiplied by at most when it is rounded. -/
def roundingFactor : ℚ := 1 + 1 / 2 ^ 53

theorem one_le_roundingFactor : 1 ≤ roundingFactor := by norm_num [roundingFactor]

theorem roundingFactor_pos : 0 < roundingFactor := zero_lt_one.trans_le one_le_roundingFactor

/-- The number is neither too small nor too large. -/
structure IsModerate (x : ℚ) : Prop where
  ge : 2 ^ (-100 : Int) ≤ x
  le : x ≤ 2 ^ (100 : Int)

/-- The float is the number `x`, which is zero or moderate. -/
inductive Represents (a : Float) : ℚ → Prop
  | zero {sign : Sign} : a.toModel.unpack = .zero sign → Represents a 0
  | positive {n : Nat} {t : Int} {hn : 0 < n} : a.toModel.unpack = .finite .positive n t hn →
      2 ^ 52 ≤ n → n < 2 ^ 53 → IsModerate (n * 2 ^ t) → Represents a (n * 2 ^ t)

theorem IsModerate.pos (h : IsModerate x) : 0 < x := (two_zpow_pos _).trans_le h.ge

theorem Represents.nonneg (h : Represents a x) : 0 ≤ x := by
  cases h with
  | zero => exact le_rfl
  | positive _ _ _ hmoderate => exact hmoderate.pos.le

/-! ### Exponents -/

theorem lt_exponent_add (hn : n < 2 ^ 53) (h : 2 ^ j ≤ (n : ℚ) * 2 ^ t) : j < 53 + t := by
  have hn' : (n : ℚ) < 2 ^ (53 : Int) := by exact_mod_cast hn
  apply (zpow_lt_zpow_iff_right₀ (one_lt_two (α := ℚ))).1
  rw [zpow_add₀ two_ne_zero]
  exact h.trans_lt (mul_lt_mul_of_pos_right hn' (two_zpow_pos t))

theorem exponent_add_le (hn : 2 ^ 52 ≤ n) (h : (n : ℚ) * 2 ^ t ≤ 2 ^ j) : 52 + t ≤ j := by
  have hn' : (2 : ℚ) ^ (52 : Int) ≤ n := by exact_mod_cast hn
  apply (zpow_le_zpow_iff_right₀ (one_lt_two (α := ℚ))).1
  rw [zpow_add₀ two_ne_zero]
  exact (mul_le_mul_of_nonneg_right hn' (two_zpow_pos t).le).trans h

theorem le_log2_add (h : 2 ^ j ≤ (m : ℚ) * 2 ^ e) : j ≤ m.log2 + e := by
  have hm : (m : ℚ) < 2 ^ ((m.log2 + 1 : Nat) : Int) := by
    rw [zpow_natCast]
    exact_mod_cast Nat.lt_log2_self
  have hlt : (2 : ℚ) ^ j < 2 ^ ((m.log2 + 1 : Nat) + e) := by
    rw [zpow_add₀ two_ne_zero]
    exact h.trans_lt (mul_lt_mul_of_pos_right hm (two_zpow_pos e))
  have hexponent := (zpow_lt_zpow_iff_right₀ one_lt_two).1 hlt
  omega

theorem IsModerate.exponent_bounds (h : IsModerate ((n : ℚ) * 2 ^ t)) (hn : 2 ^ 52 ≤ n)
    (hn' : n < 2 ^ 53) : -153 < t ∧ t ≤ 48 := by
  have hlow := lt_exponent_add hn' h.ge
  have hhigh := exponent_add_le hn h.le
  omega

/-- A power of two bounds what a number is rounded to. -/
theorem RoundsTo.two_zpow_le (h : RoundsTo x n t) (hx : 2 ^ j ≤ x) : 2 ^ j ≤ (n : ℚ) * 2 ^ t := by
  have hge := h.ge_of_ge (k := 1) (by norm_num) (by rwa [Nat.cast_one, one_mul])
  rwa [Nat.cast_one, one_mul] at hge

theorem RoundsTo.le_two_zpow (h : RoundsTo x n t) (hx : x ≤ 2 ^ j) : (n : ℚ) * 2 ^ t ≤ 2 ^ j := by
  have hle := h.le_of_le (k := 1) (by norm_num) (by rwa [Nat.cast_one, one_mul])
  rwa [Nat.cast_one, one_mul] at hle

theorem RoundsTo.isModerate (h : RoundsTo x n t) (hx : IsModerate x) :
    IsModerate ((n : ℚ) * 2 ^ t) :=
  ⟨h.two_zpow_le hx.ge, h.le_two_zpow hx.le⟩

/-! ### Results of operations -/

/-- A result that is packed can be unpacked again. -/
theorem represents_of_roundsTo {hn : 0 < n} (h : RoundsTo x n t) (hx : IsModerate x) :
    Represents (.ofModel (.pack (.finite .positive n t hn))) (n * 2 ^ t) := by
  have hmoderate := h.isModerate hx
  obtain ⟨hlow, hhigh⟩ := hmoderate.exponent_bounds h.le_significand h.significand_lt
  have hunpack : (Float.Model.pack (.finite .positive n t hn)).unpack = .finite .positive n t hn :=
    unpack_pack_finite h.le_significand h.significand_lt (by omega) (by omega) hn
  exact .positive hunpack h.le_significand h.significand_lt hmoderate

theorem represents_pack_zero (sign : Sign) : Represents (.ofModel (.pack (.zero sign))) 0 :=
  .zero (unpack_pack_zero sign)

theorem Represents.pack_unpack (h : Represents a x) :
    Represents (.ofModel (.pack a.toModel.unpack)) x := by
  cases h with
  | zero ha =>
      rw [ha]
      exact represents_pack_zero _
  | positive ha hn hn' hmoderate =>
      obtain ⟨hlow, hhigh⟩ := hmoderate.exponent_bounds hn hn'
      rw [ha]
      exact .positive (unpack_pack_finite hn hn' (by omega) (by omega) _) hn hn' hmoderate

/-! ### Words -/

theorem normalize_natCast (hn : 0 < n) (e : Int) (sign : Sign) :
    UnpackedFloat.normalize .binary64 (n : Int) e sign =
      UnpackedFloat.round .binary64 .positive n e := by
  have hcompare : compare (n : Int) 0 = .gt := by
    rw [compare_gt_iff_gt]
    exact_mod_cast hn
  rw [UnpackedFloat.normalize, hcompare]
  rfl

/-- A word is converted to the nearest float, which is itself if it has 53 bits. -/
theorem exists_represents_wordToFloat (hn : n < 2 ^ 64) : ∃ x, Represents (wordToFloat n) x ∧
    x ≤ n * roundingFactor ∧ (0 < x → 1 ≤ x) ∧ (n < 2 ^ 53 → x = n) := by
  have hword : (UInt64.ofNat n).toNat = n := UInt64.toNat_ofNat_of_lt' hn
  have hfloat : wordToFloat n =
      .ofModel (.pack (UnpackedFloat.normalize .binary64 (n : Int) 0 .positive)) := by
    conv => rhs; rw [← hword]
    rfl
  rcases Nat.eq_zero_or_pos n with rfl | hpos
  · refine ⟨0, ?_, by simp, fun h => absurd h (lt_irrefl 0), fun _ => by simp⟩
    rw [hfloat]
    exact represents_pack_zero .positive
  · rw [normalize_natCast hpos] at hfloat
    have hone : (2 : ℚ) ^ (0 : Int) ≤ n * 2 ^ (0 : Int) := by
      rw [zpow_zero, mul_one]
      exact_mod_cast hpos
    have hlt : (n : ℚ) * 2 ^ (0 : Int) ≤ 2 ^ (64 : Int) := by
      rw [zpow_zero, mul_one]
      exact_mod_cast hn.le
    obtain ⟨s, t, hs, hround, hrounds⟩ :=
      exists_round_eq (e := 0) .positive hpos (by omega)
    rw [hround] at hfloat
    refine ⟨s * 2 ^ t, ?_, ?_, fun _ => ?_, fun hsmall => ?_⟩
    · rw [hfloat]
      exact represents_of_roundsTo hrounds
        ⟨le_trans (by norm_num) hone, hlt.trans (by norm_num)⟩
    · simpa [roundingFactor] using hrounds.le_mul
    · simpa using hrounds.two_zpow_le hone
    · simpa using hrounds.eq_of_eq hsmall rfl

/-! ### Sums -/

theorem exists_decreaseExponent_eq (m : Nat) (hte : t ≤ e) :
    ∃ n, decreaseExponent m e t = (n, t) ∧ (n : ℚ) * 2 ^ t = m * 2 ^ e ∧ m ≤ n := by
  obtain ⟨d, rfl⟩ := Int.le.dest hte
  have hshift : (t + d - t).toNat = d := by omega
  refine ⟨m * 2 ^ d, ?_, ?_, Nat.le_mul_of_pos_right m (by positivity)⟩
  · rw [decreaseExponent, hshift, Nat.shiftLeft_eq, Prod.mk.injEq]
    exact ⟨rfl, by omega⟩
  · rw [zpow_add₀ two_ne_zero, zpow_natCast]
    push_cast
    ring

theorem exists_add_positive {hm : 0 < m} {hn : 0 < n}
    (hx : IsModerate ((m : ℚ) * 2 ^ t)) (hy : IsModerate ((n : ℚ) * 2 ^ u))
    (hxy : (m : ℚ) * 2 ^ t + n * 2 ^ u ≤ 2 ^ (100 : Int)) :
    ∃ z, Represents (.ofModel (.pack (UnpackedFloat.add .binary64
        (.finite .positive m t hm) (.finite .positive n u hn)))) z ∧
      z ≤ (m * 2 ^ t + n * 2 ^ u) * roundingFactor := by
  obtain ⟨m', hm', hmvalue, hmm⟩ := exists_decreaseExponent_eq m (min_le_left t u)
  obtain ⟨n', hn', hnvalue, -⟩ := exists_decreaseExponent_eq n (min_le_right t u)
  have hsum : ((m' + n' : Nat) : ℚ) * 2 ^ min t u = m * 2 ^ t + n * 2 ^ u := by
    rw [Nat.cast_add, add_mul, hmvalue, hnvalue]
  have hmoderate : IsModerate (((m' + n' : Nat) : ℚ) * 2 ^ min t u) := by
    rw [hsum]
    exact ⟨hx.ge.trans (le_add_of_nonneg_right hy.pos.le), hxy⟩
  obtain ⟨s, v, hs, hround, hrounds⟩ := exists_round_eq .positive (m := m' + n') (by omega)
    (le_trans (by norm_num) (le_log2_add hmoderate.ge))
  have hadd : UnpackedFloat.add .binary64 (.finite .positive m t hm) (.finite .positive n u hn) =
      .finite .positive s v hs := by
    simp only [UnpackedFloat.add, hm', hn', Sign.apply]
    rw [← Nat.cast_add, normalize_natCast (by omega), hround]
  refine ⟨s * 2 ^ v, ?_, ?_⟩
  · rw [hadd]
    exact represents_of_roundsTo hrounds hmoderate
  · rw [← hsum]
    exact hrounds.le_mul

/-- A sum is too large by the rounding factor at most. -/
theorem Represents.exists_add (ha : Represents a x) (hb : Represents b y)
    (hxy : x + y ≤ 2 ^ (100 : Int)) : ∃ z, Represents (a + b) z ∧ z ≤ (x + y) * roundingFactor := by
  have hadd : a + b = .ofModel (.pack
      (UnpackedFloat.add .binary64 a.toModel.unpack b.toModel.unpack)) := rfl
  have hle : x + y ≤ (x + y) * roundingFactor :=
    le_mul_of_one_le_right (add_nonneg ha.nonneg hb.nonneg) one_le_roundingFactor
  have ha' := ha.pack_unpack
  have hb' := hb.pack_unpack
  rw [hadd]
  cases ha with
  | zero ha =>
      cases hb with
      | zero hb =>
          refine ⟨0, ?_, by simp⟩
          rw [ha, hb, UnpackedFloat.add]
          split <;> exact represents_pack_zero _
      | positive hb _ _ _ =>
          rw [hb] at hb'
          rw [zero_add] at hle ⊢
          rw [ha, hb]
          exact ⟨_, hb', hle⟩
  | positive ha _ _ hx =>
      cases hb with
      | zero hb =>
          rw [ha] at ha'
          rw [add_zero] at hle ⊢
          rw [ha, hb]
          exact ⟨_, ha', hle⟩
      | positive hb _ _ hy =>
          rw [ha, hb]
          exact exists_add_positive hx hy hxy

/-! ### Quotients -/

/-- The remainder of a division tells how far the quotient is off. -/
theorem standsFor_div (m : Nat) {d : Nat} (hd : 0 < d) :
    StandsFor (.ofMantissaAndAccuracy (m / d) (accuracyOfFraction (m % d) d)) ((m : ℚ) / d) := by
  have hd' : (0 : ℚ) < d := by exact_mod_cast hd
  obtain ⟨f, hf⟩ : ∃ f : ℚ, (m % d : Nat) = f * d := ⟨(m % d : Nat) / d, by field_simp⟩
  have hdivmod : (m : ℚ) / d = (m / d : Nat) + f := by
    rw [div_eq_iff hd'.ne', add_mul, ← hf]
    exact_mod_cast (Nat.div_add_mod' m d).symm
  rw [hdivmod, accuracyOfFraction]
  split_ifs with hzero
  · rw [hzero, Nat.cast_zero, zero_eq_mul, or_iff_left hd'.ne'] at hf
    rw [hf, add_zero]
    exact standsFor_exact _
  · have hpos : 0 < f * d := by
      rw [← hf]
      exact_mod_cast Nat.pos_of_ne_zero hzero
    have hlt : f * d < 1 * d := by
      rw [← hf, one_mul]
      exact_mod_cast Nat.mod_lt m hd
    have hpos' : 0 < f := pos_of_mul_pos_left hpos hd'.le
    have hlt' : f < 1 := lt_of_mul_lt_mul_right hlt hd'.le
    rcases lt_trichotomy (2 * (m % d)) d with hless | hequal | hgreater
    · have hcast : 2 * f * d < 1 * d := by
        rw [mul_assoc, ← hf, one_mul]
        exact_mod_cast hless
      have hhalf := lt_of_mul_lt_mul_right hcast hd'.le
      rw [compare_lt_iff_lt.2 hless]
      exact ⟨f, by simp [ExtendedMantissa.ofMantissaAndAccuracy], hpos', by linarith⟩
    · have hcast : 2 * f * d = 1 * d := by
        rw [mul_assoc, ← hf, one_mul]
        exact_mod_cast hequal
      have hhalf := mul_right_cancel₀ hd'.ne' hcast
      rw [compare_eq_iff_eq.2 hequal]
      exact ⟨0, by simp [ExtendedMantissa.ofMantissaAndAccuracy]; linarith, rfl⟩
    · have hcast : 1 * d < 2 * f * d := by
        rw [mul_assoc, ← hf, one_mul]
        exact_mod_cast hgreater
      have hhalf := lt_of_mul_lt_mul_right hcast hd'.le
      rw [compare_gt_iff_gt.2 hgreater]
      exact ⟨f - 1 / 2, by simp [ExtendedMantissa.ofMantissaAndAccuracy], by linarith, by linarith⟩

theorem exists_div_positive {hm : 0 < m} {hn : 0 < n}
    (hmlow : 2 ^ 52 ≤ m) (hmhigh : m < 2 ^ 53) (hnlow : 2 ^ 52 ≤ n) (hnhigh : n < 2 ^ 53)
    (htu : -1021 ≤ t - u) :
    ∃ s v h, UnpackedFloat.div .binary64 (.finite .positive m t hm) (.finite .positive n u hn) =
      .finite .positive s v h ∧ RoundsTo (m * 2 ^ t / (n * 2 ^ u)) s v := by
  have hmlog : m.log2 = 52 := (Nat.log2_eq_iff (by omega)).2 ⟨hmlow, hmhigh⟩
  have hnlog : n.log2 = 52 := (Nat.log2_eq_iff (by omega)).2 ⟨hnlow, hnhigh⟩
  have htarget : min (t - u)
      (Format.binary64.targetExponent (totalExponent m t - totalExponent n u)) = t - u - 53 := by
    have hmin : Format.binary64.minExponent = -1074 := rfl
    have hbits : Format.binary64.mantissaBits = 53 := rfl
    rw [Format.targetExponent, totalExponent, totalExponent, hmin, hbits, hmlog, hnlog]
    omega
  have hshift : (t - u - (t - u - 53)).toNat = 53 := by omega
  have hcore : divCore .binary64 m t n u =
      (m * 2 ^ 53 / n, t - u - 53, accuracyOfFraction (m * 2 ^ 53 % n) n) := by
    rw [divCore, htarget, hshift, Nat.shiftLeft_eq]
  have hlong : 2 ^ 52 ≤ m * 2 ^ 53 / n := by
    rw [Nat.le_div_iff_mul_le hn]
    exact Nat.mul_le_mul hmlow hnhigh.le
  obtain ⟨s, v, h, hround, hrounds⟩ := exists_roundWithAccuracy_eq .positive hlong
    (e := t - u - 53) (by omega) (standsFor_div (m * 2 ^ 53) hn)
  refine ⟨s, v, h, ?_, ?_⟩
  · simp only [UnpackedFloat.div, hcore]
    exact hround
  · convert hrounds using 1
    have hn' : (n : ℚ) ≠ 0 := by exact_mod_cast hn.ne'
    have hu := (two_zpow_pos u).ne'
    rw [zpow_sub₀ two_ne_zero, zpow_sub₀ two_ne_zero]
    push_cast
    field_simp

/-- A quotient is too large by the rounding factor at most. -/
theorem Represents.exists_div (ha : Represents a x) (hb : Represents b y) (hy : 0 < y)
    (hxy : 0 < x → IsModerate (x / y)) :
    ∃ z, Represents (a / b) z ∧ z ≤ x / y * roundingFactor := by
  have hdiv : a / b = .ofModel (.pack
      (UnpackedFloat.div .binary64 a.toModel.unpack b.toModel.unpack)) := rfl
  cases hb with
  | zero hb => exact absurd hy (lt_irrefl 0)
  | @positive n u hn₀ hb hn hn' hmoderate' =>
      rw [hdiv]
      cases ha with
      | zero ha =>
          refine ⟨0, ?_, by simp⟩
          rw [ha, hb]
          exact represents_pack_zero _
      | @positive m t hm₀ ha hm hm' hmoderate =>
          obtain ⟨hlow, -⟩ := hmoderate.exponent_bounds hm hm'
          obtain ⟨-, hhigh⟩ := hmoderate'.exponent_bounds hn hn'
          have htu : -1021 ≤ t - u := by omega
          obtain ⟨s, v, h, hresult, hrounds⟩ := exists_div_positive hm hm' hn hn' htu
          rw [ha, hb, hresult]
          exact ⟨_, represents_of_roundsTo hrounds (hxy hmoderate.pos), hrounds.le_mul⟩

/-! ### Comparisons -/

theorem le_eq (a b : Float) : Share.le a b =
    (a.toModel.unpack.isNaN || a.toModel.unpack.le b.toModel.unpack) := by
  rw [Share.le, Bool.eq_iff_iff, Bool.or_eq_true, Bool.or_eq_true, decide_eq_true_eq]
  change _ ∨ decide (a.toModel.le b.toModel = true) = true ↔ _
  rw [decide_eq_true_eq]
  rfl

/-- The order of positive numbers of 53 bits, exponents first. -/
theorem compare_positive {hm₀ : 0 < m} {hn₀ : 0 < n} (hm : 2 ^ 52 ≤ m) (hm' : m < 2 ^ 53)
    (hn : 2 ^ 52 ≤ n) (hn' : n < 2 ^ 53) :
    UnpackedFloat.compare (.finite .positive m t hm₀) (.finite .positive n u hn₀) =
      some (compare ((m : ℚ) * 2 ^ t) (n * 2 ^ u)) := by
  have hlt : ∀ {m n : Nat} {t u : Int}, m < 2 ^ 53 → 2 ^ 52 ≤ n → t < u →
      (m : ℚ) * 2 ^ t < n * 2 ^ u := by
    intro m n t u hm hn htu
    have hn' : (2 : ℚ) ^ 52 ≤ n := by exact_mod_cast hn
    exact (mul_two_zpow_lt hm htu).trans_le (mul_le_mul_of_nonneg_right hn' (two_zpow_pos u).le)
  rw [UnpackedFloat.compare]
  rcases lt_trichotomy t u with htu | rfl | htu
  · rw [compare_lt_iff_lt.2 htu, compare_lt_iff_lt.2 (hlt hm' hn htu)]
    rfl
  · rw [compare_eq_iff_eq.2 rfl, Ordering.then]
    have hpos := two_zpow_pos t
    rcases lt_trichotomy m n with hmn | rfl | hmn
    · have hcast : (m : ℚ) < n := by exact_mod_cast hmn
      rw [compare_lt_iff_lt.2 hmn, compare_lt_iff_lt.2 (mul_lt_mul_of_pos_right hcast hpos)]
    · rw [compare_eq_iff_eq.2 rfl, compare_eq_iff_eq.2 rfl]
    · have hcast : (n : ℚ) < m := by exact_mod_cast hmn
      rw [compare_gt_iff_gt.2 hmn, compare_gt_iff_gt.2 (mul_lt_mul_of_pos_right hcast hpos)]
  · rw [compare_gt_iff_gt.2 htu, compare_gt_iff_gt.2 (hlt hn' hm htu)]
    rfl

/-- The order of shares is that of the numbers they represent. -/
theorem Represents.le_iff (ha : Represents a x) (hb : Represents b y) :
    Share.le a b = true ↔ x ≤ y := by
  rw [le_eq]
  cases ha with
  | zero ha =>
      refine iff_of_true ?_ hb.nonneg
      cases hb with
      | zero hb => rw [ha, hb]; rfl
      | positive hb _ _ _ => rw [ha, hb]; rfl
  | positive ha hm hm' hmoderate =>
      cases hb with
      | zero hb =>
          rw [ha, hb]
          exact iff_of_false Bool.false_ne_true (not_le.2 hmoderate.pos)
      | positive hb hn hn' _ =>
          rw [ha, hb, UnpackedFloat.le, compare_positive hm hm' hn hn']
          simp only [UnpackedFloat.isNaN, Bool.false_or, Option.any_some]
          rw [Ordering.isLE_iff_ne_gt]
          exact compare_le_iff_le

/-- A float represents one number at most. -/
theorem Represents.eq (ha : Represents a x) (ha' : Represents a y) : x = y := by
  have hle := (ha.le_iff ha).2 le_rfl
  exact le_antisymm ((ha.le_iff ha').1 hle) ((ha'.le_iff ha).1 hle)

/-! ### Differences -/

theorem normalize_neg_natCast (hn : 0 < n) (e : Int) (sign : Sign) :
    UnpackedFloat.normalize .binary64 (-n : Int) e sign =
      UnpackedFloat.round .binary64 .negative n e := by
  have hcompare : compare (-n : Int) 0 = .lt := by
    rw [compare_lt_iff_lt]
    omega
  rw [UnpackedFloat.normalize, hcompare]
  simp

/-- What can be packed and unpacked again. -/
structure IsPackable (n : Nat) (t : Int) : Prop where
  le_significand : 2 ^ 52 ≤ n
  significand_lt : n < 2 ^ 53
  le_exponent : -1074 ≤ t
  exponent_le : t ≤ 971

theorem RoundsTo.isPackable (h : RoundsTo x n t) (hlow : 2 ^ (-200 : Int) ≤ x)
    (hhigh : x ≤ 2 ^ (200 : Int)) : IsPackable n t := by
  have hlow' := lt_exponent_add h.significand_lt (h.two_zpow_le hlow)
  have hhigh' := exponent_add_le h.le_significand (h.le_two_zpow hhigh)
  exact ⟨h.le_significand, h.significand_lt, by omega, by omega⟩

/-- A difference that is not above `d`: zero, a negative number, or what `d` is rounded to. -/
inductive IsDifference (d : ℚ) : UnpackedFloat → Prop
  | zero : IsDifference d (.zero .positive)
  | negative {n : Nat} {t : Int} {hn : 0 < n} : IsPackable n t →
      IsDifference d (.finite .negative n t hn)
  | positive {n : Nat} {t : Int} {hn : 0 < n} : IsPackable n t → RoundsTo d n t →
      IsDifference d (.finite .positive n t hn)

/-- A multiple of a power of two that is not tiny is rounded to what can be packed. -/
theorem exists_round_eq_isPackable (sign : Sign) (hm : 0 < m) (hmn : m ≤ n) (ht : -200 ≤ t)
    (hn : (n : ℚ) * 2 ^ t ≤ 2 ^ (200 : Int)) :
    ∃ s v h, UnpackedFloat.round .binary64 sign m t = .finite sign s v h ∧
      IsPackable s v ∧ RoundsTo (m * 2 ^ t) s v := by
  have hpos := two_zpow_pos t
  have hge : (2 : ℚ) ^ (-200 : Int) ≤ m * 2 ^ t := by
    have hone : (1 : ℚ) ≤ m := by exact_mod_cast hm
    calc (2 : ℚ) ^ (-200 : Int) ≤ 2 ^ t := zpow_le_zpow_right₀ one_le_two ht
      _ ≤ m * 2 ^ t := le_mul_of_one_le_left hpos.le hone
  have hle : (m : ℚ) * 2 ^ t ≤ 2 ^ (200 : Int) :=
    (mul_le_mul_of_nonneg_right (Nat.cast_le.2 hmn) hpos.le).trans hn
  obtain ⟨s, v, h, heq, hrounds⟩ := exists_round_eq sign hm
    (le_trans (by norm_num) (le_log2_add hge))
  exact ⟨s, v, h, heq, hrounds.isPackable hge hle, hrounds⟩

theorem isDifference_sub_positive {hm : 0 < m} {hn : 0 < n}
    (hx : (m : ℚ) * 2 ^ t ≤ 2 ^ (200 : Int)) (hy : (n : ℚ) * 2 ^ u ≤ 2 ^ (200 : Int))
    (ht : -200 ≤ t) (hu : -200 ≤ u) :
    IsDifference (m * 2 ^ t - n * 2 ^ u)
      (UnpackedFloat.sub .binary64 (.finite .positive m t hm) (.finite .positive n u hn)) := by
  obtain ⟨m', hm', hmvalue, -⟩ := exists_decreaseExponent_eq m (min_le_left t u)
  obtain ⟨n', hn', hnvalue, -⟩ := exists_decreaseExponent_eq n (min_le_right t u)
  have hsub : UnpackedFloat.sub .binary64 (.finite .positive m t hm) (.finite .positive n u hn) =
      UnpackedFloat.normalize .binary64 ((m' : Int) - n') (min t u) .positive := by
    simp only [UnpackedFloat.sub, hm', hn', Sign.apply]
  rw [hsub]
  rcases lt_trichotomy m' n' with hlt | rfl | hgt
  · obtain ⟨d, rfl⟩ := Nat.exists_eq_add_of_lt hlt
    have hd : (m' : Int) - (m' + d + 1 : Nat) = -((d + 1 : Nat) : Int) := by omega
    have hle : d + 1 ≤ m' + d + 1 := by omega
    obtain ⟨s, v, h, heq, hpackable, -⟩ := exists_round_eq_isPackable .negative d.succ_pos hle
      (le_min ht hu) (hnvalue.trans_le hy)
    rw [hd, normalize_neg_natCast d.succ_pos, heq]
    exact .negative hpackable
  · rw [sub_self]
    exact .zero
  · obtain ⟨d, rfl⟩ := Nat.exists_eq_add_of_lt hgt
    have hd : ((n' + d + 1 : Nat) : Int) - n' = ((d + 1 : Nat) : Int) := by omega
    have hle : d + 1 ≤ n' + d + 1 := by omega
    obtain ⟨s, v, h, heq, hpackable, hrounds⟩ := exists_round_eq_isPackable .positive d.succ_pos hle
      (le_min ht hu) (hmvalue.trans_le hx)
    have hvalue : ((d + 1 : Nat) : ℚ) * 2 ^ min t u = m * 2 ^ t - n * 2 ^ u := by
      rw [← hmvalue, ← hnvalue, ← sub_mul]
      congr 1
      push_cast
      ring
    rw [hd, normalize_natCast d.succ_pos, heq]
    exact .positive hpackable (hvalue ▸ hrounds)

theorem Represents.isDifference_sub (ha : Represents a x) (hb : Represents b y) (hy : 0 < y) :
    IsDifference (x - y) (UnpackedFloat.sub .binary64 a.toModel.unpack b.toModel.unpack) := by
  cases hb with
  | zero hb => exact absurd hy (lt_irrefl 0)
  | @positive n u hn₀ hb hn hn' hmoderate' =>
      obtain ⟨hlow', hhigh'⟩ := hmoderate'.exponent_bounds hn hn'
      rw [hb]
      cases ha with
      | zero ha =>
          rw [ha]
          exact .negative ⟨hn, hn', by omega, by omega⟩
      | @positive m t hm₀ ha hm hm' hmoderate =>
          obtain ⟨hlow, hhigh⟩ := hmoderate.exponent_bounds hm hm'
          rw [ha]
          exact isDifference_sub_positive (hmoderate.le.trans (by norm_num))
            (hmoderate'.le.trans (by norm_num)) (by omega) (by omega)

theorem IsDifference.ceilNat_le {f : UnpackedFloat} {d : ℚ} (h : IsDifference d f) (hk : k < 2 ^ 53)
    (hd : d ≤ k * 2 ^ j) (top : Nat) : ceilNat (.ofModel (.pack f)) top ≤ ⌈(k : ℚ) * 2 ^ j⌉₊ := by
  cases h with
  | zero =>
      have hceil : ceilNat (.ofModel (.pack (.zero .positive))) top = 0 :=
        ceilNat_of_zero (unpack_pack_zero .positive)
      rw [hceil]
      exact Nat.zero_le _
  | @negative n t hn₀ hpackable =>
      obtain ⟨hn, hn', ht, ht'⟩ := hpackable
      have hceil : ceilNat (.ofModel (.pack (.finite .negative n t hn₀))) top = 0 :=
        ceilNat_of_negative (unpack_pack_finite hn hn' ht ht' hn₀)
      rw [hceil]
      exact Nat.zero_le _
  | @positive n t hn₀ hpackable hrounds =>
      obtain ⟨hn, hn', ht, ht'⟩ := hpackable
      have hceil : ceilNat (.ofModel (.pack (.finite .positive n t hn₀))) top =
          min top ⌈(n : ℚ) * 2 ^ t⌉₊ :=
        ceilNat_of_positive (unpack_pack_finite hn hn' ht ht' hn₀)
      rw [hceil]
      exact (min_le_right _ _).trans (Nat.ceil_mono (hrounds.le_of_le hk hd))

/-- Rounding a difference up does not lead above a number of 53 bits that bounds it. -/
theorem Represents.ceilNat_sub_le (ha : Represents a x) (hb : Represents b y) (hy : 0 < y)
    (hk : k < 2 ^ 53) (hxy : x - y ≤ k * 2 ^ j) (top : Nat) :
    ceilNat (a - b) top ≤ ⌈(k : ℚ) * 2 ^ j⌉₊ :=
  (ha.isDifference_sub hb hy).ceilNat_le hk hxy top

end SetCover.Binary
