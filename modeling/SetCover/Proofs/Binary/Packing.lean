import Mathlib
import SetCover.Bound.Share
import SetCover.Proofs.Binary.Rounding

/-!
# Packed numbers

A number of 53 bits is packed into 64 bits without loss, if its exponent is not too large or too
small.  From the bits of a number `ceilNat` computes the least natural number that is not below it.
-/

namespace SetCover.Binary

open Float.Model Float.Model.UnpackedFloat

variable {x : Float} {n k top : Nat} {t : Int} {sign : Sign}

/-! ### Packing and unpacking -/

/-- The leading bit is not stored. -/
theorem toNat_append_significand (f : BitVec 52) : (1#1 ++ f).toNat = 2 ^ 52 + f.toNat := by
  rw [BitVec.toNat_append, BitVec.toNat_ofNat, Nat.shiftLeft_eq, Nat.mul_comm,
    ← Nat.two_pow_add_eq_or_of_lt f.isLt]
  rfl

theorem toNat_append_ofNat (hn : 2 ^ 52 ≤ n) (hn' : n < 2 ^ 53) :
    (1#1 ++ BitVec.ofNat 52 n).toNat = n := by
  rw [toNat_append_significand, BitVec.toNat_ofNat]
  omega

theorem pack_finite (hn : 2 ^ 52 ≤ n) (hn' : n < 2 ^ 53) (ht' : t ≤ 971) (h : 0 < n) :
    UnpackedFloat.pack .binary64 (.finite sign n t h) =
      packComponents .binary64 sign (BitVec.ofNat 11 (t + 1075).toNat) (BitVec.ofNat 52 n) := by
  have hlog : n.log2 = 52 := (Nat.log2_eq_iff h.ne').2 ⟨hn, hn'⟩
  have hbias : (t + Format.binary64.exponentBias + (52 : Nat)).toNat = (t + 1075).toNat := by
    have hbias : Format.binary64.exponentBias = 1023 := rfl
    rw [hbias]
    omega
  simp only [UnpackedFloat.pack, hbias]
  rw [if_neg (by omega), if_pos (by rw [hlog]; rfl)]

/-- A number of 53 bits is unpacked from what it is packed into. -/
theorem unpack_pack_finite (hn : 2 ^ 52 ≤ n) (hn' : n < 2 ^ 53) (ht : -1074 ≤ t) (ht' : t ≤ 971)
    (h : 0 < n) : (Float.Model.pack (.finite sign n t h)).unpack = .finite sign n t h := by
  have hexponent : (BitVec.ofNat 11 (t + 1075).toNat).toNat = (t + 1075).toNat := by
    rw [BitVec.toNat_ofNat, Nat.mod_eq_of_lt (by omega)]
  have hnotFull : BitVec.ofNat 11 (t + 1075).toNat ≠ -1#11 := by
    intro heq
    rw [heq] at hexponent
    change 2047 = _ at hexponent
    omega
  have hnotZero : BitVec.ofNat 11 (t + 1075).toNat ≠ 0#11 := by
    intro heq
    rw [heq] at hexponent
    change 0 = _ at hexponent
    omega
  change UnpackedFloat.unpack .binary64 (UnpackedFloat.pack .binary64 (.finite sign n t h)) = _
  simp only [pack_finite hn hn' ht', UnpackedFloat.unpack, unpackMantissa_packComponents,
    unpackExponent_packComponents, unpackSign_packComponents, Sign.ofBitVec_toBitVec,
    if_neg hnotFull, if_neg hnotZero, UnpackedFloat.finite.injEq, toNat_append_ofNat hn hn',
    hexponent, true_and]
  have hbias : Format.binary64.exponentBias = 1023 := rfl
  rw [hbias]
  omega

theorem unpack_pack_zero (sign : Sign) : (Float.Model.pack (.zero sign)).unpack = .zero sign :=
  unpack_packedZero

/-! ### Rounding up to a natural number -/

theorem toNat_unpackExponent (b : BitVec 64) :
    (@unpackExponent .binary64 b).toNat = b.toNat / 2 ^ 52 % 2048 := by
  rw [unpackExponent_def, BitVec.extractLsb'_toNat, Nat.shiftRight_eq_div_pow]
  rfl

theorem toNat_unpackMantissa (b : BitVec 64) :
    (@unpackMantissa .binary64 b).toNat = b.toNat % 2 ^ 52 := by
  rw [unpackMantissa_def, BitVec.extractLsb'_toNat, Nat.shiftRight_zero]

theorem ofBitVec_unpackSign (b : BitVec 64) : Sign.ofBitVec (@unpackSign .binary64 b) =
    if 2 ^ 63 ≤ b.toNat then .negative else .positive := by
  have hsign : (@unpackSign .binary64 b).toNat = b.toNat / 2 ^ 63 % 2 := by
    rw [unpackSign_def, BitVec.extractLsb'_toNat, Nat.shiftRight_eq_div_pow]
    rfl
  have hlt : b.toNat < 2 ^ 64 := b.isLt
  rw [Sign.ofBitVec]
  split_ifs with hzero hle hle
  · rw [hzero] at hsign
    change 0 = _ at hsign
    omega
  · rfl
  · rfl
  · apply absurd _ hzero
    apply BitVec.eq_of_toNat_eq
    rw [hsign]
    change _ = 0
    omega

/-- What the bits of a number say. -/
structure Decodes (x : Float) (sign : Sign) (n : Nat) (t : Int) : Prop where
  exponent_ne : x.toBits.toNat / 2 ^ 52 % 2048 ≠ 2047
  sign_eq : sign = if 2 ^ 63 ≤ x.toBits.toNat then .negative else .positive
  significand_eq : n = if x.toBits.toNat / 2 ^ 52 % 2048 = 0 then x.toBits.toNat % 2 ^ 52
    else 2 ^ 52 + x.toBits.toNat % 2 ^ 52
  exponent_eq : t = (max (x.toBits.toNat / 2 ^ 52 % 2048) 1 : Nat) - 1075

theorem decodes_of_unpack_finite {hn : 0 < n} (h : x.toModel.unpack = .finite sign n t hn) :
    Decodes x sign n t := by
  obtain ⟨b, hb⟩ : ∃ b : BitVec 64, x.toModel.toBits.toBitVec = b := ⟨_, rfl⟩
  have hbits : x.toBits.toNat = b.toNat := congrArg BitVec.toNat hb
  have hexponent := toNat_unpackExponent b
  have hmantissa := toNat_unpackMantissa b
  rw [Float.Model.unpack, hb, UnpackedFloat.unpack] at h
  simp only [ofBitVec_unpackSign] at h
  split at h
  · split at h <;> exact nomatch h
  · rename_i hnotFull
    have hne : b.toNat / 2 ^ 52 % 2048 ≠ 2047 := by
      intro heq
      apply hnotFull
      apply BitVec.eq_of_toNat_eq
      rw [hexponent, heq]
      rfl
    split at h
    · -- a subnormal number
      rename_i hzero
      rw [hzero] at hexponent
      split at h
      · exact nomatch h
      · obtain ⟨hsign, hn, ht⟩ := UnpackedFloat.finite.inj h
        have hexp : b.toNat / 2 ^ 52 % 2048 = 0 := hexponent.symm
        rw [hmantissa] at hn
        refine ⟨?_, ?_, ?_, ?_⟩
        · rwa [hbits]
        · rw [hbits, hsign]
        · rw [hbits, hexp, if_pos rfl, hn]
        · rw [hbits, hexp, ← ht, hzero]
          rfl
    · rename_i hnotZero
      obtain ⟨hsign, hn, ht⟩ := UnpackedFloat.finite.inj h
      have hexp : b.toNat / 2 ^ 52 % 2048 ≠ 0 := by
        intro heq
        apply hnotZero
        apply BitVec.eq_of_toNat_eq
        rw [hexponent, heq]
        rfl
      refine ⟨?_, ?_, ?_, ?_⟩
      · rwa [hbits]
      · rw [hbits, hsign]
      · rw [hbits, if_neg hexp, ← hn, toNat_append_significand, hmantissa]
      · rw [hbits, ← ht, hexponent, max_eq_left (Nat.one_le_iff_ne_zero.2 hexp)]
        rfl

theorem decodes_of_unpack_zero (h : x.toModel.unpack = .zero sign) : Decodes x sign 0 (-1074) := by
  have hpacked : x.toModel.toBits.toBitVec = packedZero .binary64 sign :=
    (unpack_eq_zero_iff_of_valid x.toModel.valid).1 h
  have hbits : x.toBits.toNat = (packedZero .binary64 sign).toNat := congrArg BitVec.toNat hpacked
  cases sign with
  | negative =>
      have hvalue : x.toBits.toNat = 2 ^ 63 := hbits
      exact ⟨by rw [hvalue]; decide, by rw [hvalue]; rfl, by rw [hvalue]; rfl, by rw [hvalue]; rfl⟩
  | positive =>
      have hvalue : x.toBits.toNat = 0 := hbits
      exact ⟨by rw [hvalue]; decide, by rw [hvalue]; rfl, by rw [hvalue]; rfl, by rw [hvalue]; rfl⟩

theorem ceil_mul_two_zpow (n e : Nat) : ⌈(n : ℚ) * 2 ^ ((e : Int) - 1075)⌉₊ =
    if 1075 ≤ e then n * 2 ^ (e - 1075) else (n + (2 ^ (1075 - e) - 1)) / 2 ^ (1075 - e) := by
  split_ifs with he
  · obtain ⟨d, rfl⟩ := Nat.exists_eq_add_of_le he
    have hexponent : ((1075 + d : Nat) : Int) - 1075 = d := by omega
    rw [hexponent, zpow_natCast, Nat.add_sub_cancel_left]
    exact_mod_cast Nat.ceil_natCast (n * 2 ^ d)
  · obtain ⟨d, hd⟩ : ∃ d, 1075 - e = d := ⟨_, rfl⟩
    have hexponent : (e : Int) - 1075 = -d := by omega
    rw [hd, hexponent, zpow_neg, zpow_natCast, ← div_eq_mul_inv]
    apply eq_of_forall_ge_iff
    intro k
    have hpos : 0 < 2 ^ d := by positivity
    rw [Nat.ceil_le, div_le_iff₀ (by positivity), ← Nat.lt_succ_iff, Nat.div_lt_iff_lt_mul hpos,
      Nat.succ_mul]
    norm_cast
    omega

theorem ceilNat_of_decodes (h : Decodes x .positive n t) :
    ceilNat x top = min top ⌈(n : ℚ) * 2 ^ t⌉₊ := by
  obtain ⟨hne, hsign, hn, ht⟩ := h
  have hpositive : ¬2 ^ 63 ≤ x.toBits.toNat := by
    intro hle
    rw [if_pos hle] at hsign
    exact nomatch hsign
  rw [ht, ceil_mul_two_zpow, hn, ceilNat]
  simp only [Nat.shiftRight_eq_div_pow, Nat.shiftLeft_eq, one_mul, hne, hpositive, false_and,
    false_or, if_false]

theorem ceilNat_of_decodes_negative (h : Decodes x .negative n t) : ceilNat x top = 0 := by
  have hnegative : 2 ^ 63 ≤ x.toBits.toNat := by
    by_contra hle
    have hsign := h.sign_eq
    rw [if_neg hle] at hsign
    exact nomatch hsign
  apply if_pos
  right
  rwa [Nat.shiftLeft_eq, one_mul]

theorem ceilNat_of_zero (h : x.toModel.unpack = .zero sign) : ceilNat x top = 0 := by
  have hdecodes := decodes_of_unpack_zero h
  cases sign with
  | negative => exact ceilNat_of_decodes_negative hdecodes
  | positive =>
      rw [ceilNat_of_decodes hdecodes, Nat.cast_zero, zero_mul, Nat.ceil_zero, Nat.min_zero]

theorem ceilNat_of_negative {hn : 0 < n} (h : x.toModel.unpack = .finite .negative n t hn) :
    ceilNat x top = 0 :=
  ceilNat_of_decodes_negative (decodes_of_unpack_finite h)

/-- The least natural number that is not below a positive number. -/
theorem ceilNat_of_positive {hn : 0 < n} (h : x.toModel.unpack = .finite .positive n t hn) :
    ceilNat x top = min top ⌈(n : ℚ) * 2 ^ t⌉₊ :=
  ceilNat_of_decodes (decodes_of_unpack_finite h)

end SetCover.Binary
