import SetCover.Proofs.Binary.Arithmetic
import SetCover.Proofs.Covering
import SetCover.Proofs.Matrix.Insertion

/-!
# Bounds by cost shares

In exact arithmetic the cheapest shares of the rows sum up to the price of a cover at most, because
each column of the cover pays the share of every row that it is chosen for.  Rounding makes a share
too large by two rounding factors, one for its cost and one for the quotient, and each addition
makes the sum too large by one more.

Before the sum is rounded up, the slack is taken off.  This makes up for the rounding as long as the
price is small for the number of rows; in general the bound may exceed the price.
-/

namespace SetCover

open Binary

variable {m : Matrix} {J : List Deletion} {S : Finset Nat} {a b : Float} {x y : ℚ}
variable {c r n k : Nat}

/-! ### Powers of the rounding factor -/

namespace Binary

theorem roundingFactor_pow_nonneg (n : Nat) : 0 ≤ roundingFactor ^ n :=
  pow_nonneg roundingFactor_pos.le n

theorem roundingFactor_pow_mul_le (n : Nat) : roundingFactor ^ n * (1 - n / 2 ^ 53) ≤ 1 := by
  have hbernoulli : 1 - (n : ℚ) / 2 ^ 53 ≤ (1 - 1 / 2 ^ 53) ^ n := by
    have h := one_add_mul_le_pow (show (-2 : ℚ) ≤ -(1 / 2 ^ 53) by norm_num) n
    rwa [mul_neg, mul_one_div, ← sub_eq_add_neg, ← sub_eq_add_neg] at h
  calc roundingFactor ^ n * (1 - n / 2 ^ 53)
      ≤ roundingFactor ^ n * (1 - 1 / 2 ^ 53) ^ n :=
        mul_le_mul_of_nonneg_left hbernoulli (roundingFactor_pow_nonneg n)
    _ = (roundingFactor * (1 - 1 / 2 ^ 53)) ^ n := (mul_pow _ _ n).symm
    _ ≤ 1 := pow_le_one₀ (by norm_num [roundingFactor]) (by norm_num [roundingFactor])

theorem roundingFactor_pow_le_two (hn : n ≤ 2 ^ 52) : roundingFactor ^ n ≤ 2 := by
  have hn' : (n : ℚ) / 2 ^ 53 ≤ 1 / 2 := by
    rw [div_le_iff₀ (by norm_num)]
    have hcast : (n : ℚ) ≤ 2 ^ 52 := by exact_mod_cast hn
    linarith
  have hhalf : roundingFactor ^ n * (1 / 2) ≤ roundingFactor ^ n * (1 - n / 2 ^ 53) :=
    mul_le_mul_of_nonneg_left (by linarith) (roundingFactor_pow_nonneg n)
  have hone := hhalf.trans (roundingFactor_pow_mul_le n)
  linarith

end Binary

/-! ### The slack -/

namespace Share

/-- The number nearest to `10 ^ (-9)`. -/
def slackValue : ℚ := 4835703278458517 * 2 ^ (-82 : Int)

theorem lt_slackValue : 1 / 10 ^ 9 < slackValue := by norm_num [slackValue]

theorem slackValue_pos : 0 < slackValue := by norm_num [slackValue]

theorem represents_slack : Represents slack slackValue := by
  have hunpack : slack.toModel.unpack = .finite .positive 4835703278458517 (-82) (by decide) := rfl
  have h := Represents.positive hunpack (by norm_num) (by norm_num) ⟨by norm_num, by norm_num⟩
  exact_mod_cast h

/-- Rounding up leads to a number of 53 bits at most, if the slack does not lead above it. -/
theorem roundUp_le_of_le (ha : Represents a x) (hk : k < 2 ^ 53) (hx : x ≤ k + slackValue) :
    roundUp a ≤ k := by
  have hle : x - slackValue ≤ k * 2 ^ (0 : Int) := by
    rw [zpow_zero, mul_one]
    exact sub_le_iff_le_add.2 hx
  have h := ha.ceilNat_sub_le represents_slack slackValue_pos hk hle (Cost.limit - 1)
  rwa [zpow_zero, mul_one, Nat.ceil_natCast] at h

theorem roundUp_le_ceil (ha : Represents a x) : roundUp a ≤ ⌈x⌉₊ := by
  cases ha with
  | zero hzero =>
      have hle : (0 : ℚ) ≤ (0 : Nat) + slackValue := by
        rw [Nat.cast_zero, zero_add]
        exact slackValue_pos.le
      exact (roundUp_le_of_le (.zero hzero) (by norm_num) hle).trans (Nat.zero_le _)
  | positive hunpack hn hn' hmoderate =>
      exact (Represents.positive hunpack hn hn' hmoderate).ceilNat_sub_le represents_slack
        slackValue_pos hn' (sub_le_self _ slackValue_pos.le) _

/-- The slack makes up for roundings that are few for the size of what is rounded. -/
theorem mul_roundingFactor_pow_le (hn : n ≤ 2 ^ 33) (h : n * k ≤ 9000000) :
    (k : ℚ) * roundingFactor ^ n ≤ k + slackValue := by
  have hn' : (n : ℚ) ≤ 2 ^ 33 := by exact_mod_cast hn
  have hnk : (k : ℚ) * n ≤ 9000000 := by
    rw [mul_comm]
    exact_mod_cast h
  obtain ⟨y, hy⟩ : ∃ y, y = (k : ℚ) * roundingFactor ^ n := ⟨_, rfl⟩
  have hypos : 0 ≤ y := by
    rw [hy]
    exact mul_nonneg k.cast_nonneg (roundingFactor_pow_nonneg n)
  have hyk : y ≤ k + y * n / 2 ^ 53 := by
    have hmul := mul_le_mul_of_nonneg_left (roundingFactor_pow_mul_le n) k.cast_nonneg
    rw [← mul_assoc, ← hy, mul_one] at hmul
    linarith
  have hyn : y * n ≤ 9000010 := by
    have hynn := mul_le_mul_of_nonneg_left hn' (mul_nonneg hypos (Nat.cast_nonneg (α := ℚ) n))
    have hmul := mul_le_mul_of_nonneg_right hyk (Nat.cast_nonneg (α := ℚ) n)
    have hsplit : (k + y * n / 2 ^ 53) * n = k * n + y * n * n / 2 ^ 53 := by ring
    rw [hsplit] at hmul
    linarith
  have hslack := lt_slackValue
  rw [← hy]
  linarith

/-! ### The least share -/

/-- What is kept is not above any number of the list. -/
theorem exists_represents_foldl {bs : List Float} (ha : Represents a x)
    (hbs : ∀ b ∈ bs, ∃ y, Represents b y) :
    ∃ z, Represents (bs.foldl (fun a b => if le a b then a else b) a) z ∧ z ≤ x ∧
      ∀ b ∈ bs, ∀ y, Represents b y → z ≤ y := by
  induction bs generalizing a x with
  | nil => exact ⟨x, ha, le_rfl, fun b hb => absurd hb List.not_mem_nil⟩
  | cons b bs ih =>
      obtain ⟨y, hy⟩ := hbs b List.mem_cons_self
      have hrest : ∀ b ∈ bs, ∃ y, Represents b y := fun b hb => hbs b (List.mem_cons_of_mem _ hb)
      rw [List.foldl_cons]
      split_ifs with hle
      · obtain ⟨z, hz, hzx, hzbs⟩ := ih ha hrest
        refine ⟨z, hz, hzx, List.forall_mem_cons.2 ⟨fun y' hy' => ?_, hzbs⟩⟩
        exact hzx.trans ((ha.le_iff hy').1 hle)
      · obtain ⟨z, hz, hzy, hzbs⟩ := ih hy hrest
        rw [ha.le_iff hy, not_le] at hle
        refine ⟨z, hz, hzy.trans hle.le, List.forall_mem_cons.2 ⟨fun y' hy' => ?_, hzbs⟩⟩
        rw [hy'.eq hy]
        exact hzy

theorem exists_least?_eq {as : List Float} (has : ∀ a ∈ as, ∃ x, Represents a x) (hb : b ∈ as)
    (hy : Represents b y) : ∃ a x, least? as = some a ∧ Represents a x ∧ x ≤ y := by
  cases as with
  | nil => exact absurd hb List.not_mem_nil
  | cons a as =>
      rw [List.forall_mem_cons] at has
      obtain ⟨⟨x, hx⟩, has⟩ := has
      obtain ⟨z, hz, hzx, hzas⟩ := exists_represents_foldl hx has
      refine ⟨_, z, rfl, hz, ?_⟩
      rcases List.mem_cons.1 hb with rfl | hb
      · rwa [hy.eq hx]
      · exact hzas b hb y hy

/-! ### The sum of shares -/

theorem add_mul_roundingFactor_pow_le {z w total : ℚ} (hz : z ≤ (x + y) * roundingFactor)
    (hyw : y ≤ w) (htotal : 0 ≤ total) (n : Nat) :
    (z + total) * roundingFactor ^ n ≤ (x + (w + total)) * roundingFactor ^ (n + 1) := by
  have hfirst : (x + y) * roundingFactor ≤ (x + w) * roundingFactor :=
    mul_le_mul_of_nonneg_right (add_le_add_right hyw x) roundingFactor_pos.le
  have hrest : total ≤ total * roundingFactor :=
    le_mul_of_one_le_right htotal one_le_roundingFactor
  calc (z + total) * roundingFactor ^ n
      ≤ ((x + w) * roundingFactor + total * roundingFactor) * roundingFactor ^ n :=
        mul_le_mul_of_nonneg_right (add_le_add (hz.trans hfirst) hrest)
          (roundingFactor_pow_nonneg n)
    _ = (x + (w + total)) * roundingFactor ^ (n + 1) := by ring

/-- Each addition makes the sum too large by a rounding factor at most. -/
theorem exists_represents_sum {rows : List Nat} {f : Nat → Option Float} {w : Nat → ℚ}
    (hf : ∀ r ∈ rows, ∃ b y, f r = some b ∧ Represents b y ∧ y ≤ w r) (ha : Represents a x)
    (hbound : (x + (rows.map w).sum) * roundingFactor ^ rows.length ≤ 2 ^ (100 : Int)) :
    ∃ z, Represents ((rows.filterMap f).foldl (· + ·) a) z ∧
      z ≤ (x + (rows.map w).sum) * roundingFactor ^ rows.length := by
  induction rows generalizing a x with
  | nil => exact ⟨x, ha, by simp⟩
  | cons r rows ih =>
      rw [List.forall_mem_cons] at hf
      obtain ⟨⟨b, y, hb, hy, hyw⟩, hf⟩ := hf
      have hsum : 0 ≤ (rows.map w).sum := by
        refine List.sum_nonneg (List.forall_mem_map.2 fun r hr => ?_)
        obtain ⟨b, y, -, hy, hyw⟩ := hf r hr
        exact hy.nonneg.trans hyw
      rw [List.map_cons, List.sum_cons, List.length_cons] at hbound ⊢
      have hxy : x + y ≤ 2 ^ (100 : Int) := by
        have htotal : 0 ≤ x + (w r + (rows.map w).sum) := by linarith [ha.nonneg, hy.nonneg]
        have hpow : 1 ≤ roundingFactor ^ (rows.length + 1) := one_le_pow₀ one_le_roundingFactor
        have hle := (le_mul_of_one_le_right htotal hpow).trans hbound
        linarith
      obtain ⟨z, hz, hzxy⟩ := ha.exists_add hy hxy
      have hstep := add_mul_roundingFactor_pow_le hzxy hyw hsum rows.length
      obtain ⟨z', hz', hle⟩ := ih hf hz (hstep.trans hbound)
      refine ⟨z', ?_, hle.trans hstep⟩
      rwa [List.filterMap_cons_some hb, List.foldl_cons]

end Share

namespace Matrix

open Share

/-! ### Exact shares -/

/-- What column `c` costs for each of its rows, without rounding. -/
def exactShare (m : Matrix) (c : Nat) : ℚ := m.costOf c / m.count .column c

theorem mul_exactShare_le (hn : n ≤ m.count .column c) : n * m.exactShare c ≤ m.costOf c := by
  have hn' : (n : ℚ) ≤ m.count .column c := by exact_mod_cast hn
  have hnonneg : 0 ≤ m.exactShare c := div_nonneg (Nat.cast_nonneg _) (Nat.cast_nonneg _)
  refine (mul_le_mul_of_nonneg_right hn' hnonneg).trans ?_
  rcases eq_or_ne (m.count .column c : ℚ) 0 with hzero | hne
  · rw [hzero, zero_mul]
    exact Nat.cast_nonneg _
  · rw [exactShare, mul_div_cancel₀ _ hne]

/-- If each row is assigned to a column of a set that covers it, their shares are at most what the
set costs. -/
theorem sum_exactShare_le_price (hm : m.WellFormed J) (hactive : ∀ c ∈ S, c ∈ m.active .column)
    {g : Nat → Nat} (hg : ∀ r ∈ m.active .row, g r ∈ S ∧ g r ∈ m.line .row r) :
    ((m.active .row).map fun r => m.exactShare (g r)).sum ≤ m.price S := by
  have hmaps : ∀ r ∈ (m.active .row).toFinset, g r ∈ S := fun r hr =>
    (hg r (List.mem_toFinset.1 hr)).1
  rw [← List.sum_toFinset _ (hm.nodup_active .row), ← Finset.sum_fiberwise_of_maps_to hmaps, price,
    Nat.cast_sum]
  refine Finset.sum_le_sum fun c hc => ?_
  have hshares : ∑ r ∈ (m.active .row).toFinset with g r = c, m.exactShare (g r) =
      ((m.active .row).toFinset.filter (g · = c)).card * m.exactShare c := by
    rw [← nsmul_eq_mul]
    refine Finset.sum_eq_card_nsmul fun r hr => ?_
    rw [(Finset.mem_filter.1 hr).2]
  have hsub : (m.active .row).toFinset.filter (g · = c) ⊆ (m.line .column c).toFinset := by
    intro r hr
    obtain ⟨hmem, rfl⟩ := Finset.mem_filter.1 hr
    have hrow := List.mem_toFinset.1 hmem
    exact List.mem_toFinset.2 (hm.mem_line_other hrow (hg r hrow).2)
  have hcount : m.count .column c = (m.line .column c).length :=
    hm.count_eq_length_of_mem_active (hactive c hc)
  rw [hshares]
  apply mul_exactShare_le
  rw [hcount]
  exact (Finset.card_le_card hsub).trans (List.toFinset_card_le _)

/-! ### Rounded shares -/

/-- The quotient of a cost and a count is neither too small nor too large. -/
theorem isModerate_div (hx : 1 ≤ x) (hx' : x ≤ 2 ^ 65) (hn : 0 < n) (hn' : n < 2 ^ 53) :
    IsModerate (x / n) := by
  have hpos : (0 : ℚ) < n := by exact_mod_cast hn
  have hone : (1 : ℚ) ≤ n := by exact_mod_cast hn
  have hlt : (n : ℚ) < 2 ^ 53 := by exact_mod_cast hn'
  constructor
  · rw [le_div_iff₀ hpos]
    calc (2 : ℚ) ^ (-100 : Int) * n
        ≤ 2 ^ (-100 : Int) * 2 ^ 53 := mul_le_mul_of_nonneg_left hlt.le (two_zpow_pos _).le
      _ ≤ 1 := by norm_num
      _ ≤ x := hx
  · calc x / n ≤ x := div_le_self (zero_le_one.trans hx) hone
      _ ≤ 2 ^ 65 := hx'
      _ ≤ 2 ^ (100 : Int) := by norm_num

/-- A share is too large by two rounding factors at most. -/
theorem exists_represents_share (hcost : m.costOf c < Cost.limit) (hcount : 0 < m.count .column c)
    (hcount' : m.count .column c < 2 ^ 53) :
    ∃ z, Represents (m.share c) z ∧ z ≤ m.exactShare c * roundingFactor ^ 2 := by
  obtain ⟨x, hx, hxcost, hone, -⟩ := exists_represents_wordToFloat hcost
  obtain ⟨y, hy, -, -, hycount⟩ :=
    exists_represents_wordToFloat (hcount'.trans (by norm_num : 2 ^ 53 < 2 ^ 64))
  rw [hycount hcount'] at hy
  have hpos : (0 : ℚ) < m.count .column c := by exact_mod_cast hcount
  have hx' : x ≤ 2 ^ 65 := by
    have hlimit : (m.costOf c : ℚ) ≤ 2 ^ 64 := by exact_mod_cast hcost.le
    have hfactor : roundingFactor ≤ 2 := by norm_num [roundingFactor]
    have hmul := mul_le_mul hlimit hfactor roundingFactor_pos.le (by norm_num)
    linarith
  obtain ⟨z, hz, hzle⟩ := hx.exists_div hy hpos fun hxpos =>
    isModerate_div (hone hxpos) hx' hcount hcount'
  refine ⟨z, hz, hzle.trans ?_⟩
  have hquotient : x / m.count .column c ≤ m.exactShare c * roundingFactor := by
    rw [exactShare, div_mul_eq_mul_div]
    exact div_le_div_of_nonneg_right hxcost hpos.le
  rw [pow_two, ← mul_assoc]
  exact mul_le_mul_of_nonneg_right hquotient roundingFactor_pos.le

theorem length_active_lt_two_pow (hm : m.WellFormed J) (hwords : m.FitsWords) (d : Dimension) :
    (m.active d).length < 2 ^ 32 :=
  ((hm.length_active_le d).trans (hwords.size_le d)).trans_lt (by decide)

/-- A column has so few rows that their number is converted without rounding. -/
theorem count_lt_two_pow (hm : m.WellFormed J) (hwords : m.FitsWords)
    (hc : c ∈ m.active .column) : m.count .column c < 2 ^ 53 := by
  have hsize := hm.lt_size_of_mem_active hc
  have hsub : m.line .column c ⊆ m.active .row := fun i => hm.mem_active_of_mem_line hc
  have hcount : m.count .column c = (m.line .column c).length := hm.toLinked.count_eq_length hsize
  have hle : (m.line .column c).length ≤ (m.active .row).length :=
    ((hm.toLinked.nodup_line hsize).subperm hsub).length_le
  have hlt := length_active_lt_two_pow hm hwords .row
  omega

/-- Every row has a least share, which is not above that of any of its columns. -/
theorem exists_leastShare?_eq (hm : m.WellFormed J) (hwords : m.FitsWords) (hr : r ∈ m.active .row)
    (hc : c ∈ m.line .row r) : ∃ b y, m.leastShare? r = some b ∧ Represents b y ∧
      y ≤ m.exactShare c * roundingFactor ^ 2 := by
  have hshare : ∀ c ∈ m.line .row r, ∃ z, Represents (m.share c) z ∧
      z ≤ m.exactShare c * roundingFactor ^ 2 := by
    intro c hc
    have hactive : c ∈ m.active .column := hm.mem_active_of_mem_line hr hc
    have hcount := hm.count_eq_length_of_mem_active hactive
    have hpos : 0 < m.count .column c := hcount ▸ List.length_pos_of_mem (hm.mem_line_other hr hc)
    exact exists_represents_share (hwords.costOf_lt c) hpos (count_lt_two_pow hm hwords hactive)
  obtain ⟨z, hz, hzle⟩ := hshare c hc
  have hall : ∀ a ∈ (m.line .row r).map m.share, ∃ x, Represents a x := by
    refine List.forall_mem_map.2 fun c hc => ?_
    obtain ⟨x, hx, -⟩ := hshare c hc
    exact ⟨x, hx⟩
  obtain ⟨b, y, hb, hy, hyz⟩ := exists_least?_eq hall (List.mem_map_of_mem hc) hz
  exact ⟨b, y, hb, hy, hyz.trans hzle⟩

/-! ### The bound -/

/-- What the bound is rounded up from exceeds the price of a cover by the roundings at most. -/
theorem exists_shareBound_eq (hm : m.WellFormed J) (hwords : m.FitsWords) (hS : m.Covers S)
    (hprice : m.price S < Cost.limit) : ∃ a z, m.shareBound = roundUp a ∧ Represents a z ∧
      z ≤ m.price S * roundingFactor ^ ((m.active .row).length + 2) := by
  choose! g hg using hS.exists_mem_line
  have hsum := sum_exactShare_le_price hm hS.subset_active hg
  have hlength := length_active_lt_two_pow hm hwords .row
  have hleast : ∀ r ∈ m.active .row, ∃ b y, m.leastShare? r = some b ∧ Represents b y ∧
      y ≤ m.exactShare (g r) * roundingFactor ^ 2 := fun r hr =>
    exists_leastShare?_eq hm hwords hr (hg r hr).2
  have htotal : (0 + ((m.active .row).map fun r => m.exactShare (g r) * roundingFactor ^ 2).sum) *
      roundingFactor ^ (m.active .row).length ≤
        m.price S * roundingFactor ^ ((m.active .row).length + 2) := by
    rw [zero_add, List.sum_map_mul_right, mul_assoc, ← pow_add, Nat.add_comm 2]
    exact mul_le_mul_of_nonneg_right hsum (roundingFactor_pow_nonneg _)
  have hlarge : (m.price S : ℚ) * roundingFactor ^ ((m.active .row).length + 2) ≤
      2 ^ (100 : Int) := by
    have hlimit : (m.price S : ℚ) ≤ 2 ^ 64 := by exact_mod_cast hprice.le
    have hpow := roundingFactor_pow_le_two (n := (m.active .row).length + 2) (by omega)
    have hmul := mul_le_mul hlimit hpow (roundingFactor_pow_nonneg _) (by norm_num)
    exact hmul.trans (by norm_num)
  have hunpack : (0 : Float).toModel.unpack = .zero .positive := rfl
  have hzero : Represents 0 0 := .zero hunpack
  obtain ⟨z, hz, hzle⟩ := exists_represents_sum hleast hzero (htotal.trans hlarge)
  exact ⟨_, z, rfl, hz, hzle.trans htotal⟩

end Matrix

end SetCover
