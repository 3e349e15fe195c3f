import PolkadotSdk.FixedPointChecked
import Mathlib.Data.Nat.Bitwise

/-!
# `saturating_pow` on fixed-point numbers

`saturating_pow(self, exp)` squares and multiplies over the bits of `exp as u32`, saturating
each product. `saturating_mul` is the product truncated towards zero and then clamped to the
inner range, so on a value that is an integer `k` every pair the loop keeps is a pair of clamped
powers of `k`: once a power has saturated, every later product with a factor of magnitude at
least two saturates again, on the side of the exact power's sign. The loop therefore computes
`k ^ (exp mod 2^32)` clamped. `exp` is a `usize`, and on a 64-bit target the cast keeps only its
low 32 bits.
-/

namespace PolkadotSdk.FixedPoint

open Helpers128 PerThings

theorem FixedSpec.neg_max_sub_one_le_min (F : FixedSpec) : -F.max - 1 ≤ F.min := by
  rcases lt_or_ge F.min 0 with h | h
  · rw [F.min_eq_of_neg h]
  · have := F.max_pos
    omega

namespace Fixed

variable {F : FixedSpec}

/-- `u32::leading_zeros`. -/
def u32LeadingZeros (n : ℕ) : ℕ := if n = 0 then 32 else 31 - n.log2

/-- One round of the loop of `saturating_pow`: bit `i` of `exp` multiplies the power into the
result, and the power is squared. -/
def powStep (exp : ℕ) (acc : Fixed F × Fixed F) (i : ℕ) : Fixed F × Fixed F :=
  let result := if (1 <<< i) &&& exp > 0 then acc.1.saturatingMul acc.2 else acc.1
  (result, acc.2.saturatingMul acc.2)

/-- `Saturating::saturating_pow`, with `exp` a `usize`. -/
def saturatingPow (x : Fixed F) (exp : ℕ) : Fixed F :=
  if exp = 0 then saturatingFromInteger F 1
  else
    -- `exp as u32`
    let exp := exp % 2 ^ 32
    let msbPos := 32 - u32LeadingZeros exp
    ((List.range msbPos).foldl (powStep exp) (saturatingFromInteger F 1, x)).1

/-! ## Saturating multiplication clamps the truncated product -/

theorem clamp_inner (x : Fixed F) : clamp F x.inner = x :=
  ext_inner (inner_clamp x.min_le x.le_max)

theorem saturatingFromInteger_one : saturatingFromInteger F 1 = one := by
  apply ext_inner
  have h := @inner_saturatingFromInteger F 1 (by norm_num)
  push_cast at h
  rw [h, inner_one, one_mul]

theorem clamp_div_eq_one : clamp F (1 * F.div) = one := by
  have := F.div_le_max
  have := F.min_le_zero
  apply ext_inner
  rw [inner_clamp (by omega) (by omega), inner_one, one_mul]

/-- More than one past the bounds, the clamp is the bound on the side of the sign. -/
theorem clamp_of_max_lt_natAbs {z : ℤ} (h : F.max + 1 < z.natAbs) :
    clamp F z = if z < 0 then minValue else maxValue := by
  have hmin := F.neg_max_sub_one_le_min
  have := F.min_le_zero
  have := F.max_pos
  apply ext_inner
  by_cases hz : z < 0
  · rw [if_pos hz]
    show max F.min (Min.min z F.max) = F.min
    omega
  · rw [if_neg hz]
    show max F.min (Min.min z F.max) = F.max
    omega

theorem clamp_eq_of_sign_eq {z w : ℤ} (hz : F.max + 1 < z.natAbs) (hw : F.max + 1 < w.natAbs)
    (hs : z.sign = w.sign) : clamp F z = clamp F w := by
  have hneg : z < 0 ↔ w < 0 := by rw [← Int.sign_eq_neg_one_iff_neg, hs, Int.sign_eq_neg_one_iff_neg]
  rw [clamp_of_max_lt_natAbs hz, clamp_of_max_lt_natAbs hw]
  simp only [hneg]

/-- `saturating_mul` is the product truncated towards zero and clamped: out of range the
truncated product is nonzero, and `to_bound` reads its sign off the factors. -/
theorem saturatingMul_eq_clamp (x y : Fixed F) : x.saturatingMul y = clamp F ((x.inner * y.inner).tdiv F.div) := by
  have hmin := F.min_le_zero
  have hmax := F.max_pos
  have hd : (0 : ℤ) < F.div := by exact_mod_cast F.div_pos
  rw [saturatingMul, checkedMul_eq]
  by_cases hr : F.min ≤ (x.inner * y.inner).tdiv F.div ∧ (x.inner * y.inner).tdiv F.div ≤ F.max
  · rw [ofInner?, dif_pos hr, Option.getD_some]
    exact (ext_inner (inner_clamp hr.1 hr.2)).symm
  · rw [ofInner?, dif_neg hr, Option.getD_none, toBound]
    rcases not_and_or.mp hr with hlo | hhi
    · -- below the minimum: the truncated product is negative, and so is the product
      have hneg : x.inner * y.inner < 0 := by
        by_contra hp
        have := Int.tdiv_le_tdiv hd (not_lt.mp hp)
        rw [Int.zero_tdiv] at this
        omega
      have hsign : decide (x.inner < 0) ≠ decide (y.inner < 0) := by
        rcases mul_neg_iff.mp hneg with ⟨hx, hy⟩ | ⟨hx, hy⟩ <;> simp [hx, hy, not_lt.mpr hx.le, not_lt.mpr hy.le]
      rw [if_pos hsign]
      apply ext_inner
      show F.min = max F.min (Min.min _ F.max)
      omega
    · -- above the maximum: the product is positive, so its factors have one sign
      have hpos : 0 < x.inner * y.inner := by
        by_contra hp
        have := Int.tdiv_le_tdiv hd (not_lt.mp hp)
        rw [Int.zero_tdiv] at this
        omega
      have hsign : ¬ decide (x.inner < 0) ≠ decide (y.inner < 0) := by
        rcases pos_and_pos_or_neg_and_neg_of_mul_pos hpos with ⟨hx, hy⟩ | ⟨hx, hy⟩ <;>
          simp [hx, hy, not_lt.mpr hx.le, not_lt.mpr hy.le]
      rw [if_neg hsign]
      apply ext_inner
      show F.max = max F.min (Min.min _ F.max)
      omega

theorem one_saturatingMul (y : Fixed F) : one.saturatingMul y = y := by
  have hd : (F.div : ℤ) ≠ 0 := by have := F.div_pos; omega
  rw [saturatingMul_eq_clamp, inner_one, mul_comm, Int.mul_tdiv_cancel _ hd, clamp_inner]

/-! ## Products of clamped integers -/

/-- Two integers whose multiples of `DIV` are in range multiply exactly, and the product is
clamped once. -/
theorem saturatingMul_clamp_of_mem {a b : ℤ} (ha : F.min ≤ a * F.div ∧ a * F.div ≤ F.max)
    (hb : F.min ≤ b * F.div ∧ b * F.div ≤ F.max) :
    (clamp F (a * F.div)).saturatingMul (clamp F (b * F.div)) = clamp F (a * b * F.div) := by
  have hd : (F.div : ℤ) ≠ 0 := by have := F.div_pos; omega
  rw [saturatingMul_eq_clamp, inner_clamp ha.1 ha.2, inner_clamp hb.1 hb.2,
    show a * F.div * (b * F.div) = a * b * F.div * F.div by ring, Int.mul_tdiv_cancel _ hd]

theorem mem_of_natAbs_le_one {z : ℤ} (hz : z.natAbs ≤ 1) (hs : F.min < 0 ∨ 0 ≤ z) :
    F.min ≤ z * F.div ∧ z * F.div ≤ F.max := by
  have := F.div_le_max
  have := F.neg_max_sub_one_le_min
  have := F.min_le_zero
  rcases (by omega : z = -1 ∨ z = 0 ∨ z = 1) with rfl | rfl | rfl
  · have := F.min_eq_of_neg (by omega)
    omega
  · simp only [zero_mul]
    omega
  · omega

theorem sign_eq_of_iff {x y : ℤ} (hneg : x < 0 ↔ y < 0) (hpos : 0 < x ↔ 0 < y) : x.sign = y.sign := by
  rcases lt_trichotomy y 0 with hy | rfl | hy
  · rw [Int.sign_eq_neg_one_of_neg hy, Int.sign_eq_neg_one_of_neg (hneg.mpr hy)]
  · rw [show x = 0 by omega]
  · rw [Int.sign_eq_one_of_pos hy, Int.sign_eq_one_of_pos (hpos.mpr hy)]

/-- The clamp of a multiple of `DIV` by an integer of magnitude at least two keeps the
integer's sign and a magnitude of at least `2 * DIV`, and where it saturates its magnitude is
at least the maximum. -/
theorem clamp_mul_div_of_two_le {a : ℤ} (hs : F.min < 0 ∨ 0 ≤ a) (ha : 2 ≤ a.natAbs) :
    (clamp F (a * F.div)).inner.sign = a.sign ∧ 2 * F.div ≤ (clamp F (a * F.div)).inner.natAbs ∧
      (¬ (F.min ≤ a * F.div ∧ a * F.div ≤ F.max) →
        F.max.toNat ≤ (clamp F (a * F.div)).inner.natAbs ∧ F.max.toNat < a.natAbs * F.div) := by
  have hten := F.ten_div_le_max
  have hmin := F.neg_max_sub_one_le_min
  have := F.min_le_zero
  have hd : (0 : ℤ) < F.div := by exact_mod_cast F.div_pos
  have habs : (a * F.div).natAbs = a.natAbs * F.div := by rw [Int.natAbs_mul, Int.natAbs_natCast]
  have htwo : 2 * F.div ≤ a.natAbs * F.div := Nat.mul_le_mul_right _ ha
  have hpos : 0 < a ↔ 0 < a * F.div := (mul_pos_iff_of_pos_right hd).symm
  have hneg : a < 0 ↔ a * F.div < 0 := ⟨fun h => mul_neg_of_neg_of_pos h hd, fun h => neg_of_mul_neg_left h hd.le⟩
  -- a negative `a` needs a signed inner type
  have hsigned : a < 0 → F.min = -F.max - 1 := fun h => F.min_eq_of_neg (by omega)
  have hinner : (clamp F (a * F.div)).inner = max F.min (Min.min (a * F.div) F.max) := rfl
  refine ⟨sign_eq_of_iff ?_ ?_, ?_, fun hout => ⟨?_, by omega⟩⟩ <;> rw [hinner] <;> omega

/-- Two integers of magnitude at least two: where one side has saturated, the truncated product
and the exact one are both past the bounds with the same sign. -/
theorem saturatingMul_clamp_of_two_le {a b : ℤ} (hs : F.min < 0 ∨ (0 ≤ a ∧ 0 ≤ b))
    (ha : 2 ≤ a.natAbs) (hb : 2 ≤ b.natAbs) :
    (clamp F (a * F.div)).saturatingMul (clamp F (b * F.div)) = clamp F (a * b * F.div) := by
  by_cases hex : (F.min ≤ a * F.div ∧ a * F.div ≤ F.max) ∧ (F.min ≤ b * F.div ∧ b * F.div ≤ F.max)
  · exact saturatingMul_clamp_of_mem hex.1 hex.2
  have hten := F.ten_div_le_max
  have hd := F.div_pos
  have hmax := F.max_pos
  obtain ⟨hua, hu2, husat⟩ := clamp_mul_div_of_two_le (hs.imp_right And.left) ha
  obtain ⟨hvb, hv2, hvsat⟩ := clamp_mul_div_of_two_le (hs.imp_right And.right) hb
  set u := (clamp F (a * F.div)).inner
  set v := (clamp F (b * F.div)).inner
  set m := F.max.toNat with hm
  have hmz : (m : ℤ) = F.max := Int.toNat_of_nonneg hmax.le
  -- one factor is at least the maximum in magnitude, the other at least `2 * DIV`
  have hbig : 2 * m * F.div ≤ u.natAbs * v.natAbs ∧ 2 * m < a.natAbs * b.natAbs * F.div := by
    rcases not_and_or.mp hex with hout | hout
    · obtain ⟨hu, ha'⟩ := husat hout
      constructor
      · calc 2 * m * F.div = m * (2 * F.div) := by ring
          _ ≤ u.natAbs * v.natAbs := Nat.mul_le_mul hu hv2
      · calc 2 * m < 2 * (a.natAbs * F.div) := by omega
          _ ≤ b.natAbs * (a.natAbs * F.div) := Nat.mul_le_mul_right _ hb
          _ = a.natAbs * b.natAbs * F.div := by ring
    · obtain ⟨hv, hb'⟩ := hvsat hout
      constructor
      · calc 2 * m * F.div = (2 * F.div) * m := by ring
          _ ≤ u.natAbs * v.natAbs := Nat.mul_le_mul hu2 hv
      · calc 2 * m < 2 * (b.natAbs * F.div) := by omega
          _ ≤ a.natAbs * (b.natAbs * F.div) := Nat.mul_le_mul_right _ ha
          _ = a.natAbs * b.natAbs * F.div := by ring
  obtain ⟨huv, hab⟩ := hbig
  -- `|u * v| / DIV` is at least twice the maximum
  have hq : 2 * m ≤ u.natAbs * v.natAbs / F.div := (Nat.le_div_iff_mul_le hd).mpr huv
  have ht : ((u * v).tdiv F.div).natAbs = u.natAbs * v.natAbs / F.div := by
    rw [Int.natAbs_tdiv, Int.natAbs_mul, Int.natAbs_natCast]
    rfl
  rw [saturatingMul_eq_clamp]
  apply clamp_eq_of_sign_eq
  · rw [ht]
    generalize u.natAbs * v.natAbs / F.div = q at hq
    omega
  · rw [Int.natAbs_mul, Int.natAbs_mul, Int.natAbs_natCast]
    omega
  · rw [Int.sign_tdiv, if_neg, Int.sign_mul, Int.sign_mul, Int.sign_mul, hua, hvb,
      Int.sign_natCast_of_ne_zero (by omega)]
    rw [Int.natAbs_mul, Int.natAbs_natCast, not_lt]
    calc F.div = 1 * F.div := (Nat.one_mul _).symm
      _ ≤ 2 * m * F.div := Nat.mul_le_mul_right _ (by omega)
      _ ≤ u.natAbs * v.natAbs := huv

/-- Powers of an integer `k`, clamped, multiply to the clamped power of the sum of the
exponents, as long as the second exponent is positive: the factor `k ^ 0 = 1` only stands on
the left, where it is exact. -/
theorem saturatingMul_clamp_pow {k : ℤ} (hk : F.min < 0 ∨ 0 ≤ k) (n : ℕ) {n' : ℕ} (hn' : 0 < n') :
    (clamp F (k ^ n * F.div)).saturatingMul (clamp F (k ^ n' * F.div)) = clamp F (k ^ (n + n') * F.div) := by
  rw [pow_add]
  rcases le_or_gt k.natAbs 1 with hk1 | hk2
  · -- every power of `-1`, `0` or `1` is exact
    have hpow (m : ℕ) : F.min ≤ k ^ m * F.div ∧ k ^ m * F.div ≤ F.max := by
      apply mem_of_natAbs_le_one
      · rw [Int.natAbs_pow]
        exact pow_le_one₀ (Nat.zero_le _) hk1
      · exact hk.imp_right fun h => pow_nonneg h m
    exact saturatingMul_clamp_of_mem (hpow n) (hpow n')
  · have hpow {m : ℕ} (hm : 0 < m) : 2 ≤ (k ^ m).natAbs := by
      rw [Int.natAbs_pow]
      exact hk2.trans_le (Nat.le_self_pow (by omega) _)
    rcases Nat.eq_zero_or_pos n with rfl | hn
    · rw [pow_zero, clamp_div_eq_one, one_saturatingMul, one_mul]
    · exact saturatingMul_clamp_of_two_le (hk.imp_right fun h => ⟨pow_nonneg h n, pow_nonneg h n'⟩)
        (hpow hn) (hpow hn')

/-! ## The loop -/

theorem shiftLeft_and_pos_iff (e i : ℕ) : (1 <<< i) &&& e > 0 ↔ e.testBit i := by
  rw [Nat.one_shiftLeft, Nat.and_comm, Nat.and_two_pow]
  cases e.testBit i <;> simp

/-- One round keeps the pair of clamped powers: bit `m` of `e` moves the result from
`k ^ (e % 2^m)` to `k ^ (e % 2^(m+1))`, and the power goes from `k ^ 2^m` to `k ^ 2^(m+1)`. -/
theorem powStep_clamp {k : ℤ} (hk : F.min < 0 ∨ 0 ≤ k) (e m : ℕ) :
    powStep e (clamp F (k ^ (e % 2 ^ m) * F.div), clamp F (k ^ 2 ^ m * F.div)) m =
      (clamp F (k ^ (e % 2 ^ (m + 1)) * F.div), clamp F (k ^ 2 ^ (m + 1) * F.div)) := by
  have hpos : 0 < 2 ^ m := Nat.two_pow_pos m
  have hsq : 2 ^ (m + 1) = 2 ^ m + 2 ^ m := by rw [Nat.pow_succ, Nat.mul_two]
  have hmod : e % 2 ^ (m + 1) = e % 2 ^ m + 2 ^ m * (e / 2 ^ m % 2) := Nat.mod_pow_succ
  unfold powStep
  dsimp only
  congr 1
  · by_cases hbit : e.testBit m
    · -- the bit is set: the power is multiplied in
      have h1 : e / 2 ^ m % 2 = 1 := by rwa [Nat.testBit_eq_decide_div_mod_eq, decide_eq_true_eq] at hbit
      rw [if_pos ((shiftLeft_and_pos_iff e m).mpr hbit), saturatingMul_clamp_pow hk _ hpos, hmod, h1,
        Nat.mul_one]
    · have h0 : e / 2 ^ m % 2 = 0 := by
        rw [Nat.testBit_eq_decide_div_mod_eq, decide_eq_true_eq] at hbit
        omega
      rw [if_neg (fun h => hbit ((shiftLeft_and_pos_iff e m).mp h)), hmod, h0, Nat.mul_zero, Nat.add_zero]
  · rw [hsq, saturatingMul_clamp_pow hk _ hpos]

/-- After `m` rounds the loop holds `k ^ (e % 2^m)` and `k ^ 2^m`, both clamped. -/
theorem foldl_powStep {k : ℤ} (hk : F.min < 0 ∨ 0 ≤ k) (e m : ℕ) :
    (List.range m).foldl (powStep e) (one, clamp F (k * F.div)) =
      (clamp F (k ^ (e % 2 ^ m) * F.div), clamp F (k ^ 2 ^ m * F.div)) := by
  induction m with
  | zero => rw [List.range_zero, List.foldl_nil, Nat.pow_zero, Nat.mod_one, pow_zero, pow_one, clamp_div_eq_one]
  | succ m ih => rw [List.range_succ, List.foldl_append, ih, List.foldl_cons, List.foldl_nil, powStep_clamp hk]

theorem u32LeadingZeros_of_lt {e : ℕ} (h0 : e ≠ 0) (he : e < 2 ^ 32) : 32 - u32LeadingZeros e = e.log2 + 1 := by
  have := (Nat.log2_lt h0).mpr he
  rw [u32LeadingZeros, if_neg h0]
  omega

/-- `saturating_pow` of a value that is the integer `k` is `k` to the power of the exponent's
low 32 bits, clamped to the inner range; for `exp = 0` it is one. -/
theorem saturatingPow_eq_clamp (x : Fixed F) {k : ℤ} (hx : x.inner = k * F.div) (exp : ℕ) :
    x.saturatingPow exp = if exp = 0 then one else clamp F (k ^ (exp % 2 ^ 32) * F.div) := by
  -- an unsigned inner type holds no negative `k`
  have hk : F.min < 0 ∨ 0 ≤ k := by
    rcases lt_or_ge F.min 0 with h | h
    · exact .inl h
    · right
      have := x.min_le
      have hd : (0 : ℤ) < F.div := by exact_mod_cast F.div_pos
      by_contra hneg
      have := Int.mul_neg_of_neg_of_pos (not_le.mp hneg) hd
      omega
  unfold saturatingPow
  split
  · exact saturatingFromInteger_one
  · dsimp only
    rw [saturatingFromInteger_one, ← clamp_inner x, hx]
    by_cases hlow : exp % 2 ^ 32 = 0
    · rw [hlow, pow_zero, clamp_div_eq_one]
      rfl
    · have hlt : exp % 2 ^ 32 < 2 ^ 32 := Nat.mod_lt _ (by decide)
      rw [u32LeadingZeros_of_lt hlow hlt, foldl_powStep hk, Nat.mod_eq_of_lt Nat.lt_log2_self]

/-- Below `2^32` the exponent is not cut: the result is the clamped power. -/
theorem saturatingPow_of_lt (x : Fixed F) {k : ℤ} (hx : x.inner = k * F.div) {exp : ℕ} (he : exp < 2 ^ 32) :
    x.saturatingPow exp = clamp F (k ^ exp * F.div) := by
  rw [saturatingPow_eq_clamp x hx, Nat.mod_eq_of_lt he]
  split
  · rename_i h0
    rw [h0, pow_zero, clamp_div_eq_one]
  · rfl

end Fixed

open Fixed

/-- On a 64-bit target `2^32` is a `usize` whose `u32` cast is zero: `saturating_pow` of two by
it is one, where two to that power, clamped, is the maximum. -/
theorem saturating_pow_drops_high_exp_bits :
    (saturatingFromInteger fixedI64 2).saturatingPow (2 ^ 32) = one ∧
      clamp fixedI64 (2 ^ 2 ^ 32 * fixedI64.div) = maxValue ∧ (one : Fixed fixedI64) ≠ maxValue := by
  refine ⟨?_, ?_, ?_⟩
  · rw [saturatingPow, if_neg (by decide)]
    dsimp only
    rw [Nat.mod_self, u32LeadingZeros, if_pos rfl, Nat.sub_self, List.range_zero, List.foldl_nil]
    exact saturatingFromInteger_one
  · -- `2 ^ 2 ^ 32` is never computed: it is at least `2 ^ 64`
    have hbig : (2 : ℤ) ^ 64 ≤ 2 ^ 2 ^ 32 := pow_le_pow_right₀ (by norm_num) (by norm_num)
    generalize (2 : ℤ) ^ 2 ^ 32 = P at hbig ⊢
    apply ext_inner
    show max fixedI64.min (Min.min (P * 1000000000) fixedI64.max) = fixedI64.max
    have hmax : fixedI64.max = 9223372036854775807 := by decide
    have hmin : fixedI64.min = -9223372036854775808 := by decide
    rw [hmax, hmin]
    omega
  · intro h
    have := congrArg inner h
    simp only [inner_one] at this
    exact absurd this (by decide)

end PolkadotSdk.FixedPoint
