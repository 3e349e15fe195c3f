import PolkadotSdk.Helpers128

/-!
# `overflow_prune_mul` never overflows and rounds exactly

`mul_floor`, `mul_ceil` and `Mul<N>` of a per-thing compute `x * part / ACCURACY` as
`x / ACCURACY * part` plus a correction from the remainder, which `rational_mul_correction`
works out in `P::Upper`. For a per-thing type whose accuracy fits its `Inner` type and whose
`Upper` holds the product of two parts, every step stays in range whatever the width of the
operand type: the remainder is below the accuracy, the correction is at most `part`, and the
result is at most `x` (`overflowPruneMulIn_eq`). That `ACCURACY` and `part` widen into the
operand type is the trait bound `P::Inner: Into<N>`, checked when the source compiles. The
result is the quotient rounded as asked (`overflowPruneMul_eq`), for each of the five
per-thing types of `sp_arithmetic` (`overflowPruneMul_exact`).
-/

namespace PolkadotSdk.PerThings

open Helpers128

theorem mulChecked_of_lt {w a b : ℕ} (h : a * b < 2 ^ w) : mulChecked w a b = some (a * b) := if_pos h

theorem addChecked_of_lt {w a b : ℕ} (h : a + b < 2 ^ w) : addChecked w a b = some (a + b) := if_pos h

theorem divChecked_of_pos {a b : ℕ} (h : 0 < b) : divChecked a b = some (a / b) := if_neg (Nat.pos_iff_ne_zero.mp h)

theorem remChecked_of_pos {a b : ℕ} (h : 0 < b) : remChecked a b = some (a % b) := if_neg (Nat.pos_iff_ne_zero.mp h)

theorem saturatedInto_of_lt {w a : ℕ} (h : a < 2 ^ w) : saturatedInto w a = a := min_eq_left (by omega)

/-- `rational_mul_correction` is `roundedDiv` of the remainder's share. -/
theorem rationalMulCorrection_eq (x numer denom : ℕ) (r : Rounding) :
    rationalMulCorrection x numer denom r = roundedDiv (x % denom * numer) denom r := by
  rw [rationalMulCorrection, roundedDiv, Rounding.bumps_eq_roundsUp]

theorem roundedDiv_mul_add (k n : ℕ) {d : ℕ} (hd : 0 < d) (r : Rounding) :
    roundedDiv (k * d + n) d r = k + roundedDiv n d r := by
  have hdiv : (k * d + n) / d = k + n / d := by
    rw [Nat.add_comm, Nat.add_mul_div_right n k hd, Nat.add_comm]
  have hmod : (k * d + n) % d = n % d := by
    rw [Nat.add_comm, Nat.add_mul_mod_self_right]
  rw [roundedDiv, roundedDiv, hdiv, hmod, Nat.add_assoc]

/-- Pruning the multiple of the accuracy first changes nothing: `overflow_prune_mul` rounds
`x * part / ACCURACY` as a whole. -/
theorem overflowPruneMul_eq {acc : ℕ} (hacc : 0 < acc) (x part : ℕ) (r : Rounding) :
    overflowPruneMul acc x part r = roundedDiv (x * part) acc r := by
  have hsplit : x * part = x / acc * part * acc + x % acc * part := by
    conv_lhs => rw [← Nat.div_add_mod x acc]
    rw [Nat.add_mul, Nat.mul_comm acc (x / acc), Nat.mul_right_comm]
  rw [overflowPruneMul, rationalMulCorrection_eq, hsplit, roundedDiv_mul_add _ _ hacc]

section Rounding

variable {n d : ℕ}

theorem roundedDiv_down_spec (hd : 0 < d) : d * roundedDiv n d .down ≤ n ∧ n < d * roundedDiv n d .down + d := by
  have h := Nat.div_add_mod n d
  have hlt := Nat.mod_lt n hd
  simp only [roundedDiv, roundsUp, Bool.false_eq_true, if_false, Nat.add_zero]
  constructor <;> omega

theorem roundedDiv_up_spec (hd : 0 < d) : n ≤ d * roundedDiv n d .up ∧ d * roundedDiv n d .up < n + d := by
  have h := Nat.div_add_mod n d
  have hlt := Nat.mod_lt n hd
  simp only [roundedDiv, roundsUp, decide_eq_true_eq]
  split
  · -- a remainder raises the quotient by one
    rw [Nat.mul_add]
    constructor <;> omega
  · rw [Nat.add_zero]
    constructor <;> omega

theorem roundedDiv_nearestPrefDown_spec (hd : 0 < d) :
    2 * n ≤ 2 * d * roundedDiv n d .nearestPrefDown + d ∧ 2 * d * roundedDiv n d .nearestPrefDown < 2 * n + d := by
  have h := Nat.div_add_mod n d
  have hlt := Nat.mod_lt n hd
  simp only [roundedDiv, roundsUp, decide_eq_true_eq]
  split
  · -- more than half a divisor left raises the quotient by one
    rw [Nat.mul_add, Nat.mul_assoc]
    constructor <;> omega
  · rw [Nat.add_zero, Nat.mul_assoc]
    constructor <;> omega

end Rounding

/-- The widths of a per-thing type that `overflow_prune_mul` relies on: the accuracy is
positive and fits `Inner`, and `Upper` holds the product of two numbers below it. -/
structure PerThingType.Fits (P : PerThingType) : Prop where
  accuracy_pos : 0 < P.accuracy
  accuracy_lt : P.accuracy < 2 ^ P.innerBits
  product_lt : (P.accuracy - 1) * P.accuracy < 2 ^ P.upperBits

theorem fits_of_mem {P : PerThingType} (hP : P ∈ [percent, perU16, permill, perbill, perquintill]) : P.Fits := by
  simp only [List.mem_cons, List.not_mem_nil, or_false] at hP
  rcases hP with rfl | rfl | rfl | rfl | rfl <;> exact ⟨by decide, by decide, by decide⟩

section Widths

variable {P : PerThingType} (hP : P.Fits)
include hP

/-- Every step of `rational_mul_correction` stays in range for a part at most the accuracy:
the remainder is below the accuracy, its product with the part below `Upper`'s bound, and the
rounded share at most the part. -/
theorem rationalMulCorrectionIn_eq {x part : ℕ} (hpart : part ≤ P.accuracy) (r : Rounding) :
    rationalMulCorrectionIn P x part P.accuracy r = some (rationalMulCorrection x part P.accuracy r) := by
  have hacc := hP.accuracy_pos
  have hrem : x % P.accuracy < P.accuracy := Nat.mod_lt x hacc
  have hprod : x % P.accuracy * part < 2 ^ P.upperBits :=
    lt_of_le_of_lt (Nat.mul_le_mul (by omega) hpart) hP.product_lt
  -- the share of the remainder is below the part, so one more still fits `Inner`
  have hshare : x % P.accuracy * part / P.accuracy < part ∨ x % P.accuracy * part % P.accuracy = 0 := by
    rcases Nat.eq_zero_or_pos part with rfl | hpos
    · simp
    · left
      exact Nat.div_lt_of_lt_mul (Nat.mul_lt_mul_of_pos_right hrem hpos)
  have hdiv_lt : x % P.accuracy * part / P.accuracy < 2 ^ P.innerBits :=
    lt_of_le_of_lt (Nat.div_le_of_le_mul (Nat.mul_le_mul (le_of_lt hrem) hpart)) hP.accuracy_lt
  simp only [rationalMulCorrectionIn, remChecked_of_pos hacc, saturatedInto_of_lt (lt_trans hrem hP.accuracy_lt),
    mulChecked_of_lt hprod, divChecked_of_pos hacc, saturatedInto_of_lt hdiv_lt, Option.bind_eq_bind,
    Option.bind_some, rationalMulCorrection]
  split
  · rename_i hbump
    have hpos : 0 < x % P.accuracy * part % P.accuracy := by
      cases r <;> simp only [Rounding.bumps, decide_eq_true_eq, Bool.false_eq_true] at hbump <;> omega
    have hsum : x % P.accuracy * part / P.accuracy + 1 < 2 ^ P.innerBits := by
      rcases hshare with hlt | hzero
      · have := hP.accuracy_lt
        omega
      · omega
    rw [addChecked_of_lt hsum]
  · rfl

/-- `overflow_prune_mul` never overflows the operand type, and its value is the unbounded one. -/
theorem overflowPruneMulIn_eq {n x part : ℕ} (hx : x < 2 ^ n) (hpart : part ≤ P.accuracy)
    (r : Rounding) : overflowPruneMulIn P n x part r = some (overflowPruneMul P.accuracy x part r) := by
  have hacc := hP.accuracy_pos
  have hq : x / P.accuracy * part ≤ x := calc
    x / P.accuracy * part ≤ x / P.accuracy * P.accuracy := Nat.mul_le_mul_left _ hpart
    _ ≤ x := Nat.div_mul_le_self x P.accuracy
  -- the rounded product is at most `x` because the part is at most the accuracy
  have hle : overflowPruneMul P.accuracy x part r ≤ x := by
    rw [overflowPruneMul_eq hacc]
    exact roundedDiv_le_of_le_mul hacc (by rw [Nat.mul_comm x]; exact Nat.mul_le_mul_right x hpart) r
  simp only [overflowPruneMulIn, rationalMulCorrectionIn_eq hP hpart, divChecked_of_pos hacc,
    mulChecked_of_lt (lt_of_le_of_lt hq hx), Option.bind_eq_bind, Option.bind_some]
  exact addChecked_of_lt (lt_of_le_of_lt hle hx)

end Widths

theorem overflowPruneMul_exact (P : PerThingType) (hP : P ∈ [percent, perU16, permill, perbill, perquintill])
    (n x : ℕ) (hx : x < 2 ^ n)
    (part : ℕ) (hpart : part ≤ P.accuracy) :
    (∃ v, overflowPruneMulIn P n x part .down = some v ∧
      P.accuracy * v ≤ x * part ∧ x * part < P.accuracy * v + P.accuracy) ∧
    (∃ v, overflowPruneMulIn P n x part .up = some v ∧
      x * part ≤ P.accuracy * v ∧ P.accuracy * v < x * part + P.accuracy) ∧
    (∃ v, overflowPruneMulIn P n x part .nearestPrefDown = some v ∧
      2 * (x * part) ≤ 2 * P.accuracy * v + P.accuracy ∧ 2 * P.accuracy * v < 2 * (x * part) + P.accuracy) := by
  have hfits := fits_of_mem hP
  have hacc := hfits.accuracy_pos
  refine ⟨⟨_, overflowPruneMulIn_eq hfits hx hpart .down, ?_⟩,
    ⟨_, overflowPruneMulIn_eq hfits hx hpart .up, ?_⟩,
    ⟨_, overflowPruneMulIn_eq hfits hx hpart .nearestPrefDown, ?_⟩⟩
  · rw [overflowPruneMul_eq hacc]
    exact roundedDiv_down_spec hacc
  · rw [overflowPruneMul_eq hacc]
    exact roundedDiv_up_spec hacc
  · rw [overflowPruneMul_eq hacc]
    exact roundedDiv_nearestPrefDown_spec hacc

/-- `Percent::from_percent(36)` on a `u64` operand of 10: `mul_floor` gives 3, `mul_ceil` 4,
and `Mul` 4, as the source's documentation shows. -/
theorem overflowPruneMul_exact_percent :
    36 ≤ percent.accuracy ∧ (10 : ℕ) < 2 ^ 64 ∧ overflowPruneMulIn percent 64 10 36 .down = some 3 ∧
      overflowPruneMulIn percent 64 10 36 .up = some 4 ∧ overflowPruneMulIn percent 64 10 36 .nearestPrefDown = some 4 := by
  have h := overflowPruneMul_exact percent (by simp) 64 10 (by decide) 36 (by decide)
  refine ⟨by decide, by decide, ?_, ?_, ?_⟩
  · obtain ⟨v, hv, hlo, hhi⟩ := h.1
    rw [hv]
    have : v = 3 := by simp only [percent] at hlo hhi; omega
    rw [this]
  · obtain ⟨v, hv, hlo, hhi⟩ := h.2.1
    rw [hv]
    have : v = 4 := by simp only [percent] at hlo hhi; omega
    rw [this]
  · obtain ⟨v, hv, hlo, hhi⟩ := h.2.2
    rw [hv]
    have : v = 4 := by simp only [percent] at hlo hhi; omega
    rw [this]

end PolkadotSdk.PerThings
